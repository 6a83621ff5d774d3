import Alexandria.References.Extraction

/-! # The ids of the edges

An edge is told apart by its path, relation, kind and target note; its id is the digest of these joined by bars, without a
difference between no target note and an empty one. So ids coincide just where the joined texts do.
-/

namespace Alexandria.References
set_option autoImplicit false

open Compile

/-! ## What is joined -/

def EdgeCandidate.key (edge : EdgeCandidate) : EdgeKey :=
  (edge.targetPath, edge.relation, edge.sourceKind, edge.targetNoteId)

/-- The part of the identity that edges of one note and one kind differ in. -/
def targetText (input : EdgeCandidateInput) : String :=
  input.targetNoteId.getD "" ++ "|" ++ input.targetPath ++ "|" ++ input.relation

theorem identityMaterial_eq (noteId path : String) (input : EdgeCandidateInput) :
    (identityMaterial noteId path input).toList =
      (noteId ++ "|" ++ path ++ "|").toList ++ ((targetText input).toList ++ ("|" ++ input.sourceKind.tag).toList) := by
  have hjoin : identityMaterial noteId path input =
      noteId ++ "|" ++ path ++ "|" ++ input.targetNoteId.getD "" ++ "|" ++ input.targetPath ++ "|" ++ input.relation ++
        "|" ++ input.sourceKind.tag := rfl
  rw [hjoin, targetText]
  simp only [String.toList_append, List.append_assoc]

/-- Edges of one note with the same identity are of the same kind and have the same target text. -/
theorem identityMaterial_inj {noteId path : String} {a b : EdgeCandidateInput}
    (h : identityMaterial noteId path a = identityMaterial noteId path b) :
    a.sourceKind = b.sourceKind ∧ targetText a = targetText b := by
  have hlist := congrArg String.toList h
  rw [identityMaterial_eq, identityMaterial_eq, List.append_cancel_left_eq] at hlist
  have hkind : a.sourceKind = b.sourceKind := by
    have hlast := congrArg List.getLast? hlist
    cases ha : a.sourceKind <;> cases hb : b.sourceKind <;> try rfl
    · rw [ha, hb] at hlast
      simp [EdgeSourceKind.tag, List.getLast?_append] at hlast
    · rw [ha, hb] at hlast
      simp [EdgeSourceKind.tag, List.getLast?_append] at hlast
  rw [hkind, List.append_cancel_right_eq] at hlist
  exact ⟨hkind, String.toList_inj.mp hlist⟩

theorem identityMaterial_congr (noteId path : String) {a b : EdgeCandidateInput} (hkind : a.sourceKind = b.sourceKind)
    (htext : targetText a = targetText b) : identityMaterial noteId path a = identityMaterial noteId path b := by
  apply String.toList_inj.mp
  rw [identityMaterial_eq, identityMaterial_eq, hkind, htext]

/-! ## The plan of a document -/

section Plan
variable {sha256 : String → String} {state : EdgePlanState} {inputs : List EdgeCandidateInput}

/-- The state has planned the edges of these inputs. -/
structure Planned (sha256 : String → String) (noteId path : String) (root : List Char) (state : EdgePlanState)
    (inputs : List EdgeCandidateInput) : Prop where
  sourceNoteId : state.sourceNoteId = noteId
  sourcePath : state.sourcePath = path
  normalizedRoot : state.normalizedRoot = root
  edges : state.edges = inputs.map (edgeCandidate sha256 noteId path)
  seen : ∀ key, key ∈ state.seen ↔ key ∈ inputs.map EdgeCandidateInput.key
  distinct : (inputs.map EdgeCandidateInput.key).Nodup

variable {noteId path : String} {root : List Char}

theorem planned_new (sha256 : String → String) (noteId path : String) (root : List Char) :
    Planned sha256 noteId path root (.new noteId path root) [] :=
  ⟨rfl, rfl, rfl, rfl, fun _ => Iff.rfl, List.nodup_nil⟩

theorem Planned.warn (h : Planned sha256 noteId path root state inputs) (warning : ExtractionWarning) :
    Planned sha256 noteId path root (state.warn warning) inputs :=
  ⟨h.sourceNoteId, h.sourcePath, h.normalizedRoot, h.edges, h.seen, h.distinct⟩

theorem Planned.pushEdge_known (h : Planned sha256 noteId path root state inputs) {input : EdgeCandidateInput}
    (hknown : input.key ∈ inputs.map EdgeCandidateInput.key) :
    Planned sha256 noteId path root (state.pushEdge sha256 input) inputs := by
  rw [EdgePlanState.pushEdge, if_pos ((h.seen _).mpr hknown)]
  exact h

theorem Planned.pushEdge_new (h : Planned sha256 noteId path root state inputs) {input : EdgeCandidateInput}
    (hnew : input.key ∉ inputs.map EdgeCandidateInput.key) :
    Planned sha256 noteId path root (state.pushEdge sha256 input) (inputs ++ [input]) := by
  rw [EdgePlanState.pushEdge, if_neg fun hseen => hnew ((h.seen _).mp hseen)]
  refine ⟨h.sourceNoteId, h.sourcePath, h.normalizedRoot, ?_, fun key => ?_, ?_⟩
  · rw [List.map_append, h.edges, h.sourceNoteId, h.sourcePath]
    rfl
  · rw [List.mem_cons, h.seen key, List.map_append, List.mem_append, or_comm]
    simp
  · rw [List.map_append, List.nodup_append]
    refine ⟨h.distinct, List.nodup_singleton _, fun key hkey other hother => ?_⟩
    rw [List.map_singleton, List.mem_singleton] at hother
    rintro rfl
    exact hnew (hother ▸ hkey)

/-- An edge that is pushed is planned at the end, unless one like it is planned already. -/
theorem Planned.pushEdge (h : Planned sha256 noteId path root state inputs) (input : EdgeCandidateInput) :
    ∃ added, Planned sha256 noteId path root (state.pushEdge sha256 input) (inputs ++ added) ∧ (∀ a ∈ added, a = input) ∧
      input.key ∈ (inputs ++ added).map EdgeCandidateInput.key := by
  by_cases hknown : input.key ∈ inputs.map EdgeCandidateInput.key
  · refine ⟨[], ?_, fun a ha => absurd ha List.not_mem_nil, ?_⟩
    · rw [List.append_nil]
      exact h.pushEdge_known hknown
    · rw [List.append_nil]
      exact hknown
  · exact ⟨[input], h.pushEdge_new hknown, fun a ha => List.mem_singleton.mp ha, by simp⟩

/-- The relation of the frontmatter with its path, when that is accepted. -/
def acceptedEdge (root : List Char) (frontmatter : FrontmatterEdgeInput) : Option EdgeCandidateInput :=
  frontmatter.targetPath.bind fun rawTargetPath =>
    (normalizeTargetPath rawTargetPath.toList root).map (frontmatterEdge frontmatter)

theorem acceptedEdge_of {root : List Char} {frontmatter : FrontmatterEdgeInput} {rawTargetPath : String}
    {targetPath : List Char} (hraw : frontmatter.targetPath = some rawTargetPath)
    (hpath : normalizeTargetPath rawTargetPath.toList root = some targetPath) :
    acceptedEdge root frontmatter = some (frontmatterEdge frontmatter targetPath) := by
  rw [acceptedEdge, hraw, Option.bind_some, hpath, Option.map_some]

/-- A relation of the frontmatter is planned when it is accepted. -/
theorem Planned.appendFrontmatterEdge (h : Planned sha256 noteId path root state inputs)
    (frontmatter : FrontmatterEdgeInput) :
    ∃ added, Planned sha256 noteId path root (state.appendFrontmatterEdge sha256 frontmatter) (inputs ++ added) ∧
      (∀ a ∈ added, a ∈ acceptedEdge root frontmatter) ∧
      ∀ a ∈ acceptedEdge root frontmatter, a.key ∈ (inputs ++ added).map EdgeCandidateInput.key := by
  have hnothing : ∀ {after}, Planned sha256 noteId path root after inputs → acceptedEdge root frontmatter = none →
      ∃ added, Planned sha256 noteId path root after (inputs ++ added) ∧ (∀ a ∈ added, a ∈ acceptedEdge root frontmatter) ∧
        ∀ a ∈ acceptedEdge root frontmatter, a.key ∈ (inputs ++ added).map EdgeCandidateInput.key := by
    intro after hafter haccepted
    refine ⟨[], by rwa [List.append_nil], by simp, fun a ha => ?_⟩
    rw [haccepted] at ha
    cases ha
  unfold EdgePlanState.appendFrontmatterEdge
  cases hraw : frontmatter.targetPath with
  | none => exact hnothing h (by rw [acceptedEdge, hraw]; rfl)
  | some rawTargetPath =>
    dsimp only
    rw [h.normalizedRoot]
    cases hpath : normalizeTargetPath rawTargetPath.toList root with
    | none => exact hnothing (h.warn _) (by rw [acceptedEdge, hraw, Option.bind_some, hpath, Option.map_none])
    | some targetPath =>
      have haccepted := acceptedEdge_of hraw hpath
      obtain ⟨added, hadded, hown, hkey⟩ := h.pushEdge (frontmatterEdge frontmatter targetPath)
      refine ⟨added, hadded, fun a ha => ?_, fun a ha => ?_⟩
      · rw [haccepted, hown a ha]
        rfl
      · rw [haccepted] at ha
        cases ha
        exact hkey

/-- The accepted relations of the frontmatter are planned, each once. -/
theorem Planned.appendFrontmatter (h : Planned sha256 noteId path root state inputs)
    (frontmatterEdges : List FrontmatterEdgeInput) :
    ∃ added, Planned sha256 noteId path root (state.appendFrontmatter sha256 frontmatterEdges) (inputs ++ added) ∧
      (∀ a ∈ added, a ∈ frontmatterEdges.filterMap (acceptedEdge root)) ∧
      ∀ a ∈ frontmatterEdges.filterMap (acceptedEdge root), a.key ∈ (inputs ++ added).map EdgeCandidateInput.key := by
  unfold EdgePlanState.appendFrontmatter
  induction frontmatterEdges generalizing state inputs with
  | nil => exact ⟨[], by rwa [List.append_nil], by simp, by simp⟩
  | cons frontmatter rest ih =>
    obtain ⟨own, hplanned, hown, hkey⟩ := h.appendFrontmatterEdge frontmatter
    obtain ⟨added, hadded, hfrom, hall⟩ := ih hplanned
    refine ⟨own ++ added, by rwa [← List.append_assoc], fun a ha => ?_, fun a ha => ?_⟩
    · obtain ha | ha := List.mem_append.mp ha
      · exact List.mem_filterMap.mpr ⟨frontmatter, List.mem_cons_self, hown a ha⟩
      · obtain ⟨other, hother, haccepted⟩ := List.mem_filterMap.mp (hfrom a ha)
        exact List.mem_filterMap.mpr ⟨other, List.mem_cons_of_mem _ hother, haccepted⟩
    · rw [← List.append_assoc]
      obtain ⟨other, hother, haccepted⟩ := List.mem_filterMap.mp ha
      obtain rfl | hother := List.mem_cons.mp hother
      · rw [List.map_append]
        exact List.mem_append_left _ (hkey a haccepted)
      · exact hall a (List.mem_filterMap.mpr ⟨other, hother, haccepted⟩)

/-- The links of the body are planned with their own kind. -/
theorem Planned.appendBodyEdge (h : Planned sha256 noteId path root state inputs)
    (normalizedTargetPath : Option (List Char)) (sourceRange : ReferenceSourceRange) (referenceIndex : ℕ) :
    ∃ added, Planned sha256 noteId path root
        (state.appendBodyEdge sha256 normalizedTargetPath sourceRange referenceIndex) (inputs ++ added) ∧
      ∀ a ∈ added, ∃ targetPath index, a = bodyEdge targetPath index := by
  unfold EdgePlanState.appendBodyEdge
  split
  · exact ⟨[], by rw [List.append_nil]; exact h.warn _, by simp⟩
  · split
    · exact ⟨[], by rwa [List.append_nil], by simp⟩
    · obtain ⟨added, hadded, hown, -⟩ := h.pushEdge (bodyEdge _ referenceIndex)
      exact ⟨added, hadded, fun a ha => ⟨_, _, hown a ha⟩⟩

theorem Planned.extractFrom {linkable : MappedText} {original : OriginalTextIndex} {references : List ReferenceCandidate}
    {captures : List LinkCapture} {outcome : EdgePlanState × List ReferenceCandidate}
    (h : Planned sha256 noteId path root state inputs)
    (hrun : state.extractFrom sha256 linkable original references captures = .ok outcome) :
    ∃ added, Planned sha256 noteId path root outcome.1 (inputs ++ added) ∧
      ∀ a ∈ added, ∃ targetPath index, a = bodyEdge targetPath index := by
  induction captures generalizing state inputs references with
  | nil =>
    cases hrun
    exact ⟨[], by rwa [List.append_nil], by simp⟩
  | cons capture rest ih =>
    unfold EdgePlanState.extractFrom at hrun
    split at hrun
    · cases hrun
    · split at hrun
      · cases hrun
      · rename_i reference _
        obtain ⟨pushed, hpushed, hbody⟩ :=
          h.appendBodyEdge reference.normalizedTargetPath reference.sourceRange references.length
        obtain ⟨added, hadded, hbody'⟩ := ih hpushed hrun
        refine ⟨pushed ++ added, by rwa [← List.append_assoc], fun a ha => ?_⟩
        obtain ha | ha := List.mem_append.mp ha
        · exact hbody a ha
        · exact hbody' a ha

/-- A document's edges come from its accepted relations and its links. -/
theorem planned_document {document : ReferenceDocumentInput} {patterns : ExtractionPatterns}
    {result : ReferenceDocumentResult} (hrun : extractDocument sha256 document patterns = .ok result) :
    ∃ relations links : List EdgeCandidateInput, result.edges =
        (relations ++ links).map (edgeCandidate sha256 document.noteId document.relativePath) ∧
      ((relations ++ links).map EdgeCandidateInput.key).Nodup ∧
      (∀ a ∈ relations, a ∈ document.frontmatterEdges.filterMap (acceptedEdge (normalizeRoot document.alexandriaRoot))) ∧
      (∀ a ∈ document.frontmatterEdges.filterMap (acceptedEdge (normalizeRoot document.alexandriaRoot)),
        a.key ∈ relations.map EdgeCandidateInput.key) ∧
      ∀ a ∈ links, ∃ targetPath index, a = bodyEdge targetPath index := by
  unfold extractDocument at hrun
  dsimp only at hrun
  obtain ⟨relations, hrelations, hfrom, hall⟩ :=
    (planned_new sha256 document.noteId document.relativePath
      (normalizeRoot document.alexandriaRoot)).appendFrontmatter document.frontmatterEdges
  rw [List.nil_append] at hrelations hall
  split at hrun
  · cases hrun
  · rename_i state references hbody
    cases hrun
    unfold EdgePlanState.extractBody at hbody
    split at hbody
    · cases hbody
    · obtain ⟨links, hlinks, hkinds⟩ := hrelations.extractFrom hbody
      exact ⟨relations, links, hlinks.edges, hlinks.distinct, hfrom, hall, hkinds⟩

theorem acceptedEdge_kind {frontmatterEdges : List FrontmatterEdgeInput} {a : EdgeCandidateInput}
    (ha : a ∈ frontmatterEdges.filterMap (acceptedEdge root)) : a.sourceKind = .frontmatter := by
  obtain ⟨frontmatter, -, haccepted⟩ := List.mem_filterMap.mp ha
  obtain ⟨rawTargetPath, -, hpath⟩ := Option.bind_eq_some_iff.mp haccepted
  obtain ⟨targetPath, -, rfl⟩ := Option.map_eq_some_iff.mp hpath
  rfl

theorem targetText_of_key {a b : EdgeCandidateInput} (h : a.key = b.key) :
    a.sourceKind = b.sourceKind ∧ targetText a = targetText b := by
  obtain ⟨hpath, hrelation, hkind, hnote⟩ : a.targetPath = b.targetPath ∧ a.relation = b.relation ∧
      a.sourceKind = b.sourceKind ∧ a.targetNoteId = b.targetNoteId := by
    simpa [EdgeCandidateInput.key] using h
  rw [targetText, targetText, hpath, hrelation, hnote]
  exact ⟨hkind, rfl⟩

/-- Links are told apart by their path alone. -/
theorem bodyEdge_key {targetPath targetPath' : List Char} {index index' : ℕ}
    (h : targetText (bodyEdge targetPath index) = targetText (bodyEdge targetPath' index')) :
    (bodyEdge targetPath index).key = (bodyEdge targetPath' index').key := by
  have hlist := congrArg String.toList h
  simp only [targetText, bodyEdge, Option.getD_none, String.toList_append, List.append_assoc, String.toList_ofList,
    List.append_cancel_left_eq, List.append_cancel_right_eq] at hlist
  rw [hlist]
  rfl

theorem edgeKeys_nodup {document : ReferenceDocumentInput} {patterns : ExtractionPatterns}
    {result : ReferenceDocumentResult} (hrun : extractDocument sha256 document patterns = .ok result) :
    (result.edges.map EdgeCandidate.key).Nodup := by
  obtain ⟨relations, links, hedges, hdistinct, -⟩ := planned_document hrun
  rw [hedges, List.map_map]
  exact hdistinct

/-- Accepted relations that read the same share their id, whatever the digest. -/
theorem targetTexts_of_edgeIds {document : ReferenceDocumentInput} {patterns : ExtractionPatterns}
    {result : ReferenceDocumentResult} (hrun : extractDocument sha256 document patterns = .ok result)
    (hnodup : (result.edges.map (·.edgeId)).Nodup) :
    ∀ a ∈ document.frontmatterEdges.filterMap (acceptedEdge (normalizeRoot document.alexandriaRoot)),
      ∀ b ∈ document.frontmatterEdges.filterMap (acceptedEdge (normalizeRoot document.alexandriaRoot)),
        targetText a = targetText b → a.key = b.key := by
  intro a ha b hb htext
  obtain ⟨relations, links, hedges, -, hfrom, hall, -⟩ := planned_document hrun
  rw [hedges, List.map_map] at hnodup
  obtain ⟨a', ha', hakey⟩ := List.mem_map.mp (hall a ha)
  obtain ⟨b', hb', hbkey⟩ := List.mem_map.mp (hall b hb)
  obtain ⟨hakind, hatext⟩ := targetText_of_key hakey
  obtain ⟨hbkind, hbtext⟩ := targetText_of_key hbkey
  have hkind : a'.sourceKind = b'.sourceKind := by
    rw [hakind, hbkind, acceptedEdge_kind ha, acceptedEdge_kind hb]
  have hmaterial := identityMaterial_congr document.noteId document.relativePath hkind
    (hatext.trans (htext.trans hbtext.symm))
  have hsame := List.inj_on_of_nodup_map hnodup (List.mem_append_left links ha') (List.mem_append_left links hb')
    (congrArg sha256 hmaterial)
  rw [← hakey, ← hbkey, hsame]

/-- Under a digest without collisions, the edges of a document have different ids just where no two of its accepted
relations that differ in note, path or relation read the same once these are joined. -/
theorem edgeIds_distinct_iff (hdigest : Function.Injective sha256) {document : ReferenceDocumentInput}
    {patterns : ExtractionPatterns} {result : ReferenceDocumentResult}
    (hrun : extractDocument sha256 document patterns = .ok result) :
    ((result.edges.map (·.edgeId)).Nodup ∧ (result.edges.map EdgeCandidate.key).Nodup) ↔
      ∀ a ∈ document.frontmatterEdges.filterMap (acceptedEdge (normalizeRoot document.alexandriaRoot)),
        ∀ b ∈ document.frontmatterEdges.filterMap (acceptedEdge (normalizeRoot document.alexandriaRoot)),
          targetText a = targetText b → a.key = b.key := by
  refine ⟨fun h => targetTexts_of_edgeIds hrun h.1, fun hcondition => ⟨?_, edgeKeys_nodup hrun⟩⟩
  obtain ⟨relations, links, hedges, hdistinct, hfrom, -, hlinks⟩ := planned_document hrun
  rw [hedges, List.map_map]
  refine List.Nodup.map_on (fun x hx y hy hid => ?_) (List.Nodup.of_map _ hdistinct)
  obtain ⟨hkind, htext⟩ := identityMaterial_inj (hdigest hid)
  refine List.inj_on_of_nodup_map hdistinct hx hy ?_
  obtain hx | hx := List.mem_append.mp hx <;> obtain hy | hy := List.mem_append.mp hy
  · exact hcondition x (hfrom x hx) y (hfrom y hy) htext
  · obtain ⟨targetPath, index, rfl⟩ := hlinks y hy
    rw [acceptedEdge_kind (hfrom x hx)] at hkind
    cases hkind
  · obtain ⟨targetPath, index, rfl⟩ := hlinks x hx
    rw [acceptedEdge_kind (hfrom y hy)] at hkind
    cases hkind
  · obtain ⟨targetPath, index, rfl⟩ := hlinks x hx
    obtain ⟨targetPath', index', rfl⟩ := hlinks y hy
    exact bodyEdge_key htext

end Plan

/-! ## A bar in a path -/

/-- Regexes that find nothing. -/
def quietPatterns : ExtractionPatterns where
  htmlComment _ := []
  obsidianComment _ := []
  inlineCode _ := .ok []
  wikilink _ := []
  htmlComment_matches _ := ⟨.nil, by simp⟩
  obsidianComment_matches _ := ⟨.nil, by simp⟩
  inlineCode_matches _ _ h := by
    cases h
    exact ⟨.nil, by simp⟩
  wikilink_matches _ := ⟨.nil, by simp⟩
  wikilink_brackets _ := by simp

/-- A relation with a bar in its path, and two without. -/
def barredRelation : FrontmatterEdgeInput :=
  ⟨some "B|Alexandria/C.md", some "A", "cites", "source_refs", by decide, by decide⟩

def joinedRelation : FrontmatterEdgeInput :=
  ⟨some "C.md", some "A|Alexandria/B", "cites", "source_refs", by decide, by decide⟩

def plainRelation : FrontmatterEdgeInput :=
  ⟨some "C.md", none, "cites", "source_refs", by decide, by decide⟩

theorem barredRelation_accepted : acceptedEdge "Alexandria".toList barredRelation =
    some ⟨some "A", "Alexandria/B|Alexandria/C.md", "cites", .frontmatter, fullConfidence, none⟩ := by
  have hpath : normalizeTargetPath "B|Alexandria/C.md".toList "Alexandria".toList =
      some "Alexandria/B|Alexandria/C.md".toList := by decide
  rw [acceptedEdge_of rfl hpath, frontmatterEdge, String.ofList_toList]
  rfl

theorem plainPath_normalized :
    normalizeTargetPath "C.md".toList "Alexandria".toList = some "Alexandria/C.md".toList := by decide

theorem joinedRelation_accepted : acceptedEdge "Alexandria".toList joinedRelation =
    some ⟨some "A|Alexandria/B", "Alexandria/C.md", "cites", .frontmatter, fullConfidence, none⟩ := by
  rw [acceptedEdge_of rfl plainPath_normalized, frontmatterEdge, String.ofList_toList]
  rfl

theorem plainRelation_accepted : acceptedEdge "Alexandria".toList plainRelation =
    some ⟨none, "Alexandria/C.md", "cites", .frontmatter, fullConfidence, none⟩ := by
  rw [acceptedEdge_of rfl plainPath_normalized, frontmatterEdge, String.ofList_toList]
  rfl

/-- Two relations to different notes at different paths. -/
def barredDocument : ReferenceDocumentInput where
  noteId := "current"
  relativePath := "Alexandria/Contexts/Current.md"
  alexandriaRoot := "Alexandria".toList
  body := []
  frontmatterEdges := [barredRelation, joinedRelation]
  bounded := by decide
  few := by decide

theorem normalizeRoot_plain : normalizeRoot "Alexandria".toList = "Alexandria".toList := by decide

theorem barredDocument_ids : ∃ result, extractDocument id barredDocument quietPatterns = .ok result ∧
    (result.edges.map EdgeCandidate.key).Nodup ∧ ¬ (result.edges.map (·.edgeId)).Nodup := by
  have hrun : ∃ result, extractDocument id barredDocument quietPatterns = .ok result := ⟨_, rfl⟩
  obtain ⟨result, hrun⟩ := hrun
  refine ⟨result, hrun, edgeKeys_nodup hrun, fun hnodup => ?_⟩
  have htexts := targetTexts_of_edgeIds hrun hnodup
  rw [barredDocument, normalizeRoot_plain, List.filterMap_cons_some barredRelation_accepted,
    List.filterMap_cons_some joinedRelation_accepted] at htexts
  exact absurd (htexts _ List.mem_cons_self _ (List.mem_cons_of_mem _ List.mem_cons_self) (by decide)) (by decide)

/-- A single relation. -/
def citingDocument : ReferenceDocumentInput :=
  { barredDocument with
    frontmatterEdges := [plainRelation]
    few := by decide }

theorem edgeIds_distinct_citing : ∃ result, extractDocument id citingDocument quietPatterns = .ok result ∧
    (result.edges.map (·.edgeId)).Nodup ∧ (result.edges.map EdgeCandidate.key).Nodup := by
  have hrun : ∃ result, extractDocument id citingDocument quietPatterns = .ok result := ⟨_, rfl⟩
  obtain ⟨result, hrun⟩ := hrun
  refine ⟨result, hrun, (edgeIds_distinct_iff Function.injective_id hrun).mpr ?_⟩
  rw [citingDocument, barredDocument, normalizeRoot_plain, List.filterMap_cons_some plainRelation_accepted, List.filterMap_nil]
  simp

end Alexandria.References
