import Alexandria.References.EdgeIds
import Alexandria.Foundations.Lists

/-! # The edges of the links

A document whose frontmatter names no internal note has the edges of its links: one for each path they name but its own, in
the order in which they name them. Whether an extraction succeeds does not depend on the root.
-/

namespace Alexandria.References
set_option autoImplicit false

open Compile

/-! ## Roots -/

theorem normalizeTargetPath_isSome (path root root' : List Char) :
    (normalizeTargetPath path root).isSome = (normalizeTargetPath path root').isSome := by
  simp only [normalizeTargetPath, apply_ite Option.isSome, Option.isSome_none, Option.isSome_some, ite_self]

/-- A root decides where a relation leads, not whether it is accepted. -/
theorem accepted_isSome (root root' : List Char) (frontmatter : FrontmatterEdgeInput) :
    (acceptedEdge root frontmatter).isSome = (acceptedEdge root' frontmatter).isSome := by
  unfold acceptedEdge
  cases frontmatter.targetPath with
  | none => rw [Option.bind_none, Option.bind_none]
  | some rawTargetPath =>
    rw [Option.bind_some, Option.bind_some, Option.isSome_map, Option.isSome_map]
    exact normalizeTargetPath_isSome _ _ _

theorem none_accepted (root root' : List Char) {frontmatterEdges : List FrontmatterEdgeInput}
    (h : frontmatterEdges.filterMap (acceptedEdge root) = []) : frontmatterEdges.filterMap (acceptedEdge root') = [] := by
  rw [List.filterMap_eq_nil_iff] at h ⊢
  intro frontmatter hfrontmatter
  have hsame := accepted_isSome root' root frontmatter
  rw [h frontmatter hfrontmatter] at hsame
  exact Option.not_isSome_iff_eq_none.mp (by rw [hsame]; exact Bool.false_ne_true)

section Links
variable {sha256 : String → String} {linkable : MappedText} {original : OriginalTextIndex}

/-- The path a link names. -/
def capturePath (linkable : MappedText) (root : List Char) (capture : LinkCapture) : Option (List Char) :=
  normalizeTargetPath (Utf8.slice linkable.text capture.target.1 capture.target.2) root

theorem referenceCandidate_ok {root : List Char} {n : ℕ} {capture : LinkCapture} {reference : ReferenceCandidate}
    (h : referenceCandidate linkable original root n capture = .ok reference) :
    reference.normalizedTargetPath = capturePath linkable root capture ∧
      ∀ root' n', ∃ reference', referenceCandidate linkable original root' n' capture = .ok reference' := by
  unfold referenceCandidate at h ⊢
  dsimp only at h ⊢
  cases hrange : linkable.sourceRange (capture.complete.1 - if isEmbed linkable.text capture.complete.1 then 1 else 0)
      capture.complete.2 original with
  | error error =>
    rw [hrange] at h
    cases h
  | ok sourceRange =>
    rw [hrange] at h
    cases h
    exact ⟨rfl, fun root' n' => ⟨_, rfl⟩⟩

/-- The links are read under one state as under any other. -/
theorem extractFrom_succeeds {captures : List LinkCapture} {state : EdgePlanState} (state' : EdgePlanState)
    {references references' : List ReferenceCandidate} {outcome : EdgePlanState × List ReferenceCandidate}
    (hlength : references'.length = references.length)
    (h : state.extractFrom sha256 linkable original references captures = .ok outcome) :
    ∃ outcome', state'.extractFrom sha256 linkable original references' captures = .ok outcome' := by
  induction captures generalizing state state' references references' with
  | nil => exact ⟨_, rfl⟩
  | cons capture rest ih =>
    unfold EdgePlanState.extractFrom at h ⊢
    rw [hlength]
    split at h
    · cases h
    · rename_i hfew
      rw [if_neg hfew]
      split at h
      · cases h
      · rename_i reference hreference
        obtain ⟨reference', hreference'⟩ := (referenceCandidate_ok hreference).2 state'.normalizedRoot references.length
        rw [hreference']
        exact ih _ (by rw [List.length_append, List.length_append, hlength]; rfl) h

/-- Whether a document's extraction succeeds depends on its body alone. -/
theorem extractDocument_succeeds {document : ReferenceDocumentInput} (document' : ReferenceDocumentInput)
    {patterns : ExtractionPatterns} {result : ReferenceDocumentResult} (hbody : document'.body = document.body)
    (h : extractDocument sha256 document patterns = .ok result) :
    ∃ result', extractDocument sha256 document' patterns = .ok result' := by
  unfold extractDocument EdgePlanState.extractBody at h ⊢
  dsimp only at h ⊢
  rw [hbody]
  cases hlinkable : linkableMarkdown document.body patterns with
  | error error =>
    rw [hlinkable] at h
    cases h
  | ok linkable =>
    rw [hlinkable] at h
    dsimp only at h ⊢
    split at h
    · cases h
    · rename_i state references hrun
      obtain ⟨outcome', houtcome⟩ := extractFrom_succeeds ((EdgePlanState.new document'.noteId document'.relativePath
        (normalizeRoot document'.alexandriaRoot)).appendFrontmatter sha256 document'.frontmatterEdges) rfl hrun
      rw [houtcome]
      exact ⟨_, rfl⟩

/-! ## The edges -/

variable {noteId path : String} {root : List Char} {state : EdgePlanState} {inputs : List EdgeCandidateInput}
  {targets : List String}

/-- What the edge of a link is told apart by. -/
def linkKey (target : String) : EdgeKey := (target, "wikilink", .wikilink, none)

theorem linkKey_inj {target target' : String} (h : linkKey target = linkKey target') : target = target' :=
  congrArg Prod.fst h

/-- The identity of an edge, from what it is told apart by. -/
def keyMaterial (noteId path : String) (key : EdgeKey) : String :=
  String.intercalate "|" [noteId, path, key.2.2.2.getD "", key.1, key.2.1, key.2.2.1.tag]

theorem identityMaterial_key (noteId path : String) (input : EdgeCandidateInput) :
    identityMaterial noteId path input = keyMaterial noteId path input.key := rfl

theorem linkMaterial_inj {target target' : String}
    (h : keyMaterial noteId path (linkKey target) = keyMaterial noteId path (linkKey target')) : target = target' := by
  have hkey : ∀ text : String, (bodyEdge text.toList 0).key = linkKey text := fun text => by
    rw [bodyEdge, String.ofList_toList]
    rfl
  rw [← hkey, ← hkey, ← identityMaterial_key, ← identityMaterial_key] at h
  have hsame := bodyEdge_key (identityMaterial_inj h).2
  rw [hkey, hkey] at hsame
  exact linkKey_inj hsame

/-- The planned inputs are the edges of these targets. -/
def LinksTo (inputs : List EdgeCandidateInput) (targets : List String) : Prop :=
  inputs.map EdgeCandidateInput.key = targets.eraseDups.map linkKey

/-- The paths that one link adds. -/
def ownTargets (path : String) (target : Option (List Char)) : List String :=
  (target.map String.ofList).toList.filter fun targetPath => targetPath ≠ path

theorem Planned.linkTo (h : Planned sha256 noteId path root state inputs) (hlinks : LinksTo inputs targets)
    (normalizedTargetPath : Option (List Char)) (sourceRange : ReferenceSourceRange) (referenceIndex : ℕ) :
    ∃ inputs', Planned sha256 noteId path root
        (state.appendBodyEdge sha256 normalizedTargetPath sourceRange referenceIndex) inputs' ∧
      LinksTo inputs' (targets ++ ownTargets path normalizedTargetPath) := by
  unfold EdgePlanState.appendBodyEdge ownTargets
  cases normalizedTargetPath with
  | none =>
    rw [Option.map_none, Option.toList_none, List.filter_nil, List.append_nil]
    exact ⟨inputs, h.warn _, hlinks⟩
  | some target =>
    dsimp only
    rw [h.sourcePath, Option.map_some, Option.toList_some]
    by_cases hown : String.ofList target = path
    · rw [if_pos hown, List.filter_cons_of_neg (by simpa using hown), List.filter_nil, List.append_nil]
      exact ⟨inputs, h, hlinks⟩
    · rw [if_neg hown, List.filter_cons_of_pos (by simpa using hown), List.filter_nil]
      have hkey : (bodyEdge target referenceIndex).key ∈ inputs.map EdgeCandidateInput.key ↔
          String.ofList target ∈ targets := by
        rw [hlinks, List.mem_map]
        constructor
        · rintro ⟨other, hother, hsame⟩
          have htarget : other = String.ofList target := linkKey_inj hsame
          exact htarget ▸ List.mem_eraseDups.mp hother
        · exact fun htarget => ⟨_, List.mem_eraseDups.mpr htarget, rfl⟩
      by_cases htarget : String.ofList target ∈ targets
      · refine ⟨inputs, h.pushEdge_known (hkey.mpr htarget), ?_⟩
        rw [LinksTo, Lists.eraseDups_concat, if_pos htarget]
        exact hlinks
      · refine ⟨_, h.pushEdge_new fun hmem => htarget (hkey.mp hmem), ?_⟩
        rw [LinksTo, Lists.eraseDups_concat, if_neg htarget, List.map_append, List.map_append, hlinks]
        rfl

theorem Planned.linksTo {captures : List LinkCapture} {references : List ReferenceCandidate}
    {outcome : EdgePlanState × List ReferenceCandidate} (h : Planned sha256 noteId path root state inputs)
    (hlinks : LinksTo inputs targets)
    (hrun : state.extractFrom sha256 linkable original references captures = .ok outcome) :
    ∃ inputs', Planned sha256 noteId path root outcome.1 inputs' ∧
      LinksTo inputs' (targets ++ captures.flatMap fun capture => ownTargets path (capturePath linkable root capture)) := by
  induction captures generalizing state inputs targets references with
  | nil =>
    cases hrun
    exact ⟨inputs, h, by rwa [List.flatMap_nil, List.append_nil]⟩
  | cons capture rest ih =>
    unfold EdgePlanState.extractFrom at hrun
    split at hrun
    · cases hrun
    · split at hrun
      · cases hrun
      · rename_i reference hreference
        obtain ⟨inputs', hplanned, hlinked⟩ :=
          h.linkTo hlinks reference.normalizedTargetPath reference.sourceRange references.length
        rw [(referenceCandidate_ok hreference).1, h.normalizedRoot] at hlinked
        rw [List.flatMap_cons, ← List.append_assoc]
        exact ih hplanned hlinked hrun

/-- The paths that the links of a body name, but the note's own. -/
def linkTargets (patterns : ExtractionPatterns) (path : String) (root body : List Char) : List String :=
  match linkableMarkdown body patterns with
  | .error _ => []
  | .ok linkable =>
    ((patterns.wikilink linkable.text).flatMap fun capture =>
      ownTargets path (capturePath linkable (normalizeRoot root) capture)).eraseDups

theorem planned_links {document : ReferenceDocumentInput} {patterns : ExtractionPatterns}
    {result : ReferenceDocumentResult} (hrun : extractDocument sha256 document patterns = .ok result)
    (hnone : document.frontmatterEdges.filterMap (acceptedEdge (normalizeRoot document.alexandriaRoot)) = []) :
    ∃ inputs : List EdgeCandidateInput,
      result.edges = inputs.map (edgeCandidate sha256 document.noteId document.relativePath) ∧
        inputs.map EdgeCandidateInput.key =
          (linkTargets patterns document.relativePath document.alexandriaRoot document.body).map linkKey := by
  obtain ⟨relations, hrelations, hfrom, -⟩ := (planned_new sha256 document.noteId document.relativePath
    (normalizeRoot document.alexandriaRoot)).appendFrontmatter document.frontmatterEdges
  have hempty : relations = [] := by
    rw [hnone] at hfrom
    exact List.eq_nil_iff_forall_not_mem.mpr fun a ha => List.not_mem_nil (hfrom a ha)
  rw [hempty, List.append_nil] at hrelations
  unfold extractDocument EdgePlanState.extractBody at hrun
  unfold linkTargets
  dsimp only at hrun
  cases hlinkable : linkableMarkdown document.body patterns with
  | error error =>
    rw [hlinkable] at hrun
    cases hrun
  | ok linkable =>
    rw [hlinkable] at hrun
    dsimp only at hrun ⊢
    split at hrun
    · cases hrun
    · rename_i state references hbody
      cases hrun
      have hnothing : LinksTo [] [] := rfl
      obtain ⟨inputs, hplanned, hlinks⟩ := hrelations.linksTo hnothing hbody
      exact ⟨inputs, hplanned.edges, hlinks⟩

end Links

end Alexandria.References
