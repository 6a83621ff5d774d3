import Alexandria.Compile.Incremental
import Alexandria.References.LinkEdges

/-! # Provided chunks and edges

A caller may hand over the chunks and edges of its documents instead of letting the planner compute them. The planner then
calls every edge a wikilink, and its own extraction knows the root `Alexandria` alone: so the two plans agree just for
documents without accepted relations whose links name the same paths under both roots.
-/

namespace Alexandria.Compile
set_option autoImplicit false

/-! ## The extraction of one document -/

/-- One document through `extract_reference_batch`. -/
def referenceBatch (sha256 : String → String) (patterns : References.ExtractionPatterns)
    (noteId relativePath root body : String) (seeds : List CompileEdgeSeedInput) : Except String (List EdgeCandidate) := do
  let frontmatterEdges ← seeds.mapM fun seed =>
    References.FrontmatterEdgeInput.new seed.targetPath seed.targetNoteId seed.relation seed.sourceField
  let document ← References.ReferenceDocumentInput.new noteId relativePath root.toList body.toList frontmatterEdges
  match References.extractDocument sha256 document patterns with
  | .error error => .error error.message
  | .ok result => .ok result.edges

/-- The planner with the reference extractor plugged in. -/
def Authorities.extracting (A : Authorities) (patterns : References.ExtractionPatterns) : Authorities :=
  { A with extractReferenceBatch := referenceBatch A.sha256Text patterns }

theorem extracting_batch (A : Authorities) (patterns : References.ExtractionPatterns) :
    (A.extracting patterns).extractReferenceBatch = referenceBatch A.sha256Text patterns := rfl

/-- No relation of the document is accepted. -/
def NoneAccepted (root : List Char) (seeds : List CompileEdgeSeedInput) : Prop :=
  ∀ seed ∈ seeds, ∀ target ∈ seed.targetPath, References.normalizeTargetPath target.toList root = none

section Extraction
variable {sha256 : String → String} {patterns : References.ExtractionPatterns} {noteId relativePath root body : String}
  {seeds : List CompileEdgeSeedInput} {edges : List EdgeCandidate}

theorem frontmatterEdge_new {seed : CompileEdgeSeedInput} {frontmatter : References.FrontmatterEdgeInput}
    (h : References.FrontmatterEdgeInput.new seed.targetPath seed.targetNoteId seed.relation seed.sourceField =
      .ok frontmatter) : frontmatter.targetPath = seed.targetPath := by
  unfold References.FrontmatterEdgeInput.new at h
  split at h
  · cases h
  · split at h <;> cases h
    rfl

theorem acceptedEdge_eq_none {root : List Char} {frontmatter : References.FrontmatterEdgeInput} :
    References.acceptedEdge root frontmatter = none ↔
      ∀ target ∈ frontmatter.targetPath, References.normalizeTargetPath target.toList root = none := by
  unfold References.acceptedEdge
  cases frontmatter.targetPath with
  | none => simp
  | some target => simp

theorem noneAccepted_iff {root : List Char} {frontmatterEdges : List References.FrontmatterEdgeInput}
    (h : List.Forall₂ (fun seed frontmatter => References.FrontmatterEdgeInput.new seed.targetPath seed.targetNoteId
      seed.relation seed.sourceField = .ok frontmatter) seeds frontmatterEdges) :
    NoneAccepted root seeds ↔ frontmatterEdges.filterMap (References.acceptedEdge root) = [] := by
  induction h with
  | nil => simp [NoneAccepted]
  | cons hnew _ ih =>
    rw [List.filterMap_eq_nil_iff, List.forall_mem_cons, acceptedEdge_eq_none, frontmatterEdge_new hnew,
      ← List.filterMap_eq_nil_iff, ← ih, NoneAccepted, NoneAccepted, List.forall_mem_cons]

/-- An extraction that succeeds is the extraction of a document with these parts. -/
theorem referenceBatch_ok (h : referenceBatch sha256 patterns noteId relativePath root body seeds = .ok edges) :
    ∃ (document : References.ReferenceDocumentInput) (result : References.ReferenceDocumentResult),
      document.noteId = noteId ∧ document.relativePath = relativePath ∧ document.alexandriaRoot = root.toList ∧
        document.body = body.toList ∧
        (∀ root, NoneAccepted root seeds ↔ document.frontmatterEdges.filterMap (References.acceptedEdge root) = []) ∧
        References.extractDocument sha256 document patterns = .ok result ∧ result.edges = edges := by
  unfold referenceBatch at h
  cases hseeds : seeds.mapM fun seed =>
      References.FrontmatterEdgeInput.new seed.targetPath seed.targetNoteId seed.relation seed.sourceField with
  | error error =>
    rw [hseeds] at h
    cases h
  | ok frontmatterEdges =>
    rw [hseeds] at h
    have hnew := Keyed.mapM_eq_ok.mp hseeds
    cases hdocument : References.ReferenceDocumentInput.new noteId relativePath root.toList body.toList
        frontmatterEdges with
    | error error =>
      simp only [bind, Except.bind, hdocument] at h
      cases h
    | ok document =>
      simp only [bind, Except.bind, hdocument] at h
      cases hrun : References.extractDocument sha256 document patterns with
      | error error =>
        rw [hrun] at h
        cases h
      | ok result =>
        rw [hrun] at h
        cases h
        unfold References.ReferenceDocumentInput.new at hdocument
        split at hdocument
        · cases hdocument
        · split at hdocument <;> cases hdocument
          exact ⟨_, result, rfl, rfl, rfl, rfl, fun root => noneAccepted_iff hnew, hrun, rfl⟩

theorem documentInput_root {root body : List Char} (root' : List Char) {frontmatterEdges : List References.FrontmatterEdgeInput}
    {document : References.ReferenceDocumentInput}
    (h : References.ReferenceDocumentInput.new noteId relativePath root body frontmatterEdges = .ok document) :
    ∃ document', References.ReferenceDocumentInput.new noteId relativePath root' body frontmatterEdges = .ok document' ∧
      document'.body = document.body := by
  unfold References.ReferenceDocumentInput.new at h ⊢
  by_cases hbounded : Utf8.size body > References.maxDocumentBytes
  · rw [dif_pos hbounded] at h
    cases h
  · by_cases hfew : frontmatterEdges.length > References.maxFrontmatterEdgesPerDocument
    · rw [dif_neg hbounded, dif_pos hfew] at h
      cases h
    · rw [dif_neg hbounded, dif_neg hfew] at h ⊢
      cases h
      exact ⟨_, rfl, rfl⟩

/-- Whether an extraction succeeds does not depend on the root. -/
theorem referenceBatch_root (h : referenceBatch sha256 patterns noteId relativePath root body seeds = .ok edges)
    (root' : String) : ∃ edges', referenceBatch sha256 patterns noteId relativePath root' body seeds = .ok edges' := by
  unfold referenceBatch at h ⊢
  cases hseeds : seeds.mapM fun seed =>
      References.FrontmatterEdgeInput.new seed.targetPath seed.targetNoteId seed.relation seed.sourceField with
  | error error =>
    rw [hseeds] at h
    cases h
  | ok frontmatterEdges =>
    rw [hseeds] at h
    cases hdocument : References.ReferenceDocumentInput.new noteId relativePath root.toList body.toList
        frontmatterEdges with
    | error error =>
      simp only [bind, Except.bind, hdocument] at h
      cases h
    | ok document =>
      simp only [bind, Except.bind, hdocument] at h
      obtain ⟨document', hdocument', hbody⟩ := documentInput_root root'.toList hdocument
      cases hrun : References.extractDocument sha256 document patterns with
      | error error =>
        rw [hrun] at h
        cases h
      | ok result =>
        obtain ⟨result', hrun'⟩ := References.extractDocument_succeeds document' hbody hrun
        simp only [bind, Except.bind, hdocument', hrun']
        exact ⟨_, rfl⟩

end Extraction

/-! ## Provided documents -/

section Provided
variable (A : Authorities)

/-- `edge_candidates_for_document` under another root. -/
def edgeCandidatesUnder (root : String) (document : CompileDocumentInput) : Except String (List EdgeCandidate) := do
  (validateIdentity "document_id" document.noteId).mapError inputInvalid
  (validateIdentity "relative_path" document.relativePath).mapError inputInvalid
  document.edgeSeeds.forM fun seed => (validateEdgeSeed seed).mapError inputInvalid
  (A.extractReferenceBatch document.noteId document.relativePath root document.body document.edgeSeeds).mapError edgeFailed

def providedChunk (record : ChunkRecord) : CompileProvidedChunkInput := ⟨record.chunkIndex, A.sha256Text record.content⟩

/-- The edge with its kind, as the caller's wire has it. -/
def providedEdge (edge : EdgeCandidate) : CompileProvidedEdgeInput :=
  ⟨edge.edgeId, edge.sourceNoteId, edge.sourcePath, edge.targetNoteId, edge.targetPath, edge.relation, edge.confidence,
    edge.sourceKind.tag⟩

/-- The document with its chunks and its edges under the configured root. -/
def provideDocument (policy : CompilePolicy) (root : String) (document : CompileDocumentInput) :
    Except String CompileDocumentInput := do
  let records ← chunkDocument A document policy.chunkPolicy
  let edges ← edgeCandidatesUnder A root document
  return { document with
    providedChunks := some (records.map (providedChunk A))
    providedEdges := some (edges.map providedEdge) }

end Provided

/-- Nothing is provided. -/
def SelfComputed (document : CompileDocumentInput) : Prop := document.providedChunks = none ∧ document.providedEdges = none

/-! ## What two plans agree on -/

def CompileChunkPlan.view (chunk : CompileChunkPlan) : String × CompileChunkAction := (chunk.contentHash, chunk.action)

def CompileEdgePlan.view (edge : CompileEdgePlan) : String × String × String × CompileEdgeResolution × Option String :=
  (edge.edgeId, edge.relation, edge.sourceKind, edge.resolution, edge.targetNoteId)

structure UpsertView where
  relativePath : String
  chunks : List (String × CompileChunkAction)
  edges : List (String × String × String × CompileEdgeResolution × Option String)
  embedding : EmbeddingDocumentDelta
deriving DecidableEq

def CompileDocumentUpsert.view (upsert : CompileDocumentUpsert) : UpsertView :=
  ⟨upsert.relativePath, upsert.chunks.map CompileChunkPlan.view, upsert.edges.map CompileEdgePlan.view, upsert.embedding⟩

/-- The document has no accepted relation, and its links name the same paths under the configured root and under
`Alexandria`. -/
def EdgesAgree (patterns : References.ExtractionPatterns) (root : String) (document : CompileDocumentInput) : Prop :=
  NoneAccepted "Alexandria".toList document.edgeSeeds ∧
    References.linkTargets patterns document.relativePath root.toList document.body.toList =
      References.linkTargets patterns document.relativePath "Alexandria".toList document.body.toList

section Agreement
variable {A : Authorities} {patterns : References.ExtractionPatterns} {policy : CompilePolicy} {root : String}
  {document provided : CompileDocumentInput}

/-- Chunks are planned by their hashes. -/
theorem planChunks_view (previousState : Option PreviousDocumentState) (sourceHash : String) (index : ℕ)
    {records records' : List (Option ChunkRecord × String)} (h : records'.map (·.2) = records.map (·.2)) :
    (planChunks previousState sourceHash index records').1.map CompileChunkPlan.view =
        (planChunks previousState sourceHash index records).1.map CompileChunkPlan.view ∧
      (planChunks previousState sourceHash index records').2 = (planChunks previousState sourceHash index records).2 := by
  induction records generalizing records' index with
  | nil =>
    rw [List.map_nil, List.map_eq_nil_iff] at h
    rw [h]
    exact ⟨rfl, rfl⟩
  | cons head rest ih =>
    obtain ⟨head', rest', rfl, hhead, hrest⟩ := List.map_eq_cons_iff.mp h
    obtain ⟨record, contentHash⟩ := head
    obtain ⟨record', contentHash'⟩ := head'
    dsimp only at hhead
    subst hhead
    obtain ⟨hchunks, hchanged⟩ := ih (index + 1) hrest
    simp only [planChunks, List.map_cons, hchunks, hchanged, CompileChunkPlan.view, and_self]

/-- What the plan says of an edge besides its id depends on what the edge is told apart by. -/
def keyView (A : Authorities) (notes : List GraphSourceNote) (edgeId : String) (key : References.EdgeKey) :
    String × String × String × CompileEdgeResolution × Option String :=
  (edgeId, key.2.1, key.2.2.1.tag, edgeResolution (resolveTargetReference A.unicode key.2.2.2 key.1 notes))

theorem edgeCandidatesUnder_ok {edges : List EdgeCandidate}
    (h : edgeCandidatesUnder (A.extracting patterns) root document = .ok edges) :
    (∀ root' edges', referenceBatch A.sha256Text patterns document.noteId document.relativePath root' document.body
        document.edgeSeeds = .ok edges' → edgeCandidatesUnder (A.extracting patterns) root' document = .ok edges') ∧
      referenceBatch A.sha256Text patterns document.noteId document.relativePath root document.body document.edgeSeeds =
        .ok edges := by
  unfold edgeCandidatesUnder at h ⊢
  simp only [bind, Except.bind] at h ⊢
  split at h
  · cases h
  · split at h
    · cases h
    · split at h
      · cases h
      · constructor
        · intro root' edges' hbatch
          rw [extracting_batch, hbatch]
          rfl
        · cases hbatch : referenceBatch A.sha256Text patterns document.noteId document.relativePath root document.body
              document.edgeSeeds with
          | error error =>
            rw [extracting_batch, hbatch] at h
            cases h
          | ok edges' =>
            rw [extracting_batch, hbatch] at h
            exact h

/-- The edge of a link in a plan. -/
def linkView (A : Authorities) (notes : List GraphSourceNote) (noteId path target : String) :
    String × String × String × CompileEdgeResolution × Option String :=
  keyView A notes (A.sha256Text (References.keyMaterial noteId path (References.linkKey target))) (References.linkKey target)

theorem linkView_injective (hdigest : Function.Injective A.sha256Text) (notes : List GraphSourceNote)
    (noteId path : String) : Function.Injective (linkView A notes noteId path) :=
  fun _ _ h => References.linkMaterial_inj (hdigest (congrArg Prod.fst h))

/-- The edges of a document without accepted relations, as computed and as provided, are those of its links. -/
theorem links_view (notes : List GraphSourceNote) {input : References.ReferenceDocumentInput}
    {result : References.ReferenceDocumentResult} (hrun : References.extractDocument A.sha256Text input patterns = .ok result)
    (hnone : input.frontmatterEdges.filterMap
      (References.acceptedEdge (References.normalizeRoot input.alexandriaRoot)) = []) :
    result.edges.map (fun edge => keyView A notes edge.edgeId (References.EdgeCandidate.key edge)) =
        (References.linkTargets patterns input.relativePath input.alexandriaRoot input.body).map
          (linkView A notes input.noteId input.relativePath) ∧
      result.edges.map (fun edge =>
          keyView A notes edge.edgeId (edge.targetPath, edge.relation, .wikilink, edge.targetNoteId)) =
        (References.linkTargets patterns input.relativePath input.alexandriaRoot input.body).map
          (linkView A notes input.noteId input.relativePath) := by
  obtain ⟨inputs, hedges, hkeys⟩ := References.planned_links hrun hnone
  have hmap : ∀ view : References.EdgeKey → String × String × String × CompileEdgeResolution × Option String,
      inputs.map (fun edge => view edge.key) =
        (References.linkTargets patterns input.relativePath input.alexandriaRoot input.body).map
          fun target => view (References.linkKey target) := by
    intro view
    have hview := congrArg (List.map view) hkeys
    rw [List.map_map, List.map_map] at hview
    exact hview
  rw [hedges, List.map_map, List.map_map]
  exact ⟨hmap fun key => keyView A notes (A.sha256Text (References.keyMaterial input.noteId input.relativePath key)) key,
    hmap fun key => keyView A notes (A.sha256Text (References.keyMaterial input.noteId input.relativePath key))
      (key.1, key.2.1, .wikilink, key.2.2.2)⟩

/-- An accepted relation is an edge of its own kind. -/
theorem relation_kind {input : References.ReferenceDocumentInput} {result : References.ReferenceDocumentResult}
    (hrun : References.extractDocument A.sha256Text input patterns = .ok result)
    (hsome : input.frontmatterEdges.filterMap
      (References.acceptedEdge (References.normalizeRoot input.alexandriaRoot)) ≠ []) :
    ∃ edge ∈ result.edges, edge.sourceKind = .frontmatter := by
  obtain ⟨relations, links, hedges, -, -, hall, -⟩ := References.planned_document hrun
  obtain ⟨a, ha⟩ := List.exists_mem_of_ne_nil _ hsome
  obtain ⟨relation, hrelation, hkey⟩ := List.mem_map.mp (hall a ha)
  refine ⟨_, hedges ▸ List.mem_map_of_mem (List.mem_append_left links hrelation), ?_⟩
  exact (References.targetText_of_key hkey).1.trans (References.acceptedEdge_kind ha)

/-- The edges of a document read the same provided and computed just where its links name the same paths and none of its
relations is accepted. -/
theorem edges_agree_iff (hdigest : Function.Injective A.sha256Text) (notes : List GraphSourceNote)
    {edges edges' : List EdgeCandidate}
    (h : edgeCandidatesUnder (A.extracting patterns) "Alexandria" document = .ok edges)
    (h' : edgeCandidatesUnder (A.extracting patterns) root document = .ok edges') :
    edges'.map (fun edge =>
        keyView A notes edge.edgeId (edge.targetPath, edge.relation, .wikilink, edge.targetNoteId)) =
      edges.map (fun edge => keyView A notes edge.edgeId (References.EdgeCandidate.key edge)) ↔
    EdgesAgree patterns root document := by
  obtain ⟨input, result, hnoteId, hpath, hroot, hbody, haccepted, hrun, rfl⟩ := referenceBatch_ok (edgeCandidatesUnder_ok h).2
  obtain ⟨input', result', hnoteId', hpath', hroot', hbody', haccepted', hrun', rfl⟩ :=
    referenceBatch_ok (edgeCandidatesUnder_ok h').2
  by_cases hnone : NoneAccepted "Alexandria".toList document.edgeSeeds
  · rw [(links_view notes hrun (References.none_accepted _ _ ((haccepted _).mp hnone))).1,
      (links_view notes hrun' (References.none_accepted _ _ ((haccepted' _).mp hnone))).2, hnoteId, hpath, hroot, hbody,
      hnoteId', hpath', hroot', hbody', (linkView_injective hdigest notes _ _).list_map.eq_iff]
    exact ⟨fun hsame => ⟨hnone, hsame⟩, And.right⟩
  · refine iff_of_false (fun hsame => ?_) fun hagree => hnone hagree.1
    obtain ⟨edge, hedge, hkind⟩ := relation_kind hrun fun hempty =>
      hnone ((haccepted _).mpr (References.none_accepted _ _ hempty))
    -- Provided edges are all called wikilinks.
    obtain ⟨edge', -, hsame'⟩ := List.mem_map.mp (hsame ▸ List.mem_map_of_mem hedge)
    have htag := congrArg (fun view => view.2.2.1) hsame'
    simp only [keyView, References.EdgeCandidate.key, hkind] at htag
    exact absurd htag (by decide)

/-- What a provided document carries. -/
theorem provideDocument_ok (h : provideDocument A policy root document = .ok provided) :
    ∃ records edges, chunkDocument A document policy.chunkPolicy = .ok records ∧ edgeCandidatesUnder A root document = .ok edges ∧
      provided = { document with
        providedChunks := some (records.map (providedChunk A))
        providedEdges := some (edges.map providedEdge) } := by
  unfold provideDocument at h
  cases hrecords : chunkDocument A document policy.chunkPolicy with
  | error error =>
    rw [hrecords] at h
    cases h
  | ok records =>
    cases hedges : edgeCandidatesUnder A root document with
    | error error =>
      rw [hrecords, hedges] at h
      cases h
    | ok edges =>
      rw [hrecords, hedges] at h
      cases h
      exact ⟨records, edges, rfl, rfl, rfl⟩

/-- One document is planned from what is provided as from what is computed, but for its edges. -/
theorem planDocument_provided (hdigest : Function.Injective A.sha256Text) (hself : SelfComputed document)
    (hprovided : provideDocument (A.extracting patterns) policy root document = .ok provided)
    (previousState : Option PreviousDocumentState) (manifest manifest' : ManifestValidation) (notes : List GraphSourceNote)
    (work : CompileDocumentAction × EmbeddingDocumentDelta) :
    ∃ upsert upsert' diagnostics diagnostics',
      planDocument (A.extracting patterns) previousState policy.chunkPolicy manifest notes document work =
          .ok (upsert, diagnostics) ∧
        planDocument (A.extracting patterns) previousState policy.chunkPolicy manifest' notes provided work =
          .ok (upsert', diagnostics') ∧
        (upsert'.view = upsert.view ↔ EdgesAgree patterns root document) := by
  obtain ⟨records, edges', hrecords, hedges', rfl⟩ := provideDocument_ok hprovided
  obtain ⟨hbatch, hbatch'⟩ := edgeCandidatesUnder_ok hedges'
  obtain ⟨edges, hedges⟩ := referenceBatch_root hbatch' "Alexandria"
  have hedges := hbatch _ _ hedges
  have hchunks : chunkRecords (A.extracting patterns) document policy.chunkPolicy =
      .ok (records.map fun record => (some record, A.sha256Text record.content)) := by
    rw [chunkRecords, hself.1, hrecords]
    rfl
  have hcandidates : edgeCandidates (A.extracting patterns) document = .ok edges := by
    rw [edgeCandidates, hself.2]
    exact hedges
  have hhashes : ((records.map (providedChunk (A.extracting patterns))).map fun chunk =>
        ((none : Option ChunkRecord), chunk.contentHash)).map (·.2) =
      (records.map fun record => (some record, A.sha256Text record.content)).map (·.2) := by
    rw [List.map_map, List.map_map, List.map_map]
    rfl
  have hplanned := planChunks_view previousState (documentSourceHash (A.extracting patterns) document) 0 hhashes
  simp only [planDocument, buildChunkPlans, buildEdgePlans, hchunks, hcandidates]
  refine ⟨_, _, _, _, rfl, rfl, ?_⟩
  rw [← edges_agree_iff hdigest notes hedges hedges', CompileDocumentUpsert.view, CompileDocumentUpsert.view,
    UpsertView.mk.injEq]
  have hcomputed : (edges.map (planEdge (A.extracting patterns) previousState notes)).map CompileEdgePlan.view =
      edges.map fun edge => keyView A notes edge.edgeId (References.EdgeCandidate.key edge) := by
    rw [List.map_map]
    rfl
  have hgiven : (((edges'.map providedEdge).map providedCandidate).map
        (planEdge (A.extracting patterns) previousState notes)).map CompileEdgePlan.view =
      edges'.map fun edge =>
        keyView A notes edge.edgeId (edge.targetPath, edge.relation, .wikilink, edge.targetNoteId) := by
    rw [List.map_map, List.map_map, List.map_map]
    rfl
  rw [hcomputed, hgiven]
  exact ⟨fun hview => hview.2.2.1, fun hview => ⟨rfl, hplanned.1, hview, congrArg (embeddingForAction work.1 work.2) hplanned.2⟩⟩

theorem provided_same (h : provideDocument A policy root document = .ok provided) :
    provided.relativePath = document.relativePath ∧ documentSourceHash A provided = documentSourceHash A document ∧
      buildHealthyNote provided = buildHealthyNote document := by
  obtain ⟨records, edges, -, -, rfl⟩ := provideDocument_ok h
  exact ⟨rfl, rfl, rfl⟩

/-- The provided snapshot of these documents. -/
def Provides (A : Authorities) (policy : CompilePolicy) (root : String) (documents : List CompileDocumentInput)
    (provide : CompileDocumentInput → CompileDocumentInput) : Prop :=
  ∀ document ∈ documents, provideDocument A policy root document = .ok (provide document)

variable {documents : List CompileDocumentInput} {provide : CompileDocumentInput → CompileDocumentInput}
  {previous : PreviousCompilationSnapshot}

/-- The loop over the documents, step by step on both sides. -/
theorem buildUpserts_provided (hdigest : Function.Injective A.sha256Text) {indexes indexes' : DocumentIndexes}
    (hindex : ∀ path, indexes.previousState path = previous.at path)
    (hindex' : ∀ path, indexes'.previousState path = previous.at path) (manifest manifest' : ManifestValidation)
    (notes : List GraphSourceNote) (hself : ∀ document ∈ documents, SelfComputed document)
    (hprovided : Provides (A.extracting patterns) policy root documents provide) :
    ∃ upserts upserts' diagnostics diagnostics',
      buildUpserts (A.extracting patterns) indexes previous policy policy.chunkPolicy manifest notes documents =
          .ok (upserts, diagnostics) ∧
        buildUpserts (A.extracting patterns) indexes' previous policy policy.chunkPolicy manifest' notes
            (documents.map provide) = .ok (upserts', diagnostics') ∧
        (upserts'.map CompileDocumentUpsert.view = upserts.map CompileDocumentUpsert.view ↔
          ∀ document ∈ documents, needsWork (A.extracting patterns) policy previous document = true →
            EdgesAgree patterns root document) := by
  induction documents with
  | nil => exact ⟨[], [], [], [], rfl, rfl, by simp⟩
  | cons document rest ih =>
    obtain ⟨upserts, upserts', diagnostics, diagnostics', hrun, hrun', hrest⟩ :=
      ih (fun other hother => hself other (List.mem_cons_of_mem _ hother))
        (fun other hother => hprovided other (List.mem_cons_of_mem _ hother))
    have hprovide := hprovided document List.mem_cons_self
    obtain ⟨hpath, hhash, -⟩ := provided_same hprovide
    rw [List.map_cons, List.forall_mem_cons, ← hrest]
    simp only [buildUpserts, hindex, hindex', hpath, hhash]
    cases haction : documentAction (previous.at document.relativePath)
        (documentSourceHash (A.extracting patterns) document) previous policy with
    | none =>
      have hidle : needsWork (A.extracting patterns) policy previous document = false := by simp [needsWork, haction]
      refine ⟨upserts, upserts', diagnostics, diagnostics', hrun, hrun', ?_⟩
      simp [hidle]
    | some work =>
      have hbusy : needsWork (A.extracting patterns) policy previous document = true := by simp [needsWork, haction]
      obtain ⟨upsert, upsert', edgeDiagnostics, edgeDiagnostics', hplan, hplan', hview⟩ :=
        planDocument_provided hdigest (hself document List.mem_cons_self) hprovide
          (previous.at document.relativePath) manifest manifest' notes work
      simp only [bind, Except.bind, hplan, hplan', hrun, hrun']
      refine ⟨_, _, _, _, rfl, rfl, ?_⟩
      rw [List.map_cons, List.map_cons, List.cons.injEq, hview]
      exact and_congr_left fun _ => ⟨fun hagree _ => hagree, fun hagree => hagree hbusy⟩

theorem checkCurrent_congr {documents' : List CompileDocumentInput}
    (hpaths : documents'.map (·.relativePath) = documents.map (·.relativePath))
    (hnotes : buildHealthyNotes documents' = buildHealthyNotes documents) :
    checkCurrent policy documents' = checkCurrent policy documents := by
  unfold checkCurrent
  rw [hpaths, hnotes]

theorem checkCurrent_notes (hcheck : checkCurrent policy documents = .ok ()) :
    ∃ notes, buildHealthyNotes documents = .ok notes := by
  cases hnotes : buildHealthyNotes documents with
  | ok notes => exact ⟨notes, rfl⟩
  | error error =>
    simp only [checkCurrent, hnotes, bind, Except.bind] at hcheck
    split at hcheck
    · cases hcheck
    · split at hcheck
      · cases hcheck
      · split at hcheck <;> cases hcheck

/-- A compile whose inputs pass the checks plans its documents. -/
theorem compilePlan_checked (A : Authorities) {notes : List GraphSourceNote} (hcheck : checkCurrent policy documents = .ok ())
    (hprev : (previous.documents.map (·.relativePath)).Nodup) (hnotes : buildHealthyNotes documents = .ok notes)
    {upserts : List CompileDocumentUpsert} {diagnostics : List CompileDiagnostic}
    (hrun : buildUpserts A (sortedIndexes documents previous) previous policy policy.chunkPolicy
      (validateManifest A ⟨documents⟩) notes (byPath documents) = .ok (upserts, diagnostics)) :
    (compilePlan A ⟨documents⟩ previous policy).map (fun plan => plan.upserts.map CompileDocumentUpsert.view) =
      .ok (upserts.map CompileDocumentUpsert.view) := by
  simp only [checkCurrent, hnotes] at hcheck
  simp only [compilePlan, buildDocumentIndexes, (Keyed.firstRepeated_eq_none _).mpr hprev, hnotes]
  cases hpolicy : validateCompilePolicy policy with
  | error error => simp [hpolicy, bind, Except.bind] at hcheck
  | ok _ =>
    cases hpaths : Keyed.firstRepeated (documents.map (·.relativePath)) with
    | some path => simp [hpolicy, hpaths, bind, Except.bind] at hcheck
    | none =>
      cases hchunk : ChunkPolicy.new policy.chunkMaxChars policy.chunkOverlapChars with
      | error error => simp [hpolicy, hpaths, hchunk, bind, Except.bind, Except.mapError] at hcheck
      | ok chunkPolicy =>
        rw [chunkPolicy_new hchunk]
        simp only [bind, Except.bind, Except.mapError, pure, Except.pure]
        unfold sortedIndexes byPath at hrun
        rw [hrun]
        rfl

/-- A compile whose inputs fail a check reports that alone. -/
theorem compilePlan_refused (A : Authorities) {documents' : List CompileDocumentInput}
    (hpaths : documents'.map (·.relativePath) = documents.map (·.relativePath))
    (hnotes : buildHealthyNotes documents' = buildHealthyNotes documents)
    (hrefused : ¬ (checkCurrent policy documents = .ok () ∧ (previous.documents.map (·.relativePath)).Nodup)) :
    ∃ error, compilePlan A ⟨documents⟩ previous policy = .error error ∧
      compilePlan A ⟨documents'⟩ previous policy = .error error := by
  simp only [compilePlan, buildDocumentIndexes, hpaths, hnotes]
  cases hpolicy : validateCompilePolicy policy with
  | error error => exact ⟨error, rfl, rfl⟩
  | ok _ =>
    cases hcurrent : Keyed.firstRepeated (documents.map (·.relativePath)) with
    | some path => exact ⟨_, rfl, rfl⟩
    | none =>
      cases hprevious : Keyed.firstRepeated (previous.documents.map (·.relativePath)) with
      | some path => exact ⟨_, rfl, rfl⟩
      | none =>
        cases hchunk : ChunkPolicy.new policy.chunkMaxChars policy.chunkOverlapChars with
        | error error => exact ⟨_, rfl, rfl⟩
        | ok chunkPolicy =>
          cases hhealthy : buildHealthyNotes documents with
          | error error => exact ⟨_, rfl, rfl⟩
          | ok notes =>
            refine absurd ⟨?_, (Keyed.firstRepeated_eq_none _).mp hprevious⟩ hrefused
            simp [checkCurrent, hpolicy, hcurrent, hchunk, hhealthy, bind, Except.bind, Except.mapError, pure, Except.pure]

theorem provided_paths (hprovided : Provides A policy root documents provide) :
    (documents.map provide).map (·.relativePath) = documents.map (·.relativePath) := by
  rw [List.map_map]
  exact List.map_congr_left fun document hdocument => (provided_same (hprovided document hdocument)).1

theorem provided_notes (hprovided : Provides A policy root documents provide) :
    buildHealthyNotes (documents.map provide) = buildHealthyNotes documents := by
  unfold buildHealthyNotes
  induction documents with
  | nil => rfl
  | cons document rest ih =>
    rw [List.map_cons, List.mapM_cons, List.mapM_cons, (provided_same (hprovided document List.mem_cons_self)).2.2,
      ih fun other hother => hprovided other (List.mem_cons_of_mem _ hother)]

theorem provided_byPath (hprovided : Provides A policy root documents provide) :
    byPath (documents.map provide) = (byPath documents).map provide := by
  refine (List.map_insertionSort _ _ provide documents fun a ha b hb => ?_).symm
  rw [(provided_same (hprovided a ha)).1, (provided_same (hprovided b hb)).1]

/-- Checked inputs compile both ways, and the two plans agree just where the edges of the documents to be planned do. -/
theorem compilePlan_provided (hdigest : Function.Injective A.sha256Text)
    (hself : ∀ document ∈ documents, SelfComputed document)
    (hprovided : Provides (A.extracting patterns) policy root documents provide)
    (hcheck : checkCurrent policy documents = .ok ()) (hprev : (previous.documents.map (·.relativePath)).Nodup) :
    ∃ views views',
      (compilePlan (A.extracting patterns) ⟨documents⟩ previous policy).map
          (fun plan => plan.upserts.map CompileDocumentUpsert.view) = .ok views ∧
        (compilePlan (A.extracting patterns) ⟨documents.map provide⟩ previous policy).map
          (fun plan => plan.upserts.map CompileDocumentUpsert.view) = .ok views' ∧
        (views' = views ↔ ∀ document ∈ documents, needsWork (A.extracting patterns) policy previous document = true →
          EdgesAgree patterns root document) := by
  obtain ⟨notes, hnotes⟩ := checkCurrent_notes hcheck
  obtain ⟨upserts, upserts', diagnostics, diagnostics', hrun, hrun', hagree⟩ :=
    buildUpserts_provided hdigest (previousState_eq_at hprev (byPath documents))
      (previousState_eq_at hprev (byPath (documents.map provide)))
      (validateManifest (A.extracting patterns) ⟨documents⟩)
      (validateManifest (A.extracting patterns) ⟨documents.map provide⟩) notes
      (fun document hdocument => hself document (mem_byPath.mp hdocument))
      (fun document hdocument => hprovided document (mem_byPath.mp hdocument))
  rw [← provided_byPath hprovided] at hrun'
  refine ⟨_, _, compilePlan_checked _ hcheck hprev hnotes hrun, compilePlan_checked _ ?_ hprev ?_ hrun', ?_⟩
  · rw [checkCurrent_congr (provided_paths hprovided) (provided_notes hprovided)]
    exact hcheck
  · rw [provided_notes hprovided]
    exact hnotes
  · rw [hagree]
    exact forall_congr' fun document => by rw [mem_byPath]

end Agreement

/-- Provided and computed inputs compile to the same plan just where every document to be planned has no accepted relation
and its links name the same paths under the configured root and under `Alexandria`. -/
theorem provided_agrees_iff (A : Authorities) (hdigest : Function.Injective A.sha256Text)
    (patterns : References.ExtractionPatterns) (policy : CompilePolicy) (root : String)
    (documents : List CompileDocumentInput) (hself : ∀ document ∈ documents, SelfComputed document)
    (provide : CompileDocumentInput → CompileDocumentInput)
    (hprovided : Provides (A.extracting patterns) policy root documents provide) (previous : PreviousCompilationSnapshot) :
    (compilePlan (A.extracting patterns) ⟨documents.map provide⟩ previous policy).map
          (fun plan => plan.upserts.map CompileDocumentUpsert.view) =
        (compilePlan (A.extracting patterns) ⟨documents⟩ previous policy).map
          (fun plan => plan.upserts.map CompileDocumentUpsert.view) ↔
      (checkCurrent policy documents = .ok () → (previous.documents.map (·.relativePath)).Nodup →
        ∀ document ∈ documents, needsWork (A.extracting patterns) policy previous document = true →
          EdgesAgree patterns root document) := by
  by_cases hchecked : checkCurrent policy documents = .ok () ∧ (previous.documents.map (·.relativePath)).Nodup
  · obtain ⟨views, views', hviews, hviews', hagree⟩ :=
      compilePlan_provided hdigest hself hprovided hchecked.1 hchecked.2
    rw [hviews, hviews', Except.ok.injEq, hagree]
    exact ⟨fun h _ _ => h, fun h => h hchecked.1 hchecked.2⟩
  · obtain ⟨error, herror, herror'⟩ := compilePlan_refused (A.extracting patterns) (provided_paths hprovided)
      (provided_notes hprovided) hchecked
    rw [herror, herror']
    exact iff_of_true rfl fun hcheck hprev => absurd ⟨hcheck, hprev⟩ hchecked

/-! ## A relation that is relabelled -/

def unlinkedNote : CompileDocumentInput :=
  { plainNote "h" "c" "e" with
    providedChunks := none
    providedEdges := none }

/-- A note that cites another. -/
def relatedNote : CompileDocumentInput :=
  { unlinkedNote with edgeSeeds := [⟨some "C.md", none, "cites", "source_refs"⟩] }

/-- The relation is an edge of the frontmatter in one plan and a wikilink in the other. -/
theorem relatedNote_relabelled : ∃ provided views views',
    provideDocument (plainAuthorities.extracting References.quietPatterns) plainPolicy "Alexandria" relatedNote =
        .ok provided ∧
      (compilePlan (plainAuthorities.extracting References.quietPatterns) ⟨[relatedNote]⟩ (emptySnapshot "model-1")
          plainPolicy).map (fun plan => plan.upserts.map CompileDocumentUpsert.view) = .ok views ∧
      (compilePlan (plainAuthorities.extracting References.quietPatterns) ⟨[provided]⟩ (emptySnapshot "model-1")
          plainPolicy).map (fun plan => plan.upserts.map CompileDocumentUpsert.view) = .ok views' ∧
      views' ≠ views := by
  have hprovided : ∃ provided, provideDocument (plainAuthorities.extracting References.quietPatterns) plainPolicy
      "Alexandria" relatedNote = .ok provided := ⟨_, rfl⟩
  obtain ⟨provided, hprovided⟩ := hprovided
  have hprovides : Provides (plainAuthorities.extracting References.quietPatterns) plainPolicy "Alexandria" [relatedNote]
      fun _ => provided := fun document hdocument => by rw [List.mem_singleton.mp hdocument, hprovided]
  have hself : ∀ document ∈ [relatedNote], SelfComputed document := fun document hdocument => by
    rw [List.mem_singleton.mp hdocument]
    exact ⟨rfl, rfl⟩
  have hprev : ((emptySnapshot "model-1").documents.map (·.relativePath)).Nodup := List.nodup_nil
  obtain ⟨views, views', hviews, hviews', hagree⟩ :=
    compilePlan_provided Function.injective_id hself hprovides rfl hprev
  refine ⟨provided, views, views', hprovided, hviews, hviews', fun hsame => ?_⟩
  obtain ⟨hnone, -⟩ := hagree.mp hsame relatedNote List.mem_cons_self rfl
  have hrejected := hnone _ List.mem_cons_self "C.md" rfl
  rw [References.plainPath_normalized] at hrejected
  cases hrejected

theorem provided_agrees_unlinked : ∃ provided,
    provideDocument (plainAuthorities.extracting References.quietPatterns) plainPolicy "Vault" unlinkedNote =
        .ok provided ∧
      (compilePlan (plainAuthorities.extracting References.quietPatterns) ⟨[provided]⟩ (emptySnapshot "model-1")
          plainPolicy).map (fun plan => plan.upserts.map CompileDocumentUpsert.view) =
        (compilePlan (plainAuthorities.extracting References.quietPatterns) ⟨[unlinkedNote]⟩ (emptySnapshot "model-1")
          plainPolicy).map fun plan => plan.upserts.map CompileDocumentUpsert.view := by
  have hprovided : ∃ provided, provideDocument (plainAuthorities.extracting References.quietPatterns) plainPolicy
      "Vault" unlinkedNote = .ok provided := ⟨_, rfl⟩
  obtain ⟨provided, hprovided⟩ := hprovided
  refine ⟨provided, hprovided, (provided_agrees_iff plainAuthorities Function.injective_id References.quietPatterns
    plainPolicy "Vault" [unlinkedNote] (fun document hdocument => ?_) (fun _ => provided) (fun document hdocument => ?_)
    (emptySnapshot "model-1")).mpr fun _ _ document hdocument _ => ?_⟩
  · rw [List.mem_singleton.mp hdocument]
    exact ⟨rfl, rfl⟩
  · rw [List.mem_singleton.mp hdocument, hprovided]
  · rw [List.mem_singleton.mp hdocument]
    exact ⟨fun seed hseed => absurd hseed List.not_mem_nil, rfl⟩

end Alexandria.Compile
