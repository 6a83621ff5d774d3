import Alexandria.Compile.Plan

/-! # What a plan consists of

A document is compiled to its source hash, its chunk hashes and its edge ids, and none of the three depends
on the previous snapshot; the snapshot only decides which documents are compiled at all. The upserts of a plan
are the plans of exactly those documents in path order, and the first error is the first error of one of them.
-/

namespace Alexandria.Compile
set_option autoImplicit false

/-! ## What one document compiles to -/

/-- The previous compiled state at a path. -/
def PreviousCompilationSnapshot.at (snapshot : PreviousCompilationSnapshot) (path : String) :
    Option PreviousDocumentState :=
  Keyed.lookup (·.relativePath) path snapshot.documents

def upsertState (upsert : CompileDocumentUpsert) : PreviousDocumentState where
  noteId := upsert.noteId
  relativePath := upsert.relativePath
  sourceHash := upsert.sourceHash
  chunkHashes := upsert.chunks.map (·.contentHash)
  edgeIds := upsert.edges.map (·.edgeId)

section Document
variable (A : Authorities)

def CompilePolicy.chunkPolicy (policy : CompilePolicy) : ChunkPolicy :=
  ⟨policy.chunkMaxChars, policy.chunkOverlapChars⟩

def documentChunkHashes (policy : CompilePolicy) (document : CompileDocumentInput) : Except String (List String) :=
  (chunkRecords A document policy.chunkPolicy).map (·.map (·.2))

def documentEdgeIds (document : CompileDocumentInput) : Except String (List String) :=
  (edgeCandidates A document).map (·.map (·.edgeId))

/-- The state of a document, without regard to any previous one. -/
def compiledState (policy : CompilePolicy) (document : CompileDocumentInput) : Except String PreviousDocumentState := do
  let chunkHashes ← documentChunkHashes A policy document
  let edgeIds ← documentEdgeIds A document
  return ⟨document.noteId, document.relativePath, documentSourceHash A document, chunkHashes, edgeIds⟩

/-- Does the planner do any work for the document? -/
def needsWork (policy : CompilePolicy) (previous : PreviousCompilationSnapshot) (document : CompileDocumentInput) :
    Bool :=
  (documentAction (previous.at document.relativePath) (documentSourceHash A document) previous policy).isSome

end Document

/-- The upsert is the plan of the document against the previous snapshot. -/
def Planned (A : Authorities) (policy : CompilePolicy) (previous : PreviousCompilationSnapshot)
    (manifest : ManifestValidation) (notes : List GraphSourceNote) (document : CompileDocumentInput)
    (upsert : CompileDocumentUpsert) : Prop :=
  ∃ work diagnostics,
    documentAction (previous.at document.relativePath) (documentSourceHash A document) previous policy = some work ∧
      planDocument A (previous.at document.relativePath) policy.chunkPolicy manifest notes document work =
        .ok (upsert, diagnostics)

section Planner
variable {A : Authorities} {policy : CompilePolicy}

theorem compiledState_ok {document : CompileDocumentInput} {state : PreviousDocumentState}
    (h : compiledState A policy document = .ok state) :
    state.relativePath = document.relativePath ∧ state.sourceHash = documentSourceHash A document ∧
      documentChunkHashes A policy document = .ok state.chunkHashes ∧
      documentEdgeIds A document = .ok state.edgeIds := by
  cases hc : documentChunkHashes A policy document with
  | error e => simp [compiledState, hc, bind, Except.bind] at h
  | ok chunkHashes =>
    cases he : documentEdgeIds A document with
    | error e => simp [compiledState, hc, he, bind, Except.bind] at h
    | ok edgeIds =>
      simp only [compiledState, hc, he, bind, Except.bind, pure, Except.pure, Except.ok.injEq] at h
      subst h
      exact ⟨rfl, rfl, rfl, rfl⟩

theorem planChunks_hashes (previousState : Option PreviousDocumentState) (sourceHash : String) (index : ℕ)
    (records : List (Option ChunkRecord × String)) :
    (planChunks previousState sourceHash index records).1.map (·.contentHash) = records.map (·.2) := by
  induction records generalizing index with
  | nil => rfl
  | cons head rest ih =>
    obtain ⟨record, contentHash⟩ := head
    simp [planChunks, ih]

/-- Planning one document writes its compiled state, whatever the previous state was. -/
theorem planDocument_state (A : Authorities) (policy : CompilePolicy) (previousState : Option PreviousDocumentState)
    (manifest : ManifestValidation) (notes : List GraphSourceNote) (document : CompileDocumentInput)
    (work : CompileDocumentAction × EmbeddingDocumentDelta) :
    (planDocument A previousState policy.chunkPolicy manifest notes document work).map (fun r => upsertState r.1) =
      compiledState A policy document := by
  simp only [planDocument, compiledState, documentChunkHashes, documentEdgeIds, buildChunkPlans, buildEdgePlans]
  cases chunkRecords A document policy.chunkPolicy with
  | error e => rfl
  | ok records =>
    cases edgeCandidates A document with
    | error e => rfl
    | ok candidates =>
      simp only [bind, Except.bind, Except.map, pure, Except.pure, upsertState, planChunks_hashes, List.map_map]
      rfl

/-- The upserts are the plans of the documents that need work, in path order. -/
theorem buildUpserts_planned {indexes : DocumentIndexes} {manifest : ManifestValidation} {notes : List GraphSourceNote}
    {previous : PreviousCompilationSnapshot} (hindex : ∀ path, indexes.previousState path = previous.at path)
    {documents : List CompileDocumentInput} {upserts : List CompileDocumentUpsert} {diagnostics : List CompileDiagnostic}
    (h : buildUpserts A indexes previous policy policy.chunkPolicy manifest notes documents = .ok (upserts, diagnostics)) :
    List.Forall₂ (Planned A policy previous manifest notes) (documents.filter (needsWork A policy previous)) upserts := by
  induction documents generalizing upserts diagnostics with
  | nil =>
    cases h
    exact .nil
  | cons document rest ih =>
    simp only [buildUpserts, hindex] at h
    cases haction : documentAction (previous.at document.relativePath) (documentSourceHash A document) previous
        policy with
    | none =>
      have idle : needsWork A policy previous document = false := by simp [needsWork, haction]
      simp only [haction] at h
      rw [List.filter_cons_of_neg (by simp [idle])]
      exact ih h
    | some work =>
      have busy : needsWork A policy previous document = true := by simp [needsWork, haction]
      simp only [haction] at h
      rw [List.filter_cons_of_pos busy]
      cases hplan : planDocument A (previous.at document.relativePath) policy.chunkPolicy manifest notes document
          work with
      | error e => simp [hplan, bind, Except.bind] at h
      | ok planned =>
        cases hrest : buildUpserts A indexes previous policy policy.chunkPolicy manifest notes rest with
        | error e => simp [hplan, hrest, bind, Except.bind] at h
        | ok result =>
          simp only [hplan, hrest, bind, Except.bind, pure, Except.pure, Except.ok.injEq, Prod.mk.injEq] at h
          obtain ⟨rfl, -⟩ := h
          exact .cons ⟨work, planned.2, haction, hplan⟩ (ih hrest)

/-- The states of the upserts, errors included. -/
theorem buildUpserts_states (A : Authorities) (policy : CompilePolicy) (indexes : DocumentIndexes)
    (previous : PreviousCompilationSnapshot) (manifest : ManifestValidation) (notes : List GraphSourceNote)
    (documents : List CompileDocumentInput) (hindex : ∀ path, indexes.previousState path = previous.at path) :
    (buildUpserts A indexes previous policy policy.chunkPolicy manifest notes documents).map
        (fun result => result.1.map upsertState) =
      (documents.filter (needsWork A policy previous)).mapM (compiledState A policy) := by
  induction documents with
  | nil => rfl
  | cons document rest ih =>
    simp only [buildUpserts, hindex]
    cases haction : documentAction (previous.at document.relativePath) (documentSourceHash A document) previous
        policy with
    | none =>
      have idle : needsWork A policy previous document = false := by simp [needsWork, haction]
      simp only [List.filter_cons, idle]
      exact ih
    | some work =>
      have busy : needsWork A policy previous document = true := by simp [needsWork, haction]
      rw [List.filter_cons_of_pos busy, List.mapM_cons, ← ih, ← planDocument_state A policy
        (previous.at document.relativePath) manifest notes document work]
      dsimp only
      cases planDocument A (previous.at document.relativePath) policy.chunkPolicy manifest notes document work with
      | error e => rfl
      | ok planned =>
        cases buildUpserts A indexes previous policy policy.chunkPolicy manifest notes rest <;> rfl

/-- The checks of `compile_plan` that do not look at the previous snapshot. -/
def checkCurrent (policy : CompilePolicy) (documents : List CompileDocumentInput) : Except String Unit := do
  validateCompilePolicy policy
  match Keyed.firstRepeated (documents.map (·.relativePath)) with
  | some path => .error (inputInvalid ("duplicate current document path " ++ path))
  | none => .ok ()
  let _ ← (ChunkPolicy.new policy.chunkMaxChars policy.chunkOverlapChars).mapError ("COMPILE_POLICY_INVALID: " ++ ·)
  let _ ← buildHealthyNotes documents
  return ()

def byPath (documents : List CompileDocumentInput) : List CompileDocumentInput :=
  documents.insertionSort fun a b => a.relativePath ≤ b.relativePath

theorem chunkPolicy_new {p : ChunkPolicy} (h : ChunkPolicy.new policy.chunkMaxChars policy.chunkOverlapChars = .ok p) :
    p = policy.chunkPolicy := by
  unfold ChunkPolicy.new at h
  split at h
  · simp at h
  · split at h <;> cases h
    rfl

theorem previousState_eq_at {previous : PreviousCompilationSnapshot}
    (hprev : (previous.documents.map (·.relativePath)).Nodup) (current : List CompileDocumentInput) (path : String) :
    (DocumentIndexes.mk current (previous.documents.insertionSort fun a b => a.relativePath ≤ b.relativePath)).previousState
      path = previous.at path := by
  have hperm := List.perm_insertionSort (fun a b : PreviousDocumentState => a.relativePath ≤ b.relativePath)
    previous.documents
  exact (Keyed.lookup_perm hperm.symm hprev).symm

/-- The compiled states a plan writes, and its errors. -/
theorem compilePlan_states (A : Authorities) (policy : CompilePolicy) (documents : List CompileDocumentInput)
    {previous : PreviousCompilationSnapshot} (hprev : (previous.documents.map (·.relativePath)).Nodup) :
    (compilePlan A ⟨documents⟩ previous policy).map (fun plan => plan.upserts.map upsertState) =
      (checkCurrent policy documents).bind fun _ =>
        ((byPath documents).filter (needsWork A policy previous)).mapM (compiledState A policy) := by
  simp only [compilePlan, checkCurrent, buildDocumentIndexes, (Keyed.firstRepeated_eq_none _).mpr hprev]
  cases validateCompilePolicy policy with
  | error e => rfl
  | ok _ =>
    cases Keyed.firstRepeated (documents.map (·.relativePath)) with
    | some path => rfl
    | none =>
      cases hpolicy : ChunkPolicy.new policy.chunkMaxChars policy.chunkOverlapChars with
      | error e => rfl
      | ok chunkPolicy =>
        cases hnotes : buildHealthyNotes documents with
        | error e => rfl
        | ok notes =>
          have states := buildUpserts_states A policy
            ⟨byPath documents, previous.documents.insertionSort fun a b => a.relativePath ≤ b.relativePath⟩ previous
            (validateManifest A ⟨documents⟩) notes (byPath documents) (previousState_eq_at hprev _)
          rw [chunkPolicy_new hpolicy]
          simp only [bind, Except.bind, Except.mapError, pure, Except.pure]
          rw [← states]
          unfold byPath
          cases buildUpserts A _ previous policy policy.chunkPolicy (validateManifest A ⟨documents⟩) notes _ <;> rfl

section Success
variable {previous : PreviousCompilationSnapshot} {documents : List CompileDocumentInput} {plan : CompilePlan}

def sortedIndexes (documents : List CompileDocumentInput) (previous : PreviousCompilationSnapshot) : DocumentIndexes :=
  ⟨byPath documents, previous.documents.insertionSort fun a b => a.relativePath ≤ b.relativePath⟩

/-- What a successful compile checked and what it put together. -/
theorem compilePlan_inv (h : compilePlan A ⟨documents⟩ previous policy = .ok plan) :
    (documents.map (·.relativePath)).Nodup ∧ (previous.documents.map (·.relativePath)).Nodup ∧
      plan.removals = buildRemovals (sortedIndexes documents previous) ∧
      ∃ manifest notes diagnostics, buildUpserts A (sortedIndexes documents previous) previous policy policy.chunkPolicy
        manifest notes (byPath documents) = .ok (plan.upserts, diagnostics) := by
  simp only [compilePlan, buildDocumentIndexes] at h
  cases hpolicy : validateCompilePolicy policy with
  | error e => simp [hpolicy, bind, Except.bind] at h
  | ok _ =>
    cases hcurrent : Keyed.firstRepeated (documents.map (·.relativePath)) with
    | some path => simp [hpolicy, hcurrent, bind, Except.bind] at h
    | none =>
      cases hprevious : Keyed.firstRepeated (previous.documents.map (·.relativePath)) with
      | some path => simp [hpolicy, hcurrent, hprevious, bind, Except.bind] at h
      | none =>
        refine ⟨(Keyed.firstRepeated_eq_none _).mp hcurrent, (Keyed.firstRepeated_eq_none _).mp hprevious, ?_⟩
        cases hchunk : ChunkPolicy.new policy.chunkMaxChars policy.chunkOverlapChars with
        | error e => simp [hpolicy, hcurrent, hprevious, hchunk, bind, Except.bind, Except.mapError] at h
        | ok chunkPolicy =>
          simp only [hpolicy, hcurrent, hprevious, hchunk, chunkPolicy_new hchunk, bind, Except.bind, Except.mapError,
            pure, Except.pure] at h
          split at h
          · simp at h
          split at h
          · simp at h
          rename_i hupserts
          cases h
          exact ⟨rfl, _, _, _, hupserts⟩

/-- A path is removed when it was compiled before and has no current document. -/
theorem compilePlan_removes (h : compilePlan A ⟨documents⟩ previous policy = .ok plan) (path : String) :
    path ∈ plan.removals.map (·.relativePath) ↔
      path ∈ previous.documents.map (·.relativePath) ∧ path ∉ documents.map (·.relativePath) := by
  obtain ⟨-, -, removals, -⟩ := compilePlan_inv h
  rw [removals]
  simp only [buildRemovals, sortedIndexes, byPath, List.map_map, List.mem_map, List.mem_filter, List.mem_insertionSort,
    Function.comp_def, List.contains_eq_mem, Bool.not_eq_true', decide_eq_false_iff_not]
  constructor
  · rintro ⟨state, ⟨hstate, hnot⟩, rfl⟩
    exact ⟨⟨state, hstate, rfl⟩, hnot⟩
  · rintro ⟨⟨state, hstate, rfl⟩, hnot⟩
    exact ⟨state, ⟨hstate, hnot⟩, rfl⟩

/-- The upserts of a plan next to the documents they are for. -/
theorem compilePlan_planned (h : compilePlan A ⟨documents⟩ previous policy = .ok plan) :
    ∃ manifest notes, List.Forall₂ (Planned A policy previous manifest notes)
      ((byPath documents).filter (needsWork A policy previous)) plan.upserts := by
  obtain ⟨-, hprev, -, manifest, notes, _, hupserts⟩ := compilePlan_inv h
  exact ⟨manifest, notes, buildUpserts_planned (previousState_eq_at hprev _) hupserts⟩

theorem mem_byPath {document : CompileDocumentInput} : document ∈ byPath documents ↔ document ∈ documents :=
  List.mem_insertionSort _

theorem byPath_nodup (h : compilePlan A ⟨documents⟩ previous policy = .ok plan) :
    ((byPath documents).map (·.relativePath)).Nodup :=
  ((List.perm_insertionSort _ documents).map _).nodup_iff.mpr (compilePlan_inv h).1

/-- A skipped document has a previous state with its source hash, at least one chunk and the same key. -/
theorem needsWork_eq_false {document : CompileDocumentInput} :
    needsWork A policy previous document = false ↔
      ∃ state, previous.at document.relativePath = some state ∧ state.sourceHash = documentSourceHash A document ∧
        state.chunkHashes ≠ [] ∧ previous.embeddingFingerprintKey = policy.embeddingFingerprintKey := by
  unfold needsWork documentAction
  cases previous.at document.relativePath with
  | none => simp
  | some state =>
    by_cases hhash : state.sourceHash = documentSourceHash A document
    · by_cases hempty : state.chunkHashes = []
      · simp [hhash, hempty]
      · by_cases hkey : previous.embeddingFingerprintKey = policy.embeddingFingerprintKey <;>
          simp [hhash, hempty, hkey]
    · simp [hhash]

end Success

end Planner

end Alexandria.Compile
