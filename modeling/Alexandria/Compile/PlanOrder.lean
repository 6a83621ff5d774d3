import Alexandria.Compile.Fingerprint
import Alexandria.Compile.Projection
import Alexandria.Foundations.Lists
import Alexandria.Manifest.InputOrder

/-! # The plan and the order of its input

The planner sorts the documents and the previous states by their paths, and links are resolved by how many notes they
fit. What is left of the input order are the issues of the manifest, which come in the order of the documents.
-/

namespace Alexandria.Compile
set_option autoImplicit false

open Manifest (KeyOrder Untangled manifestIssues acceptedCandidates)

/-! ## Notes in another order -/

section Notes
variable {documents others : List CompileDocumentInput} {notes : List GraphSourceNote}

theorem buildHealthyNote_noteId (document : CompileDocumentInput) (note : GraphSourceNote)
    (h : buildHealthyNote document = .ok note) : note.noteId = document.noteId := by
  unfold buildHealthyNote at h
  obtain ⟨-, -, h⟩ := Keyed.bind_eq_ok h
  obtain ⟨-, -, h⟩ := Keyed.bind_eq_ok h
  cases h
  rfl

theorem buildHealthyNotes_perm (hperm : others.Perm documents) (h : buildHealthyNotes documents = .ok notes) :
    ∃ notes', buildHealthyNotes others = .ok notes' ∧ notes'.Perm notes := by
  obtain ⟨notes', hnotes, hsame⟩ := List.perm_comp_forall₂ hperm (Keyed.mapM_eq_ok.mp h)
  exact ⟨notes', Keyed.mapM_eq_ok.mpr hnotes, hsame⟩

theorem buildHealthyNotes_ids (h : buildHealthyNotes documents = .ok notes) :
    notes.map (·.noteId) = documents.map (·.noteId) := Keyed.map_key_mapM buildHealthyNote_noteId h

end Notes

/-! ## One document -/

section Document
variable (A : Authorities)

theorem buildUpserts_validating (order : KeyOrder) (indexes : DocumentIndexes) (previous : PreviousCompilationSnapshot)
    (policy : CompilePolicy) (chunkPolicy : ChunkPolicy) (manifest : ManifestValidation) (notes : List GraphSourceNote)
    (documents : List CompileDocumentInput) :
    buildUpserts (A.validating order) indexes previous policy chunkPolicy manifest notes documents =
      buildUpserts A indexes previous policy chunkPolicy manifest notes documents := by
  induction documents with
  | nil => rfl
  | cons document rest ih =>
    unfold buildUpserts
    simp only
    rw [ih]
    rfl

variable {A} {notes notes' : List GraphSourceNote}

theorem buildEdgePlans_perm (hperm : notes'.Perm notes) (hids : (notes.map (·.noteId)).Nodup)
    (document : CompileDocumentInput) (previousState : Option PreviousDocumentState) :
    buildEdgePlans A document previousState notes' = buildEdgePlans A document previousState notes := by
  have hedge : planEdge A previousState notes' = planEdge A previousState notes := by
    funext candidate
    unfold planEdge
    rw [resolveTargetReference_perm hperm.symm hids]
  unfold buildEdgePlans
  rw [hedge]

/-- The manifest decides only whether the document counts as accepted. -/
theorem planDocument_manifest (hperm : notes'.Perm notes) (hids : (notes.map (·.noteId)).Nodup)
    (manifest manifest' : ManifestValidation) (previousState : Option PreviousDocumentState) (chunkPolicy : ChunkPolicy)
    (document : CompileDocumentInput) (work : CompileDocumentAction × EmbeddingDocumentDelta) :
    planDocument A previousState chunkPolicy manifest' notes' document work =
      (planDocument A previousState chunkPolicy manifest notes document work).map fun planned =>
        ({ planned.1 with manifestAccepted := documentManifestAccepted document manifest' }, planned.2) := by
  unfold planDocument
  rw [buildEdgePlans_perm hperm hids]
  simp only
  cases buildChunkPlans A document previousState (documentSourceHash A document) chunkPolicy with
  | error text => rfl
  | ok chunks => cases buildEdgePlans A document previousState notes <;> rfl

theorem planDocument_accepted {previousState : Option PreviousDocumentState} {chunkPolicy : ChunkPolicy}
    {manifest : ManifestValidation} {document : CompileDocumentInput}
    {work : CompileDocumentAction × EmbeddingDocumentDelta} {planned : CompileDocumentUpsert × List CompileDiagnostic}
    (h : planDocument A previousState chunkPolicy manifest notes document work = .ok planned) :
    planned.1.manifestAccepted = documentManifestAccepted document manifest := by
  unfold planDocument at h
  obtain ⟨chunks, -, h⟩ := Keyed.bind_eq_ok h
  obtain ⟨edgePlans, -, h⟩ := Keyed.bind_eq_ok h
  cases h
  rfl

theorem planDocument_eq (hperm : notes'.Perm notes) (hids : (notes.map (·.noteId)).Nodup)
    {manifest manifest' : ManifestValidation} {document : CompileDocumentInput}
    (hsame : documentManifestAccepted document manifest' = documentManifestAccepted document manifest)
    (previousState : Option PreviousDocumentState) (chunkPolicy : ChunkPolicy)
    (work : CompileDocumentAction × EmbeddingDocumentDelta) :
    planDocument A previousState chunkPolicy manifest' notes' document work =
      planDocument A previousState chunkPolicy manifest notes document work := by
  rw [planDocument_manifest hperm hids manifest manifest', hsame]
  cases hplanned : planDocument A previousState chunkPolicy manifest notes document work with
  | error text => rfl
  | ok planned =>
    rw [← planDocument_accepted hplanned]
    rfl

/-! ## All documents -/

variable {indexes : DocumentIndexes} {previous previous' : PreviousCompilationSnapshot} {policy : CompilePolicy}
  {chunkPolicy : ChunkPolicy} {manifest manifest' : ManifestValidation}

theorem documentAction_key (hkey : previous'.embeddingFingerprintKey = previous.embeddingFingerprintKey)
    (previousState : Option PreviousDocumentState) (sourceHash : String) :
    documentAction previousState sourceHash previous' policy = documentAction previousState sourceHash previous policy := by
  unfold documentAction
  rw [hkey]

theorem buildUpserts_eq (hperm : notes'.Perm notes) (hids : (notes.map (·.noteId)).Nodup)
    (hkey : previous'.embeddingFingerprintKey = previous.embeddingFingerprintKey) {documents : List CompileDocumentInput}
    (hsame : ∀ d ∈ documents, documentManifestAccepted d manifest' = documentManifestAccepted d manifest) :
    buildUpserts A indexes previous' policy chunkPolicy manifest' notes' documents =
      buildUpserts A indexes previous policy chunkPolicy manifest notes documents := by
  induction documents with
  | nil => rfl
  | cons document rest ih =>
    unfold buildUpserts
    simp only
    rw [documentAction_key hkey, ih fun d hd => hsame d (List.mem_cons_of_mem document hd)]
    cases documentAction (indexes.previousState document.relativePath) (documentSourceHash A document) previous policy with
    | none => rfl
    | some work =>
      simp only
      rw [planDocument_eq hperm hids (hsame document (List.mem_cons_self ..))]

/-- The diagnostics about links do not depend on the manifest. -/
theorem buildUpserts_diagnostics (hperm : notes'.Perm notes) (hids : (notes.map (·.noteId)).Nodup)
    {documents : List CompileDocumentInput} :
    (buildUpserts A indexes previous policy chunkPolicy manifest' notes' documents).map Prod.snd =
      (buildUpserts A indexes previous policy chunkPolicy manifest notes documents).map Prod.snd := by
  induction documents with
  | nil => rfl
  | cons document rest ih =>
    unfold buildUpserts
    simp only
    cases documentAction (indexes.previousState document.relativePath) (documentSourceHash A document) previous policy with
    | none => exact ih
    | some work =>
      simp only
      rw [planDocument_manifest hperm hids manifest manifest']
      cases planDocument A (indexes.previousState document.relativePath) chunkPolicy manifest notes document work with
      | error text => rfl
      | ok planned =>
        cases hrest : buildUpserts A indexes previous policy chunkPolicy manifest notes rest with
        | error text =>
          rw [hrest] at ih
          rw [Keyed.map_eq_error ih]
          rfl
        | ok result =>
          rw [hrest] at ih
          obtain ⟨result', hresult', hdiagnostics⟩ := Keyed.map_eq_ok ih
          rw [hresult']
          show Except.ok (planned.2 ++ result'.2) = Except.ok (planned.2 ++ result.2)
          rw [hdiagnostics]

end Document

/-! ## What a plan is put together from -/

section Parts
variable {A : Authorities} {policy : CompilePolicy} {documents others : List CompileDocumentInput}
  {previous previous' : PreviousCompilationSnapshot} {plan : CompilePlan}

/-- The checks of a compile, its notes, its upserts and its diagnostics about links. -/
structure Parts (A : Authorities) (documents : List CompileDocumentInput) (previous : PreviousCompilationSnapshot)
    (policy : CompilePolicy) (notes : List GraphSourceNote)
    (result : List CompileDocumentUpsert × List CompileDiagnostic) : Prop where
  policyValid : validateCompilePolicy policy = .ok ()
  paths : (documents.map (·.relativePath)).Nodup
  previousPaths : (previous.documents.map (·.relativePath)).Nodup
  chunkPolicy : ChunkPolicy.new policy.chunkMaxChars policy.chunkOverlapChars = .ok policy.chunkPolicy
  healthyNotes : buildHealthyNotes documents = .ok notes
  upserts : buildUpserts A (sortedIndexes documents previous) previous policy policy.chunkPolicy
    (validateManifest A ⟨documents⟩) notes (byPath documents) = .ok result

theorem buildDocumentIndexes_ok {indexes : DocumentIndexes}
    (h : buildDocumentIndexes ⟨documents⟩ previous = .ok indexes) : (documents.map (·.relativePath)).Nodup ∧
      (previous.documents.map (·.relativePath)).Nodup ∧ indexes = sortedIndexes documents previous := by
  unfold buildDocumentIndexes at h
  split at h
  · cases h
  · cases h
  · rename_i hcurrent hprevious
    cases h
    exact ⟨(Keyed.firstRepeated_eq_none _).mp hcurrent, (Keyed.firstRepeated_eq_none _).mp hprevious, rfl⟩

theorem compilePlan_parts (h : compilePlan A ⟨documents⟩ previous policy = .ok plan) : ∃ notes upserts diagnostics,
    Parts A documents previous policy notes (upserts, diagnostics) ∧
      plan = assemblePlan A policy (sortedIndexes documents previous) (validateManifest A ⟨documents⟩) upserts
        diagnostics := by
  obtain ⟨hvalid, hchunk, -, -⟩ := compilePlan_fingerprint h
  unfold compilePlan at h
  obtain ⟨⟨⟩, -, hrest⟩ := Keyed.bind_eq_ok h
  obtain ⟨indexes, hindexes, hrest⟩ := Keyed.bind_eq_ok hrest
  obtain ⟨hpaths, hprevious, rfl⟩ := buildDocumentIndexes_ok hindexes
  obtain ⟨chunkPolicy, hnew, hrest⟩ := Keyed.bind_eq_ok hrest
  rw [hchunk] at hnew
  obtain rfl := Except.ok.inj hnew
  obtain ⟨notes, hnotes, hrest⟩ := Keyed.bind_eq_ok hrest
  obtain ⟨result, hresult, hassembled⟩ := Keyed.bind_eq_ok hrest
  cases hassembled
  exact ⟨notes, result.1, result.2, ⟨hvalid, hpaths, hprevious, hchunk, hnotes, hresult⟩, rfl⟩

theorem Parts.compiles {notes : List GraphSourceNote} {result : List CompileDocumentUpsert × List CompileDiagnostic}
    (h : Parts A documents previous policy notes result) : compilePlan A ⟨documents⟩ previous policy =
      .ok (assemblePlan A policy (sortedIndexes documents previous) (validateManifest A ⟨documents⟩) result.1 result.2) := by
  have hindexes : buildDocumentIndexes ⟨documents⟩ previous = .ok (sortedIndexes documents previous) := by
    unfold buildDocumentIndexes
    rw [(Keyed.firstRepeated_eq_none _).mpr h.paths, (Keyed.firstRepeated_eq_none _).mpr h.previousPaths]
    rfl
  have hupserts := h.upserts
  unfold compilePlan
  rw [h.policyValid, hindexes, h.chunkPolicy, h.healthyNotes]
  show (buildUpserts A (sortedIndexes documents previous) previous policy policy.chunkPolicy
    (validateManifest A ⟨documents⟩) notes (byPath documents) >>= fun result => _) = _
  rw [hupserts]
  rfl

theorem sortedIndexes_perm (hpaths : (documents.map (·.relativePath)).Nodup)
    (hprevious : (previous.documents.map (·.relativePath)).Nodup) (hperm : others.Perm documents)
    (hstates : previous'.documents.Perm previous.documents) :
    sortedIndexes others previous' = sortedIndexes documents previous := by
  have hcurrent : byPath others = byPath documents := by
    refine Lists.insertionSort_perm (fun d : CompileDocumentInput => d.relativePath) hperm fun a ha b hb hab => ?_
    exact List.inj_on_of_nodup_map hpaths (hperm.mem_iff.mp ha) (hperm.mem_iff.mp hb) hab
  have hsorted : (previous'.documents.insertionSort fun a b => a.relativePath ≤ b.relativePath) =
      previous.documents.insertionSort fun a b => a.relativePath ≤ b.relativePath := by
    refine Lists.insertionSort_perm (fun s : PreviousDocumentState => s.relativePath) hstates fun a ha b hb hab => ?_
    exact List.inj_on_of_nodup_map hprevious (hstates.mem_iff.mp ha) (hstates.mem_iff.mp hb) hab
  unfold sortedIndexes
  rw [hcurrent, hsorted]

end Parts

/-! ## The manifest of the documents -/

/-- A manifest candidate has the id and the path of its document, as the vault scan builds it. -/
def Mirrored (documents : List CompileDocumentInput) : Prop :=
  ∀ d ∈ documents, ∀ c, d.manifestCandidate = some c → c.noteId = d.noteId ∧ c.relativePath = d.relativePath

section Manifest
variable {A : Authorities} {documents others : List CompileDocumentInput}

def manifestCandidates (documents : List CompileDocumentInput) : List ContextReindexManifestCandidate :=
  documents.filterMap (·.manifestCandidate)

theorem mirrored_nodup {key : CompileDocumentInput → String} {key' : ContextReindexManifestCandidate → String}
    (hsame : ∀ d ∈ documents, ∀ c, d.manifestCandidate = some c → key' c = key d)
    (hnodup : (documents.map key).Nodup) : ((manifestCandidates documents).map key').Nodup := by
  unfold manifestCandidates
  induction documents with
  | nil => exact List.nodup_nil
  | cons d rest ih =>
    rw [List.map_cons, List.nodup_cons] at hnodup
    have hrest := ih (fun e he => hsame e (List.mem_cons_of_mem d he)) hnodup.2
    cases hcandidate : d.manifestCandidate with
    | none =>
      rw [List.filterMap_cons_none hcandidate]
      exact hrest
    | some c =>
      rw [List.filterMap_cons_some hcandidate, List.map_cons, List.nodup_cons]
      refine ⟨?_, hrest⟩
      intro hmem
      obtain ⟨other, hother, hkey⟩ := List.mem_map.mp hmem
      obtain ⟨e, he, hfrom⟩ := List.mem_filterMap.mp hother
      rw [hsame e (List.mem_cons_of_mem d he) other hfrom, hsame d (List.mem_cons_self ..) c hcandidate] at hkey
      exact hnodup.1 (hkey ▸ List.mem_map_of_mem he)

/-- Every order of the candidates is that of some order of the documents. -/
theorem exists_documents_perm {candidates : List ContextReindexManifestCandidate}
    (hperm : candidates.Perm (manifestCandidates documents)) :
    ∃ others, others.Perm documents ∧ manifestCandidates others = candidates := by
  induction candidates generalizing documents with
  | nil => exact ⟨documents, List.Perm.refl _, List.nil_perm.mp hperm⟩
  | cons c rest ih =>
    obtain ⟨d, hd, hfrom⟩ := List.mem_filterMap.mp (hperm.mem_iff.mp (List.mem_cons_self ..))
    obtain ⟨before, after, rfl⟩ := List.append_of_mem hd
    have hmiddle : (before ++ d :: after).Perm (d :: (before ++ after)) := List.perm_middle
    have hrest : rest.Perm (manifestCandidates (before ++ after)) := by
      have hcandidates : (manifestCandidates (before ++ d :: after)).Perm (manifestCandidates (d :: (before ++ after))) :=
        hmiddle.filterMap _
      have hfirst : manifestCandidates (d :: (before ++ after)) = c :: manifestCandidates (before ++ after) :=
        List.filterMap_cons_some hfrom
      rw [hfirst] at hcandidates
      exact (hperm.trans hcandidates).cons_inv
    obtain ⟨others, hothers, hsame⟩ := ih hrest
    refine ⟨d :: others, (hothers.cons d).trans hmiddle.symm, ?_⟩
    unfold manifestCandidates at hsame ⊢
    rw [List.filterMap_cons_some hfrom, hsame]

/-- A document with a candidate counts as accepted when the candidate is. -/
theorem documentManifestAccepted_iff {order : KeyOrder} (hids : ((manifestCandidates documents).map (·.noteId)).Nodup)
    {result : ContextReindexManifestResult}
    (hresult : Manifest.validateContextReindexManifest order (manifestCandidates documents) = some result)
    {d : CompileDocumentInput} {c : ContextReindexManifestCandidate} (hd : d ∈ documents)
    (hfrom : d.manifestCandidate = some c) :
    documentManifestAccepted d (validateManifest (A.validating order) ⟨documents⟩) = true ↔
      c ∈ acceptedCandidates (manifestCandidates documents) result := by
  have hc : c ∈ manifestCandidates documents := List.mem_filterMap.mpr ⟨d, hd, hfrom⟩
  have hvalidated : validateManifest (A.validating order) ⟨documents⟩ = ⟨manifestCandidates documents, result,
      result.acceptedIndices.filterMap fun index => (manifestCandidates documents)[index]?.map fun candidate =>
        (index, candidate.canonicalRelativePath)⟩ := by
    unfold validateManifest
    have hfound : (A.validating order).validateContextReindexManifest (documents.filterMap (·.manifestCandidate)) = result :=
      congrArg (fun found => found.getD ⟨[], []⟩) hresult
    simp only
    rw [hfound]
    rfl
  unfold documentManifestAccepted acceptedCandidates
  rw [hfrom, hvalidated]
  simp only [List.any_eq_true, Bool.and_eq_true, beq_iff_eq, List.contains_iff_mem]
  constructor
  · rintro ⟨⟨accepted, index⟩, hmem, ⟨hid, -⟩, hkey⟩
    have hat := List.mem_zipIdx_iff_getElem?.mp hmem
    simp only at hat hid hkey
    obtain ⟨found, hindex, hentry⟩ := List.mem_filterMap.mp hkey
    obtain ⟨candidate, -, hpair⟩ := Option.map_eq_some_iff.mp hentry
    obtain rfl : found = index := (Prod.mk.inj hpair).1
    have hsame : accepted = c := List.inj_on_of_nodup_map hids (List.mem_of_getElem? hat) hc hid
    exact List.mem_filterMap.mpr ⟨found, hindex, hsame ▸ hat⟩
  · intro hmem
    obtain ⟨index, hindex, hat⟩ := List.mem_filterMap.mp hmem
    refine ⟨(c, index), List.mem_zipIdx_iff_getElem?.mpr hat, ⟨rfl, rfl⟩, ?_⟩
    exact List.mem_filterMap.mpr ⟨index, hindex, by rw [hat]; rfl⟩

end Manifest

/-! ## The whole plan -/

/-- The planner gives this plan for every order of the documents, of the previous states and of its hash maps. -/
def PlanIgnoresOrder (A : Authorities) (current : CurrentSourceSnapshot) (previous : PreviousCompilationSnapshot)
    (policy : CompilePolicy) (plan : CompilePlan) : Prop :=
  ∀ (order : KeyOrder) (current' : CurrentSourceSnapshot) (previous' : PreviousCompilationSnapshot),
    current'.documents.Perm current.documents → previous'.documents.Perm previous.documents →
      previous'.embeddingFingerprintKey = previous.embeddingFingerprintKey →
      compilePlan (A.validating order) current' previous' policy = .ok plan

section Plan
variable {A : Authorities} {policy : CompilePolicy} {documents others : List CompileDocumentInput}
  {previous previous' : PreviousCompilationSnapshot} {plan : CompilePlan}

/-- Another order compiles as well, with the same diagnostics about links. -/
theorem Parts.permuted {order order' : KeyOrder} {notes : List GraphSourceNote}
    {result : List CompileDocumentUpsert × List CompileDiagnostic}
    (h : Parts (A.validating order) documents previous policy notes result)
    (hids : (documents.map (·.noteId)).Nodup) (hperm : others.Perm documents)
    (hstates : previous'.documents.Perm previous.documents)
    (hkey : previous'.embeddingFingerprintKey = previous.embeddingFingerprintKey) : ∃ notes' result',
      Parts (A.validating order') others previous' policy notes' result' ∧ result'.2 = result.2 ∧
      ((∀ d ∈ documents, documentManifestAccepted d (validateManifest (A.validating order') ⟨others⟩) =
        documentManifestAccepted d (validateManifest (A.validating order) ⟨documents⟩)) → result' = result) := by
  obtain ⟨notes', hnotes', hsame⟩ := buildHealthyNotes_perm hperm h.healthyNotes
  have hnoteIds : (notes.map (·.noteId)).Nodup := by
    rw [buildHealthyNotes_ids h.healthyNotes]
    exact hids
  have hindexes := sortedIndexes_perm h.paths h.previousPaths hperm hstates
  have hbyPath : byPath others = byPath documents := congrArg DocumentIndexes.currentByPath hindexes
  have hupserts := h.upserts
  rw [buildUpserts_validating] at hupserts
  have hdiagnostics : (buildUpserts A (sortedIndexes documents previous) previous policy policy.chunkPolicy
        (validateManifest (A.validating order') ⟨others⟩) notes' (byPath documents)).map Prod.snd =
      (buildUpserts A (sortedIndexes documents previous) previous policy policy.chunkPolicy
        (validateManifest (A.validating order) ⟨documents⟩) notes (byPath documents)).map Prod.snd :=
    buildUpserts_diagnostics hsame hnoteIds
  rw [hupserts] at hdiagnostics
  obtain ⟨result', hresult', hsecond⟩ := Keyed.map_eq_ok hdiagnostics
  rw [← buildUpserts_eq (List.Perm.refl notes') ((hsame.map _).nodup_iff.mpr hnoteIds) hkey fun _ _ => rfl] at hresult'
  refine ⟨notes', result', ⟨h.policyValid, ?_, ?_, h.chunkPolicy, hnotes', ?_⟩, hsecond, ?_⟩
  · exact (hperm.map _).nodup_iff.mpr h.paths
  · exact (hstates.map _).nodup_iff.mpr h.previousPaths
  · rw [buildUpserts_validating, hindexes, hbyPath]
    exact hresult'
  · intro haccepted
    have hequal := hresult'
    rw [buildUpserts_eq hsame hnoteIds hkey fun d hd => haccepted d (mem_byPath.mp hd), hupserts] at hequal
    exact (Except.ok.inj hequal).symm

theorem manifestDiagnostics_injective : Function.Injective manifestDiagnostics := by
  refine List.map_injective_iff.mpr fun first second h => ?_
  obtain ⟨relativePath, contextId, message⟩ := first
  obtain ⟨relativePath', contextId', message'⟩ := second
  rw [CompileDiagnostic.mk.injEq] at h
  rw [ContextReindexManifestIssue.mk.injEq]
  exact h

theorem validateManifest_issues {order : KeyOrder} {result : ContextReindexManifestResult}
    (h : Manifest.validateContextReindexManifest order (manifestCandidates documents) = some result) :
    (validateManifest (A.validating order) ⟨documents⟩).result = result :=
  congrArg (fun found => found.getD ⟨[], []⟩) h

/-- The plan shows the issues of the manifest, so they are the same for every order if the plan is. -/
theorem PlanIgnoresOrder.issues {order : KeyOrder} (hids : (documents.map (·.noteId)).Nodup)
    (hplan : compilePlan (A.validating order) ⟨documents⟩ previous policy = .ok plan)
    (h : PlanIgnoresOrder A ⟨documents⟩ previous policy plan) {candidates : List ContextReindexManifestCandidate}
    (hperm : candidates.Perm (manifestCandidates documents)) :
    manifestIssues order candidates = manifestIssues order (manifestCandidates documents) := by
  obtain ⟨others, hothers, rfl⟩ := exists_documents_perm hperm
  obtain ⟨notes, upserts, diagnostics, hparts, hassembled⟩ := compilePlan_parts hplan
  obtain ⟨notes', result', hparts', hsecond, -⟩ := hparts.permuted hids hothers (List.Perm.refl _) rfl
  have hsame := (hparts'.compiles).symm.trans (h order ⟨others⟩ previous hothers (List.Perm.refl _) rfl)
  have hdiagnostics := congrArg CompilePlan.diagnostics (Except.ok.inj hsame)
  rw [hassembled] at hdiagnostics
  obtain ⟨found, -, hfound, -⟩ := Manifest.validate_accepted (manifestCandidates documents) order
  obtain ⟨found', -, hfound', -⟩ := Manifest.validate_accepted (manifestCandidates others) order
  unfold assemblePlan at hdiagnostics
  simp only at hdiagnostics
  rw [hsecond, validateManifest_issues hfound, validateManifest_issues hfound', List.append_left_inj] at hdiagnostics
  unfold manifestIssues
  rw [hfound, hfound', Option.map_some, Option.map_some, manifestDiagnostics_injective hdiagnostics]

/-- The plan does not depend on the input order exactly when the manifest candidates are untangled. -/
theorem plan_ignores_order_iff (A : Authorities) (order : KeyOrder) (current : CurrentSourceSnapshot)
    (previous : PreviousCompilationSnapshot) (policy : CompilePolicy) (plan : CompilePlan)
    (hids : (current.documents.map (·.noteId)).Nodup) (hmirrored : Mirrored current.documents)
    (hplan : compilePlan (A.validating order) current previous policy = .ok plan) :
    PlanIgnoresOrder A current previous policy plan ↔ Untangled (manifestCandidates current.documents) := by
  obtain ⟨documents⟩ := current
  obtain ⟨notes, upserts, diagnostics, hparts, hassembled⟩ := compilePlan_parts hplan
  have hnoteIds : ((manifestCandidates documents).map (·.noteId)).Nodup :=
    mirrored_nodup (fun d hd c hc => (hmirrored d hd c hc).1) hids
  have hrelative : ((manifestCandidates documents).map (·.relativePath)).Nodup :=
    mirrored_nodup (fun d hd c hc => (hmirrored d hd c hc).2) hparts.paths
  constructor
  · intro h
    exact Untangled.of_fixed hnoteIds hrelative fun others hperm => h.issues hids hplan hperm
  · intro huntangled order' current' previous' hperm hstates hkey
    obtain ⟨others⟩ := current'
    have hcandidates : (manifestCandidates others).Perm (manifestCandidates documents) := hperm.filterMap _
    have hotherIds : ((manifestCandidates others).map (·.noteId)).Nodup := (hcandidates.map _).nodup_iff.mpr hnoteIds
    obtain ⟨found, found', hfound, hfound', hissues, haccepted⟩ := huntangled.fixed hcandidates order order'
    have hflags : ∀ d ∈ documents, documentManifestAccepted d (validateManifest (A.validating order') ⟨others⟩) =
        documentManifestAccepted d (validateManifest (A.validating order) ⟨documents⟩) := by
      intro d hd
      cases hfrom : d.manifestCandidate with
      | none =>
        unfold documentManifestAccepted
        rw [hfrom]
      | some c =>
        rw [Bool.eq_iff_iff, documentManifestAccepted_iff hotherIds hfound' (hperm.mem_iff.mpr hd) hfrom,
          documentManifestAccepted_iff hnoteIds hfound hd hfrom, haccepted]
    obtain ⟨notes', result', hparts', -, hsame⟩ := hparts.permuted hids hperm hstates hkey
    rw [hparts'.compiles, hsame hflags, hassembled, sortedIndexes_perm hparts.paths hparts.previousPaths hperm hstates]
    congr 1
    unfold assemblePlan
    simp only
    rw [validateManifest_issues hfound, validateManifest_issues hfound', hissues]
    rfl

end Plan

/-- A note with a Context of its own. -/
def contextDocument (noteId contentHash : String) : CompileDocumentInput :=
  { plainNote contentHash "c" "e" with
    noteId := noteId, relativePath := noteId ++ ".md"
    providedEdges := some []
    manifestCandidate := some (Manifest.sampleContext noteId contentHash none none) }

theorem plan_ignores_order_apart : ∃ plan,
    compilePlan (plainAuthorities.validating Manifest.storedOrder)
      ⟨[contextDocument "a" "h1", contextDocument "b" "h2"]⟩ (emptySnapshot "model-1") plainPolicy = .ok plan ∧
    PlanIgnoresOrder plainAuthorities ⟨[contextDocument "a" "h1", contextDocument "b" "h2"]⟩ (emptySnapshot "model-1")
      plainPolicy plan := by
  have hcompiles : (compilePlan (plainAuthorities.validating Manifest.storedOrder)
      ⟨[contextDocument "a" "h1", contextDocument "b" "h2"]⟩ (emptySnapshot "model-1") plainPolicy).toOption.isSome =
      true := by decide
  obtain ⟨plan, hplan⟩ := Option.isSome_iff_exists.mp hcompiles
  refine ⟨plan, toOption_eq_some hplan, ?_⟩
  refine (plan_ignores_order_iff plainAuthorities Manifest.storedOrder _ (emptySnapshot "model-1") plainPolicy plan
    (by decide) ?_ (toOption_eq_some hplan)).mpr ?_
  · intro d hd c hc
    obtain rfl | rfl : d = contextDocument "a" "h1" ∨ d = contextDocument "b" "h2" := by simpa using hd
    · cases hc
      exact ⟨rfl, rfl⟩
    · cases hc
      exact ⟨rfl, rfl⟩
  · refine ⟨⟨by decide, by decide, by decide⟩, ?_, ?_⟩
    · intro c hc d hd target htarget
      have hnone : ∀ c ∈ (manifestCandidates [contextDocument "a" "h1", contextDocument "b" "h2"]).filter (·.isContext),
          c.supersedesContextId = none := by decide
      rw [hnone c hc] at htarget
      cases htarget
    · intro c hc d hd hfault
      have hreasons : Manifest.invalidSupersedeReasons Manifest.storedOrder
          ((manifestCandidates [contextDocument "a" "h1", contextDocument "b" "h2"]).filter (·.isContext)) = some ∅ := rfl
      rw [← Manifest.mem_reasons_iff Manifest.storedOrder (by decide) hreasons] at hfault
      exact absurd hfault (AList.notMem_empty _)

/-- Of two Contexts with one identity the later one is reported, whichever that is. -/
theorem plan_shows_order : ∃ first second,
    compilePlan (plainAuthorities.validating Manifest.storedOrder)
      ⟨[contextDocument "a" "h", contextDocument "b" "h"]⟩ (emptySnapshot "model-1") plainPolicy = .ok first ∧
    compilePlan (plainAuthorities.validating Manifest.storedOrder)
      ⟨[contextDocument "b" "h", contextDocument "a" "h"]⟩ (emptySnapshot "model-1") plainPolicy = .ok second ∧
    first.diagnostics.map (·.contextId) = ["b"] ∧ second.diagnostics.map (·.contextId) = ["a"] ∧
    ¬ PlanIgnoresOrder plainAuthorities ⟨[contextDocument "a" "h", contextDocument "b" "h"]⟩ (emptySnapshot "model-1")
      plainPolicy first := by
  have hfirst : ((compilePlan (plainAuthorities.validating Manifest.storedOrder)
      ⟨[contextDocument "a" "h", contextDocument "b" "h"]⟩ (emptySnapshot "model-1") plainPolicy).toOption.map
      fun plan => plan.diagnostics.map (·.contextId)) = some ["b"] := by decide
  have hsecond : ((compilePlan (plainAuthorities.validating Manifest.storedOrder)
      ⟨[contextDocument "b" "h", contextDocument "a" "h"]⟩ (emptySnapshot "model-1") plainPolicy).toOption.map
      fun plan => plan.diagnostics.map (·.contextId)) = some ["a"] := by decide
  obtain ⟨first, hplan, hdiagnostics⟩ := Option.map_eq_some_iff.mp hfirst
  obtain ⟨second, hplan', hdiagnostics'⟩ := Option.map_eq_some_iff.mp hsecond
  refine ⟨first, second, toOption_eq_some hplan, toOption_eq_some hplan', hdiagnostics, hdiagnostics', ?_⟩
  intro h
  have hother := h Manifest.storedOrder ⟨[contextDocument "b" "h", contextDocument "a" "h"]⟩ (emptySnapshot "model-1")
    (List.Perm.swap _ _ _) (List.Perm.refl _) rfl
  have hsame := Except.ok.inj ((toOption_eq_some hplan').symm.trans hother)
  rw [hsame, hdiagnostics] at hdiagnostics'
  exact absurd hdiagnostics' (by decide)

end Alexandria.Compile
