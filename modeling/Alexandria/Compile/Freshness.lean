import Alexandria.Compile.Incremental

/-! # Embedding freshness

When the embedding key changes, every chunk of every document has to be embedded again. An added document
and a document with an unchanged source get a delta for all their chunks; a document whose source changed
gets one for the changed chunks only, whether or not the key changed with it. The request is therefore
answered completely exactly when no edited document keeps a chunk.
-/

namespace Alexandria.Compile
set_option autoImplicit false

/-! ## The property and its condition -/

/-- The delta asks for every chunk of the upsert; no indexes at all mean every chunk. -/
def CompileDocumentUpsert.reembedsAll (upsert : CompileDocumentUpsert) : Prop :=
  upsert.embedding.action = .reembed ∧
    (upsert.embedding.chunkIndexes = [] ∨ ∀ i < upsert.chunks.length, i ∈ upsert.embedding.chunkIndexes)

/-- Every current document with a chunk is upserted with a delta for all its chunks. -/
def EmbedsEverything (A : Authorities) (policy : CompilePolicy) (documents : List CompileDocumentInput)
    (plan : CompilePlan) : Prop :=
  ∀ document ∈ documents, ∀ hashes, documentChunkHashes A policy document = .ok hashes → hashes ≠ [] →
    ∃ upsert ∈ plan.upserts, upsert.relativePath = document.relativePath ∧ upsert.reembedsAll

/-- No edited document has a chunk with the hash it had before at the same index. -/
def EditsEveryChunk (A : Authorities) (policy : CompilePolicy) (documents : List CompileDocumentInput)
    (previous : PreviousCompilationSnapshot) : Prop :=
  ∀ document ∈ documents, ∀ hashes, documentChunkHashes A policy document = .ok hashes →
    ∀ state, previous.at document.relativePath = some state → state.sourceHash ≠ documentSourceHash A document →
      ∀ (i : ℕ) hash, hashes[i]? = some hash → state.chunkHashes[i]? ≠ some hash

/-! ## The changed chunks -/

theorem planChunks_length (previousState : Option PreviousDocumentState) (sourceHash : String) (index : ℕ)
    (records : List (Option ChunkRecord × String)) :
    (planChunks previousState sourceHash index records).1.length = records.length := by
  have hashes := congrArg List.length (planChunks_hashes previousState sourceHash index records)
  simpa using hashes

/-- The changed indexes are those of the chunks whose action is not keep. -/
theorem mem_planChunks_changed (previousState : Option PreviousDocumentState) (sourceHash : String) (index i : ℕ)
    (records : List (Option ChunkRecord × String)) :
    i ∈ (planChunks previousState sourceHash index records).2 ↔
      ∃ k hash, (records.map (·.2))[k]? = some hash ∧ i = index + k ∧
        (chunkAction previousState sourceHash i hash).2 = true := by
  induction records generalizing index with
  | nil => simp [planChunks]
  | cons head rest ih =>
    obtain ⟨record, contentHash⟩ := head
    have unfolded : i ∈ (planChunks previousState sourceHash index ((record, contentHash) :: rest)).2 ↔
        (i = index ∧ (chunkAction previousState sourceHash index contentHash).2 = true) ∨
          i ∈ (planChunks previousState sourceHash (index + 1) rest).2 := by
      by_cases hchanged : (chunkAction previousState sourceHash index contentHash).2 = true <;>
        simp [planChunks, hchanged]
    rw [unfolded, ih]
    constructor
    · rintro (⟨rfl, hchanged⟩ | ⟨k, hash, hk, rfl, hchanged⟩)
      · exact ⟨0, contentHash, rfl, rfl, hchanged⟩
      · exact ⟨k + 1, hash, by simpa using hk, by omega, hchanged⟩
    · rintro ⟨k, hash, hk, rfl, hchanged⟩
      cases k with
      | zero =>
        have : contentHash = hash := by simpa using hk
        exact .inl ⟨rfl, by simpa [this] using hchanged⟩
      | succ k => exact .inr ⟨k, hash, by simpa using hk, by omega, hchanged⟩

/-- In an edited document a chunk counts as changed unless the same index had the same hash. -/
theorem chunkAction_edited {state : PreviousDocumentState} {sourceHash : String} (h : state.sourceHash ≠ sourceHash)
    (i : ℕ) (hash : String) :
    (chunkAction (some state) sourceHash i hash).2 = true ↔ state.chunkHashes[i]? ≠ some hash := by
  cases hi : state.chunkHashes[i]? with
  | none => simp [chunkAction, h, hi]
  | some previousHash => by_cases heq : previousHash = hash <;> simp [chunkAction, h, hi, heq]

/-! ## The delta of one document -/

section Document
variable {A : Authorities} {policy : CompilePolicy} {previous : PreviousCompilationSnapshot}
  {manifest : ManifestValidation} {notes : List GraphSourceNote} {document : CompileDocumentInput}
  {upsert : CompileDocumentUpsert}

/-- The path, the chunks and the delta of a planned upsert. -/
theorem Planned.delta (h : Planned A policy previous manifest notes document upsert) :
    ∃ action initial records,
      documentAction (previous.at document.relativePath) (documentSourceHash A document) previous policy =
        some (action, initial) ∧
      documentChunkHashes A policy document = .ok (records.map (·.2)) ∧
      upsert.relativePath = document.relativePath ∧
      upsert.chunks.length = records.length ∧
      upsert.embedding = embeddingForAction action initial
        (planChunks (previous.at document.relativePath) (documentSourceHash A document) 0 records).2 := by
  obtain ⟨⟨action, initial⟩, diagnostics, haction, hplan⟩ := h
  simp only [planDocument, buildChunkPlans, buildEdgePlans] at hplan
  cases hrecords : chunkRecords A document policy.chunkPolicy with
  | error e => simp [hrecords, Except.map, bind, Except.bind] at hplan
  | ok records =>
    cases hedges : edgeCandidates A document with
    | error e => simp [hrecords, hedges, Except.map, bind, Except.bind] at hplan
    | ok candidates =>
      simp only [hrecords, hedges, Except.map, bind, Except.bind, pure, Except.pure, Except.ok.injEq,
        Prod.mk.injEq] at hplan
      obtain ⟨rfl, -⟩ := hplan
      refine ⟨action, initial, records, haction, ?_, rfl, planChunks_length _ _ _ _, rfl⟩
      simp [documentChunkHashes, hrecords, Except.map]

/-- A document without a previous state, or with an unchanged source, is embedded completely. -/
theorem Planned.reembedsAll_unedited (h : Planned A policy previous manifest notes document upsert)
    (hsame : ∀ state, previous.at document.relativePath = some state → state.sourceHash = documentSourceHash A document) :
    upsert.reembedsAll := by
  obtain ⟨action, initial, records, haction, -, -, -, hdelta⟩ := h.delta
  have kept : initial.action = .reembed ∧ initial.chunkIndexes = [] ∧ action ≠ .updated := by
    unfold documentAction at haction
    split at haction
    · cases haction
      exact ⟨rfl, rfl, by decide⟩
    · rename_i state hstate
      rw [if_pos (hsame state hstate)] at haction
      split at haction
      · cases haction
        exact ⟨rfl, rfl, by decide⟩
      · split at haction <;> cases haction
        exact ⟨rfl, rfl, by decide⟩
  obtain ⟨hreembed, hall, hnot⟩ := kept
  have unchanged : upsert.embedding = initial := by
    rw [hdelta]
    cases action with
    | added => rfl
    | embeddingOnly => rfl
    | updated => exact absurd rfl hnot
  exact ⟨unchanged ▸ hreembed, .inl (unchanged ▸ hall)⟩

/-- An edited document with a chunk is embedded completely exactly when it kept none of its chunks. -/
theorem Planned.reembedsAll_edited (h : Planned A policy previous manifest notes document upsert)
    {state : PreviousDocumentState} (hstate : previous.at document.relativePath = some state)
    (hedited : state.sourceHash ≠ documentSourceHash A document) {hashes : List String}
    (hhashes : documentChunkHashes A policy document = .ok hashes) (hne : hashes ≠ []) :
    upsert.reembedsAll ↔ ∀ (i : ℕ) hash, hashes[i]? = some hash → state.chunkHashes[i]? ≠ some hash := by
  obtain ⟨action, initial, records, haction, hrecords, -, hlength, hdelta⟩ := h.delta
  have hupdated : action = .updated := by
    rw [hstate] at haction
    simp only [documentAction, if_neg hedited, Option.some.injEq, Prod.mk.injEq] at haction
    exact haction.1.symm
  rw [hrecords] at hhashes
  cases hhashes
  rw [hstate, hupdated] at hdelta
  have changed : ∀ i, i ∈ (planChunks (some state) (documentSourceHash A document) 0 records).2 ↔
      ∃ hash, (records.map (·.2))[i]? = some hash ∧ state.chunkHashes[i]? ≠ some hash := by
    intro i
    rw [mem_planChunks_changed]
    constructor
    · rintro ⟨k, hash, hk, hik, hchanged⟩
      rw [Nat.zero_add] at hik
      subst hik
      exact ⟨hash, hk, (chunkAction_edited hedited i hash).mp hchanged⟩
    · rintro ⟨hash, hi, hchanged⟩
      exact ⟨i, hash, hi, (Nat.zero_add i).symm, (chunkAction_edited hedited i hash).mpr hchanged⟩
  generalize (planChunks (some state) (documentSourceHash A document) 0 records).2 = indexes at hdelta changed
  have everywhere : (∀ i < upsert.chunks.length, i ∈ indexes) ↔
      ∀ (i : ℕ) hash, (records.map (·.2))[i]? = some hash → state.chunkHashes[i]? ≠ some hash := by
    constructor
    · intro hall i hash hi
      have hlt : i < upsert.chunks.length := by
        have := (List.getElem?_eq_some_iff.mp hi).1
        rwa [List.length_map, ← hlength] at this
      obtain ⟨hash', hi', hchanged⟩ := (changed i).mp (hall i hlt)
      rw [hi] at hi'
      cases hi'
      exact hchanged
    · intro hall i hlt
      have hlt' : i < (records.map (·.2)).length := by rwa [List.length_map, ← hlength]
      have hi := List.getElem?_eq_getElem hlt'
      exact (changed i).mpr ⟨_, hi, hall i _ hi⟩
  rw [← everywhere, CompileDocumentUpsert.reembedsAll, hdelta]
  have hpos : 0 < upsert.chunks.length := by
    rw [hlength, ← List.length_map (·.2)]
    exact List.length_pos_iff.mpr hne
  cases indexes with
  | nil =>
    constructor
    · rintro ⟨hreembed, -⟩
      simp [embeddingForAction] at hreembed
    · intro hall
      exact absurd (hall 0 hpos) List.not_mem_nil
  | cons first rest => simp [embeddingForAction]

end Document

/-! ## The whole plan -/

/-- When the embedding key changed, the plan embeds every chunk of every document again exactly when no edited
document keeps a chunk. -/
theorem embeds_everything_iff {A : Authorities} {policy : CompilePolicy} {documents : List CompileDocumentInput}
    {previous : PreviousCompilationSnapshot} {plan : CompilePlan}
    (h : compilePlan A ⟨documents⟩ previous policy = .ok plan)
    (hkey : previous.embeddingFingerprintKey ≠ policy.embeddingFingerprintKey) :
    EmbedsEverything A policy documents plan ↔ EditsEveryChunk A policy documents previous := by
  obtain ⟨manifest, notes, planned⟩ := compilePlan_planned h
  have busy : ∀ d ∈ documents, d ∈ (byPath documents).filter (needsWork A policy previous) := by
    intro d hd
    refine List.mem_filter.mpr ⟨mem_byPath.mpr hd, ?_⟩
    refine Bool.eq_true_of_not_eq_false fun hidle => ?_
    obtain ⟨-, -, -, -, hsame⟩ := needsWork_eq_false.mp hidle
    exact hkey hsame
  constructor
  · intro hall document hdoc hashes hhashes state hstate hedited i hash hi
    have hne : hashes ≠ [] := by
      rintro rfl
      simp at hi
    obtain ⟨upsert, hupsert, hpath, hembeds⟩ := hall document hdoc hashes hhashes hne
    obtain ⟨other, hother, hplanned⟩ : ∃ d ∈ _, Planned A policy previous manifest notes d upsert :=
      Keyed.forall₂_image planned.flip hupsert
    obtain ⟨_, _, _, -, -, hpath', -⟩ := hplanned.delta
    have hsame : other = document :=
      List.inj_on_of_nodup_map (byPath_nodup h) (List.mem_filter.mp hother).1 (mem_byPath.mpr hdoc)
        (hpath'.symm.trans hpath)
    subst hsame
    exact (hplanned.reembedsAll_edited hstate hedited hhashes hne).mp hembeds i hash hi
  · intro hall document hdoc hashes hhashes hne
    obtain ⟨upsert, hupsert, hplanned⟩ := Keyed.forall₂_image planned (busy document hdoc)
    obtain ⟨_, _, _, -, -, hpath, -⟩ := hplanned.delta
    refine ⟨upsert, hupsert, hpath, ?_⟩
    by_cases hedited : ∃ state, previous.at document.relativePath = some state ∧
        state.sourceHash ≠ documentSourceHash A document
    · obtain ⟨state, hstate, hedited⟩ := hedited
      exact (hplanned.reembedsAll_edited hstate hedited hhashes hne).mpr
        (hall document hdoc hashes hhashes state hstate hedited)
    · refine hplanned.reembedsAll_unedited fun state hstate => ?_
      exact Classical.byContradiction fun hne => hedited ⟨state, hstate, hne⟩

/-! ## A metadata edit under a new key -/

def oldModelSnapshot : PreviousCompilationSnapshot := ⟨"model-0", [⟨"a", "notes/a.md", "h", ["c"], ["e"]⟩]⟩

/-- The note's source changed, its only chunk did not, and the key changed: nothing is embedded. -/
theorem metadata_edit_delta :
    ((compilePlan plainAuthorities ⟨[plainNote "h'" "c" "e"]⟩ oldModelSnapshot plainPolicy).toOption.map
      fun plan => plan.upserts.map fun upsert => (upsert.relativePath, upsert.embedding)) =
      some [("notes/a.md", ⟨.none, .none, []⟩)] := by
  decide

/-- A changed embedding key does not make every plan embed everything. -/
theorem embeds_everything_fails :
    ¬ ∀ (A : Authorities) (policy : CompilePolicy) (documents : List CompileDocumentInput)
      (previous : PreviousCompilationSnapshot) (plan : CompilePlan),
      compilePlan A ⟨documents⟩ previous policy = .ok plan →
      previous.embeddingFingerprintKey ≠ policy.embeddingFingerprintKey → EmbedsEverything A policy documents plan := by
  intro fresh
  obtain ⟨plan, hplan, hdelta⟩ := Option.map_eq_some_iff.mp metadata_edit_delta
  have embeds := fresh plainAuthorities plainPolicy _ oldModelSnapshot plan (toOption_eq_some hplan) (by decide)
  obtain ⟨upsert, hupsert, -, haction, -⟩ :=
    embeds (plainNote "h'" "c" "e") List.mem_cons_self ["c"] rfl (by decide)
  have hmem := List.mem_map_of_mem (f := fun u : CompileDocumentUpsert => (u.relativePath, u.embedding)) hupsert
  rw [hdelta, List.mem_singleton] at hmem
  have hnone : upsert.embedding = ⟨.none, .none, []⟩ := congrArg Prod.snd hmem
  rw [hnone] at haction
  simp at haction

theorem full_edit_compiles :
    (compilePlan plainAuthorities ⟨[plainNote "h'" "c'" "e"]⟩ oldModelSnapshot plainPolicy).toOption.isSome = true := by
  decide

theorem embeds_everything_iff_full_edit :
    ∃ plan, compilePlan plainAuthorities ⟨[plainNote "h'" "c'" "e"]⟩ oldModelSnapshot plainPolicy = .ok plan ∧
      (EmbedsEverything plainAuthorities plainPolicy [plainNote "h'" "c'" "e"] plan ↔
        EditsEveryChunk plainAuthorities plainPolicy [plainNote "h'" "c'" "e"] oldModelSnapshot) := by
  obtain ⟨plan, hplan⟩ := Option.isSome_iff_exists.mp full_edit_compiles
  exact ⟨plan, toOption_eq_some hplan, embeds_everything_iff (toOption_eq_some hplan) (by decide)⟩

end Alexandria.Compile
