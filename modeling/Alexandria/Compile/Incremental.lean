import Alexandria.Compile.Outcome

/-! # Incremental against full compilation

The planner skips a document whose source hash is unchanged, so over any history of compiles the incremental
state equals the state of a full compile as far as equal source hashes at one path mean equal chunks and edges.
-/

namespace Alexandria.Compile
set_option autoImplicit false

/-! ## Applying a plan -/

/-- The compiled state a plan leads to: removed paths go, upserted paths are replaced. -/
def applyPlan (policy : CompilePolicy) (previous : PreviousCompilationSnapshot) (plan : CompilePlan) :
    PreviousCompilationSnapshot where
  embeddingFingerprintKey := policy.embeddingFingerprintKey
  documents := previous.documents.filter (fun state =>
      !(plan.removals.map (·.relativePath)).contains state.relativePath &&
        !(plan.upserts.map (·.relativePath)).contains state.relativePath) ++ plan.upserts.map upsertState

/-- What a snapshot says about a path: source hash, chunk hashes and edge ids. -/
def PreviousCompilationSnapshot.compiled (snapshot : PreviousCompilationSnapshot) (path : String) :
    Option (String × List String × List String) :=
  (snapshot.at path).map fun state => (state.sourceHash, state.chunkHashes, state.edgeIds)

def emptySnapshot (key : String) : PreviousCompilationSnapshot := ⟨key, []⟩

section Planner
variable {A : Authorities} {policy : CompilePolicy}

/-! ## The state after a plan -/

/-- The state at a path after a plan: what the plan writes there, else what was there unless the document is
gone. -/
theorem applyPlan_at {previous : PreviousCompilationSnapshot} {documents : List CompileDocumentInput}
    {plan : CompilePlan} (h : compilePlan A ⟨documents⟩ previous policy = .ok plan) (path : String) :
    (applyPlan policy previous plan).at path =
      (Keyed.lookup (·.relativePath) path (plan.upserts.map upsertState)).or
        (if path ∈ documents.map (·.relativePath) then previous.at path else none) := by
  have removed := compilePlan_removes h
  have kept := Keyed.lookup_filter (·.relativePath) path previous.documents fun p =>
    !(plan.removals.map (·.relativePath)).contains p && !(plan.upserts.map (·.relativePath)).contains p
  rw [PreviousCompilationSnapshot.at, applyPlan, Keyed.lookup_append, kept]
  cases hup : Keyed.lookup (·.relativePath) path (plan.upserts.map upsertState) with
  | some state =>
    obtain ⟨hmem, hpath⟩ := Keyed.lookup_mem hup
    obtain ⟨upsert, hupsert, rfl⟩ := List.mem_map.mp hmem
    have written : (plan.upserts.map (·.relativePath)).contains path = true := by
      rw [List.contains_iff_mem]
      exact List.mem_map.mpr ⟨upsert, hupsert, hpath⟩
    simp only [written, Bool.not_true, Bool.and_false, Bool.false_eq_true, if_false, Option.none_or, Option.some_or]
  | none =>
    have unwritten : (plan.upserts.map (·.relativePath)).contains path = false := by
      rw [Bool.eq_false_iff, Ne, List.contains_iff_mem]
      intro hmem
      obtain ⟨upsert, hupsert, hpath⟩ := List.mem_map.mp hmem
      exact Keyed.lookup_eq_none.mp hup _ (List.mem_map_of_mem hupsert) hpath
    simp only [unwritten, Bool.not_false, Bool.and_true, Option.or_none, Option.none_or]
    by_cases hdoc : path ∈ documents.map (·.relativePath)
    · have hnot : (plan.removals.map (·.relativePath)).contains path = false := by
        rw [Bool.eq_false_iff, Ne, List.contains_iff_mem, removed path]
        exact fun hgone => hgone.2 hdoc
      simp only [hnot, Bool.not_false, if_true, hdoc]
      rfl
    · rw [if_neg hdoc]
      split
      case isFalse => rfl
      case isTrue hstay =>
        refine Keyed.lookup_eq_none.mpr ?_
        intro state hstate hpath
        have gone := (removed path).mpr ⟨List.mem_map.mpr ⟨state, hstate, hpath⟩, hdoc⟩
        rw [← List.contains_iff_mem] at gone
        rw [gone] at hstay
        simp at hstay

variable {previous : PreviousCompilationSnapshot} {documents : List CompileDocumentInput} {plan : CompilePlan}

theorem compilePlan_written (h : compilePlan A ⟨documents⟩ previous policy = .ok plan) :
    checkCurrent policy documents = .ok () ∧
      ((byPath documents).filter (needsWork A policy previous)).mapM (compiledState A policy) =
        .ok (plan.upserts.map upsertState) := by
  have states := compilePlan_states A policy documents (compilePlan_inv h).2.1
  rw [h] at states
  cases hcheck : checkCurrent policy documents with
  | error e =>
    rw [hcheck] at states
    cases states
  | ok _ =>
    rw [hcheck] at states
    exact ⟨rfl, states.symm⟩

/-- The state after a plan at the path of a document that was compiled. -/
theorem applyPlan_compiled (h : compilePlan A ⟨documents⟩ previous policy = .ok plan) {document : CompileDocumentInput}
    (hdoc : document ∈ documents) (hneeds : needsWork A policy previous document = true) :
    ∃ state, compiledState A policy document = .ok state ∧
      (applyPlan policy previous plan).at document.relativePath = some state := by
  obtain ⟨-, written⟩ := compilePlan_written h
  have hmem : document ∈ (byPath documents).filter (needsWork A policy previous) :=
    List.mem_filter.mpr ⟨mem_byPath.mpr hdoc, hneeds⟩
  obtain ⟨state, -, hstate⟩ := Keyed.mapM_ok_of_mem written hmem
  have upserted := Keyed.lookup_mapM document.relativePath (fun _ _ hok => (compiledState_ok hok).1) written
  have nodup := (byPath_nodup h).sublist ((List.filter_sublist (p := needsWork A policy previous)).map _)
  have found := (Keyed.lookup_eq_some nodup).mpr ⟨hmem, rfl⟩
  refine ⟨state, hstate, ?_⟩
  rw [applyPlan_at h, upserted, found]
  simp [hstate, Except.toOption]

/-- The state after a plan at the path of a document that was skipped. -/
theorem applyPlan_skipped (h : compilePlan A ⟨documents⟩ previous policy = .ok plan) {document : CompileDocumentInput}
    (hdoc : document ∈ documents) (hneeds : needsWork A policy previous document = false) :
    (applyPlan policy previous plan).at document.relativePath = previous.at document.relativePath := by
  obtain ⟨-, written⟩ := compilePlan_written h
  have upserted := Keyed.lookup_mapM document.relativePath (fun _ _ hok => (compiledState_ok hok).1) written
  have found : Keyed.lookup (·.relativePath) document.relativePath
      ((byPath documents).filter (needsWork A policy previous)) = none := by
    refine Keyed.lookup_eq_none.mpr ?_
    intro other hother hpath
    obtain ⟨hmem, hother⟩ := List.mem_filter.mp hother
    have : other = document := List.inj_on_of_nodup_map (byPath_nodup h) hmem (mem_byPath.mpr hdoc) hpath
    rw [this, hneeds] at hother
    simp at hother
  rw [applyPlan_at h, upserted, found, if_pos (List.mem_map_of_mem hdoc)]
  rfl

/-- Nothing is left at a path without a current document. -/
theorem applyPlan_gone (h : compilePlan A ⟨documents⟩ previous policy = .ok plan) {path : String}
    (hpath : path ∉ documents.map (·.relativePath)) : (applyPlan policy previous plan).at path = none := by
  obtain ⟨-, written⟩ := compilePlan_written h
  have upserted : Keyed.lookup (·.relativePath) path (plan.upserts.map upsertState) = none := by
    refine Keyed.lookup_eq_none.mpr ?_
    intro state hstate heq
    obtain ⟨document, hmem, hok⟩ := Keyed.mapM_ok_source written hstate
    have hdoc := mem_byPath.mp (List.mem_filter.mp hmem).1
    exact hpath (List.mem_map.mpr ⟨document, hdoc, (compiledState_ok hok).1.symm.trans heq⟩)
  rw [applyPlan_at h, upserted, if_neg hpath]
  rfl

end Planner

/-! ## Histories of compiles -/

/-- The snapshots that a sequence of compiles under one policy leads to from the empty one; the index
collects every document compiled on the way. -/
inductive Compiled (A : Authorities) (policy : CompilePolicy) :
    List CompileDocumentInput → PreviousCompilationSnapshot → Prop
  | empty : Compiled A policy [] (emptySnapshot policy.embeddingFingerprintKey)
  | compile {seen documents : List CompileDocumentInput} {previous : PreviousCompilationSnapshot} {plan : CompilePlan} :
    Compiled A policy seen previous → compilePlan A ⟨documents⟩ previous policy = .ok plan →
    Compiled A policy (documents ++ seen) (applyPlan policy previous plan)

/-- Equal source hashes at one path mean equal chunk hashes and edge ids. -/
def SameSource (A : Authorities) (policy : CompilePolicy) (documents seen : List CompileDocumentInput) : Prop :=
  ∀ d ∈ documents, ∀ d' ∈ seen, d.relativePath = d'.relativePath → documentSourceHash A d = documentSourceHash A d' →
    documentChunkHashes A policy d = documentChunkHashes A policy d' ∧ documentEdgeIds A d = documentEdgeIds A d'

/-- Every state of the snapshot is the compiled state of a document seen before. -/
structure Tracks (A : Authorities) (policy : CompilePolicy) (seen : List CompileDocumentInput)
    (previous : PreviousCompilationSnapshot) : Prop where
  key : previous.embeddingFingerprintKey = policy.embeddingFingerprintKey
  nodup : (previous.documents.map (·.relativePath)).Nodup
  states : ∀ state ∈ previous.documents, ∃ document ∈ seen, compiledState A policy document = .ok state

section Histories
variable {A : Authorities} {policy : CompilePolicy} {seen documents : List CompileDocumentInput}
  {previous : PreviousCompilationSnapshot} {plan : CompilePlan}

theorem Tracks.apply (h : Tracks A policy seen previous) (hplan : compilePlan A ⟨documents⟩ previous policy = .ok plan) :
    Tracks A policy (documents ++ seen) (applyPlan policy previous plan) where
  key := rfl
  nodup := by
    obtain ⟨-, written⟩ := compilePlan_written hplan
    have upserted : (plan.upserts.map upsertState).map (·.relativePath) = plan.upserts.map (·.relativePath) := by
      rw [List.map_map]
      rfl
    have fresh : ((plan.upserts.map upsertState).map (·.relativePath)).Nodup := by
      rw [Keyed.map_key_mapM (fun _ _ hok => (compiledState_ok hok).1) written]
      exact (byPath_nodup hplan).sublist (List.filter_sublist.map _)
    rw [applyPlan, List.map_append]
    refine List.nodup_append.mpr ⟨h.nodup.sublist (List.filter_sublist.map _), fresh, ?_⟩
    rintro path hkept _ hup rfl
    obtain ⟨state, hstate, rfl⟩ := List.mem_map.mp hkept
    have hnot := (List.mem_filter.mp hstate).2
    rw [upserted, ← List.contains_iff_mem] at hup
    rw [hup] at hnot
    simp at hnot
  states := by
    intro state hstate
    obtain hkept | hup := List.mem_append.mp hstate
    · obtain ⟨document, hdoc, hok⟩ := h.states state (List.mem_filter.mp hkept).1
      exact ⟨document, List.mem_append_right _ hdoc, hok⟩
    · obtain ⟨document, hmem, hok⟩ := Keyed.mapM_ok_source (compilePlan_written hplan).2 hup
      exact ⟨document, List.mem_append_left _ (mem_byPath.mp (List.mem_filter.mp hmem).1), hok⟩

theorem Compiled.tracks (h : Compiled A policy seen previous) : Tracks A policy seen previous := by
  induction h with
  | empty => exact ⟨rfl, List.nodup_nil, fun state hstate => absurd hstate List.not_mem_nil⟩
  | compile _ hplan ih => exact ih.apply hplan

/-- A skipped document would have compiled to the state that is already there. -/
theorem Tracks.skipped (h : Tracks A policy seen previous) (same : SameSource A policy documents seen)
    {document : CompileDocumentInput} (hdoc : document ∈ documents) (hneeds : needsWork A policy previous document = false) :
    ∃ state stored, compiledState A policy document = .ok state ∧ previous.at document.relativePath = some stored ∧
      state.sourceHash = stored.sourceHash ∧ state.chunkHashes = stored.chunkHashes ∧ state.edgeIds = stored.edgeIds := by
  obtain ⟨stored, hat, hhash, -, -⟩ := needsWork_eq_false.mp hneeds
  obtain ⟨hmem, hpath⟩ := Keyed.lookup_mem hat
  obtain ⟨earlier, hearlier, hok⟩ := h.states stored hmem
  obtain ⟨hpath', hhash', hchunks, hedges⟩ := compiledState_ok hok
  obtain ⟨sameChunks, sameEdges⟩ :=
    same document hdoc earlier hearlier (hpath.symm.trans hpath') (hhash.symm.trans hhash')
  refine ⟨⟨document.noteId, document.relativePath, documentSourceHash A document, stored.chunkHashes, stored.edgeIds⟩,
    stored, ?_, hat, hhash.symm, rfl, rfl⟩
  simp [compiledState, sameChunks, sameEdges, hchunks, hedges, bind, Except.bind, pure, Except.pure]

theorem needsWork_empty (key : String) (document : CompileDocumentInput) :
    needsWork A policy (emptySnapshot key) document = true := rfl

/-- Both compiles succeed, or both fail with the same error. -/
theorem Tracks.same_outcome (h : Tracks A policy seen previous) (same : SameSource A policy documents seen) (key : String) :
    (∃ plan full, compilePlan A ⟨documents⟩ previous policy = .ok plan ∧
        compilePlan A ⟨documents⟩ (emptySnapshot key) policy = .ok full) ∨
      ∃ e, compilePlan A ⟨documents⟩ previous policy = .error e ∧
        compilePlan A ⟨documents⟩ (emptySnapshot key) policy = .error e := by
  have incremental := compilePlan_states A policy documents h.nodup
  have full : (compilePlan A ⟨documents⟩ (emptySnapshot key) policy).map (fun plan => plan.upserts.map upsertState) =
      (checkCurrent policy documents).bind fun _ => (byPath documents).mapM (compiledState A policy) := by
    have nothing : ((emptySnapshot key).documents.map (·.relativePath)).Nodup := List.nodup_nil
    rw [compilePlan_states A policy documents nothing,
      List.filter_eq_self.mpr fun document _ => needsWork_empty key document]
  cases hcheck : checkCurrent policy documents with
  | error e =>
    rw [hcheck] at incremental full
    exact .inr ⟨e, Keyed.map_eq_error incremental, Keyed.map_eq_error full⟩
  | ok _ =>
    rw [hcheck] at incremental full
    have skip : ∀ d ∈ byPath documents, needsWork A policy previous d = false → ∃ z, compiledState A policy d = .ok z := by
      intro d hd hneeds
      obtain ⟨state, -, hok, -⟩ := h.skipped same (mem_byPath.mp hd) hneeds
      exact ⟨state, hok⟩
    obtain ⟨all, some, hall, hsome⟩ | ⟨e, hall, hsome⟩ := Keyed.mapM_filter skip
    · obtain ⟨plan, hplan, -⟩ := Keyed.map_eq_ok (incremental.trans hsome)
      obtain ⟨full', hfull, -⟩ := Keyed.map_eq_ok (full.trans hall)
      exact .inl ⟨plan, full', hplan, hfull⟩
    · exact .inr ⟨e, Keyed.map_eq_error (incremental.trans hsome), Keyed.map_eq_error (full.trans hall)⟩

/-- Path by path, applying the incremental plan and compiling from nothing give the same. -/
theorem Tracks.same_compiled (h : Tracks A policy seen previous) (same : SameSource A policy documents seen)
    {key : String} {full : CompilePlan} (hplan : compilePlan A ⟨documents⟩ previous policy = .ok plan)
    (hfull : compilePlan A ⟨documents⟩ (emptySnapshot key) policy = .ok full) (path : String) :
    (applyPlan policy previous plan).compiled path = (applyPlan policy (emptySnapshot key) full).compiled path := by
  by_cases hpath : path ∈ documents.map (·.relativePath)
  · obtain ⟨document, hdoc, rfl⟩ := List.mem_map.mp hpath
    obtain ⟨state, hok, hat⟩ := applyPlan_compiled hfull hdoc (needsWork_empty key document)
    simp only [PreviousCompilationSnapshot.compiled, hat]
    cases hneeds : needsWork A policy previous document with
    | true =>
      obtain ⟨state', hok', hat'⟩ := applyPlan_compiled hplan hdoc hneeds
      rw [hok] at hok'
      rw [hat', Except.ok.inj hok']
    | false =>
      obtain ⟨state', stored, hok', hstored, hhash, hchunks, hedges⟩ := h.skipped same hdoc hneeds
      rw [hok] at hok'
      cases hok'
      rw [applyPlan_skipped hplan hdoc hneeds, hstored]
      simp only [Option.map_some, hhash, hchunks, hedges]
  · simp only [PreviousCompilationSnapshot.compiled, applyPlan_gone hplan hpath, applyPlan_gone hfull hpath]

/-! ## Compiling once more -/

/-- A document with a chunk needs no work against the state its own compile led to. -/
theorem no_work_again (hplan : compilePlan A ⟨documents⟩ previous policy = .ok plan) {document : CompileDocumentInput}
    (hdoc : document ∈ documents) :
    needsWork A policy previous document = false ∨
        (∃ hashes, documentChunkHashes A policy document = .ok hashes ∧ hashes ≠ []) →
      needsWork A policy (applyPlan policy previous plan) document = false := by
  intro hwhy
  rw [needsWork_eq_false]
  cases hneeds : needsWork A policy previous document with
  | false =>
    obtain ⟨stored, hat, hhash, hchunks, -⟩ := needsWork_eq_false.mp hneeds
    exact ⟨stored, (applyPlan_skipped hplan hdoc hneeds).trans hat, hhash, hchunks, rfl⟩
  | true =>
    obtain ⟨state, hok, hat⟩ := applyPlan_compiled hplan hdoc hneeds
    obtain ⟨-, hhash, hchunks, -⟩ := compiledState_ok hok
    refine ⟨state, hat, hhash, ?_, rfl⟩
    obtain hskip | ⟨hashes, hhashes, hne⟩ := hwhy
    · rw [hneeds] at hskip
      simp at hskip
    · rw [hhashes] at hchunks
      exact (Except.ok.inj hchunks) ▸ hne

/-- Compiling the same documents against the state they led to removes nothing and writes no document that
has a chunk. -/
theorem Tracks.recompile (h : Tracks A policy seen previous)
    (hplan : compilePlan A ⟨documents⟩ previous policy = .ok plan) :
    ∃ again, compilePlan A ⟨documents⟩ (applyPlan policy previous plan) policy = .ok again ∧ again.removals = [] ∧
      ∀ document ∈ documents, ∀ hashes, documentChunkHashes A policy document = .ok hashes → hashes ≠ [] →
        ∀ upsert ∈ again.upserts, upsert.relativePath ≠ document.relativePath := by
  have tracks := h.apply hplan
  have states := compilePlan_states A policy documents tracks.nodup
  have compiles : ∀ d ∈ (byPath documents).filter (needsWork A policy (applyPlan policy previous plan)),
      ∃ state, compiledState A policy d = .ok state := by
    intro d hd
    obtain ⟨hmem, hagain⟩ := List.mem_filter.mp hd
    cases hneeds : needsWork A policy previous d with
    | false =>
      rw [no_work_again hplan (mem_byPath.mp hmem) (.inl hneeds)] at hagain
      simp at hagain
    | true =>
      obtain ⟨state, hok, -⟩ := applyPlan_compiled hplan (mem_byPath.mp hmem) hneeds
      exact ⟨state, hok⟩
  obtain ⟨written, hwritten⟩ := Keyed.exists_mapM_ok compiles
  rw [(compilePlan_written hplan).1] at states
  obtain ⟨again, hagain, -⟩ := Keyed.map_eq_ok (states.trans hwritten)
  refine ⟨again, hagain, ?_, ?_⟩
  · have none_removed : ∀ path, path ∉ again.removals.map (·.relativePath) := by
      intro path hpath
      obtain ⟨hold, hnew⟩ := (compilePlan_removes hagain path).mp hpath
      obtain ⟨state, hstate, rfl⟩ := List.mem_map.mp hold
      exact Keyed.lookup_eq_none.mp (applyPlan_gone hplan hnew) state hstate rfl
    exact List.map_eq_nil_iff.mp (List.eq_nil_iff_forall_not_mem.mpr none_removed)
  · intro document hdoc hashes hhashes hne upsert hupsert hpath
    obtain ⟨other, hmem, hok⟩ :=
      Keyed.mapM_ok_source (compilePlan_written hagain).2 (List.mem_map_of_mem hupsert)
    obtain ⟨hmem, hneeds⟩ := List.mem_filter.mp hmem
    have hsame : other = document :=
      List.inj_on_of_nodup_map (byPath_nodup hplan) hmem (mem_byPath.mpr hdoc) ((compiledState_ok hok).1.symm.trans hpath)
    rw [hsame, no_work_again hplan hdoc (.inr ⟨hashes, hhashes, hne⟩)] at hneeds
    simp at hneeds

/-- Over every history of compiles, the incremental compile is the full compile, errors included, whenever no
current document repeats the path and the source hash of an earlier one with other chunks or edges; and a
second compile of the same documents is idle. -/
theorem incremental_compile_eq_full (h : Compiled A policy seen previous) :
    (SameSource A policy documents seen → ∀ key path,
      (compilePlan A ⟨documents⟩ previous policy).map (fun plan => (applyPlan policy previous plan).compiled path) =
        (compilePlan A ⟨documents⟩ (emptySnapshot key) policy).map
          fun full => (applyPlan policy (emptySnapshot key) full).compiled path) ∧
    ∀ plan, compilePlan A ⟨documents⟩ previous policy = .ok plan →
      ∃ again, compilePlan A ⟨documents⟩ (applyPlan policy previous plan) policy = .ok again ∧ again.removals = [] ∧
        ∀ document ∈ documents, ∀ hashes, documentChunkHashes A policy document = .ok hashes → hashes ≠ [] →
          ∀ upsert ∈ again.upserts, upsert.relativePath ≠ document.relativePath := by
  refine ⟨?_, fun plan hplan => h.tracks.recompile hplan⟩
  intro same key path
  obtain ⟨plan, full, hplan, hfull⟩ | ⟨e, hplan, hfull⟩ := h.tracks.same_outcome same key
  · rw [hplan, hfull]
    exact congrArg Except.ok (h.tracks.same_compiled same hplan hfull path)
  · rw [hplan, hfull]
    rfl

end Histories

/-! ## One note on which the two compiles differ -/

/-- Stand-ins for the primitives: the note below brings its hashes, chunks and edges along, and its names are
lower-case ASCII, on which both Unicode algorithms are the identity. -/
def plainAuthorities : Authorities where
  unicode := ⟨id, id⟩
  sha256Text := id
  chunkBatch := fun _ _ _ _ _ => .ok []
  extractReferenceBatch := fun _ _ _ _ _ => .ok []
  validateContextReindexManifest := fun candidates => ⟨List.range candidates.length, []⟩

def plainPolicy : CompilePolicy := ⟨1200, 200, "model-1"⟩

def plainNote (sourceHash chunkHash edgeId : String) : CompileDocumentInput where
  relativePath := "notes/a.md"
  noteId := "a"
  title := "a"
  alexandriaType := "note"
  text := none
  sourceHash := sourceHash
  body := ""
  frontmatter := .null
  status := "active"
  aliases := []
  edgeSeeds := []
  providedChunks := some [⟨0, chunkHash⟩]
  providedEdges := some [⟨edgeId, "a", "notes/a.md", none, "notes/b.md", "links_to", 0, "wikilink"⟩]
  manifestCandidate := none

/-- The same source extracted with another managed root: another edge id, the same source hash. -/
theorem stale_edges :
    ((compilePlan plainAuthorities ⟨[plainNote "h" "c" "e"]⟩ (emptySnapshot "model-1") plainPolicy).toOption.bind
      fun first => (compilePlan plainAuthorities ⟨[plainNote "h" "c" "e'"]⟩
        (applyPlan plainPolicy (emptySnapshot "model-1") first) plainPolicy).toOption.bind
      fun next => (compilePlan plainAuthorities ⟨[plainNote "h" "c" "e'"]⟩ (emptySnapshot "model-1")
        plainPolicy).toOption.map
      fun full =>
        ((applyPlan plainPolicy (applyPlan plainPolicy (emptySnapshot "model-1") first) next).compiled "notes/a.md",
          (applyPlan plainPolicy (emptySnapshot "model-1") full).compiled "notes/a.md")) =
      some (some ("h", ["c"], ["e"]), some ("h", ["c"], ["e'"])) := by
  decide

/-- Every document of the two sets comes with its chunks and edges. -/
def AllProvided (documents : List CompileDocumentInput) : Prop :=
  ∀ d ∈ documents, d.providedChunks.isSome ∧ d.providedEdges.isSome

theorem toOption_eq_some {α : Type} {r : Except String α} {a : α} (h : r.toOption = some a) : r = .ok a := by
  cases r with
  | error e => cases h
  | ok b => exact congrArg Except.ok (Option.some.inj h)

/-- With provided chunks and edges, the incremental compile is not the full compile on every document set. -/
theorem incremental_compile_ne_full :
    ¬ ∀ (A : Authorities) (policy : CompilePolicy) (seen documents : List CompileDocumentInput)
      (previous : PreviousCompilationSnapshot) (plan full : CompilePlan),
      Compiled A policy seen previous → AllProvided (documents ++ seen) → (documents.map (·.noteId)).Nodup →
      compilePlan A ⟨documents⟩ previous policy = .ok plan →
      compilePlan A ⟨documents⟩ (emptySnapshot policy.embeddingFingerprintKey) policy = .ok full →
      ∀ path, (applyPlan policy previous plan).compiled path =
        (applyPlan policy (emptySnapshot policy.embeddingFingerprintKey) full).compiled path := by
  intro equal
  obtain ⟨first, hfirst, h⟩ := Option.bind_eq_some_iff.mp stale_edges
  obtain ⟨next, hnext, h⟩ := Option.bind_eq_some_iff.mp h
  obtain ⟨full, hfull, h⟩ := Option.map_eq_some_iff.mp h
  have history : Compiled plainAuthorities plainPolicy ([plainNote "h" "c" "e"] ++ []) _ :=
    .compile .empty (toOption_eq_some hfirst)
  have provided : AllProvided ([plainNote "h" "c" "e'"] ++ ([plainNote "h" "c" "e"] ++ [])) := by
    simp [AllProvided, plainNote]
  have same := equal _ _ _ _ _ next full history provided (by decide) (toOption_eq_some hnext)
    (toOption_eq_some hfull) "notes/a.md"
  have hincremental := congrArg Prod.fst h
  have hfresh := congrArg Prod.snd h
  exact absurd (hincremental.symm.trans (same.trans hfresh)) (by decide)

/-- An edit of the note after its first compile. -/
theorem first_note_compiles :
    ((compilePlan plainAuthorities ⟨[plainNote "h" "c" "e"]⟩ (emptySnapshot "model-1") plainPolicy).toOption.map
      fun first => (applyPlan plainPolicy (emptySnapshot "model-1") first).compiled "notes/a.md") =
      some (some ("h", ["c"], ["e"])) := by
  decide

theorem incremental_compile_eq_full_edited :
    ∃ previous, previous.compiled "notes/a.md" = some ("h", ["c"], ["e"]) ∧ ∀ key path,
      (compilePlan plainAuthorities ⟨[plainNote "h'" "c'" "e'"]⟩ previous plainPolicy).map
          (fun plan => (applyPlan plainPolicy previous plan).compiled path) =
        (compilePlan plainAuthorities ⟨[plainNote "h'" "c'" "e'"]⟩ (emptySnapshot key) plainPolicy).map
          fun full => (applyPlan plainPolicy (emptySnapshot key) full).compiled path := by
  obtain ⟨first, hfirst, h⟩ := Option.map_eq_some_iff.mp first_note_compiles
  refine ⟨_, h, (incremental_compile_eq_full (.compile .empty (toOption_eq_some hfirst))).1 ?_⟩
  simp [SameSource, plainNote, documentSourceHash]

end Alexandria.Compile
