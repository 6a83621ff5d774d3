import Alexandria.Embedding.Reindex
import Alexandria.Foundations.Keyed

/-! # What reindexing makes of the tables

The chunks that a call selects are the first ones of a work list: all stale chunks, source by source, and behind them, where the
rebuild is forced, the others. The calls of a run therefore use up what the work lists put first.
-/

namespace Alexandria.Embedding
set_option autoImplicit false

open Text Ternary
open Prefixes (First)

variable {F : Type} {n : ℕ} {env : EmbeddingEnvironment} {finite : F → Bool} {provider : EmbeddingProvider}
  {generation : EmbeddingGeneration} {i : Fin n}

/-! ## Rows and records -/

theorem ChunkSource.rawChunkId_recordId (source : ChunkSource) (id : String) : source.rawChunkId (source.recordId id) = id := by
  cases source with
  | contexts => rfl
  | vault =>
    show withoutStart "obsidian-chunk:" ("obsidian-chunk:" ++ id) = id
    have hopens : opensWith "obsidian-chunk:" ("obsidian-chunk:" ++ id) = true := by
      unfold opensWith
      rw [String.toList_append, List.isPrefixOf_iff_prefix]
      exact List.prefix_append _ _
    unfold withoutStart
    rw [if_pos hopens, String.toList_append, ← String.length_toList, List.drop_left, String.ofList_toList]

theorem ChunkSource.recordId_injective (source : ChunkSource) : Function.Injective source.recordId :=
  Function.LeftInverse.injective source.rawChunkId_recordId

theorem passes_stale {columns : EmbeddingColumns F} : passes (staleEmbeddingCondition generation columns) = true ↔
    columns.embedding = none ∨ (∃ model, columns.model = some model ∧ model ≠ generation.modelName) ∨
      (∃ dimensions, columns.dimensions = some dimensions ∧ dimensions ≠ generation.dimensions) ∨
        columns.fingerprintKey = none ∨ ∃ key, columns.fingerprintKey = some key ∧ key ≠ generation.fingerprintKey := by
  unfold staleEmbeddingCondition
  rw [passes_any]
  simp

theorem passes_current {columns : EmbeddingColumns F} : passes (currentEmbeddingCondition generation columns) = true ↔
    columns.embedding.isSome = true ∧ columns.model = some generation.modelName ∧
      columns.dimensions = some generation.dimensions ∧ columns.fingerprintKey = some generation.fingerprintKey := by
  unfold currentEmbeddingCondition
  rw [passes_all]
  simp

/-- The columns are null, or one embedding filled them. -/
def Whole (env : EmbeddingEnvironment) (columns : EmbeddingColumns F) : Prop :=
  columns = .null ∨ ∃ stored : StoredEmbedding F, columns = stored.columns env

/-- What was filled together is stale exactly where it is not current. -/
theorem Whole.current_eq {columns : EmbeddingColumns F} (h : Whole env columns) (generation : EmbeddingGeneration) :
    passes (currentEmbeddingCondition generation columns) = !passes (staleEmbeddingCondition generation columns) := by
  rw [Bool.eq_iff_iff, Bool.not_eq_true', ← Bool.not_eq_true, passes_stale, passes_current]
  obtain rfl | ⟨stored, rfl⟩ := h
  · simp [EmbeddingColumns.null]
  · simp [StoredEmbedding.columns]

theorem StoredEmbedding.not_stale (stored : StoredEmbedding F) :
    passes (staleEmbeddingCondition (stored.provider.generation env) (stored.columns env)) = false := by
  rw [← Bool.not_eq_true, passes_stale]
  simp [StoredEmbedding.columns, EmbeddingProvider.generation]

/-- Over rows that were filled together, the first stale row and the counts tell the same. -/
theorem ChunkTable.probes_agree (table : ChunkTable F) (h : ∀ row ∈ table.rows, Whole env row.columns)
    (generation : EmbeddingGeneration) :
    table.embeddingIndexStatus env generation = (table.embeddingSourceStatus env generation).status ∧
      (table.embeddingSourceStatus env generation).staleRows =
        table.rows.countP fun row => row.eligible env && row.stale generation := by
  have hstale : (table.embeddingSourceStatus env generation).staleRows =
      table.rows.countP fun row => row.eligible env && row.stale generation := by
    show table.rows.countP (·.eligible env) - table.rows.countP (fun row => row.eligible env && row.current generation) = _
    have hsplit : table.rows.countP (·.eligible env) = table.rows.countP (fun row => row.eligible env && row.current generation) +
        table.rows.countP fun row => row.eligible env && row.stale generation := by
      have hparts := List.countP_eq_countP_filter_add table.rows (·.eligible env) (·.current generation)
      rw [List.countP_filter, List.countP_filter] at hparts
      rw [hparts]
      congr 1
      refine List.countP_congr fun row hrow => ?_
      unfold ChunkRow.current ChunkRow.stale
      rw [(h row hrow).current_eq]
      simp
    omega
  refine ⟨?_, hstale⟩
  show _ = if (table.embeddingSourceStatus env generation).staleRows = 0 then RagHealthState.healthy else .reindexRequired
  rw [hstale]
  unfold ChunkTable.embeddingIndexStatus
  by_cases hany : (table.rows.any fun row => row.eligible env && row.stale generation) = true
  · rw [if_pos hany, if_neg fun hzero => ?_]
    obtain ⟨row, hrow, hp⟩ := List.any_eq_true.mp hany
    exact List.countP_eq_zero.mp hzero row hrow hp
  · rw [if_neg hany, if_pos (List.countP_eq_zero.mpr fun row hrow hp => hany (List.any_eq_true.mpr ⟨row, hrow, hp⟩))]

/-! ## Storing -/

/-- The chunk was read from the table. -/
def ChunkTable.Holds (table : ChunkTable F) (chunk : ContextChunkRecord) : Prop :=
  ∃ row ∈ table.rows, chunk = table.source.record row

/-- A chunk that is named got an embedding made for its content hash, every other one is as it was. -/
def Touched (env : EmbeddingEnvironment) (stored : List (StoredEmbedding F)) (named : Prop) (row row' : ChunkRow F) : Prop :=
  (¬named ∧ row' = row) ∨
    (named ∧ ∃ e ∈ stored, e.chunk.contentHash = row.contentHash ∧ row' = { row with columns := e.columns env })

/-- The rows of a table after embeddings were stored for the chunks with the ids. -/
structure Refreshed (env : EmbeddingEnvironment) (stored : List (StoredEmbedding F)) (ids : List String)
    (table table' : ChunkTable F) : Prop where
  source : table'.source = table.source
  rows : ∃ f : ChunkRow F → ChunkRow F, table'.rows = table.rows.map f ∧
    ∀ row ∈ table.rows, Touched env stored (table.source.recordId row.id ∈ ids) row (f row)

section Storing
variable {table table' table'' : ChunkTable F} {stored stored' : List (StoredEmbedding F)} {ids ids' : List String}

theorem Touched.frame {named : Prop} {row row' : ChunkRow F} (h : Touched env stored named row row') :
    row' = { row with columns := row'.columns } := by
  obtain ⟨-, rfl⟩ | ⟨-, e, -, -, rfl⟩ := h <;> rfl

theorem Refreshed.refl (table : ChunkTable F) : Refreshed env stored [] table table :=
  ⟨rfl, id, (List.map_id _).symm, fun _ _ => .inl ⟨List.not_mem_nil, rfl⟩⟩

theorem Refreshed.trans (h : Refreshed env stored ids table table') (h' : Refreshed env stored' ids' table' table'') :
    Refreshed env (stored ++ stored') (ids ++ ids') table table'' := by
  obtain ⟨f, hrows, hf⟩ := h.rows
  obtain ⟨g, hrows', hg⟩ := h'.rows
  refine ⟨h'.source.trans h.source, g ∘ f, by rw [hrows', hrows, List.map_map], fun row hrow => ?_⟩
  have hframe := (hf row hrow).frame
  have hnext := hg (f row) (hrows ▸ List.mem_map_of_mem hrow)
  have hid : (f row).id = row.id := by rw [hframe]
  have hhash : (f row).contentHash = row.contentHash := by rw [hframe]
  rw [h.source, hid] at hnext
  obtain ⟨hnot, hsame⟩ | ⟨hmem, e, he, hash, hset⟩ := hnext
  · obtain ⟨hnot', hsame'⟩ | ⟨hmem, e, he, hash, hset⟩ := hf row hrow
    · exact .inl ⟨fun hmem => (List.mem_append.mp hmem).elim hnot' hnot, hsame.trans hsame'⟩
    · exact .inr ⟨List.mem_append_left _ hmem, e, List.mem_append_left _ he, hash, hsame.trans hset⟩
  · refine .inr ⟨List.mem_append_right _ hmem, e, List.mem_append_right _ he, hash.trans hhash, hset.trans ?_⟩
    rw [hframe]

theorem Refreshed.holds (h : Refreshed env stored ids table table') {chunk : ContextChunkRecord} (hchunk : table.Holds chunk) :
    table'.Holds chunk := by
  obtain ⟨row, hrow, rfl⟩ := hchunk
  obtain ⟨f, hrows, hf⟩ := h.rows
  refine ⟨f row, hrows ▸ List.mem_map_of_mem hrow, ?_⟩
  rw [h.source, (hf row hrow).frame]
  rfl

variable (env) in
/-- Every chunk that was read finds its row. -/
theorem refreshed_update (table : ChunkTable F) {new : List (StoredEmbedding F)} (hnew : ∀ e ∈ new, table.Holds e.chunk) :
    Refreshed env new (new.map (·.chunk.id)) table
        (table.updateChunkEmbeddings (new.map fun e => ⟨e.chunk.id, e.columns env⟩)).1 ∧
      (table.updateChunkEmbeddings (new.map fun e => ⟨e.chunk.id, e.columns env⟩)).2 = new.length := by
  constructor
  · refine ⟨rfl, _, rfl, fun row hrow => ?_⟩
    unfold ChunkRow.updated
    split
    · rename_i update hfind
      obtain ⟨e, he, rfl⟩ := List.mem_map.mp (List.mem_reverse.mp (List.mem_of_find?_eq_some hfind))
      obtain ⟨other, hother, hchunk⟩ := hnew e he
      have hid : e.chunk.id = table.source.recordId other.id := by rw [hchunk]; rfl
      have heq : row.id = table.source.rawChunkId e.chunk.id := by simpa using List.find?_some hfind
      rw [hid, ChunkSource.rawChunkId_recordId] at heq
      obtain rfl := List.inj_on_of_nodup_map table.keyed hother hrow heq.symm
      exact .inr ⟨List.mem_map.mpr ⟨e, he, hid⟩, e, he, by rw [hchunk]; rfl, rfl⟩
    · rename_i hnone
      refine .inl ⟨fun hmem => ?_, rfl⟩
      obtain ⟨e, he, hid⟩ := List.mem_map.mp hmem
      refine of_decide_eq_false (Bool.eq_false_iff.mpr (List.find?_eq_none.mp hnone _
        (List.mem_reverse.mpr (List.mem_map_of_mem he)))) ?_
      rw [hid, ChunkSource.rawChunkId_recordId]
  · unfold ChunkTable.updateChunkEmbeddings
    rw [List.countP_map]
    refine (List.countP_eq_length.mpr fun e he => ?_).trans rfl
    obtain ⟨row, hrow, hchunk⟩ := hnew e he
    refine List.any_eq_true.mpr ⟨row, hrow, decide_eq_true ?_⟩
    show row.id = table.source.rawChunkId e.chunk.id
    rw [hchunk]
    exact (ChunkSource.rawChunkId_recordId _ _).symm

end Storing

/-- The embedding passed the checks on vectors. -/
structure Made (finite : F → Bool) (stored : StoredEmbedding F) : Prop where
  nonempty : stored.vector ≠ []
  length : stored.vector.length = stored.provider.dimensions
  finite : ∀ value ∈ stored.vector, finite value = true

theorem embedChunk_ok {now : ℕ} {pair : ContextChunkRecord × List F} {stored : StoredEmbedding F}
    (h : embedChunk finite provider now pair = .ok stored) :
    stored.provider = provider ∧ Made finite stored ∧ stored.chunk = pair.1 := by
  unfold embedChunk at h
  split at h
  · cases h
  · rename_i hlength
    obtain ⟨vector, hvector, rfl⟩ := Keyed.map_eq_ok h
    unfold normalizeEmbeddingVector at hvector
    split_ifs at hvector with hempty hfinite
    obtain rfl := Except.ok.inj hvector
    refine ⟨rfl, ⟨fun hnil => hempty (List.isEmpty_iff.mpr hnil), not_not.mp hlength, fun value hvalue => ?_⟩, rfl⟩
    by_contra hnot
    exact hfinite (List.any_eq_true.mpr ⟨value, hvalue, by simpa using hnot⟩)

theorem embeddingUpdates_ok {chunks : List ContextChunkRecord} {answer : List String → EmbedAnswer F}
    {new : List (StoredEmbedding F)} (h : embeddingUpdates finite provider chunks answer = .ok new) :
    new.map (·.chunk) = chunks ∧ ∀ e ∈ new, e.provider = provider ∧ Made finite e := by
  unfold embeddingUpdates at h
  split at h
  · cases h
  · rename_i vectors now _
    split at h
    · cases h
    · rename_i hlength
      have hchunks : new.map (·.chunk) = (chunks.zip vectors).map Prod.fst :=
        Keyed.map_key_mapM (fun _ _ hpair => (embedChunk_ok hpair).2.2) h
      rw [List.map_fst_zip (not_not.mp hlength).ge] at hchunks
      refine ⟨hchunks, fun e he => ?_⟩
      obtain ⟨pair, -, hpair⟩ := Keyed.mapM_ok_source h he
      exact ⟨(embedChunk_ok hpair).1, (embedChunk_ok hpair).2.1⟩

/-! ## The batches of a call -/

/-- The chunks of batches with their sources, in order. -/
def drawn (batches : List (EmbeddingSourceBatch n)) : List (Fin n × ContextChunkRecord) :=
  batches.flatMap fun batch => batch.chunks.map (batch.source, ·)

/-- The ids of the chunks that are drawn from a source. -/
def idsOf (picked : List (Fin n × ContextChunkRecord)) (i : Fin n) : List String :=
  (picked.filter (·.1 = i)).map (·.2.id)

theorem idsOf_append (picked picked' : List (Fin n × ContextChunkRecord)) (i : Fin n) :
    idsOf (picked ++ picked') i = idsOf picked i ++ idsOf picked' i := by
  unfold idsOf
  rw [List.filter_append, List.map_append]

theorem mem_idsOf {picked : List (Fin n × ContextChunkRecord)} {id : String} :
    id ∈ idsOf picked i ↔ ∃ chunk, (i, chunk) ∈ picked ∧ chunk.id = id := by
  simp [idsOf]

theorem idsOf_batch (batch : EmbeddingSourceBatch n) (i : Fin n) :
    idsOf (batch.chunks.map (batch.source, ·)) i = if batch.source = i then batch.chunks.map (·.id) else [] := by
  unfold idsOf
  split
  · rename_i h
    rw [List.filter_eq_self.mpr (by simpa using fun _ _ => h), List.map_map]
    rfl
  · rename_i h
    rw [List.filter_eq_nil_iff.mpr (by simpa using fun _ _ => h)]
    rfl

/-- Some batches are stored in order; all of them where the call does not fail. -/
structure Batched (env : EmbeddingEnvironment) (finite : F → Bool) (provider : EmbeddingProvider)
    (picked : List (Fin n × ContextChunkRecord)) (s s' : ReindexSystem F n) where
  new : List (StoredEmbedding F)
  stored : s'.stored = s.stored ++ new
  made : ∀ e ∈ new, e.provider = provider ∧ Made finite e
  drawn : ∀ e ∈ new, ∃ i, (i, e.chunk) ∈ picked
  refreshed : ∀ i, Refreshed env new (idsOf picked i) (s.sources i) (s'.sources i)

def Batched.refl (s : ReindexSystem F n) : Batched env finite provider [] s s :=
  ⟨[], (List.append_nil _).symm, by simp, by simp, fun i => .refl _⟩

def Batched.trans {picked picked' : List (Fin n × ContextChunkRecord)} {s s' s'' : ReindexSystem F n}
    (h : Batched env finite provider picked s s') (h' : Batched env finite provider picked' s' s'') :
    Batched env finite provider (picked ++ picked') s s'' where
  new := h.new ++ h'.new
  stored := by rw [h'.stored, h.stored, List.append_assoc]
  made := fun e he => (List.mem_append.mp he).elim (h.made e) (h'.made e)
  drawn := by
    intro e he
    obtain he | he := List.mem_append.mp he
    · exact (h.drawn e he).imp fun _ => List.mem_append_left _
    · exact (h'.drawn e he).imp fun _ => List.mem_append_right _
  refreshed := fun i => idsOf_append picked picked' i ▸ (h.refreshed i).trans (h'.refreshed i)

variable (env) in
/-- A batch that is answered is stored whole. -/
theorem store_spec {batch : EmbeddingSourceBatch n} {answer : List String → EmbedAnswer F} {new : List (StoredEmbedding F)}
    {s : ReindexSystem F n} (hnew : embeddingUpdates finite provider batch.chunks answer = .ok new)
    (h : ∀ pick ∈ batch.chunks.map (batch.source, ·), (s.sources pick.1).Holds pick.2) :
    Nonempty (Batched env finite provider (batch.chunks.map (batch.source, ·)) s (s.store env batch.source new).1) ∧
      (s.store env batch.source new).2 = batch.chunks.length := by
  obtain ⟨hchunks, hmade⟩ := embeddingUpdates_ok hnew
  have hdrawn : ∀ e ∈ new, (batch.source, e.chunk) ∈ batch.chunks.map (batch.source, ·) := fun e he =>
    List.mem_map_of_mem (hchunks ▸ List.mem_map_of_mem he)
  obtain ⟨hrefreshed, hcount⟩ := refreshed_update env (s.sources batch.source) fun e he => h _ (hdrawn e he)
  have hids : new.map (·.chunk.id) = batch.chunks.map (·.id) := by rw [← hchunks, List.map_map]; rfl
  have hlength : new.length = batch.chunks.length := by rw [← hchunks, List.length_map]
  refine ⟨⟨new, rfl, hmade, fun e he => ⟨_, hdrawn e he⟩, fun i => ?_⟩, hcount.trans hlength⟩
  rw [idsOf_batch]
  show Refreshed env new _ (s.sources i) (Function.update s.sources batch.source _ i)
  by_cases hi : batch.source = i
  · subst hi
    rw [if_pos rfl, Function.update_self, ← hids]
    exact hrefreshed
  · rw [if_neg hi, Function.update_of_ne (Ne.symm hi)]
    exact .refl _

variable (env finite provider) in
theorem updateBatches_spec (answer : ℕ → List String → EmbedAnswer F) (batches : List (EmbeddingSourceBatch n)) (updated : ℕ)
    (s : ReindexSystem F n) (h : ∀ pick ∈ drawn batches, (s.sources pick.1).Holds pick.2) :
    ∃ picked, picked <+: drawn batches ∧
      Nonempty (Batched env finite provider picked s (updateBatches env finite provider answer batches updated s).1) ∧
        ∀ count, (updateBatches env finite provider answer batches updated s).2 = .ok count →
          picked = drawn batches ∧ count = updated + (drawn batches).length := by
  induction batches generalizing updated s with
  | nil =>
    exact ⟨[], List.prefix_rfl, ⟨.refl s⟩, fun count hok => ⟨rfl, (Except.ok.inj hok).symm⟩⟩
  | cons batch rest ih =>
    have hcons : drawn (batch :: rest) = batch.chunks.map (batch.source, ·) ++ drawn rest := List.flatMap_cons
    rw [hcons] at h ⊢
    unfold updateBatches
    cases hnew : embeddingUpdates finite provider batch.chunks (answer rest.length) with
    | error message =>
      exact ⟨[], List.nil_prefix, ⟨.refl s⟩, fun count hok => nomatch hok⟩
    | ok new =>
      obtain ⟨⟨hfirst⟩, hstored⟩ := store_spec env hnew fun pick hpick => h pick (List.mem_append_left _ hpick)
      obtain ⟨picked, hpart, ⟨hrest⟩, hdone⟩ := ih (updated + (s.store env batch.source new).2) _ fun pick hpick =>
        (hfirst.refreshed pick.1).holds (h pick (List.mem_append_right _ hpick))
      refine ⟨_, (List.prefix_append_right_inj _).mpr hpart, ⟨hfirst.trans hrest⟩, fun count hok => ?_⟩
      obtain ⟨hpicked, rfl⟩ := hdone count hok
      refine ⟨by rw [hpicked], ?_⟩
      rw [hstored, List.length_append, List.length_map, Nat.add_assoc]

/-! ## The work of a call -/

def tagged (rows : Fin n → List (ChunkRow F)) : List (Fin n × ChunkRow F) :=
  (List.finRange n).flatMap fun i => (rows i).map (i, ·)

def allRows (sources : Fin n → ChunkTable F) : List (Fin n × ChunkRow F) := tagged fun i => (sources i).rows

def recorded (sources : Fin n → ChunkTable F) (pick : Fin n × ChunkRow F) : Fin n × ContextChunkRecord :=
  (pick.1, (sources pick.1).source.record pick.2)

/-- Whether a call may take the chunk. -/
def ChunkRow.wanted (env : EmbeddingEnvironment) (generation : EmbeddingGeneration) (call : ReindexCall F n) (row : ChunkRow F) :
    Bool := row.eligible env && row.asked call.noteIds && (call.force || row.stale generation)

def ReindexCall.queue (call : ReindexCall F n) (env : EmbeddingEnvironment) (generation : EmbeddingGeneration)
    (sources : Fin n → ChunkTable F) (force : Bool) (i : Fin n) : List (ChunkRow F) :=
  (sources i).queue env generation force call.noteIds (call.order force i)

/-- All chunks that a call may take, in the order in which it takes them. -/
def worklist (env : EmbeddingEnvironment) (generation : EmbeddingGeneration) (call : ReindexCall F n)
    (sources : Fin n → ChunkTable F) : List (Fin n × ChunkRow F) :=
  tagged (call.queue env generation sources false) ++
    if call.force then tagged fun i => (call.queue env generation sources true i).filter fun row => !row.stale generation else []

section Work
variable {sources : Fin n → ChunkTable F} {call : ReindexCall F n} {table : ChunkTable F} {force : Bool}
  {noteIds : Option (List String)} {order : ScanOrder F}

theorem mem_tagged {rows : Fin n → List (ChunkRow F)} {pick : Fin n × ChunkRow F} :
    pick ∈ tagged rows ↔ pick.2 ∈ rows pick.1 := by
  obtain ⟨i, row⟩ := pick
  simp [tagged]

theorem queue_perm : (table.queue env generation force noteIds order).Perm (table.rows.filter fun row =>
    row.eligible env && row.asked noteIds && (force || row.stale generation)) :=
  (List.perm_insertionSort _ _).trans ((order.perm table.rows).filter _)

theorem mem_queue {row : ChunkRow F} : row ∈ table.queue env generation force noteIds order ↔ row ∈ table.rows ∧
    (row.eligible env && row.asked noteIds && (force || row.stale generation)) = true := by
  rw [queue_perm.mem_iff, List.mem_filter]

/-- The chunks that a pass takes: the first ones that are left of the queues. -/
def ReindexCall.takes (call : ReindexCall F n) (env : EmbeddingEnvironment) (generation : EmbeddingGeneration)
    (sources : Fin n → ChunkTable F) (force : Bool) (limit : ℕ) (order : List (Fin n)) (selection : Selection n) :
    List (Fin n × ChunkRow F) :=
  (order.flatMap fun i => ((call.queue env generation sources force i).filter fun row =>
    (sources i).source.recordId row.id ∉ selection.processed i).map (i, ·)).take (limit - selection.scanned)

/-- At most as many chunks as were processed are in the way. -/
theorem query_unprocessed (processed : Finset String) (room : ℕ) :
    ((call.query env generation sources force i (room + processed.card)).filter fun chunk => chunk.id ∉ processed).take room =
      (((call.queue env generation sources force i).filter fun row =>
        (sources i).source.recordId row.id ∉ processed).take room).map (sources i).source.record := by
  have hids : (((call.queue env generation sources force i).map (·.id)).map (sources i).source.recordId).Nodup :=
    ((queue_perm.map _).nodup_iff.mpr ((sources i).keyed.sublist (List.filter_sublist.map _))).map
      (sources i).source.recordId_injective
  have hcount : (call.queue env generation sources force i).countP (fun row =>
      !decide ((sources i).source.recordId row.id ∉ processed)) ≤ processed.card := by
    calc _ = ((((call.queue env generation sources force i).map (·.id)).map _).filter (· ∈ processed)).length := by
          rw [← List.countP_eq_length_filter, List.countP_map, List.countP_map]
          exact List.countP_congr fun row _ => by simp
      _ = _ := (List.toFinset_card_of_nodup (hids.filter _)).symm
      _ ≤ _ := Finset.card_le_card fun id hid => by simpa using (List.mem_filter.mp (List.mem_toFinset.mp hid)).2
  have htake := congrArg (List.map (sources i).source.record) (Prefixes.take_filter_take (n := room) hcount)
  rw [← htake, List.map_take]
  unfold ReindexCall.query ChunkTable.chunksMissingEmbeddings
  rw [List.filter_map]
  rfl

theorem takes_congr {limit : ℕ} {rest : List (Fin n)} {selection selection' : Selection n}
    (h : ∀ i ∈ rest, selection.processed i = selection'.processed i) (hscanned : selection.scanned = selection'.scanned) :
    call.takes env generation sources force limit rest selection =
      call.takes env generation sources force limit rest selection' := by
  unfold ReindexCall.takes
  rw [hscanned, List.flatMap_def, List.flatMap_def, List.map_congr_left fun i hi => by rw [h i hi]]

variable (env generation sources call force) in
theorem select_spec (limit : ℕ) (order : List (Fin n)) (horder : order.Nodup)
    (selection : Selection n) {taken : List (Fin n × ChunkRow F)}
    (htaken : taken = call.takes env generation sources force limit order selection)
    {pass : Selection n}
    (hpass : pass = selectEmbeddingSourceBatches (call.query env generation sources force) limit order selection) :
    drawn pass.batches = drawn selection.batches ++ taken.map (recorded sources) ∧
      pass.scanned = selection.scanned + taken.length ∧
        ∀ i, pass.processed i = selection.processed i ∪ (idsOf (taken.map (recorded sources)) i).toFinset := by
  induction order generalizing selection taken pass with
  | nil =>
    subst htaken hpass
    simp [ReindexCall.takes, idsOf]
  | cons source rest ih =>
    obtain ⟨hsource, hrest⟩ := List.nodup_cons.mp horder
    by_cases hroom : limit - selection.scanned < 1
    · have hzero : limit - selection.scanned = 0 := by omega
      subst htaken hpass
      simp [selectEmbeddingSourceBatches, ReindexCall.takes, hzero, idsOf]
    · simp only [selectEmbeddingSourceBatches, if_neg hroom, query_unprocessed] at hpass
      generalize hselected : ((call.queue env generation sources force source).filter fun row =>
        (sources source).source.recordId row.id ∉ selection.processed source).take (limit - selection.scanned) = selected at hpass
      obtain ⟨left, hleft, rfl⟩ : ∃ left, left = call.takes env generation sources force limit rest
          { selection with scanned := selection.scanned + selected.length } ∧ taken = selected.map (source, ·) ++ left := by
        refine ⟨_, rfl, ?_⟩
        rw [htaken, ← hselected]
        unfold ReindexCall.takes
        rw [List.flatMap_cons, List.take_append, List.map_take, List.length_map, List.length_take]
        congr 2
        dsimp only
        omega
      rw [List.map_append, List.map_map, List.length_append, List.length_map]
      have hbatch : idsOf (selected.map (recorded sources ∘ (source, ·))) = fun i =>
          if source = i then (selected.map (sources source).source.record).map (·.id) else [] := by
        funext i
        rw [← idsOf_batch ⟨source, selected.map (sources source).source.record⟩, List.map_map]
        rfl
      split at hpass
      · rename_i hempty
        obtain rfl := List.map_eq_nil_iff.mp (List.isEmpty_iff.mp hempty)
        simpa using ih hrest selection hleft hpass
      · obtain ⟨hdrawn, hscanned, hprocessed⟩ := ih hrest _ (hleft.trans (takes_congr (fun i hi =>
          (Function.update_of_ne (ne_of_mem_of_not_mem hi hsource) _ _).symm) (by rw [List.length_map]))) hpass
        refine ⟨?_, ?_, fun i => ?_⟩
        · rw [hdrawn]
          simp [drawn, recorded]
        · rw [hscanned, List.length_map, Nat.add_assoc]
        · rw [hprocessed, idsOf_append, List.toFinset_append, ← Finset.union_assoc, hbatch]
          congr 1
          simp only [Function.update_apply]
          by_cases hi : i = source
          · subst hi
            rw [if_pos rfl, if_pos rfl]
          · rw [if_neg hi, if_neg (Ne.symm hi), List.toFinset_nil, Finset.union_empty]

theorem mem_idsOf_recorded {picked : List (Fin n × ChunkRow F)} {id : String} :
    (sources i).source.recordId id ∈ idsOf (picked.map (recorded sources)) i ↔ ∃ row, (i, row) ∈ picked ∧ row.id = id := by
  simp only [mem_idsOf, List.mem_map]
  constructor
  · rintro ⟨chunk, ⟨⟨j, row⟩, hrow, heq⟩, hid⟩
    obtain ⟨rfl, rfl⟩ := Prod.mk.inj heq
    exact ⟨row, hrow, ChunkSource.recordId_injective _ hid⟩
  · rintro ⟨row, hrow, rfl⟩
    exact ⟨_, ⟨(i, row), hrow, rfl⟩, rfl⟩

/-- Of the chunks that a forced pass may take, the other pass takes the stale ones. -/
theorem taken_iff_stale {row : ChunkRow F} (h : row ∈ call.queue env generation sources true i) :
    (∃ other, (i, other) ∈ tagged (call.queue env generation sources false) ∧ other.id = row.id) ↔
      row.stale generation = true := by
  obtain ⟨hrow, hwanted⟩ := mem_queue.mp h
  rw [Bool.true_or, Bool.and_true] at hwanted
  simp only [mem_tagged]
  constructor
  · rintro ⟨other, hother, hid⟩
    obtain ⟨hmem, hstale⟩ := mem_queue.mp hother
    obtain rfl := List.inj_on_of_nodup_map (sources i).keyed hmem hrow hid
    rw [hwanted, Bool.true_and, Bool.false_or] at hstale
    exact hstale
  · intro hstale
    exact ⟨row, mem_queue.mpr ⟨hrow, by rw [hwanted, hstale]; rfl⟩, rfl⟩

variable (env generation sources call) in
/-- A call takes the first chunks of its work. -/
theorem selectWork_spec :
    drawn (selectWork env generation call sources).1 =
        ((worklist env generation call sources).take call.limit).map (recorded sources) ∧
      (selectWork env generation call sources).2 = ((worklist env generation call sources).take call.limit).length := by
  obtain ⟨hdrawn, hscanned, hprocessed⟩ := select_spec env generation sources call false call.limit _ (List.nodup_finRange n)
    ⟨[], 0, fun _ => ∅⟩ rfl rfl
  unfold selectWork worklist
  generalize hqueue : tagged (call.queue env generation sources false) = queue
  generalize hothers : tagged (fun i => (call.queue env generation sources true i).filter (!·.stale generation)) = others
  generalize hfirst : selectEmbeddingSourceBatches (call.query env generation sources false) call.limit (List.finRange n)
    ⟨[], 0, fun _ => ∅⟩ = first at hdrawn hscanned hprocessed
  have htakes : call.takes env generation sources false call.limit (List.finRange n) ⟨[], 0, fun _ => ∅⟩ =
      queue.take call.limit := by
    simp [← hqueue, ReindexCall.takes, tagged]
  rw [htakes, Nat.zero_add] at hscanned
  rw [htakes] at hdrawn hprocessed
  simp only [hfirst]
  by_cases hmore : call.force = true ∧ first.scanned < call.limit
  · have hall : queue.take call.limit = queue := by
      have hless := hmore.2
      rw [hscanned, List.length_take] at hless
      exact List.take_of_length_le (by omega)
    rw [hall] at hdrawn hscanned hprocessed
    have hrest : call.takes env generation sources true (call.limit - first.scanned) (List.finRange n)
        ⟨[], 0, first.processed⟩ = others.take (call.limit - first.scanned) := by
      refine congrArg (List.take _) (Eq.trans (congrArg tagged (funext fun i => List.filter_congr fun row hrow => ?_)) hothers)
      have hiff : (sources i).source.recordId row.id ∈ first.processed i ↔ row.stale generation = true := by
        rw [hprocessed, Finset.empty_union, List.mem_toFinset, mem_idsOf_recorded, ← hqueue, taken_iff_stale hrow]
      rw [Bool.eq_iff_iff, decide_eq_true_iff, hiff, Bool.not_eq_true']
      exact Bool.not_eq_true _ ▸ Iff.rfl
    obtain ⟨hdrawn', hscanned', -⟩ := select_spec env generation sources call true (call.limit - first.scanned) _
      (List.nodup_finRange n) ⟨[], 0, first.processed⟩ rfl rfl
    rw [hrest] at hdrawn' hscanned'
    rw [Nat.zero_add] at hscanned'
    rw [if_pos hmore, if_pos hmore.1, List.take_append, hall]
    unfold drawn at hdrawn hdrawn' ⊢
    rw [List.flatMap_append, hdrawn, hdrawn', hscanned', hscanned, List.map_append, List.length_append]
    exact ⟨rfl, rfl⟩
  · have hwork : (queue ++ if call.force then others else []).take call.limit = queue.take call.limit := by
      rw [hscanned, List.length_take] at hmore
      split
      · rename_i hforce
        exact List.take_append_of_le_length (by have := not_and.mp hmore hforce; omega)
      · rw [List.append_nil]
    rw [if_neg hmore, hwork]
    exact ⟨hdrawn, hscanned⟩

/-- The rows of the sources are named by source and id. -/
theorem allRows_keyed : ((allRows sources).map fun pick => (pick.1, pick.2.id)).Nodup := by
  unfold allRows tagged
  rw [List.map_flatMap]
  refine List.nodup_flatMap.mpr ⟨fun i _ => ?_, (List.nodup_finRange n).imp fun {i j} hne => ?_⟩
  · have hids := (sources i).keyed.map (Prod.mk_right_injective i)
    rw [List.map_map] at hids ⊢
    exact hids
  · refine List.disjoint_left.mpr fun key hi hj => ?_
    simp only [List.map_map, List.mem_map] at hi hj
    obtain ⟨_, -, rfl⟩ := hi
    obtain ⟨_, -, hkey⟩ := hj
    exact hne (Prod.mk.inj hkey).1.symm

theorem filter_tagged (rows : Fin n → List (ChunkRow F)) (p : ChunkRow F → Bool) :
    ((tagged rows).filter fun pick => p pick.2) = tagged fun i => (rows i).filter p := by
  unfold tagged
  rw [List.filter_flatMap]
  simp only [List.filter_map]
  rfl

theorem tagged_perm {rows rows' : Fin n → List (ChunkRow F)} (h : ∀ i, (rows i).Perm (rows' i)) :
    (tagged rows).Perm (tagged rows') :=
  List.Perm.flatMap_left _ fun i _ => (h i).map _

theorem worklist_perm : (worklist env generation call sources).Perm
    ((allRows sources).filter fun pick => pick.2.wanted env generation call) := by
  have hqueue : ∀ force, (tagged (call.queue env generation sources force)).Perm ((allRows sources).filter fun pick =>
      pick.2.eligible env && pick.2.asked call.noteIds && (force || pick.2.stale generation)) := by
    intro force
    exact (filter_tagged _ fun row => row.eligible env && row.asked call.noteIds && (force || row.stale generation)) ▸
      tagged_perm fun i => queue_perm
  unfold worklist ChunkRow.wanted
  cases call.force with
  | false =>
    rw [if_neg Bool.false_ne_true, List.append_nil]
    exact hqueue false
  | true =>
    rw [if_pos rfl, ← filter_tagged]
    refine (List.Perm.append (hqueue false) ((hqueue true).filter _)).trans ?_
    have hboth := List.filter_append_perm (fun pick : Fin n × ChunkRow F => pick.2.stale generation)
      ((allRows sources).filter fun pick => pick.2.eligible env && pick.2.asked call.noteIds)
    rw [List.filter_filter, List.filter_filter] at hboth
    simpa [List.filter_filter, Bool.and_comm, Bool.and_left_comm] using hboth

open Classical in
/-- What the work of a call puts first is used up by it. -/
theorem Batched.uses_up {s s' : ReindexSystem F n} {call : ReindexCall F n}
    (h : Batched env finite provider
      (((worklist env generation call s.sources).take call.limit).map (recorded s.sources)) s s')
    {p : Fin n × ChunkRow F → Bool} (hfirst : First p (worklist env generation call s.sources))
    (hwanted : ∀ pick ∈ allRows s.sources, p pick = true → pick.2.wanted env generation call = true)
    (hfresh : ∀ e ∈ h.new, ∀ pick ∈ allRows s.sources, p (pick.1, { pick.2 with columns := e.columns env }) = false) :
    (allRows s'.sources).countP p = (allRows s.sources).countP p - call.limit := by
  choose f hrows hf using fun i => (h.refreshed i).rows
  generalize hpicked : (worklist env generation call s.sources).take call.limit = picked at *
  have hmap : allRows s'.sources = (allRows s.sources).map fun pick => (pick.1, f pick.1 pick.2) := by
    unfold allRows tagged
    rw [List.map_flatMap]
    simp only [hrows, List.map_map]
    rfl
  have hsub : picked ⊆ allRows s.sources := fun pick hpick =>
    (List.mem_filter.mp (worklist_perm.subset (List.mem_of_mem_take (hpicked ▸ hpick)))).1
  have hother : ∀ pick ∈ allRows s.sources, p (pick.1, f pick.1 pick.2) = (p pick && decide (pick ∉ picked)) := by
    intro pick hpick
    have hnamed : (s.sources pick.1).source.recordId pick.2.id ∈ idsOf (picked.map (recorded s.sources)) pick.1 ↔
        pick ∈ picked := by
      rw [mem_idsOf_recorded]
      constructor
      · rintro ⟨row, hrow, hid⟩
        rwa [List.inj_on_of_nodup_map allRows_keyed hpick (hsub hrow) (Prod.ext rfl hid.symm)]
      · exact fun hmem => ⟨_, hmem, rfl⟩
    obtain ⟨hnot, hsame⟩ | ⟨hmem, e, he, -, hset⟩ := hf pick.1 pick.2 (mem_tagged.mp hpick)
    · rw [hsame, decide_eq_true (hnamed.not.mp hnot), Bool.and_true]
    · rw [hset, hfresh e he pick hpick, decide_eq_false (not_not.mpr (hnamed.mp hmem)), Bool.and_false]
  have hperm : ((allRows s.sources).filter (· ∈ picked)).Perm picked := by
    have hnodup : (allRows s.sources).Nodup := allRows_keyed.of_map
    have hwork : (worklist env generation call s.sources).Nodup := worklist_perm.nodup_iff.mpr (hnodup.filter _)
    refine (List.perm_ext_iff_of_nodup (hnodup.filter _) (hpicked ▸ hwork.sublist (List.take_sublist _ _))).mpr fun pick => ?_
    rw [List.mem_filter, decide_eq_true_iff]
    exact ⟨fun hmem => hmem.2, fun hmem => ⟨hsub hmem, hmem⟩⟩
  have hall : (worklist env generation call s.sources).countP p = (allRows s.sources).countP p := by
    rw [worklist_perm.countP_eq, List.countP_filter]
    refine List.countP_congr fun pick hpick => ?_
    rw [Bool.and_eq_true]
    exact ⟨And.left, fun hp => ⟨hp, hwanted pick hpick hp⟩⟩
  have hsplit := List.countP_eq_countP_filter_add (allRows s.sources) p (· ∈ picked)
  have hleft : (allRows s'.sources).countP p = ((allRows s.sources).filter fun pick => !decide (pick ∈ picked)).countP p := by
    rw [hmap, List.countP_map, List.countP_filter]
    exact List.countP_congr fun pick hpick => by simp [hother pick hpick]
  rw [hperm.countP_eq, ← hpicked, hfirst.countP_take, hall, hpicked, ← hleft] at hsplit
  omega

theorem drawn_held {pick : Fin n × ContextChunkRecord} (h : pick ∈ drawn (selectWork env generation call sources).1) :
    (sources pick.1).Holds pick.2 := by
  rw [(selectWork_spec env generation sources call).1] at h
  obtain ⟨found, hfound, rfl⟩ := List.mem_map.mp h
  have hmem := (List.mem_filter.mp (worklist_perm.subset (List.mem_of_mem_take hfound))).1
  exact ⟨found.2, mem_tagged.mp hmem, rfl⟩

/-- A call leaves the tables as they are, or stores a part of what it selects; where it serves and does not fail, all of it. -/
theorem reindex_spec (env : EmbeddingEnvironment) (finite : F → Bool) (provider : EmbeddingProvider) (call : ReindexCall F n)
    (s : ReindexSystem F n) : ∃ picked, picked <+: drawn (selectWork env (provider.generation env) call s.sources).1 ∧
      Nonempty (Batched env finite provider picked s (s.reindex env finite (some provider) call).1) ∧
        ∀ result, (s.reindex env finite (some provider) call).2 = .ok result → call.Serves →
          picked = drawn (selectWork env (provider.generation env) call s.sources).1 := by
  unfold ReindexSystem.reindex
  split
  · exact ⟨[], List.nil_prefix, ⟨.refl s⟩, fun result h => by cases h⟩
  · by_cases hserves : call.Serves
    · simp only [Option.filter, decide_eq_true hserves, if_true]
      obtain ⟨picked, hpart, hbatched, hdone⟩ := updateBatches_spec env finite provider call.answer
        (selectWork env (provider.generation env) call s.sources).1 0 s fun pick hpick => drawn_held hpick
      refine ⟨picked, hpart, hbatched, fun result h _ => ?_⟩
      obtain ⟨count, hcount, -⟩ := Keyed.map_eq_ok h
      exact (hdone count hcount).1
    · simp only [Option.filter, decide_eq_false hserves, Bool.false_eq_true, if_false]
      exact ⟨[], List.nil_prefix, ⟨.refl s⟩, fun result _ h => absurd h hserves⟩

/-! ## A backlog is used up -/

/-- The chunks that want an embedding of the generation, over all sources. -/
def backlog (env : EmbeddingEnvironment) (generation : EmbeddingGeneration) (sources : Fin n → ChunkTable F) : ℕ :=
  (allRows sources).countP fun pick => pick.2.eligible env && pick.2.stale generation

/-- Calls one after another, none of which fails. -/
def reindexAll (env : EmbeddingEnvironment) (finite : F → Bool) (provider : EmbeddingProvider) (calls : List (ReindexCall F n))
    (s : ReindexSystem F n) : Option (ReindexSystem F n) :=
  calls.foldlM (fun s call => match s.reindex env finite (some provider) call with
    | (next, .ok _) => some next
    | (_, .error _) => none) s

theorem backlog_reindex {s : ReindexSystem F n} {result : ContextReindexResult} (hserves : call.Serves)
    (hnotes : call.noteIds = none) (h : (s.reindex env finite (some provider) call).2 = .ok result) :
    backlog env (provider.generation env) (s.reindex env finite (some provider) call).1.sources =
      backlog env (provider.generation env) s.sources - call.limit := by
  obtain ⟨picked, -, ⟨hbatched⟩, hall⟩ := reindex_spec env finite provider call s
  rw [hall result h hserves, (selectWork_spec _ _ _ _).1] at hbatched
  refine hbatched.uses_up ?_ ?_ ?_
  · refine First.append_of_none (List.pairwise_of_forall_mem_list fun pick hpick _ _ _ => ?_) fun pick hpick => ?_
    · have hwanted := (mem_queue.mp (mem_tagged.mp hpick)).2
      simp only [Bool.and_eq_true, Bool.false_or] at hwanted ⊢
      exact ⟨hwanted.1.1, hwanted.2⟩
    · split at hpick
      · have hstale := (List.mem_filter.mp (mem_tagged.mp hpick)).2
        rw [Bool.not_eq_true'] at hstale
        rw [hstale, Bool.and_false]
      · cases hpick
  · intro pick _ hp
    rw [Bool.and_eq_true] at hp
    unfold ChunkRow.wanted ChunkRow.asked
    rw [hp.1, hp.2, hnotes, Bool.or_true]
    cases pick.2.owner <;> rfl
  · intro e he pick _
    show (_ && passes (staleEmbeddingCondition (provider.generation env) (e.columns env))) = false
    rw [← (hbatched.made e he).1, e.not_stale, Bool.and_false]

end Work

/-! ## What the tables hold over time -/

section Holding
variable {digest : String → String} {s t : ReindexSystem F n}

/-- The hash of a row is that of its text, and its embedding was stored for a chunk with this hash. -/
def Accounted (env : EmbeddingEnvironment) (digest : String → String) (stored : List (StoredEmbedding F))
    (row : ChunkRow F) : Prop :=
  row.contentHash = digest row.text ∧
    (row.columns = .null ∨ ∃ e ∈ stored, e.chunk.contentHash = row.contentHash ∧ row.columns = e.columns env)

structure Sound (env : EmbeddingEnvironment) (finite : F → Bool) (digest : String → String) (s : ReindexSystem F n) : Prop where
  rows : ∀ i, ∀ row ∈ (s.sources i).rows, Accounted env digest s.stored row
  stored : ∀ e ∈ s.stored, e.chunk.contentHash = digest e.chunk.content ∧ Made finite e

theorem Sound.withTable (h : Sound env finite digest s) (i : Fin n) {table : ChunkTable F}
    (htable : ∀ row ∈ table.rows, Accounted env digest s.stored row) : Sound env finite digest (s.withTable i table) := by
  refine ⟨fun j row hrow => ?_, h.stored⟩
  obtain ⟨-, hmem⟩ | ⟨-, hmem⟩ := Run.of_update (fun t : ChunkTable F => row ∈ t.rows) hrow
  · exact htable row hmem
  · exact h.rows j row hmem

theorem Sound.batched (h : Sound env finite digest s) {picked : List (Fin n × ContextChunkRecord)}
    (hbatched : Batched env finite provider picked s t) (hheld : ∀ pick ∈ picked, (s.sources pick.1).Holds pick.2) :
    Sound env finite digest t := by
  constructor
  · intro i row' hrow'
    rw [hbatched.stored]
    obtain ⟨f, hrows, hf⟩ := (hbatched.refreshed i).rows
    obtain ⟨row, hrow, rfl⟩ := List.mem_map.mp (hrows ▸ hrow')
    obtain ⟨hhash, hcolumns⟩ := h.rows i row hrow
    obtain ⟨-, hsame⟩ | ⟨-, e, he, hchunk, hset⟩ := hf row hrow
    · rw [hsame]
      exact ⟨hhash, hcolumns.imp_right fun ⟨e, he, hrest⟩ => ⟨e, List.mem_append_left _ he, hrest⟩⟩
    · rw [hset]
      exact ⟨hhash, .inr ⟨e, List.mem_append_right _ he, hchunk, rfl⟩⟩
  · intro e he
    rw [hbatched.stored] at he
    obtain he | he := List.mem_append.mp he
    · exact h.stored e he
    · obtain ⟨i, hpick⟩ := hbatched.drawn e he
      obtain ⟨row, hrow, (hchunk : e.chunk = _)⟩ := hheld _ hpick
      refine ⟨?_, (hbatched.made e he).2⟩
      rw [hchunk]
      exact (h.rows i row hrow).1

theorem Sound.reindex (h : Sound env finite digest s) (provider : Option EmbeddingProvider) (call : ReindexCall F n) :
    Sound env finite digest (s.reindex env finite provider call).1 := by
  cases provider with
  | none =>
    unfold ReindexSystem.reindex
    split <;> exact h
  | some provider =>
    obtain ⟨picked, hpart, ⟨hbatched⟩, -⟩ := reindex_spec env finite provider call s
    exact h.batched hbatched fun pick hpick => drawn_held (hpart.subset hpick)

/-- A chunk that a note keeps brings its embedding along. -/
theorem Sound.replacedRows (h : Sound env finite digest s) (i : Fin n) (payload : NoteChunks digest)
    (chunkIds : List String) (now : ℕ) :
    ∀ row ∈ (s.sources i).replacedRows payload chunkIds now, Accounted env digest s.stored row := by
  intro row hrow
  obtain hrow | hrow := List.mem_append.mp hrow
  · exact h.rows i row (List.mem_of_mem_filter hrow)
  · obtain ⟨pair, -, rfl⟩ := List.mem_map.mp hrow
    refine ⟨pair.2.hashed, ?_⟩
    cases hfound : (s.sources i).existingChunkEmbedding payload.noteId (pair.2.chunkIndex, pair.2.contentHash) with
    | none => exact .inl (by unfold ChunkTable.chunkRow; rw [hfound]; rfl)
    | some columns =>
      obtain ⟨old, hold, rfl⟩ := Option.map_eq_some_iff.mp hfound
      obtain ⟨hmem, hkept⟩ := List.mem_filter.mp (List.mem_of_getLast? hold)
      obtain ⟨-, hfilled, -, -, hkey⟩ := of_decide_eq_true hkept
      have hsame : ((s.sources i).chunkRow payload now pair.1 pair.2).columns = old.columns := by
        unfold ChunkTable.chunkRow
        rw [hfound]
        rfl
      obtain hnull | ⟨e, he, hhash, hcolumns⟩ := (h.rows i old hmem).2
      · rw [hnull] at hfilled
        cases hfilled
      · exact .inr ⟨e, he, hhash.trans (Prod.mk.inj hkey).2, hsame.trans hcolumns⟩

theorem Sound.step (h : Sound env finite digest s) {label : ReindexLabel F digest n}
    (hstep : reindexStep digest env finite s label = some t) : Sound env finite digest t := by
  cases label with
  | reindex provider call =>
    obtain rfl := Option.some.inj hstep
    exact h.reindex provider call
  | replaceChunks i payload chunkIds now =>
    obtain ⟨table, htable, rfl⟩ := Option.map_eq_some_iff.mp hstep
    unfold ChunkTable.replaceChunks at htable
    split at htable
    · obtain rfl := Option.some.inj htable
      exact h.withTable i (h.replacedRows i payload chunkIds now)
    · cases htable
  | owner i noteId owner =>
    obtain rfl := Option.some.inj hstep
    refine h.withTable i fun row hrow => ?_
    obtain ⟨old, hold, rfl⟩ := List.mem_map.mp hrow
    unfold ChunkRow.ownedBy
    split <;> exact h.rows i old hold

/-- Whatever is indexed and reindexed, every embedding was stored for a text with the hash of its chunk, of the dimensions of
its provider and finite, and the probe of recall agrees with the status of the source. -/
theorem embeddings_accounted {start : ReindexSystem F n} (hrows : ∀ i, ∀ row ∈ (start.sources i).rows,
    row.contentHash = digest row.text ∧ row.columns = .null) (hstored : start.stored = [])
    (h : Run.Runs (reindexStep digest env finite) start s) (i : Fin n) :
    (∀ row ∈ (s.sources i).rows, row.columns = .null ∨ ∃ e ∈ s.stored, digest e.chunk.content = digest row.text ∧
        Made finite e ∧ row.columns = e.columns env) ∧
      ∀ generation, (s.sources i).embeddingIndexStatus env generation =
          ((s.sources i).embeddingSourceStatus env generation).status ∧
        ((s.sources i).embeddingSourceStatus env generation).staleRows =
          (s.sources i).rows.countP fun row => row.eligible env && row.stale generation := by
  have hstart : Sound env finite digest start :=
    ⟨fun i row hrow => ⟨(hrows i row hrow).1, .inl (hrows i row hrow).2⟩, fun e he => by rw [hstored] at he; cases he⟩
  have hs := h.invariant hstart fun _ _ _ hsound _ hstep => hsound.step hstep
  refine ⟨fun row hrow => ?_, fun generation => (s.sources i).probes_agree (fun row hrow => ?_) generation⟩
  · obtain ⟨hhash, hcolumns⟩ := hs.rows i row hrow
    refine hcolumns.imp_right fun ⟨e, he, hchunk, hset⟩ => ⟨e, he, ?_, (hs.stored e he).2, hset⟩
    rw [← (hs.stored e he).1, hchunk, hhash]
  · exact (hs.rows i row hrow).2.imp_right fun ⟨e, _, _, hset⟩ => ⟨e, hset⟩

end Holding

/-! ## A note indexed, embedded and indexed again -/

def sampleEnvironment : EmbeddingEnvironment := ⟨EmbeddingFingerprint.model, id⟩

def sampleProvider : EmbeddingProvider := ⟨"m", 1, ⟨"p", "m", "1", "mean", true, 1, "text"⟩⟩

/-- One chunk is asked for, rows come as they are stored, every text is answered. -/
def sampleCall : ReindexCall Bool 1 :=
  ⟨1, false, none, ⟨.healthy, .healthy, []⟩, fun _ _ => ⟨id, fun _ => .rfl⟩,
    fun _ texts => .vectors (texts.map fun _ => [true]) 7⟩

def sampleNote (chunkIds : List String) : ReindexLabel Bool id 1 :=
  .replaceChunks ⟨0, Nat.one_pos⟩ ⟨"n", "N", "indexed", "active", "n.md",
    [⟨0, none, "a", "a", rfl⟩, ⟨1, none, "b", "b", rfl⟩]⟩ chunkIds 0

def sampleStart : ReindexSystem Bool 1 := ⟨fun _ => ⟨.vault, [], .nil⟩, []⟩

def sampleLabels : List (ReindexLabel Bool id 1) :=
  [sampleNote ["1", "2"], .reindex (some sampleProvider) sampleCall, sampleNote ["3", "4"]]

def sampleEnd : ReindexSystem Bool 1 :=
  (Run.exec (reindexStep id sampleEnvironment fun _ => true) sampleStart sampleLabels).getD sampleStart

/-- One of the two chunks was embedded, and kept the embedding under its new id. -/
theorem embeddings_accounted_kept : ((sampleEnd.sources 0).rows.map fun row => (row.id, row.columns.embedding)) =
      [("3", some [true]), ("4", none)] ∧
    ((sampleEnd.sources 0).embeddingSourceStatus sampleEnvironment
      (sampleProvider.generation sampleEnvironment)).staleRows = 1 := by
  have hrows : ∀ i, ∀ row ∈ (sampleStart.sources i).rows, row.contentHash = id row.text ∧ row.columns = .null :=
    fun _ _ hrow => nomatch hrow
  have hrun : Run.exec (reindexStep id sampleEnvironment fun _ => true) sampleStart sampleLabels = some sampleEnd := rfl
  obtain ⟨-, hstatus⟩ := embeddings_accounted hrows rfl (.of_exec sampleLabels hrun) 0
  exact ⟨by decide, (hstatus _).2.trans (by decide)⟩

end Alexandria.Embedding
