import Alexandria.Embedding.ChunkStore
import Alexandria.Foundations.Run
import Mathlib.Algebra.GroupWithZero.Nat
import Mathlib.Data.Finset.Card
import Mathlib.Data.List.FinRange

/-! # Reindexing embeddings

`context_embedding_reindex_service.py` over its sources. A call selects chunks, the stale ones of all sources first, and where a
rebuild is forced the others after them; then it embeds and stores them, one batch for each selection of a source. It holds the
exclusive maintenance lease, so no index write comes between its steps. What the provider answers to a batch, and in which order
a query scans a table, are given with the call; each batch is committed by itself.
-/

namespace Alexandria.Embedding
set_option autoImplicit false

open Text

variable {F : Type} {n : ℕ}

/-! ## Selection -/

structure EmbeddingSourceBatch (n : ℕ) where
  source : Fin n
  chunks : List ContextChunkRecord

structure Selection (n : ℕ) where
  batches : List (EmbeddingSourceBatch n)
  scanned : ℕ
  processed : Fin n → Finset String

/-- One pass over the sources; `query` answers a limit. -/
def selectEmbeddingSourceBatches (query : Fin n → ℕ → List ContextChunkRecord) (limit : ℕ) :
    List (Fin n) → Selection n → Selection n
  | [], selection => selection
  | source :: rest, selection =>
    let remaining := limit - selection.scanned
    if remaining < 1 then selection
    else
      let processedIds := selection.processed source
      let chunks := query source (remaining + processedIds.card)
      let selected := (chunks.filter fun chunk => chunk.id ∉ processedIds).take remaining
      if selected.isEmpty then selectEmbeddingSourceBatches query limit rest selection
      else selectEmbeddingSourceBatches query limit rest
        ⟨selection.batches ++ [⟨source, selected⟩], selection.scanned + selected.length,
          Function.update selection.processed source (processedIds ∪ (selected.map (·.id)).toFinset)⟩

/-- The values the provider answers at a time of its clock, or its failure. -/
inductive EmbedAnswer (F : Type)
  | raised (message : String)
  | vectors (vectors : List (List F)) (now : ℕ)

structure RagDependencyHealth where
  vector : RagHealthState
  embedding : RagHealthState
  warnings : List String

structure ReindexCall (F : Type) (n : ℕ) where
  limit : ℕ
  force : Bool
  noteIds : Option (List String)
  health : RagDependencyHealth
  order : Bool → Fin n → ScanOrder F
  answer : ℕ → List String → EmbedAnswer F

def ReindexCall.query (call : ReindexCall F n) (env : EmbeddingEnvironment) (generation : EmbeddingGeneration)
    (sources : Fin n → ChunkTable F) (force : Bool) (source : Fin n) (limit : ℕ) : List ContextChunkRecord :=
  (sources source).chunksMissingEmbeddings env generation limit force call.noteIds (call.order force source)

/-- The chunks of a call in batches, and how many there are. -/
def selectWork (env : EmbeddingEnvironment) (generation : EmbeddingGeneration) (call : ReindexCall F n)
    (sources : Fin n → ChunkTable F) : List (EmbeddingSourceBatch n) × ℕ :=
  let query := call.query env generation sources
  let first := selectEmbeddingSourceBatches (query false) call.limit (List.finRange n) ⟨[], 0, fun _ => ∅⟩
  if call.force ∧ first.scanned < call.limit then
    let forced := selectEmbeddingSourceBatches (query true) (call.limit - first.scanned) (List.finRange n)
      ⟨[], 0, first.processed⟩
    (first.batches ++ forced.batches, first.scanned + forced.scanned)
  else (first.batches, first.scanned)

/-! ## Embedding and storing -/

/-- A vector that was stored for a chunk, the provider that made it, and when. -/
structure StoredEmbedding (F : Type) where
  provider : EmbeddingProvider
  chunk : ContextChunkRecord
  vector : List F
  indexedAt : ℕ

def StoredEmbedding.columns (env : EmbeddingEnvironment) (stored : StoredEmbedding F) : EmbeddingColumns F where
  embedding := some stored.vector
  model := some stored.provider.modelName
  dimensions := some stored.provider.dimensions
  provider := some stored.provider.fingerprint.provider
  providerVersion := some stored.provider.fingerprint.providerVersion
  poolingMode := some stored.provider.fingerprint.poolingMode
  normalize := some stored.provider.fingerprint.normalize
  fingerprintKey := some (env.fingerprintKey stored.provider.fingerprint)
  fingerprint := some (stored.provider.fingerprint, stored.indexedAt)
  indexedAt := some stored.indexedAt

def normalizeEmbeddingVector (finite : F → Bool) (expectedDimensions : ℕ) (vector : List F) : Except String (List F) :=
  if vector.isEmpty then .error "Embedding vector is empty"
  else if vector.length ≠ expectedDimensions then
    .error s!"Embedding vector has unexpected dimensions: expected {expectedDimensions}, received {vector.length}"
  else if vector.any fun value => !finite value then .error "Embedding vector contains a non-finite value"
  else .ok vector

/-- What is stored for a chunk. -/
def embedChunk (finite : F → Bool) (provider : EmbeddingProvider) (now : ℕ) (pair : ContextChunkRecord × List F) :
    Except String (StoredEmbedding F) :=
  if pair.2.length ≠ provider.dimensions then .error "Embedding provider returned an unexpected dimension"
  else (normalizeEmbeddingVector finite provider.dimensions pair.2).map fun vector => ⟨provider, pair.1, vector, now⟩

def embeddingUpdates (finite : F → Bool) (provider : EmbeddingProvider) (chunks : List ContextChunkRecord)
    (answer : List String → EmbedAnswer F) : Except String (List (StoredEmbedding F)) :=
  match answer (chunks.map (·.documentText)) with
  | .raised message => .error message
  | .vectors vectors now =>
    if vectors.length ≠ chunks.length then .error "Embedding provider returned an unexpected vector count"
    else (chunks.zip vectors).mapM (embedChunk finite provider now)

/-- The sources, and all that was ever stored in them. -/
structure ReindexSystem (F : Type) (n : ℕ) where
  sources : Fin n → ChunkTable F
  stored : List (StoredEmbedding F)

def ReindexSystem.store (env : EmbeddingEnvironment) (s : ReindexSystem F n) (source : Fin n) (new : List (StoredEmbedding F)) :
    ReindexSystem F n × ℕ :=
  let (table, updated) := (s.sources source).updateChunkEmbeddings (new.map fun e => ⟨e.chunk.id, e.columns env⟩)
  (⟨Function.update s.sources source table, s.stored ++ new⟩, updated)

/-- Batch by batch; a failure leaves the batches that are committed. -/
def updateBatches (env : EmbeddingEnvironment) (finite : F → Bool) (provider : EmbeddingProvider)
    (answer : ℕ → List String → EmbedAnswer F) :
    List (EmbeddingSourceBatch n) → ℕ → ReindexSystem F n → ReindexSystem F n × Except String ℕ
  | [], updated, s => (s, .ok updated)
  | batch :: rest, updated, s =>
    match embeddingUpdates finite provider batch.chunks (answer rest.length) with
    | .error message => (s, .error message)
    | .ok new =>
      let (next, count) := s.store env batch.source new
      updateBatches env finite provider answer rest (updated + count) next

structure ContextReindexResult where
  scanned : ℕ
  updated : ℕ
  skipped : ℕ
  warnings : List String

def ReindexCall.Serves (call : ReindexCall F n) : Prop := call.health.vector = .healthy ∧ call.health.embedding = .healthy

instance (call : ReindexCall F n) : Decidable call.Serves := inferInstanceAs (Decidable (_ ∧ _))

def ReindexSystem.reindex (env : EmbeddingEnvironment) (finite : F → Bool) (provider : Option EmbeddingProvider)
    (call : ReindexCall F n) (s : ReindexSystem F n) : ReindexSystem F n × Except String ContextReindexResult :=
  if call.limit < 1 then (s, .error "limit must be at least 1")
  else match provider.filter fun _ => call.Serves with
  | none => (s, .ok ⟨0, 0, 0, call.health.warnings ++ ["Vector dependencies are not healthy; reindex skipped."]⟩)
  | some provider =>
    let (batches, scanned) := selectWork env (provider.generation env) call s.sources
    let (next, result) := updateBatches env finite provider call.answer batches 0 s
    (next, result.map fun updated => ⟨scanned, updated, scanned - updated, call.health.warnings⟩)

/-! ## The system over time -/

/-- A reindex, a note indexed again, with no chunks where it is deleted, or the owner of chunks changed. -/
inductive ReindexLabel (F : Type) (digest : String → String) (n : ℕ)
  | reindex (provider : Option EmbeddingProvider) (call : ReindexCall F n)
  | replaceChunks (source : Fin n) (payload : NoteChunks digest) (chunkIds : List String) (now : ℕ)
  | owner (source : Fin n) (noteId : String) (owner : ChunkOwner)

def ReindexSystem.withTable (s : ReindexSystem F n) (source : Fin n) (table : ChunkTable F) : ReindexSystem F n :=
  { s with sources := Function.update s.sources source table }

def ChunkRow.ownedBy (noteId : String) (owner : ChunkOwner) (row : ChunkRow F) : ChunkRow F :=
  if row.noteId = noteId then { row with owner } else row

theorem ChunkRow.id_ownedBy (noteId : String) (owner : ChunkOwner) (row : ChunkRow F) :
    (row.ownedBy noteId owner).id = row.id := by
  unfold ChunkRow.ownedBy
  split <;> rfl

def reindexStep (digest : String → String) (env : EmbeddingEnvironment) (finite : F → Bool) (s : ReindexSystem F n) :
    ReindexLabel F digest n → Option (ReindexSystem F n)
  | .reindex provider call => some (s.reindex env finite provider call).1
  | .replaceChunks source payload chunkIds now =>
    ((s.sources source).replaceChunks payload chunkIds now).map fun table => s.withTable source table
  | .owner source noteId owner =>
    some (s.withTable source ((s.sources source).mapRows (·.ownedBy noteId owner) (ChunkRow.id_ownedBy noteId owner)))

end Alexandria.Embedding
