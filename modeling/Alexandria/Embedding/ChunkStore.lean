import Alexandria.Foundations.Lists
import Alexandria.Foundations.Prefixes
import Alexandria.Foundations.Ternary
import Alexandria.Foundations.Text
import Mathlib.Data.Prod.Lex

/-! # Chunk rows and their embeddings

The tables of `embedding_reindex.py` and `obsidian_context_embedding_store.py`: one of saved Contexts, one of indexed vault notes.
The columns of an embedding may be null, so the conditions on them are three-valued. The order in which a query scans a table is
not fixed; it is given with the query. `obsidian_index_write_store.py` replaces the chunks of a note and carries over the
embeddings of chunks whose index and content hash stayed.
-/

namespace Alexandria.Embedding
set_option autoImplicit false

open Text Ternary
open Lists (sorted)

/-! ## Providers -/

structure EmbeddingFingerprint where
  provider : String
  model : String
  providerVersion : String
  poolingMode : String
  normalize : Bool
  dimensions : ℕ
  documentInputFormat : String

structure EmbeddingProvider where
  modelName : String
  dimensions : ℕ
  fingerprint : EmbeddingFingerprint

/-- What a stored embedding is compared with: the model, its dimensions and the key of the fingerprint. -/
structure EmbeddingGeneration where
  modelName : String
  dimensions : ℕ
  fingerprintKey : String

/-- The canonical JSON of a fingerprint and the lower case of the database. -/
structure EmbeddingEnvironment where
  fingerprintKey : EmbeddingFingerprint → String
  lower : String → String

def EmbeddingProvider.generation (env : EmbeddingEnvironment) (provider : EmbeddingProvider) : EmbeddingGeneration :=
  ⟨provider.modelName, provider.dimensions, env.fingerprintKey provider.fingerprint⟩

/-! ## Rows -/

/-- The columns that one embedding fills; `F` holds its values. -/
structure EmbeddingColumns (F : Type) where
  embedding : Option (List F)
  model : Option String
  dimensions : Option ℕ
  provider : Option String
  providerVersion : Option String
  poolingMode : Option String
  normalize : Option Bool
  fingerprintKey : Option String
  fingerprint : Option (EmbeddingFingerprint × ℕ)
  indexedAt : Option ℕ

/-- The columns of the joined owner that decide whether its chunks are embedded. -/
inductive ChunkOwner
  | context (isArchived : Bool)
  | file (indexStatus status relativePath : String)

structure ChunkRow (F : Type) where
  id : String
  noteId : String
  owner : ChunkOwner
  title : Option String
  chunkIndex : ℕ
  heading : Option String
  text : String
  contentHash : String
  columns : EmbeddingColumns F
  createdAt : ℕ

inductive ChunkSource
  | contexts
  | vault

structure ChunkTable (F : Type) where
  source : ChunkSource
  rows : List (ChunkRow F)
  keyed : (rows.map (·.id)).Nodup

/-- A chunk as the services see it. -/
structure ContextChunkRecord where
  id : String
  heading : Option String
  content : String
  contentHash : String
  title : Option String

/-! ## Document texts -/

/-- `" ".join(value.split()) or None`. -/
def normalizedOptionalText (value : Option String) : Option String :=
  let join := fun text : String => " ".intercalate
    (((text.toList.splitOnP isPythonWhitespace).filter (!·.isEmpty)).map String.ofList)
  (value.map join).filter (· ≠ "")

def buildEmbeddingDocumentText (content : String) (title heading : Option String) : String :=
  let normalizedTitle := normalizedOptionalText title
  let normalizedHeading := normalizedOptionalText heading
  let metadataLines := (normalizedTitle.map ("Title: " ++ ·)).toList ++
    ((normalizedHeading.filter fun heading => some heading ≠ normalizedTitle).map ("Heading: " ++ ·)).toList
  if metadataLines.isEmpty then pythonStrip content
  else "\n".intercalate (metadataLines ++ ["", pythonStrip content])

def ContextChunkRecord.documentText (chunk : ContextChunkRecord) : String :=
  buildEmbeddingDocumentText chunk.content chunk.title chunk.heading

variable {F : Type}

def EmbeddingColumns.null : EmbeddingColumns F := ⟨none, none, none, none, none, none, none, none, none, none⟩

def ChunkSource.recordId : ChunkSource → String → String
  | .contexts, id => id
  | .vault, id => "obsidian-chunk:" ++ id

def ChunkSource.rawChunkId : ChunkSource → String → String
  | .contexts, id => id
  | .vault, id => withoutStart "obsidian-chunk:" id

def ChunkSource.record (source : ChunkSource) (row : ChunkRow F) : ContextChunkRecord :=
  ⟨source.recordId row.id, row.heading, row.text, row.contentHash, row.title⟩

/-! ## Queries -/

/-- `coalesce(nullif(lower(trim(status)), ''), 'active')`. -/
def normalizedStatus (env : EmbeddingEnvironment) (status : String) : String :=
  let lowered := env.lower (String.ofList (trimBy (· == ' ') status.toList))
  if lowered = "" then "active" else lowered

def ChunkOwner.recallVisible (env : EmbeddingEnvironment) : ChunkOwner → Bool
  | .context isArchived => !isArchived
  | .file indexStatus status relativePath =>
    indexStatus == "indexed" && ["current", "active"].contains (normalizedStatus env status) && !opensWith "_Ops/" relativePath

/-- Is the chunk to be embedded at all? -/
def ChunkRow.eligible (env : EmbeddingEnvironment) (row : ChunkRow F) : Bool :=
  row.owner.recallVisible env && match row.owner with
    | .context _ => true
    | .file _ _ _ => !isBlank (· == ' ') row.text

/-- Only the vault takes a restriction to some notes. -/
def ChunkRow.asked (noteIds : Option (List String)) (row : ChunkRow F) : Bool :=
  match row.owner, noteIds with
  | .file _ _ _, some ids => ids.contains row.noteId
  | _, _ => true

def staleEmbeddingCondition (generation : EmbeddingGeneration) (columns : EmbeddingColumns F) : Truth :=
  any [isNull columns.embedding, ne columns.model generation.modelName, ne columns.dimensions generation.dimensions,
    isNull columns.fingerprintKey, ne columns.fingerprintKey generation.fingerprintKey]

def currentEmbeddingCondition (generation : EmbeddingGeneration) (columns : EmbeddingColumns F) : Truth :=
  all [isNotNull columns.embedding, eq columns.model generation.modelName, eq columns.dimensions generation.dimensions,
    eq columns.fingerprintKey generation.fingerprintKey]

def ChunkRow.stale (generation : EmbeddingGeneration) (row : ChunkRow F) : Bool :=
  passes (staleEmbeddingCondition generation row.columns)

def ChunkRow.current (generation : EmbeddingGeneration) (row : ChunkRow F) : Bool :=
  passes (currentEmbeddingCondition generation row.columns)

def nullsFirst : Option ℕ → ℕ
  | none => 0
  | some time => time + 1

/-- The order of a reindex: what is not current first, then what was embedded longest ago. -/
def ChunkRow.reindexOrder (generation : EmbeddingGeneration) (row : ChunkRow F) : ℕ ×ₗ ℕ ×ₗ ℕ :=
  toLex (if row.current generation then 1 else 0, toLex (nullsFirst row.columns.indexedAt, row.createdAt))

/-- The order in which the database comes across the rows of a table. -/
structure ScanOrder (F : Type) where
  scan : List (ChunkRow F) → List (ChunkRow F)
  perm : ∀ rows, (scan rows).Perm rows

/-- All chunks of a table that are to be embedded, in the order of a reindex. -/
def ChunkTable.queue (env : EmbeddingEnvironment) (table : ChunkTable F) (generation : EmbeddingGeneration) (force : Bool)
    (noteIds : Option (List String)) (order : ScanOrder F) : List (ChunkRow F) :=
  sorted (·.reindexOrder generation) ((order.scan table.rows).filter fun row =>
    row.eligible env && row.asked noteIds && (force || row.stale generation))

def ChunkTable.chunksMissingEmbeddings (env : EmbeddingEnvironment) (table : ChunkTable F) (generation : EmbeddingGeneration)
    (limit : ℕ) (force : Bool) (noteIds : Option (List String)) (order : ScanOrder F) : List ContextChunkRecord :=
  ((table.queue env generation force noteIds order).take limit).map table.source.record

inductive RagHealthState
  | healthy
  | reindexRequired
  | degraded
  | disabled
deriving DecidableEq

/-- Some chunk needs an embedding. -/
def ChunkTable.embeddingIndexStatus (env : EmbeddingEnvironment) (table : ChunkTable F) (generation : EmbeddingGeneration) :
    RagHealthState :=
  if table.rows.any fun row => row.eligible env && row.stale generation then .reindexRequired else .healthy

structure ContextEmbeddingSourceStatus where
  status : RagHealthState
  totalRows : ℕ
  currentRows : ℕ
  staleRows : ℕ
  missingRows : ℕ

def ChunkTable.embeddingSourceStatus (env : EmbeddingEnvironment) (table : ChunkTable F) (generation : EmbeddingGeneration) :
    ContextEmbeddingSourceStatus :=
  let total := table.rows.countP fun row => row.eligible env
  let current := table.rows.countP fun row => row.eligible env && row.current generation
  let missing := table.rows.countP fun row =>
    row.eligible env && passes (or (isNull row.columns.embedding) (isNull row.columns.fingerprintKey))
  ⟨if total - current = 0 then .healthy else .reindexRequired, total, current, total - current, missing⟩

/-! ## Writes -/

structure ContextChunkEmbeddingUpdate (F : Type) where
  chunkId : String
  columns : EmbeddingColumns F

/-- The columns are those of the last update with the id of the row. -/
def ChunkRow.updated (source : ChunkSource) (updates : List (ContextChunkEmbeddingUpdate F)) (row : ChunkRow F) : ChunkRow F :=
  match updates.reverse.find? fun update => row.id = source.rawChunkId update.chunkId with
  | some update => { row with columns := update.columns }
  | none => row

theorem ChunkRow.id_updated (source : ChunkSource) (updates : List (ContextChunkEmbeddingUpdate F)) (row : ChunkRow F) :
    (row.updated source updates).id = row.id := by
  unfold ChunkRow.updated
  split <;> rfl

/-- Change rows in place. -/
def ChunkTable.mapRows (table : ChunkTable F) (f : ChunkRow F → ChunkRow F) (hid : ∀ row, (f row).id = row.id) :
    ChunkTable F where
  source := table.source
  rows := table.rows.map f
  keyed := by
    have hids : (table.rows.map f).map (·.id) = table.rows.map (·.id) := by
      rw [List.map_map]
      exact List.map_congr_left fun row _ => hid row
    rw [hids]
    exact table.keyed

/-- Fill the columns of the rows that are still there; how many updates found their row. -/
def ChunkTable.updateChunkEmbeddings (table : ChunkTable F) (updates : List (ContextChunkEmbeddingUpdate F)) :
    ChunkTable F × ℕ :=
  (table.mapRows (·.updated table.source updates) (ChunkRow.id_updated table.source updates),
    updates.countP fun update => table.rows.any fun row => row.id = table.source.rawChunkId update.chunkId)

/-- A chunk of an indexed note, with the digest of its text. -/
structure NoteChunk (digest : String → String) where
  chunkIndex : ℕ
  headingPath : Option String
  text : String
  contentHash : String
  hashed : contentHash = digest text

structure NoteChunks (digest : String → String) where
  noteId : String
  title : String
  indexStatus : String
  status : String
  relativePath : String
  chunks : List (NoteChunk digest)

/-- The embedding of the last chunk of the note with this index and hash, if it is complete. -/
def ChunkTable.existingChunkEmbedding (table : ChunkTable F) (noteId : String) (key : ℕ × String) :
    Option (EmbeddingColumns F) :=
  ((table.rows.filter fun row => row.noteId = noteId ∧ row.columns.embedding.isSome ∧ row.columns.model.isSome ∧
    row.columns.dimensions.isSome ∧ (row.chunkIndex, row.contentHash) = key).getLast?).map (·.columns)

variable {digest : String → String}

def ChunkTable.chunkRow (table : ChunkTable F) (payload : NoteChunks digest) (now : ℕ) (chunkId : String)
    (chunk : NoteChunk digest) : ChunkRow F where
  id := chunkId
  noteId := payload.noteId
  owner := .file payload.indexStatus payload.status payload.relativePath
  title := some payload.title
  chunkIndex := chunk.chunkIndex
  heading := chunk.headingPath
  text := chunk.text
  contentHash := chunk.contentHash
  columns := (table.existingChunkEmbedding payload.noteId (chunk.chunkIndex, chunk.contentHash)).getD .null
  createdAt := now

/-- The rows after the chunks of a note were replaced under new ids. -/
def ChunkTable.replacedRows (table : ChunkTable F) (payload : NoteChunks digest) (chunkIds : List String) (now : ℕ) :
    List (ChunkRow F) :=
  table.rows.filter (·.noteId ≠ payload.noteId) ++
    (chunkIds.zip payload.chunks).map fun pair => table.chunkRow payload now pair.1 pair.2

/-- Nothing where the ids are not as many as the chunks, or one is taken. -/
def ChunkTable.replaceChunks (table : ChunkTable F) (payload : NoteChunks digest) (chunkIds : List String) (now : ℕ) :
    Option (ChunkTable F) :=
  if h : chunkIds.length = payload.chunks.length ∧ ((table.replacedRows payload chunkIds now).map (·.id)).Nodup then
    some ⟨table.source, table.replacedRows payload chunkIds now, h.2⟩
  else none

end Alexandria.Embedding
