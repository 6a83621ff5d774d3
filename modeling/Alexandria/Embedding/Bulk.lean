import Alexandria.Foundations.Text
import Alexandria.Foundations.Utf8
import Mathlib.Data.List.Sort

/-! # Bulk embedding

`bulk_embedding`: the documents of a request become model inputs in batches, and the vectors of the batches become records in the
order of the documents. A value of a vector is the bits of a single float.
-/

namespace Alexandria.Embedding
set_option autoImplicit false
open Text (isPythonWhitespace trimBy pythonStrip)

inductive BulkEmbeddingErrorCode
  | invalidInput
  | cardinalityMismatch
  | dimensionMismatch
  | nonFiniteVector
  | numericOverflow
deriving DecidableEq

structure BulkEmbeddingError where
  code : BulkEmbeddingErrorCode
  message : String
  batchIndex : Option ℕ
  inputIndex : Option ℕ
  itemId : Option String
deriving DecidableEq

def BulkEmbeddingError.invalidInput (message : String) : BulkEmbeddingError := ⟨.invalidInput, message, none, none, none⟩

def maxItemsPerRequest : ℕ := 100000

def maxItemBytes : ℕ := 16 * 1024 * 1024

def maxRequestBytes : ℕ := 256 * 1024 * 1024

def maxInferenceBatchSize : ℕ := 4096

def maxVectorDimensions : ℕ := 65536

/-- What a machine word holds at most. -/
def usizeMax : ℕ := 2 ^ 64 - 1

def byteLength (text : String) : ℕ := Utf8.size text.toList

/-! ## Requests -/

inductive EmbeddingInputKind
  | plain
  | e5Passage
deriving DecidableEq

structure EmbeddingModelContract where
  provider : String
  model : String
  providerVersion : String
  poolingMode : String
  normalize : Bool
  dimensions : ℕ
  documentInputFormat : String
  inputKind : EmbeddingInputKind
deriving DecidableEq

def validateField (field : String × String) : Except BulkEmbeddingError Unit :=
  if Text.isBlank isPythonWhitespace field.2 then .error (.invalidInput s!"{field.1} must not be blank")
  else if '\x00' ∈ field.2.toList then .error (.invalidInput s!"{field.1} must not contain a null byte")
  else .ok ()

def EmbeddingModelContract.validate (model : EmbeddingModelContract) : Except BulkEmbeddingError Unit := do
  [("provider", model.provider), ("model", model.model), ("provider_version", model.providerVersion),
    ("pooling_mode", model.poolingMode), ("document_input_format", model.documentInputFormat)].forM validateField
  if model.dimensions = 0 ∨ maxVectorDimensions < model.dimensions then
    .error (.invalidInput s!"dimensions must be between 1 and {maxVectorDimensions}")
  else .ok ()

/-- `BulkEmbeddingPolicy`: the batch size is within its bound. -/
structure BulkEmbeddingPolicy where
  batchSize : ℕ
  positive : 0 < batchSize
  bounded : batchSize ≤ maxInferenceBatchSize

def BulkEmbeddingPolicy.new (batchSize : ℕ) : Except BulkEmbeddingError BulkEmbeddingPolicy :=
  if h : 0 < batchSize ∧ batchSize ≤ maxInferenceBatchSize then .ok ⟨batchSize, h.1, h.2⟩
  else .error (.invalidInput s!"batch_size must be between 1 and {maxInferenceBatchSize}")

structure EmbeddingDocumentInput where
  itemId : String
  content : String
  title : Option String
  heading : Option String

def EmbeddingDocumentInput.byteCount (document : EmbeddingDocumentInput) : ℕ :=
  byteLength document.content + (document.title.map byteLength).getD 0 + (document.heading.map byteLength).getD 0

def EmbeddingDocumentInput.new (itemId content : String) (title heading : Option String) :
    Except BulkEmbeddingError EmbeddingDocumentInput :=
  let document : EmbeddingDocumentInput := ⟨itemId, content, title, heading⟩
  if usizeMax < document.byteCount then .error (.invalidInput "embedding item byte count overflow")
  else if maxItemBytes < document.byteCount then
    .error (.invalidInput s!"embedding item {itemId} exceeds the {maxItemBytes} byte limit")
  else .ok document

/-- `checked_add`. -/
def checkedAdd (message : String) (left right : ℕ) : Except BulkEmbeddingError ℕ :=
  if usizeMax < left + right then .error (.invalidInput message) else .ok (left + right)

def totalBytes (message : String) (documents : List EmbeddingDocumentInput) : Except BulkEmbeddingError ℕ :=
  documents.foldlM (fun total document => checkedAdd message total document.byteCount) 0

structure BulkEmbeddingInput where
  model : EmbeddingModelContract
  policy : BulkEmbeddingPolicy
  documents : List EmbeddingDocumentInput

def BulkEmbeddingInput.validate (input : BulkEmbeddingInput) : Except BulkEmbeddingError Unit := do
  input.model.validate
  if maxItemsPerRequest < input.documents.length then
    .error (.invalidInput s!"embedding request exceeds the {maxItemsPerRequest} item limit")
  else
    let total ← totalBytes "embedding request byte count overflow" input.documents
    if maxRequestBytes < total then
      .error (.invalidInput s!"embedding request exceeds the {maxRequestBytes} byte limit")
    else .ok ()

/-- `BulkEmbeddingRequest`: an input that the constructor took. -/
structure BulkEmbeddingRequest extends BulkEmbeddingInput where
  valid : toBulkEmbeddingInput.validate = .ok ()

def BulkEmbeddingRequest.new (input : BulkEmbeddingInput) : Except BulkEmbeddingError BulkEmbeddingRequest :=
  match h : input.validate with
  | .ok () => .ok ⟨input, h⟩
  | .error e => .error e

/-! ## Preparation -/

structure PreparedEmbeddingItem where
  inputIndex : ℕ
  itemId : String
  documentText : String
  modelInput : String
deriving DecidableEq

structure PreparedEmbeddingBatch where
  batchIndex : ℕ
  items : List PreparedEmbeddingItem
deriving DecidableEq

structure BulkEmbeddingPreparationMetrics where
  itemCount : ℕ
  batchCount : ℕ
  sourceBytes : ℕ
  documentTextBytes : ℕ
  modelInputBytes : ℕ
deriving DecidableEq

structure BulkEmbeddingPreparation where
  model : EmbeddingModelContract
  batches : List PreparedEmbeddingBatch
  metrics : BulkEmbeddingPreparationMetrics
deriving DecidableEq

/-- The text so far, and whether a separator is pending. -/
def collapseCharacter (state : List Char × Bool) (character : Char) : List Char × Bool :=
  if isPythonWhitespace character then (state.1, !state.1.isEmpty)
  else if state.2 then (state.1 ++ [' ', character], false)
  else (state.1 ++ [character], false)

def collapsePythonWhitespace (value : String) : String :=
  String.ofList (value.toList.foldl collapseCharacter ([], false)).1

def normalizeOptionalText (value : Option String) : Option String :=
  (value.map collapsePythonWhitespace).filter (· ≠ "")

def buildDocumentText (content : String) (title heading : Option String) : String :=
  let normalizedTitle := normalizeOptionalText title
  let normalizedHeading := normalizeOptionalText heading
  let titleLine := normalizedTitle.toList.map fun title => "Title: " ++ title
  let headingLine := (normalizedHeading.filter fun heading => normalizedTitle ≠ some heading).toList.map fun heading =>
    "Heading: " ++ heading
  let metadataLines := titleLine ++ headingLine
  if metadataLines.isEmpty then pythonStrip content
  else String.intercalate "\n" (metadataLines ++ ["", pythonStrip content])

def e5PassagePrefix : String := "passage: "

def prepareItem (inputKind : EmbeddingInputKind) (inputIndex : ℕ) (document : EmbeddingDocumentInput) :
    PreparedEmbeddingItem :=
  let documentText := buildDocumentText document.content document.title document.heading
  { inputIndex := inputIndex
    itemId := document.itemId
    documentText := documentText
    modelInput := match inputKind with
      | .plain => documentText
      | .e5Passage => e5PassagePrefix ++ pythonStrip documentText }

/-- The batches that are full, the items of the next one, and the bytes so far. -/
structure PreparationState where
  batches : List PreparedEmbeddingBatch
  currentItems : List PreparedEmbeddingItem
  documentTextBytes : ℕ
  modelInputBytes : ℕ

def PreparationState.pushBatch (state : PreparationState) : PreparationState :=
  { state with batches := state.batches ++ [⟨state.batches.length, state.currentItems⟩], currentItems := [] }

def prepareDocument (inputKind : EmbeddingInputKind) (batchSize : ℕ) (state : PreparationState)
    (document : EmbeddingDocumentInput × ℕ) : Except BulkEmbeddingError PreparationState := do
  let item := prepareItem inputKind document.2 document.1
  let documentTextBytes ← checkedAdd "embedding document text byte overflow" state.documentTextBytes
    (byteLength item.documentText)
  let modelInputBytes ← checkedAdd "embedding model input byte overflow" state.modelInputBytes (byteLength item.modelInput)
  let next : PreparationState := ⟨state.batches, state.currentItems ++ [item], documentTextBytes, modelInputBytes⟩
  .ok (if next.currentItems.length = batchSize then next.pushBatch else next)

def prepareEmbeddingBatch (request : BulkEmbeddingRequest) : Except BulkEmbeddingError BulkEmbeddingPreparation := do
  let sourceBytes ← totalBytes "embedding preparation source byte overflow" request.documents
  let state ← request.documents.zipIdx.foldlM (prepareDocument request.model.inputKind request.policy.batchSize) ⟨[], [], 0, 0⟩
  let batches := if state.currentItems.isEmpty then state.batches else state.pushBatch.batches
  .ok ⟨request.model, batches,
    ⟨(batches.map fun batch => batch.items.length).sum, batches.length, sourceBytes, state.documentTextBytes,
      state.modelInputBytes⟩⟩

/-! ## Finalization -/

/-- The bits of the values of a vector. -/
abbrev EmbeddingVector : Type := List (BitVec 32)

structure InferenceBatchOutput where
  batchIndex : ℕ
  vectors : List EmbeddingVector

structure EmbeddingRecord where
  inputIndex : ℕ
  itemId : String
  vector : EmbeddingVector
  dimensions : ℕ
deriving DecidableEq

structure BulkEmbeddingResultMetrics where
  itemCount : ℕ
  batchCount : ℕ
  dimensions : ℕ
  vectorValueCount : ℕ
deriving DecidableEq

structure BulkEmbeddingResult where
  model : EmbeddingModelContract
  records : List EmbeddingRecord
  metrics : BulkEmbeddingResultMetrics
deriving DecidableEq

/-- The exponent bits of a float that is an infinity or no number are all set. -/
def isFinite (bits : BitVec 32) : Bool := (bits >>> 23) &&& 0xff ≠ 0xff

def validateBatchIdentity (expected actual : ℕ) : Except BulkEmbeddingError Unit :=
  if actual ≠ expected then
    .error ⟨.cardinalityMismatch, s!"embedding batch order drift: expected batch {expected}, found {actual}", expected,
      none, none⟩
  else .ok ()

def validateVector (batchIndex : ℕ) (item : PreparedEmbeddingItem) (vector : EmbeddingVector) (expectedDimensions : ℕ) :
    Except BulkEmbeddingError Unit :=
  if vector.length ≠ expectedDimensions then
    .error ⟨.dimensionMismatch, "embedding vector has unexpected dimensions: " ++
      s!"expected {expectedDimensions}, received {vector.length}", batchIndex, item.inputIndex, item.itemId⟩
  else if vector.any fun value => !isFinite value then
    .error ⟨.nonFiniteVector, "embedding vector contains a non-finite value", batchIndex, item.inputIndex, item.itemId⟩
  else .ok ()

def finalizeItem (batchIndex dimensions : ℕ) (pair : PreparedEmbeddingItem × EmbeddingVector) :
    Except BulkEmbeddingError EmbeddingRecord := do
  validateVector batchIndex pair.1 pair.2 dimensions
  .ok ⟨pair.1.inputIndex, pair.1.itemId, pair.2, pair.2.length⟩

def finalizeBatch (dimensions : ℕ) (pair : PreparedEmbeddingBatch × InferenceBatchOutput) :
    Except BulkEmbeddingError (List EmbeddingRecord) := do
  validateBatchIdentity pair.1.batchIndex pair.2.batchIndex
  if pair.2.vectors.length ≠ pair.1.items.length then
    .error ⟨.cardinalityMismatch, s!"embedding batch {pair.1.batchIndex} returned {pair.2.vectors.length} vectors for " ++
      s!"{pair.1.items.length} prepared items", pair.1.batchIndex, none, none⟩
  else (pair.1.items.zip pair.2.vectors).mapM (finalizeItem pair.1.batchIndex dimensions)

def validateContiguousOrder (records : List EmbeddingRecord) : Except BulkEmbeddingError Unit :=
  records.zipIdx.forM fun (record, expected) =>
    if record.inputIndex ≠ expected then
      .error ⟨.cardinalityMismatch, s!"embedding output order is not contiguous: expected input {expected}, " ++
        s!"found {record.inputIndex}", none, record.inputIndex, record.itemId⟩
    else .ok ()

def checkedMul (left right : ℕ) : Except BulkEmbeddingError ℕ :=
  if usizeMax < left * right then .error ⟨.numericOverflow, "embedding vector scalar count overflow", none, none, none⟩
  else .ok (left * right)

def finalizeEmbeddingBatch (preparation : BulkEmbeddingPreparation) (inferenceBatches : List InferenceBatchOutput) :
    Except BulkEmbeddingError BulkEmbeddingResult :=
  if inferenceBatches.length ≠ preparation.batches.length then
    .error ⟨.cardinalityMismatch, s!"embedding runtime returned {inferenceBatches.length} batches for " ++
      s!"{preparation.batches.length} prepared batches", min preparation.batches.length inferenceBatches.length, none, none⟩
  else do
    let batches ← (preparation.batches.zip inferenceBatches).mapM (finalizeBatch preparation.model.dimensions)
    let records := batches.flatten.insertionSort fun left right => left.inputIndex ≤ right.inputIndex
    validateContiguousOrder records
    let vectorValueCount ← checkedMul records.length preparation.model.dimensions
    .ok ⟨preparation.model, records,
      ⟨records.length, preparation.batches.length, preparation.model.dimensions, vectorValueCount⟩⟩

end Alexandria.Embedding
