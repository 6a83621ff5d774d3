import Alexandria.Compile.Resolution
import Alexandria.Foundations.Keyed

/-! # The compile planner

`compile_plan.rs`: the current analysed documents are compared with the previously compiled state, and the
differences become a plan of upserts and removals. Errors are the texts of `CompilePlanError`. The planner
composes four primitives it never looks into (hashing, chunking, reference extraction, manifest
validation); they are the fields of `Authorities`, and what is proved about the planner holds for any of
them. A confidence is only copied, so it is its bit pattern.
-/

namespace Alexandria.Compile
set_option autoImplicit false

/-! ## Inputs -/

structure CompilePolicy where
  chunkMaxChars : ℕ
  chunkOverlapChars : ℕ
  embeddingFingerprintKey : String
deriving DecidableEq

structure ChunkPolicy where
  maxChars : ℕ
  overlapChars : ℕ
deriving DecidableEq

/-- A JSON value; numbers are their lexemes. -/
inductive Value
  | null
  | bool (b : Bool)
  | number (lexeme : String)
  | string (s : String)
  | array (items : List Value)
  | object (fields : List (String × Value))

structure CompileProvidedChunkInput where
  chunkIndex : ℕ
  contentHash : String

structure CompileProvidedEdgeInput where
  edgeId : String
  sourceNoteId : String
  sourcePath : String
  targetNoteId : Option String
  targetPath : String
  relation : String
  confidence : BitVec 64
  sourceKind : String

structure CompileEdgeSeedInput where
  targetPath : Option String
  targetNoteId : Option String
  relation : String
  sourceField : String

structure ContextReindexIdentity where
  scope : Option String
  project : Option String
  workspaceId : Option String
  agentId : Option String
  userId : Option String
  sessionId : Option String
  contentHash : Option String
deriving DecidableEq

/-- The manifest candidate; the planner's input and the validator's input have the same fields. -/
structure ContextReindexManifestCandidate where
  noteId : String
  relativePath : String
  canonicalRelativePath : String
  isContext : Bool
  identity : ContextReindexIdentity
  supersedesContextId : Option String
  supersededByContextId : Option String
deriving DecidableEq

structure CompileDocumentInput where
  relativePath : String
  noteId : String
  title : String
  alexandriaType : String
  text : Option String
  sourceHash : String
  body : String
  frontmatter : Value
  status : String
  aliases : List String
  edgeSeeds : List CompileEdgeSeedInput
  providedChunks : Option (List CompileProvidedChunkInput)
  providedEdges : Option (List CompileProvidedEdgeInput)
  manifestCandidate : Option ContextReindexManifestCandidate

structure CurrentSourceSnapshot where
  documents : List CompileDocumentInput

structure PreviousDocumentState where
  noteId : String
  relativePath : String
  sourceHash : String
  chunkHashes : List String
  edgeIds : List String
deriving DecidableEq

structure PreviousCompilationSnapshot where
  embeddingFingerprintKey : String
  documents : List PreviousDocumentState

/-! ## The composed primitives -/

inductive ChunkSourceKind
  | content
  | titleFallback
deriving DecidableEq

structure ChunkSourceRange where
  charStart : ℕ
  charEnd : ℕ
  byteStart : ℕ
  byteEnd : ℕ
deriving DecidableEq

structure ChunkRecord where
  chunkIndex : ℕ
  heading : Option String
  headingPath : List String
  content : String
  sourceKind : ChunkSourceKind
  sourceRange : ChunkSourceRange
deriving DecidableEq

inductive EdgeSourceKind
  | frontmatter
  | wikilink
deriving DecidableEq

structure EdgeCandidate where
  sourceNoteId : String
  sourcePath : String
  targetNoteId : Option String
  targetPath : String
  relation : String
  sourceKind : EdgeSourceKind
  confidence : BitVec 64
  edgeId : String
  identityMaterial : String
  referenceIndex : Option ℕ

structure ContextReindexManifestIssue where
  relativePath : String
  contextId : String
  message : String

structure ContextReindexManifestResult where
  acceptedIndices : List ℕ
  issues : List ContextReindexManifestIssue

/-- The primitives the planner composes. The batch calls are made with one document each; their error is
the text behind the planner's own prefix. -/
structure Authorities where
  unicode : UnicodeTables
  sha256Text : String → String
  chunkBatch : ChunkPolicy → String → String → String → String → Except String (List ChunkRecord)
  extractReferenceBatch :
    String → String → String → String → List CompileEdgeSeedInput → Except String (List EdgeCandidate)
  validateContextReindexManifest : List ContextReindexManifestCandidate → ContextReindexManifestResult

/-! ## The plan -/

inductive CompileDocumentAction
  | added
  | updated
  | embeddingOnly
deriving DecidableEq

inductive CompileChunkAction
  | add
  | update
  | keep
deriving DecidableEq

inductive CompileEdgeAction
  | add
  | keep
deriving DecidableEq

inductive CompileEdgeResolution
  | resolved
  | ambiguous
  | missing
deriving DecidableEq

inductive EmbeddingReason
  | documentAdded
  | chunksChanged
  | embeddingPolicyChanged
  | none
deriving DecidableEq

inductive EmbeddingAction
  | reembed
  | remove
  | none
deriving DecidableEq

structure CompileChunkPlan where
  record : Option ChunkRecord
  contentHash : String
  action : CompileChunkAction
deriving DecidableEq

structure CompileEdgePlan where
  edgeId : String
  sourceNoteId : String
  sourcePath : String
  seedTargetNoteId : Option String
  candidateTargetPath : String
  relation : String
  confidence : BitVec 64
  sourceKind : String
  action : CompileEdgeAction
  resolution : CompileEdgeResolution
  targetNoteId : Option String
deriving DecidableEq

/-- An empty list of chunk indexes means every chunk. -/
structure EmbeddingDocumentDelta where
  action : EmbeddingAction
  reason : EmbeddingReason
  chunkIndexes : List ℕ
deriving DecidableEq

structure CompileDocumentUpsert where
  relativePath : String
  noteId : String
  sourceHash : String
  title : String
  alexandriaType : String
  frontmatter : Value
  body : String
  action : CompileDocumentAction
  manifestAccepted : Bool
  chunks : List CompileChunkPlan
  edges : List CompileEdgePlan
  removedEdgeIds : List String
  embedding : EmbeddingDocumentDelta

structure CompileDocumentRemoval where
  noteId : String
  relativePath : String
deriving DecidableEq

structure CompileDiagnostic where
  relativePath : String
  contextId : String
  message : String
deriving DecidableEq

structure CompilePlan where
  contractVersion : ℕ
  compilerVersion : ℕ
  policyVersion : String
  upserts : List CompileDocumentUpsert
  removals : List CompileDocumentRemoval
  diagnostics : List CompileDiagnostic
  planFingerprint : String

def compilePlanVersion : ℕ := 1

/-! ## Validation -/

def validateIdentity (fieldName value : String) : Except String Unit :=
  if Text.isBlank Text.isWhitespace value then .error (fieldName ++ " must not be blank")
  else if '\x00' ∈ value.toList then .error (fieldName ++ " must not contain a null byte")
  else .ok ()

def maxDocumentBytes : ℕ := 16 * 1024 * 1024

def ChunkPolicy.new (maxChars overlapChars : ℕ) : Except String ChunkPolicy :=
  if maxChars = 0 then .error "max_chars must be greater than zero"
  else if maxDocumentBytes < overlapChars then
    .error ("overlap_chars exceeds the " ++ toString maxDocumentBytes ++ " character safety bound")
  else .ok ⟨maxChars, overlapChars⟩

def validateCompilePolicy (policy : CompilePolicy) : Except String Unit :=
  if policy.chunkMaxChars = 0 then .error "COMPILE_POLICY_INVALID: chunk_max_chars must be greater than zero"
  else if Text.isBlank Text.isWhitespace policy.embeddingFingerprintKey then
    .error "COMPILE_POLICY_INVALID: embedding_fingerprint_key must not be blank"
  else .ok ()

def inputInvalid (message : String) : String := "COMPILE_INPUT_INVALID: " ++ message

/-- The current documents and the previous states, each in the order of their paths. -/
structure DocumentIndexes where
  currentByPath : List CompileDocumentInput
  previousByPath : List PreviousDocumentState

def DocumentIndexes.previousState (indexes : DocumentIndexes) (path : String) : Option PreviousDocumentState :=
  Keyed.lookup (·.relativePath) path indexes.previousByPath

def buildDocumentIndexes (current : CurrentSourceSnapshot) (previous : PreviousCompilationSnapshot) :
    Except String DocumentIndexes :=
  match Keyed.firstRepeated (current.documents.map (·.relativePath)),
      Keyed.firstRepeated (previous.documents.map (·.relativePath)) with
  | some path, _ => .error (inputInvalid ("duplicate current document path " ++ path))
  | none, some path => .error (inputInvalid ("duplicate previous document path " ++ path))
  | none, none =>
    .ok ⟨current.documents.insertionSort fun a b => a.relativePath ≤ b.relativePath,
      previous.documents.insertionSort fun a b => a.relativePath ≤ b.relativePath⟩

def buildHealthyNote (document : CompileDocumentInput) : Except String GraphSourceNote := do
  (validateIdentity "document_id" document.noteId).mapError inputInvalid
  (validateIdentity "relative_path" document.relativePath).mapError inputInvalid
  return { noteId := document.noteId, relativePath := document.relativePath,
           alexandriaType := document.alexandriaType, title := document.title, status := document.status,
           project := none, aliases := document.aliases, indexStatus := .indexed }

def buildHealthyNotes (documents : List CompileDocumentInput) : Except String (List GraphSourceNote) :=
  documents.mapM buildHealthyNote

/-! ## The manifest -/

structure ManifestValidation where
  candidates : List ContextReindexManifestCandidate
  result : ContextReindexManifestResult
  acceptedCandidateKeys : List (ℕ × String)

def validateManifest (A : Authorities) (current : CurrentSourceSnapshot) : ManifestValidation :=
  let candidates := current.documents.filterMap (·.manifestCandidate)
  let result := A.validateContextReindexManifest candidates
  { candidates, result,
    acceptedCandidateKeys := result.acceptedIndices.filterMap fun index =>
      candidates[index]?.map fun candidate => (index, candidate.canonicalRelativePath) }

def documentManifestAccepted (document : CompileDocumentInput) (manifest : ManifestValidation) : Bool :=
  match document.manifestCandidate with
  | none => true
  | some candidate =>
    manifest.candidates.zipIdx.any fun (accepted, index) =>
      accepted.noteId == candidate.noteId && accepted.relativePath == candidate.relativePath &&
        manifest.acceptedCandidateKeys.contains (index, accepted.canonicalRelativePath)

def manifestDiagnostics (issues : List ContextReindexManifestIssue) : List CompileDiagnostic :=
  issues.map fun issue => ⟨issue.relativePath, issue.contextId, issue.message⟩

/-! ## One document -/

section Document
variable (A : Authorities)

/-- The hash of the text when there is one, else the hash the caller gave. -/
def documentSourceHash (document : CompileDocumentInput) : String :=
  match document.text with
  | none => document.sourceHash
  | some text => A.sha256Text text

/-- What the document needs; `none` when nothing. -/
def documentAction (previousState : Option PreviousDocumentState) (sourceHash : String)
    (previous : PreviousCompilationSnapshot) (policy : CompilePolicy) :
    Option (CompileDocumentAction × EmbeddingDocumentDelta) :=
  match previousState with
  | none => some (.added, ⟨.reembed, .documentAdded, []⟩)
  | some state =>
    if state.sourceHash = sourceHash then
      if state.chunkHashes.isEmpty then some (.embeddingOnly, ⟨.reembed, .chunksChanged, []⟩)
      else if previous.embeddingFingerprintKey = policy.embeddingFingerprintKey then none
      else some (.embeddingOnly, ⟨.reembed, .embeddingPolicyChanged, []⟩)
    else some (.updated, ⟨.none, .none, []⟩)

def chunkFailed (message : String) : String := "COMPILE_CHUNK_FAILED: " ++ message

def chunkDocument (document : CompileDocumentInput) (policy : ChunkPolicy) : Except String (List ChunkRecord) := do
  (validateIdentity "document_id" document.noteId).mapError inputInvalid
  (validateIdentity "relative_path" document.relativePath).mapError inputInvalid
  (A.chunkBatch policy document.noteId document.relativePath document.title document.body).mapError chunkFailed

/-- The chunk records with their content hashes: the caller's, or the chunker's. -/
def chunkRecords (document : CompileDocumentInput) (policy : ChunkPolicy) :
    Except String (List (Option ChunkRecord × String)) :=
  match document.providedChunks with
  | some provided => .ok (provided.map fun chunk => (none, chunk.contentHash))
  | none => (chunkDocument A document policy).map (·.map fun record => (some record, A.sha256Text record.content))

/-- The diff action of one chunk, and whether it has to be embedded again. -/
def chunkAction (previousState : Option PreviousDocumentState) (sourceHash : String) (index : ℕ)
    (contentHash : String) : CompileChunkAction × Bool :=
  match previousState with
  | some state =>
    if state.sourceHash = sourceHash then (.keep, false)
    else
      match state.chunkHashes[index]? with
      | some previousHash => if previousHash = contentHash then (.keep, false) else (.update, true)
      | none => (.add, true)
  | none => (.add, true)

/-- The loop of `build_chunk_plans` from chunk `index` on. -/
def planChunks (previousState : Option PreviousDocumentState) (sourceHash : String) (index : ℕ) :
    List (Option ChunkRecord × String) → List CompileChunkPlan × List ℕ
  | [] => ([], [])
  | (record, contentHash) :: rest =>
    let (action, changed) := chunkAction previousState sourceHash index contentHash
    let (chunks, changedChunkIndexes) := planChunks previousState sourceHash (index + 1) rest
    (⟨record, contentHash, action⟩ :: chunks, if changed then index :: changedChunkIndexes else changedChunkIndexes)

def buildChunkPlans (document : CompileDocumentInput) (previousState : Option PreviousDocumentState)
    (sourceHash : String) (policy : ChunkPolicy) : Except String (List CompileChunkPlan × List ℕ) :=
  (chunkRecords A document policy).map (planChunks previousState sourceHash 0)

def edgeFailed (message : String) : String := "COMPILE_EDGE_FAILED: " ++ message

/-- `FrontmatterEdgeInput::new`. -/
def validateEdgeSeed (seed : CompileEdgeSeedInput) : Except String Unit :=
  if Text.isBlank Text.isPythonWhitespace seed.relation then .error "frontmatter relation must not be blank"
  else if Text.isBlank Text.isPythonWhitespace seed.sourceField then
    .error "frontmatter source field must not be blank"
  else .ok ()

def edgeCandidatesForDocument (document : CompileDocumentInput) : Except String (List EdgeCandidate) := do
  (validateIdentity "document_id" document.noteId).mapError inputInvalid
  (validateIdentity "relative_path" document.relativePath).mapError inputInvalid
  document.edgeSeeds.forM fun seed => (validateEdgeSeed seed).mapError inputInvalid
  (A.extractReferenceBatch document.noteId document.relativePath "Alexandria" document.body
    document.edgeSeeds).mapError edgeFailed

/-- A provided edge becomes a candidate of kind wikilink, whatever kind the caller gave. -/
def providedCandidate (edge : CompileProvidedEdgeInput) : EdgeCandidate where
  sourceNoteId := edge.sourceNoteId
  sourcePath := edge.sourcePath
  targetNoteId := edge.targetNoteId
  targetPath := edge.targetPath
  relation := edge.relation
  sourceKind := .wikilink
  confidence := edge.confidence
  edgeId := edge.edgeId
  identityMaterial := ""
  referenceIndex := none

def edgeCandidates (document : CompileDocumentInput) : Except String (List EdgeCandidate) :=
  match document.providedEdges with
  | some provided => .ok (provided.map providedCandidate)
  | none => edgeCandidatesForDocument A document

structure EdgePlans where
  edges : List CompileEdgePlan
  removedEdgeIds : List String
  diagnostics : List CompileDiagnostic

def edgeResolution : TargetResolution → CompileEdgeResolution × Option String
  | .resolved note => (.resolved, some note.noteId)
  | .ambiguous => (.ambiguous, none)
  | .missing => (.missing, none)

def CompileEdgeResolution.debug : CompileEdgeResolution → String
  | .resolved => "Resolved"
  | .ambiguous => "Ambiguous"
  | .missing => "Missing"

def EdgeSourceKind.tag : EdgeSourceKind → String
  | .frontmatter => "frontmatter"
  | .wikilink => "wikilink"

def planEdge (previousState : Option PreviousDocumentState) (notes : List GraphSourceNote)
    (candidate : EdgeCandidate) : CompileEdgePlan :=
  let (resolution, target) :=
    edgeResolution (resolveTargetReference A.unicode candidate.targetNoteId candidate.targetPath notes)
  { edgeId := candidate.edgeId
    sourceNoteId := candidate.sourceNoteId
    sourcePath := candidate.sourcePath
    seedTargetNoteId := candidate.targetNoteId
    candidateTargetPath := candidate.targetPath
    relation := candidate.relation
    confidence := candidate.confidence
    sourceKind := candidate.sourceKind.tag
    action := if (previousState.elim [] (·.edgeIds)).contains candidate.edgeId then .keep else .add
    resolution := resolution
    targetNoteId := target }

def edgeDiagnostic (document : CompileDocumentInput) (edge : CompileEdgePlan) : Option CompileDiagnostic :=
  if edge.resolution = .resolved then none
  else some ⟨document.relativePath, document.noteId,
    edge.resolution.debug ++ ": edge target " ++ edge.candidateTargetPath ++
      " was not uniquely resolved by the graph authority"⟩

def removedEdgeIds (previousState : Option PreviousDocumentState) (candidates : List EdgeCandidate) : List String :=
  ((previousState.elim [] (·.edgeIds)).filter fun id => !(candidates.map (·.edgeId)).contains id).insertionSort
    fun a b => a ≤ b

def buildEdgePlans (document : CompileDocumentInput) (previousState : Option PreviousDocumentState)
    (notes : List GraphSourceNote) : Except String EdgePlans := do
  let candidates ← edgeCandidates A document
  let edges := candidates.map (planEdge A previousState notes)
  return ⟨edges, removedEdgeIds previousState candidates, edges.filterMap (edgeDiagnostic document)⟩

def embeddingForAction (action : CompileDocumentAction) (initial : EmbeddingDocumentDelta)
    (changedChunkIndexes : List ℕ) : EmbeddingDocumentDelta :=
  match action with
  | .added => initial
  | .embeddingOnly => initial
  | .updated =>
    if changedChunkIndexes.isEmpty then ⟨.none, .none, []⟩ else ⟨.reembed, .chunksChanged, changedChunkIndexes⟩

/-! ## The whole plan -/

/-- The body of the loop of `build_upserts` for a document that needs work. -/
def planDocument (previousState : Option PreviousDocumentState) (chunkPolicy : ChunkPolicy)
    (manifest : ManifestValidation) (notes : List GraphSourceNote) (document : CompileDocumentInput)
    (work : CompileDocumentAction × EmbeddingDocumentDelta) :
    Except String (CompileDocumentUpsert × List CompileDiagnostic) := do
  let (action, initialEmbedding) := work
  let sourceHash := documentSourceHash A document
  let (chunks, changedChunkIndexes) ← buildChunkPlans A document previousState sourceHash chunkPolicy
  let edgePlans ← buildEdgePlans A document previousState notes
  let upsert : CompileDocumentUpsert :=
    { relativePath := document.relativePath
      noteId := document.noteId
      sourceHash := sourceHash
      title := document.title
      alexandriaType := document.alexandriaType
      frontmatter := document.frontmatter
      body := document.body
      action := action
      manifestAccepted := documentManifestAccepted document manifest
      chunks := chunks
      edges := edgePlans.edges
      removedEdgeIds := edgePlans.removedEdgeIds
      embedding := embeddingForAction action initialEmbedding changedChunkIndexes }
  return (upsert, edgePlans.diagnostics)

/-- The loop of `build_upserts` over the current documents in path order. -/
def buildUpserts (indexes : DocumentIndexes) (previous : PreviousCompilationSnapshot) (policy : CompilePolicy)
    (chunkPolicy : ChunkPolicy) (manifest : ManifestValidation) (notes : List GraphSourceNote) :
    List CompileDocumentInput → Except String (List CompileDocumentUpsert × List CompileDiagnostic)
  | [] => .ok ([], [])
  | document :: rest =>
    let previousState := indexes.previousState document.relativePath
    match documentAction previousState (documentSourceHash A document) previous policy with
    | none => buildUpserts indexes previous policy chunkPolicy manifest notes rest
    | some work => do
      let (upsert, edgeDiagnostics) ← planDocument A previousState chunkPolicy manifest notes document work
      let (upserts, diagnostics) ← buildUpserts indexes previous policy chunkPolicy manifest notes rest
      return (upsert :: upserts, edgeDiagnostics ++ diagnostics)

end Document

def buildRemovals (indexes : DocumentIndexes) : List CompileDocumentRemoval :=
  (indexes.previousByPath.filter fun state =>
    !(indexes.currentByPath.map (·.relativePath)).contains state.relativePath).map
    fun state => ⟨state.noteId, state.relativePath⟩

/-! ## Fingerprints -/

/-- The escapes of the JSON serialiser. -/
def jsonEscape (c : Char) : List Char :=
  if c = '"' then ['\\', '"']
  else if c = '\\' then ['\\', '\\']
  else if c = '\x08' then ['\\', 'b']
  else if c = '\x0c' then ['\\', 'f']
  else if c = '\n' then ['\\', 'n']
  else if c = '\r' then ['\\', 'r']
  else if c = '\t' then ['\\', 't']
  else if c < ' ' then ['\\', 'u', '0', '0', Nat.digitChar (c.toNat / 16), Nat.digitChar (c.toNat % 16)]
  else [c]

def jsonString (s : String) : String := "\"" ++ String.ofList (s.toList.flatMap jsonEscape) ++ "\""

def CompilePolicy.json (policy : CompilePolicy) : String :=
  "\x7b\"chunk_max_chars\":" ++ toString policy.chunkMaxChars ++ ",\"chunk_overlap_chars\":" ++
    toString policy.chunkOverlapChars ++ ",\"embedding_fingerprint_key\":" ++
    jsonString policy.embeddingFingerprintKey ++ "\x7d"

def EmbeddingAction.json : EmbeddingAction → String
  | .reembed => "REEMBED"
  | .remove => "REMOVE"
  | .none => "NONE"

def EmbeddingReason.json : EmbeddingReason → String
  | .documentAdded => "DOCUMENT_ADDED"
  | .chunksChanged => "CHUNKS_CHANGED"
  | .embeddingPolicyChanged => "EMBEDDING_POLICY_CHANGED"
  | .none => "NONE"

def EmbeddingDocumentDelta.json (delta : EmbeddingDocumentDelta) : String :=
  "\x7b\"action\":\"" ++ delta.action.json ++ "\",\"reason\":\"" ++ delta.reason.json ++
    "\",\"chunk_indexes\":[" ++ String.intercalate "," (delta.chunkIndexes.map toString) ++ "]\x7d"

/-- Every item followed by the terminator. -/
def terminated (terminator : String) (items : List String) : String :=
  String.join (items.map (· ++ terminator))

def fingerprintSource (plan : CompilePlan) : String :=
  terminated "\x1f"
    (plan.policyVersion ::
      plan.upserts.map (fun upsert =>
        terminated "\x1e"
          [upsert.relativePath, upsert.noteId, upsert.sourceHash,
           terminated "\x1d" (upsert.chunks.map (·.contentHash)),
           terminated "\x1d" (upsert.edges.map (·.edgeId)),
           terminated "\x1d" upsert.removedEdgeIds] ++ upsert.embedding.json) ++
      plan.removals.map (·.relativePath) ++ plan.diagnostics.map (·.message))

def fingerprintPlan (A : Authorities) (plan : CompilePlan) : String := A.sha256Text (fingerprintSource plan)

/-- The assembled plan, with its fingerprint over everything else. -/
def assemblePlan (A : Authorities) (policy : CompilePolicy) (indexes : DocumentIndexes)
    (manifest : ManifestValidation) (upserts : List CompileDocumentUpsert)
    (resolutionDiagnostics : List CompileDiagnostic) : CompilePlan :=
  let plan : CompilePlan :=
    { contractVersion := compilePlanVersion
      compilerVersion := compilePlanVersion
      policyVersion := A.sha256Text policy.json
      upserts := upserts
      removals := buildRemovals indexes
      diagnostics := manifestDiagnostics manifest.result.issues ++ resolutionDiagnostics
      planFingerprint := "" }
  { plan with planFingerprint := fingerprintPlan A plan }

def compilePlan (A : Authorities) (current : CurrentSourceSnapshot) (previous : PreviousCompilationSnapshot)
    (policy : CompilePolicy) : Except String CompilePlan := do
  validateCompilePolicy policy
  let indexes ← buildDocumentIndexes current previous
  let chunkPolicy ← (ChunkPolicy.new policy.chunkMaxChars policy.chunkOverlapChars).mapError
    ("COMPILE_POLICY_INVALID: " ++ ·)
  let notes ← buildHealthyNotes current.documents
  let manifest := validateManifest A current
  let (upserts, resolutionDiagnostics) ←
    buildUpserts A indexes previous policy chunkPolicy manifest notes indexes.currentByPath
  return assemblePlan A policy indexes manifest upserts resolutionDiagnostics

end Alexandria.Compile
