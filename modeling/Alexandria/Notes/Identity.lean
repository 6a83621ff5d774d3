import Alexandria.Notes.Metadata

/-! # The identity of a Context note

`ContextFrontmatterBoundary` reads the known fields of a Context's frontmatter: every field has a reader that accepts
the value or refuses it, and the message of a refusal is chosen from the names of all refused fields. The identity is
what the fields say together with the project, status and hash the caller supplies.
-/

namespace Alexandria.Notes
set_option autoImplicit false
open Text
open Reconciliation (ContextScope)

/-! ## Enumerations -/

inductive ContextSourceType
  | agent
  | user
  | system
  | imported
  deriving DecidableEq

def ContextSourceType.value : ContextSourceType → String
  | .agent => "AGENT"
  | .user => "USER"
  | .system => "SYSTEM"
  | .imported => "IMPORTED"

inductive ContextImportance
  | low
  | medium
  | high
  | critical
  deriving DecidableEq

def ContextImportance.value : ContextImportance → String
  | .low => "LOW"
  | .medium => "MEDIUM"
  | .high => "HIGH"
  | .critical => "CRITICAL"

inductive ContextKind
  | handoff
  | decision
  | bugRootCause
  | plan
  | compact
  | research
  | usage
  | memory
  deriving DecidableEq

def ContextKind.value : ContextKind → String
  | .handoff => "HANDOFF"
  | .decision => "DECISION"
  | .bugRootCause => "BUG_ROOT_CAUSE"
  | .plan => "PLAN"
  | .compact => "COMPACT"
  | .research => "RESEARCH"
  | .usage => "USAGE"
  | .memory => "MEMORY"

inductive MemoryFunction
  | factual
  | experiential
  | procedural
  deriving DecidableEq

def MemoryFunction.value : MemoryFunction → String
  | .factual => "FACTUAL"
  | .experiential => "EXPERIENTIAL"
  | .procedural => "PROCEDURAL"

inductive ObsidianContextLifecycleStatus
  | active
  | current
  | archived
  | deprecated
  | draft
  | error
  | needsReview
  | pending
  | pendingReview
  | review
  | reviewed
  | stale
  | superseded
  deriving DecidableEq

def ObsidianContextLifecycleStatus.value : ObsidianContextLifecycleStatus → String
  | .active => "active"
  | .current => "current"
  | .archived => "archived"
  | .deprecated => "deprecated"
  | .draft => "draft"
  | .error => "error"
  | .needsReview => "needs_review"
  | .pending => "pending"
  | .pendingReview => "pending_review"
  | .review => "review"
  | .reviewed => "reviewed"
  | .stale => "stale"
  | .superseded => "superseded"

/-- The member of an enumeration with the value. -/
def ofValue {E : Type} (members : List E) (value : E → String) (text : String) : Option E :=
  members.find? fun member => value member = text

def ContextScope.parse : String → Option ContextScope :=
  ofValue [.global, .project, .agent, .session, .user] ContextScope.value

def ContextSourceType.parse : String → Option ContextSourceType :=
  ofValue [.agent, .user, .system, .imported] ContextSourceType.value

def ContextImportance.parse : String → Option ContextImportance :=
  ofValue [.low, .medium, .high, .critical] ContextImportance.value

def ContextKind.parse : String → Option ContextKind :=
  ofValue [.handoff, .decision, .bugRootCause, .plan, .compact, .research, .usage, .memory] ContextKind.value

def MemoryFunction.parse : String → Option MemoryFunction :=
  ofValue [.factual, .experiential, .procedural] MemoryFunction.value

def ObsidianContextLifecycleStatus.parse : String → Option ObsidianContextLifecycleStatus :=
  ofValue [.active, .current, .archived, .deprecated, .draft, .error, .needsReview, .pending, .pendingReview, .review,
    .reviewed, .stale, .superseded] ObsidianContextLifecycleStatus.value

/-! ## Readers -/

/-- What the boundary takes from Python: letter case, decimal digits of any script, and timestamps, which are kept as
the text that `isoformat` gives. -/
structure TextPlatform where
  upper : String → String
  lower : String → String
  casefold : String → String
  decimal : String → Option ℕ
  timestamp : String → Option String

section Readers
variable {φ : Type} (platform : TextPlatform)

/-- A reader of a field; `none` refuses the value. -/
abbrev Reader (φ α : Type) := JsonValue φ → Option α

/-- A text without its outer white space, if anything is left. -/
def strippedText (text : String) : Option String := if pythonStrip text = "" then none else some (pythonStrip text)

def stringOrNone : Reader φ (Option String)
  | .null => some none
  | .str text => some (strippedText text)
  | _ => none

def underscored (text : String) : String := String.ofList (text.toList.map fun c => if c = '-' ∨ c = ' ' then '_' else c)

def normalizedUppercaseText (value : JsonValue φ) : Option (Option String) :=
  (stringOrNone value).map fun text => text.map fun text => underscored (platform.upper text)

def normalizedStatusText (value : JsonValue φ) : Option (Option String) :=
  (stringOrNone value).map fun text => text.map fun text => underscored (platform.lower text)

/-- An enumeration read from normalized text. -/
def enumField {E : Type} (normalize : JsonValue φ → Option (Option String)) (parse : String → Option E) : Reader φ (Option E) :=
  fun value =>
    match normalize value with
    | none => none
    | some none => some none
    | some (some text) => (parse text).map some

def hexDigits : List Char := "0123456789abcdef".toList

def normalizedContentHash : Reader φ (Option String) := fun value =>
  match stringOrNone value with
  | none => none
  | some none => some none
  | some (some text) =>
    let normalized := platform.lower text
    if normalized.length ≠ 64 ∨ (normalized.toList.any fun c => c ∉ hexDigits) then none else some (some normalized)

def normalizedContextVersion : Reader φ (Option ℕ)
  | .null => some none
  | .int value => if 1 ≤ value then some (some value.toNat) else none
  | .str text =>
    match platform.decimal (pythonStrip text) with
    | some parsed => if 1 ≤ parsed then some (some parsed) else none
    | none => none
  | _ => none

/-- A date alone is the start of its day. -/
def timestampField : Reader φ (Option String)
  | .null => some none
  | .str text =>
    let expanded := if (pythonStrip text).length = 10 then pythonStrip text ++ "T00:00:00Z" else text
    (platform.timestamp expanded).map some
  | _ => none

def referenceTuple : Reader φ (List String) := fun value => (normalizeStringCollection value).toOption

/-! ## The boundary -/

structure ObsidianContextProvenance where
  sourceActorId : Option String
  sourceActorType : Option ContextSourceType
  sourceRunId : Option String
  externalRunId : Option String
  artifactRefs : List String
  evidenceRefs : List String
  confidence : Option ContextImportance
  deriving DecidableEq

def provenanceFields : List String :=
  ["source_actor_id", "source_actor_type", "source_run_id", "external_run_id", "artifact_refs", "evidence_refs",
    "confidence"]

/-- The flat fields of the provenance, or those of a nested mapping. -/
def readProvenance (fields : JsonObject φ) : Option ObsidianContextProvenance := do
  let sourceActorId ← stringOrNone (fields.get "source_actor_id")
  let sourceActorType ← enumField (normalizedUppercaseText platform) ContextSourceType.parse (fields.get "source_actor_type")
  let sourceRunId ← stringOrNone (fields.get "source_run_id")
  let externalRunId ← stringOrNone (fields.get "external_run_id")
  let artifactRefs ← referenceTuple (fields.get "artifact_refs")
  let evidenceRefs ← referenceTuple (fields.get "evidence_refs")
  let confidence ← enumField (normalizedUppercaseText platform) ContextImportance.parse (fields.get "confidence")
  return ⟨sourceActorId, sourceActorType, sourceRunId, externalRunId, artifactRefs, evidenceRefs, confidence⟩

/-- A nested provenance has no other fields. -/
def provenanceField : Reader φ (Option ObsidianContextProvenance)
  | .null => some none
  | .object fields =>
    if fields.all fun field => provenanceFields.contains field.1 then (readProvenance platform fields).map some else none
  | _ => none

structure ContextFrontmatterBoundary where
  scope : Option ContextScope
  project : Option String
  workspaceId : Option String
  agentId : Option String
  userId : Option String
  sessionId : Option String
  visibility : Option ContextScope
  status : Option ObsidianContextLifecycleStatus
  flat : ObsidianContextProvenance
  provenance : Option ObsidianContextProvenance
  contentHash : Option String
  version : Option ℕ
  supersedesContextId : Option String
  supersededByContextId : Option String
  contextKind : Option ContextKind
  memoryFunction : Option MemoryFunction
  kind : Option String
  createdAt : Option String
  updatedAt : Option String
  recordedAt : Option String
  observedAt : Option String
  validFrom : Option String
  validTo : Option String
  reconciliationCandidateId : Option String
  conflictSetIds : List String

def scopeField : Reader φ (Option ContextScope) := enumField (normalizedUppercaseText platform) ContextScope.parse

def statusField : Reader φ (Option ObsidianContextLifecycleStatus) :=
  enumField (normalizedStatusText platform) ObsidianContextLifecycleStatus.parse

def memoryFunctionField : Reader φ (Option MemoryFunction) :=
  enumField (normalizedUppercaseText platform) MemoryFunction.parse

def readBoundary (fields : JsonObject φ) : Option ContextFrontmatterBoundary := do
  let scope ← scopeField platform (fields.get "scope")
  let project ← stringOrNone (fields.get "project")
  let workspaceId ← stringOrNone (fields.get "workspace_id")
  let agentId ← stringOrNone (fields.get "agent_id")
  let userId ← stringOrNone (fields.get "user_id")
  let sessionId ← stringOrNone (fields.get "session_id")
  let visibility ← scopeField platform (fields.get "visibility")
  let status ← statusField platform (fields.get "status")
  let flat ← readProvenance platform fields
  let provenance ← provenanceField platform (fields.get "provenance")
  let contentHash ← normalizedContentHash platform (fields.get "content_hash")
  let version ← normalizedContextVersion platform (fields.get "version")
  let supersedesContextId ← stringOrNone (fields.get "supersedes_context_id")
  let supersededByContextId ← stringOrNone (fields.get "superseded_by_context_id")
  let contextKind ← enumField (normalizedUppercaseText platform) ContextKind.parse (fields.get "context_kind")
  let memoryFunction ← memoryFunctionField platform (fields.get "memory_function")
  let kind ← normalizedUppercaseText platform (fields.get "kind")
  let createdAt ← timestampField platform (fields.get "created_at")
  let updatedAt ← timestampField platform (fields.get "updated_at")
  let recordedAt ← timestampField platform (fields.get "recorded_at")
  let observedAt ← timestampField platform (fields.get "observed_at")
  let validFrom ← timestampField platform (fields.get "valid_from")
  let validTo ← timestampField platform (fields.get "valid_to")
  let reconciliationCandidateId ← stringOrNone (fields.get "reconciliation_candidate_id")
  let conflictSetIds ← referenceTuple (fields.get "conflict_set_ids")
  return ⟨scope, project, workspaceId, agentId, userId, sessionId, visibility, status, flat, provenance, contentHash,
    version, supersedesContextId, supersededByContextId, contextKind, memoryFunction, kind, createdAt, updatedAt, recordedAt,
    observedAt, validFrom, validTo, reconciliationCandidateId, conflictSetIds⟩

/-- The message for the refused fields, the first of these that applies. -/
def frontmatterValidationMessage (fields : JsonObject φ) : String :=
  if (statusField platform (fields.get "status")).isNone then "INVALID_STATUS: Context frontmatter status is invalid"
  else if (scopeField platform (fields.get "scope")).isNone then "INVALID_SCOPE: Context frontmatter scope is invalid"
  else if (normalizedContentHash platform (fields.get "content_hash")).isNone ∨
      (normalizedContextVersion platform (fields.get "version")).isNone then
    "INVALID_CONTENT_INTEGRITY: Context hash or version is invalid"
  else if (memoryFunctionField platform (fields.get "memory_function")).isNone then
    "INVALID_MEMORY_FUNCTION: Context memory function is invalid"
  else if (readProvenance platform fields).isNone ∨ (provenanceField platform (fields.get "provenance")).isNone then
    "INVALID_PROVENANCE: Context frontmatter provenance is invalid"
  else "INVALID_SCOPE_IDENTITY: Context frontmatter identity is invalid"

/-- A flat value that is given agrees with the nested one. -/
def agrees {α : Type} [DecidableEq α] (absent flat nested : α) : Bool := flat = absent || flat = nested

def conflictingProvenance (flat nested : ObsidianContextProvenance) : Bool :=
  !(agrees none flat.sourceActorId nested.sourceActorId && agrees none flat.sourceActorType nested.sourceActorType &&
    agrees none flat.sourceRunId nested.sourceRunId && agrees none flat.externalRunId nested.externalRunId &&
    agrees [] flat.artifactRefs nested.artifactRefs && agrees [] flat.evidenceRefs nested.evidenceRefs &&
    agrees none flat.confidence nested.confidence)

/-- A conflict of the two provenances is an error of no field. -/
def validateContextFrontmatter (fields : JsonObject φ) : Except String ContextFrontmatterBoundary :=
  match readBoundary platform fields with
  | none => .error (frontmatterValidationMessage platform fields)
  | some boundary =>
    if boundary.provenance.any (conflictingProvenance boundary.flat) then
      .error "INVALID_SCOPE_IDENTITY: Context frontmatter identity is invalid"
    else .ok boundary

/-! ## The identity -/

structure ObsidianContextIdentity where
  scope : ContextScope
  identity : Reconciliation.ScopeIdentity
  visibility : ContextScope
  status : ObsidianContextLifecycleStatus
  provenance : ObsidianContextProvenance
  contentHash : String
  version : ℕ
  supersedesContextId : Option String
  supersededByContextId : Option String
  contextKind : ContextKind
  memoryFunction : Option MemoryFunction
  createdAt : Option String
  updatedAt : Option String
  recordedAt : Option String
  observedAt : Option String
  validFrom : Option String
  validTo : Option String
  reconciliationCandidateId : Option String
  conflictSetIds : List String
  deriving DecidableEq

def lifecycleStatusValue (frontmatterStatus : Option ObsidianContextLifecycleStatus) (noteStatus : String) :
    Except String ObsidianContextLifecycleStatus :=
  match frontmatterStatus with
  | some status => .ok status
  | none =>
    match ObsidianContextLifecycleStatus.parse (underscored (platform.lower (pythonStrip noteStatus))) with
    | some status => .ok status
    | none => .error ("INVALID_STATUS: " ++ noteStatus)

def legacyContextKind (value : Option String) : ContextKind := (value.bind ContextKind.parse).getD .memory

def provenanceValue (flat : ObsidianContextProvenance) (nested : Option ObsidianContextProvenance) :
    ObsidianContextProvenance :=
  match nested with
  | none => flat
  | some nested =>
    { sourceActorId := flat.sourceActorId.or nested.sourceActorId
      sourceActorType := flat.sourceActorType.or nested.sourceActorType
      sourceRunId := flat.sourceRunId.or nested.sourceRunId
      externalRunId := flat.externalRunId.or nested.externalRunId
      artifactRefs := if flat.artifactRefs = [] then nested.artifactRefs else flat.artifactRefs
      evidenceRefs := if flat.evidenceRefs = [] then nested.evidenceRefs else flat.evidenceRefs
      confidence := flat.confidence.or nested.confidence }

/-- The codes of the identities that the scopes need and that are missing. -/
def missingCodes (scopes : List ContextScope) (identity : Reconciliation.ScopeIdentity) : List String :=
  [(ContextScope.project, identity.project, "MISSING_PROJECT"), (.agent, identity.agentId, "MISSING_AGENT_ID"),
    (.session, identity.sessionId, "MISSING_SESSION_ID"), (.user, identity.userId, "MISSING_USER_ID")].filterMap
    fun entry => if entry.1 ∈ scopes ∧ (entry.2.1.bind strippedText).isNone then some entry.2.2 else none

def contextIdentityFromFrontmatter (fields : JsonObject φ) (project : Option String) (status generatedContentHash : String) :
    Except String ObsidianContextIdentity := do
  let boundary ← validateContextFrontmatter platform fields
  let resolvedProject := boundary.project.or project
  let resolvedStatus ← lifecycleStatusValue platform boundary.status status
  let scope := boundary.scope.getD (if resolvedProject.isSome then .project else .global)
  if boundary.contentHash.any (· ≠ generatedContentHash) then
    .error "INVALID_CONTENT_HASH: Context body hash does not match"
  else
    let identity : ObsidianContextIdentity :=
      { scope := scope
        identity :=
          ⟨resolvedProject, boundary.workspaceId, boundary.agentId, boundary.userId, boundary.sessionId⟩
        visibility := boundary.visibility.getD scope
        status := resolvedStatus
        provenance := provenanceValue boundary.flat boundary.provenance
        contentHash := boundary.contentHash.getD generatedContentHash
        version := boundary.version.getD 1
        supersedesContextId := boundary.supersedesContextId
        supersededByContextId := boundary.supersededByContextId
        contextKind := boundary.contextKind.getD (legacyContextKind boundary.kind)
        memoryFunction := boundary.memoryFunction
        createdAt := boundary.createdAt
        updatedAt := boundary.updatedAt
        recordedAt := boundary.recordedAt
        observedAt := boundary.observedAt
        validFrom := boundary.validFrom
        validTo := boundary.validTo
        reconciliationCandidateId := boundary.reconciliationCandidateId
        conflictSetIds := boundary.conflictSetIds }
    let contextId := (fields.get "id").text?.bind strippedText
    if contextId.isSome ∧ (identity.supersedesContextId = contextId ∨ identity.supersededByContextId = contextId) then
      .error "INVALID_SUPERSEDE: Context cannot supersede itself"
    else if missingCodes [scope] identity.identity ≠ [] then
      .error (", ".intercalate (missingCodes [scope] identity.identity))
    else .ok identity

def normalizedContextFrontmatter (identity : ObsidianContextIdentity) : JsonObject φ :=
  [("scope", .str identity.scope.value),
    ("project", .ofText identity.identity.project),
    ("workspace_id", .ofText identity.identity.workspaceId),
    ("agent_id", .ofText identity.identity.agentId),
    ("user_id", .ofText identity.identity.userId),
    ("session_id", .ofText identity.identity.sessionId),
    ("visibility", .str identity.visibility.value),
    ("status", .str identity.status.value),
    ("source_actor_id", .ofText identity.provenance.sourceActorId),
    ("source_actor_type", .ofText (identity.provenance.sourceActorType.map (·.value))),
    ("source_run_id", .ofText identity.provenance.sourceRunId),
    ("external_run_id", .ofText identity.provenance.externalRunId),
    ("artifact_refs", .ofTexts identity.provenance.artifactRefs),
    ("evidence_refs", .ofTexts identity.provenance.evidenceRefs),
    ("confidence", .ofText (identity.provenance.confidence.map (·.value))),
    ("content_hash", .str identity.contentHash),
    ("version", .int identity.version),
    ("supersedes_context_id", .ofText identity.supersedesContextId),
    ("superseded_by_context_id", .ofText identity.supersededByContextId),
    ("context_kind", .str identity.contextKind.value),
    ("memory_function", .ofText (identity.memoryFunction.map (·.value))),
    ("created_at", .ofText identity.createdAt),
    ("updated_at", .ofText identity.updatedAt),
    ("recorded_at", .ofText identity.recordedAt),
    ("observed_at", .ofText identity.observedAt),
    ("valid_from", .ofText identity.validFrom),
    ("valid_to", .ofText identity.validTo),
    ("reconciliation_candidate_id", .ofText identity.reconciliationCandidateId),
    ("conflict_set_ids", .ofTexts identity.conflictSetIds)]

end Readers

end Alexandria.Notes
