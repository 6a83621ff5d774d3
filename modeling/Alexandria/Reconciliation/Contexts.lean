import Alexandria.Reconciliation.Classifier
import Mathlib.Data.List.Sort

/-! # Stored Contexts as candidates and as recalled memory

The candidate service normalizes a proposal. Recall maps the matches of a Context search to recalled Contexts, each once.
The existing-memory service turns a stored Context into a candidate of its own, compares it with the other recalled
Contexts and builds a child plan from the decisions that relate them.
-/

namespace Alexandria.Reconciliation
set_option autoImplicit false
open Text

/-! ## Context records -/

/-- The frontmatter fields of a Context that reconciliation reads, each as far as it has the expected type. -/
structure ContextMetadata where
  relativePath : Option String
  contentHash : Option String
  source : Option String
  canonicalClaims : List CanonicalClaim
  recordedAt : Option Instant
  observedAt : Option Instant
  validFrom : Option Instant
  validTo : Option Instant
  conflictSetIds : List String
  supersededBy : List String
  supersedes : List String
  relationSummary : List String

structure ContextRecord where
  id : String
  title : String
  content : String
  scope : ContextScope
  identity : ScopeIdentity
  sourceType : String
  tags : List String
  isArchived : Bool
  createdAt : Instant
  metadata : ContextMetadata

/-- A text value that is not blank, trimmed. -/
def metadataText (value : Option String) : Option String :=
  value.bind fun text => if isBlank isPythonWhitespace text then none else some (pythonStrip text)

def canonicalPath (context : ContextRecord) : String :=
  (metadataText context.metadata.relativePath).getD ("context:" ++ context.id)

/-- `_metadata_text(metadata, "content_hash")` or the hash of the body. -/
def contextHash (platform : Platform) (context : ContextRecord) : String :=
  (metadataText context.metadata.contentHash).getD (platform.hashText context.content)

def sourceReference (platform : Platform) (context : ContextRecord) (observedAt : Option Instant) :
    MemorySourceReference where
  sourceType := context.sourceType
  sourceId := context.id
  title := context.title
  detailPath := canonicalPath context
  sourceHash := some (contextHash platform context)
  observedAt := observedAt

/-! ## Candidates -/

structure MemoryCandidateCreate where
  title : String
  body : String
  scope : ContextScope
  identity : ScopeIdentity
  canonicalClaims : List CanonicalClaim
  tags : List String
  sourceRefs : List MemorySourceReference
  recordedAt : Option Instant
  observedAt : Option Instant
  validFrom : Option Instant
  validTo : Option Instant
  requestedLifecycle : String
  candidateId : Option String
  sourceIdentity : Option String

def optionalText (value : Option String) : Option String := metadataText value

def ScopeIdentity.normalized (identity : ScopeIdentity) : ScopeIdentity where
  project := optionalText identity.project
  workspaceId := optionalText identity.workspaceId
  agentId := optionalText identity.agentId
  userId := optionalText identity.userId
  sessionId := optionalText identity.sessionId

/-- `validated_scope_identity` for one scope: the identity it needs, or the code of its absence. -/
def missingIdentity (scope : ContextScope) (identity : ScopeIdentity) : Option String :=
  match scope with
  | .project => if (optionalText identity.project).isNone then some "MISSING_PROJECT" else none
  | .agent => if (optionalText identity.agentId).isNone then some "MISSING_AGENT_ID" else none
  | .session => if (optionalText identity.sessionId).isNone then some "MISSING_SESSION_ID" else none
  | .user => if (optionalText identity.userId).isNone then some "MISSING_USER_ID" else none
  | .global => none

def qualifierLe (a b : CanonicalClaimQualifier) : Bool :=
  decide (a.name < b.name) || (decide (a.name = b.name) && decide (a.value ≤ b.value))

def normalizedQualifiers (qualifiers : List CanonicalClaimQualifier) : List CanonicalClaimQualifier :=
  ((qualifiers.filter fun qualifier => !isBlank isPythonWhitespace qualifier.name &&
    !isBlank isPythonWhitespace qualifier.value).map fun qualifier =>
      ⟨pythonStrip qualifier.name, pythonStrip qualifier.value⟩).dedup.insertionSort fun a b => qualifierLe a b

def normalizedClaim (claim : CanonicalClaim) : Except String CanonicalClaim :=
  if isBlank isPythonWhitespace claim.subject || isBlank isPythonWhitespace claim.predicate ||
      isBlank isPythonWhitespace claim.object then
    .error "canonical claim subject, predicate, and object are required"
  else
    .ok ⟨pythonStrip claim.subject, pythonStrip claim.predicate, pythonStrip claim.object,
      normalizedQualifiers claim.qualifiers, claim.polarity⟩

def normalizedSourceRef (sourceRef : MemorySourceReference) : Except String MemorySourceReference :=
  if isBlank isPythonWhitespace sourceRef.sourceType || isBlank isPythonWhitespace sourceRef.sourceId ||
      isBlank isPythonWhitespace sourceRef.detailPath || isBlank isPythonWhitespace sourceRef.title then
    .error "source reference type, id, title, and detail path are required"
  else
    .ok { sourceRef with
      sourceType := pythonStrip sourceRef.sourceType
      sourceId := pythonStrip sourceRef.sourceId
      title := pythonStrip sourceRef.title
      detailPath := pythonStrip sourceRef.detailPath }

/-- The first reference of each type, identifier and path. -/
def distinctSourceRefs (sourceRefs : List MemorySourceReference) : List MemorySourceReference :=
  sourceRefs.foldl (fun kept sourceRef =>
    if kept.any fun other => other.sourceType = sourceRef.sourceType ∧ other.sourceId = sourceRef.sourceId ∧
        other.detailPath = sourceRef.detailPath then kept else kept ++ [sourceRef]) []

def normalizedTags (values : List String) : List String :=
  dedupe ((values.filter fun tag => !isBlank isPythonWhitespace tag).map pythonStrip)

/-- ASCII lower case, which is all that the lifecycle names need. -/
def normalizedLifecycle (requested : String) : String :=
  if isBlank isPythonWhitespace requested then "active" else (pythonStrip requested).toLower

/-- `create` of the candidate service; `newId` and `now` stand for the identifier and the instant it would draw. -/
def createCandidate (platform : Platform) (newId : String) (now : Instant) (payload : MemoryCandidateCreate) :
    Except String MemoryCandidate :=
  if isBlank isPythonWhitespace payload.title then .error "candidate title is required"
  else if isBlank isPythonWhitespace payload.body then .error "candidate body is required"
  else if hvalid : ValidityOrdered payload.validFrom payload.validTo then
    match missingIdentity payload.scope payload.identity with
    | some code => .error code
    | none => do
      let claims ← payload.canonicalClaims.mapM normalizedClaim
      let sourceRefs ← payload.sourceRefs.mapM normalizedSourceRef
      return {
        candidateId := (payload.candidateId.filter (· ≠ "")).getD newId
        title := pythonStrip payload.title
        body := pythonStrip payload.body
        canonicalClaims := claims
        scope := payload.scope
        identity := payload.identity.normalized
        tags := normalizedTags payload.tags
        sourceRefs := distinctSourceRefs sourceRefs
        recordedAt := payload.recordedAt.getD now
        observedAt := payload.observedAt
        validFrom := payload.validFrom
        validTo := payload.validTo
        requestedLifecycle := normalizedLifecycle payload.requestedLifecycle
        contentHash := platform.hashText (pythonStrip payload.body)
        sourceIdentity := optionalText payload.sourceIdentity
        validity := hvalid }
  else .error "candidate valid_to must not be before valid_from"

/-! ## Recall -/

/-- `recall_candidate_from_match`: the overlay gives the times, the record everything else. -/
def recallCandidateFromMatch (platform : Platform) (context : ContextRecord) (temporal : Option MemoryTemporalState) :
    MemoryRecallCandidate where
  contextId := context.id
  title := context.title
  body := context.content
  canonicalClaims := context.metadata.canonicalClaims
  scope := context.scope
  identity := context.identity
  sourceIdentity := metadataText context.metadata.source
  contentHash := contextHash platform context
  recordedAt := (temporal.map (·.recordedAt)).getD context.createdAt
  observedAt := temporal.bind (·.observedAt)
  validFrom := temporal.bind (·.validFrom)
  validTo := temporal.bind (·.validTo)
  sourceRefs := [sourceReference platform context (temporal.bind (·.observedAt))]

def matchesIdentity (expected actual : Option String) : Bool := expected.isNone || actual == expected

def matchesCandidateIdentity (context : ContextRecord) (candidate : MemoryCandidate) : Bool :=
  context.scope == candidate.scope && matchesIdentity candidate.identity.project context.identity.project &&
    matchesIdentity candidate.identity.workspaceId context.identity.workspaceId &&
    matchesIdentity candidate.identity.agentId context.identity.agentId &&
    matchesIdentity candidate.identity.userId context.identity.userId &&
    matchesIdentity candidate.identity.sessionId context.identity.sessionId

/-- The matches that belong to the candidate's identity, each Context at its first occurrence. -/
def distinctMatches (candidate : MemoryCandidate) : List String → List ContextRecord → List ContextRecord
  | _, [] => []
  | seen, context :: rest =>
    if !matchesCandidateIdentity context candidate || seen.contains context.id then distinctMatches candidate seen rest
    else context :: distinctMatches candidate (context.id :: seen) rest

/-- What the Context search returns for a candidate. -/
abbrev RecallSource := MemoryCandidate → List ContextRecord

def candidateRecall (platform : Platform) (search : RecallSource) (repository : Repository) (candidate : MemoryCandidate) :
    List MemoryRecallCandidate :=
  (distinctMatches candidate [] (search candidate)).map fun context =>
    recallCandidateFromMatch platform context (repository.getTemporalState context.id)

/-! ## Existing Contexts -/

/-- The overlay in the frontmatter, if there is any sign of one. -/
def temporalStateFromContextMetadata (context : ContextRecord) : Option MemoryTemporalState :=
  let m := context.metadata
  if m.recordedAt.isSome || m.observedAt.isSome || m.validFrom.isSome || m.validTo.isSome ||
      !m.conflictSetIds.isEmpty || !m.supersededBy.isEmpty || !m.supersedes.isEmpty || !m.relationSummary.isEmpty then
    some {
      contextId := context.id
      recordedAt := m.recordedAt.getD context.createdAt
      observedAt := m.observedAt
      validFrom := m.validFrom
      validTo := m.validTo
      isCurrent := !context.isArchived && m.validTo.isNone && m.supersededBy.isEmpty
      conflictSetIds := m.conflictSetIds
      supersededBy := m.supersededBy
      supersedes := m.supersedes
      relationSummary := m.relationSummary }
  else none

def defaultTemporal (context : ContextRecord) : MemoryTemporalState where
  contextId := context.id
  recordedAt := context.createdAt
  observedAt := none
  validFrom := none
  validTo := none
  isCurrent := !context.isArchived
  conflictSetIds := []
  supersededBy := []
  supersedes := []
  relationSummary := []

def candidatePayload (platform : Platform) (context : ContextRecord) (temporal : MemoryTemporalState) :
    MemoryCandidateCreate where
  title := context.title
  body := context.content
  scope := context.scope
  identity := context.identity
  canonicalClaims := context.metadata.canonicalClaims
  tags := context.tags
  sourceRefs := [sourceReference platform context temporal.observedAt]
  recordedAt := some temporal.recordedAt
  observedAt := temporal.observedAt
  validFrom := temporal.validFrom
  validTo := temporal.validTo
  requestedLifecycle := if context.isArchived then "archived" else "active"
  candidateId := some ("existing:" ++ context.id)
  sourceIdentity := metadataText context.metadata.source

def existingPlanKey (contextId contentHash : String) : String := "existing-memory:" ++ contextId ++ ":" ++ contentHash

structure PreparedContext where
  candidate : MemoryCandidate
  canonicalPath : String
  temporal : MemoryTemporalState
  temporalOverlayPresent : Bool
  plan : Option MemoryReconciliationPlan
  recalled : List MemoryRecallCandidate
  built : ∀ child, plan = some child → IsBuilt child

/-- The services that a scan reads: the Context search, the model and the repository. -/
structure ScanSources where
  search : RecallSource
  provider : Option ProposalProvider
  repository : Repository

/-- The decisions about the other recalled Contexts that relate them to the candidate. -/
def meaningfulDecisions (platform : Platform) (provider : Option ProposalProvider) (contextId : String)
    (candidate : MemoryCandidate) (recalled : List MemoryRecallCandidate) : List MemoryRelationDecision :=
  ((recalled.filter fun existing => existing.contextId ≠ contextId).map fun existing =>
    classifyWithModel platform provider candidate existing).filter fun decision => decision.relation ≠ .unrelated

/-- The plan for the decisions that relate the Context to others, if there are any. -/
def childPlan (platform : Platform) (planId : String) (context : ContextRecord) (candidate : MemoryCandidate)
    (meaningful : List MemoryRelationDecision) : Option MemoryReconciliationPlan :=
  if meaningful.isEmpty then none
  else some (buildPlan platform.hashText planId candidate meaningful
    (some (existingPlanKey context.id candidate.contentHash)))

theorem childPlan_isBuilt {platform : Platform} {planId : String} {context : ContextRecord} {candidate : MemoryCandidate}
    {meaningful : List MemoryRelationDecision} (child : MemoryReconciliationPlan)
    (h : childPlan platform planId context candidate meaningful = some child) : IsBuilt child := by
  unfold childPlan at h
  split at h
  · cases h
  · cases h
    exact buildPlan_isBuilt ..

/-- `_prepare_context`; `planId` is the identifier that a new plan would get. -/
def prepareContext (platform : Platform) (sources : ScanSources) (planId : String) (context : ContextRecord) :
    Except String PreparedContext := do
  let persisted := sources.repository.getTemporalState context.id
  let temporal := (persisted.or (temporalStateFromContextMetadata context)).getD (defaultTemporal context)
  let candidate ← createCandidate platform planId temporal.recordedAt (candidatePayload platform context temporal)
  let recalled := candidateRecall platform sources.search sources.repository candidate
  let meaningful := meaningfulDecisions platform sources.provider context.id candidate recalled
  return {
    candidate := candidate
    canonicalPath := canonicalPath context
    temporal := temporal
    temporalOverlayPresent := persisted.isSome
    plan := childPlan platform planId context candidate meaningful
    recalled := recalled
    built := childPlan_isBuilt }

end Alexandria.Reconciliation
