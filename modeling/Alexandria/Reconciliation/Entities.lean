import Alexandria.Foundations.Text
import Mathlib.Data.List.Dedup
import Mathlib.Data.Rat.Defs

/-! # Entities of memory reconciliation

A candidate is compared with the Contexts that recall returns; each comparison is a relation decision, the decisions
together make a plan, and applying the plan writes relations, conflict sets and temporal states. Instants are counted
from a fixed origin and scores are rational. A candidate carries the check its service makes: its validity does not end
before it starts. Creation times that no step reads back are left out.
-/

namespace Alexandria.Reconciliation
set_option autoImplicit false

abbrev Instant := Int

/-! ## Enumerations -/

inductive MemoryRelationType
  | duplicate
  | supports
  | extending
  | contradicts
  | supersedes
  | unrelated
  | unknown
  deriving DecidableEq

def MemoryRelationType.value : MemoryRelationType → String
  | .duplicate => "DUPLICATE"
  | .supports => "SUPPORTS"
  | .extending => "EXTENDS"
  | .contradicts => "CONTRADICTS"
  | .supersedes => "SUPERSEDES"
  | .unrelated => "UNRELATED"
  | .unknown => "UNKNOWN"

/-- The value in lower case. -/
def MemoryRelationType.label : MemoryRelationType → String
  | .duplicate => "duplicate"
  | .supports => "supports"
  | .extending => "extends"
  | .contradicts => "contradicts"
  | .supersedes => "supersedes"
  | .unrelated => "unrelated"
  | .unknown => "unknown"

inductive MemoryDecisionSource
  | deterministic
  | semantic
  | llm
  | human
  deriving DecidableEq

inductive MemoryClaimPolarity
  | positive
  | negative
  deriving DecidableEq

inductive MemoryConflictStatus
  | opened
  | reviewing
  | resolvedKeepBoth
  | resolvedSuperseded
  | resolvedMerged
  | resolvedInvalidSource
  deriving DecidableEq

inductive MemoryReconciliationStatus
  | planned
  | reviewRequired
  | applying
  | applied
  | partialApply
  | failed
  deriving DecidableEq

inductive MemoryReconciliationActionType
  | createContext
  | mergeEvidence
  | createRelation
  | markSuperseded
  | createConflictSet
  | queueReview
  | preserveCandidate
  | noop
  deriving DecidableEq

inductive MemoryReconciliationFailureCode
  | policyBlocked
  | contextWriteFailed
  | graphWriteFailed
  | lifecycleUpdateFailed
  | conflictWriteFailed
  | readBackVerificationFailed
  | partialApply
  deriving DecidableEq

def MemoryReconciliationFailureCode.value : MemoryReconciliationFailureCode → String
  | .policyBlocked => "POLICY_BLOCKED"
  | .contextWriteFailed => "CONTEXT_WRITE_FAILED"
  | .graphWriteFailed => "GRAPH_WRITE_FAILED"
  | .lifecycleUpdateFailed => "LIFECYCLE_UPDATE_FAILED"
  | .conflictWriteFailed => "CONFLICT_WRITE_FAILED"
  | .readBackVerificationFailed => "READ_BACK_VERIFICATION_FAILED"
  | .partialApply => "PARTIAL_APPLY"

inductive ContextScope
  | global
  | project
  | agent
  | user
  | session
  deriving DecidableEq

def ContextScope.value : ContextScope → String
  | .global => "GLOBAL"
  | .project => "PROJECT"
  | .agent => "AGENT"
  | .user => "USER"
  | .session => "SESSION"

/-! ## Claims, candidates and recalled Contexts -/

structure CanonicalClaimQualifier where
  name : String
  value : String
  deriving DecidableEq

structure CanonicalClaim where
  subject : String
  predicate : String
  object : String
  qualifiers : List CanonicalClaimQualifier
  polarity : MemoryClaimPolarity
  deriving DecidableEq

structure MemorySourceReference where
  sourceType : String
  sourceId : String
  title : String
  detailPath : String
  sourceHash : Option String
  observedAt : Option Instant
  deriving DecidableEq

/-- The identity that a scope selects. -/
structure ScopeIdentity where
  project : Option String
  workspaceId : Option String
  agentId : Option String
  userId : Option String
  sessionId : Option String
  deriving DecidableEq

/-- The validity does not end before it starts. -/
def ValidityOrdered (validFrom validTo : Option Instant) : Prop :=
  ∀ start finish, validFrom = some start → validTo = some finish → start ≤ finish

instance (validFrom validTo : Option Instant) : Decidable (ValidityOrdered validFrom validTo) :=
  match validFrom, validTo with
  | some start, some finish =>
    decidable_of_iff (start ≤ finish) ⟨fun h _ _ hs hf => Option.some.inj hs ▸ Option.some.inj hf ▸ h,
      fun h => h start finish rfl rfl⟩
  | none, _ => isTrue fun _ _ hs _ => nomatch hs
  | some _, none => isTrue fun _ _ _ hf => nomatch hf

structure MemoryCandidate where
  candidateId : String
  title : String
  body : String
  canonicalClaims : List CanonicalClaim
  scope : ContextScope
  identity : ScopeIdentity
  tags : List String
  sourceRefs : List MemorySourceReference
  recordedAt : Instant
  observedAt : Option Instant
  validFrom : Option Instant
  validTo : Option Instant
  requestedLifecycle : String
  contentHash : String
  sourceIdentity : Option String
  validity : ValidityOrdered validFrom validTo

structure MemoryTemporalState where
  contextId : String
  recordedAt : Instant
  observedAt : Option Instant
  validFrom : Option Instant
  validTo : Option Instant
  isCurrent : Bool
  conflictSetIds : List String
  supersededBy : List String
  supersedes : List String
  relationSummary : List String
  deriving DecidableEq

structure MemoryRecallCandidate where
  contextId : String
  title : String
  body : String
  canonicalClaims : List CanonicalClaim
  scope : ContextScope
  identity : ScopeIdentity
  sourceIdentity : Option String
  contentHash : String
  recordedAt : Instant
  observedAt : Option Instant
  validFrom : Option Instant
  validTo : Option Instant
  sourceRefs : List MemorySourceReference

/-! ## Decisions and plans -/

structure MemoryRelationScores where
  semanticSimilarity : ℚ
  claimOverlap : ℚ
  scopeCompatibility : ℚ
  temporalCompatibility : ℚ
  sourceIndependence : ℚ
  polarityConflict : ℚ
  specificityChange : ℚ
  freshness : ℚ
  deriving DecidableEq

structure MemoryRelationDecision where
  candidateId : String
  existingContextId : String
  relation : MemoryRelationType
  confidence : ℚ
  reason : String
  evidenceRefs : List MemorySourceReference
  claimMatches : List String
  scores : MemoryRelationScores
  decisionSource : MemoryDecisionSource
  policyVersion : String
  deriving DecidableEq

structure MemoryReconciliationAction where
  actionType : MemoryReconciliationActionType
  targetContextId : Option String
  relation : Option MemoryRelationType
  reason : String
  deriving DecidableEq

structure MemoryReconciliationPlan where
  planId : String
  candidate : MemoryCandidate
  decisions : List MemoryRelationDecision
  primaryDecision : MemoryRelationType
  actions : List MemoryReconciliationAction
  warnings : List String
  conflictingContextIds : List String
  requiresReview : Bool
  idempotencyKey : String
  status : MemoryReconciliationStatus

/-! ## What an apply writes -/

structure MemoryConflictSet where
  conflictSetId : String
  contextIds : List String
  candidateId : String
  subjectKey : String
  claimKey : String
  scope : ContextScope
  validityOverlap : Bool
  reason : String
  status : MemoryConflictStatus
  resolution : Option String
  resolvedAt : Option Instant
  deriving DecidableEq

structure MemoryRelationRecord where
  relationId : String
  sourceContextId : String
  targetContextId : String
  candidateId : String
  relation : MemoryRelationType
  confidence : ℚ
  reason : String
  decisionSource : MemoryDecisionSource
  policyVersion : String
  evidenceRefs : List MemorySourceReference
  claimMatches : List String
  scores : MemoryRelationScores
  deriving DecidableEq

structure MemoryReconciliationResult where
  reconciliationId : String
  planId : String
  status : MemoryReconciliationStatus
  createdContextIds : List String
  updatedContextIds : List String
  supersededContextIds : List String
  createdRelationIds : List String
  createdConflictSetIds : List String
  mergedEvidence : List MemorySourceReference
  reviewQueueItemIds : List String
  warnings : List String
  failureCode : Option MemoryReconciliationFailureCode
  reviewedBy : Option String
  deriving DecidableEq

/-- `tuple(dict.fromkeys(...))`: the values in order of their first occurrence. -/
def dedupe {α : Type} [DecidableEq α] (values : List α) : List α := values.reverse.dedup.reverse

@[simp] theorem mem_dedupe {α : Type} [DecidableEq α] {values : List α} {a : α} : a ∈ dedupe values ↔ a ∈ values := by
  rw [dedupe, List.mem_reverse, List.mem_dedup, List.mem_reverse]

end Alexandria.Reconciliation
