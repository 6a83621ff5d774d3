import Alexandria.Reconciliation.Entities
import Mathlib.Data.List.MinMax
import Mathlib.Data.Prod.Lex
import Mathlib.Algebra.Order.Ring.Rat

/-! # From decisions to a plan, and back

The planner takes the decision with the highest relation priority and, among these, the highest confidence; its actions
all name the Context of that decision. The plan keeps only the relation of the decision, and the applier looks for the
first decision with this relation.
-/

namespace Alexandria.Reconciliation
set_option autoImplicit false
open Text

/-! ## The action policy -/

def relationPriority : MemoryRelationType → ℕ
  | .duplicate => 70
  | .contradicts => 60
  | .supersedes => 50
  | .supports => 40
  | .extending => 30
  | .unknown => 20
  | .unrelated => 10

/-- The key by which the planner compares decisions, lexicographically. -/
def decisionRank (decision : MemoryRelationDecision) : ℕ ×ₗ ℚ :=
  toLex (relationPriority decision.relation, decision.confidence)

/-- `max` of Python: the first of the decisions with the greatest key. -/
def selectPrimaryDecision (decisions : List MemoryRelationDecision) : Option MemoryRelationDecision :=
  decisions.argmax decisionRank

def createUnrecalled : MemoryReconciliationAction :=
  ⟨.createContext, none, none, "No related Context was recalled"⟩

/-- The actions of each relation with their reasons. -/
def actionTypes : MemoryRelationType → List (MemoryReconciliationActionType × String)
  | .duplicate =>
    [(.mergeEvidence, "Merge new provenance into the canonical duplicate"),
      (.noop, "Do not create a duplicate Context")]
  | .supports =>
    [(.mergeEvidence, "Attach independent supporting evidence"), (.createRelation, "Persist the supports relation")]
  | .extending =>
    [(.createContext, "Create the more specific Context"), (.createRelation, "Persist the extends relation")]
  | .contradicts =>
    [(.createContext, "Preserve the conflicting candidate as a separate Context"),
      (.createRelation, "Persist the contradiction relation"),
      (.createConflictSet, "Preserve both claims in a first-class conflict set"),
      (.queueReview, "Require an explicit conflict resolution")]
  | .supersedes =>
    [(.createContext, "Create the newer current Context"), (.createRelation, "Persist the supersedes relation"),
      (.markSuperseded, "Close the previous Context validity interval without deleting it"),
      (.queueReview, "Require explicit Memory Steward approval before supersession")]
  | .unknown =>
    [(.createContext, "Preserve the candidate as a draft Context"),
      (.preserveCandidate, "Retain the candidate and classification evidence"),
      (.queueReview, "Require review because the relation is unknown")]
  | .unrelated => [(.createContext, "Create an unrelated new Context")]

def actionsForDecision : Option MemoryRelationDecision → List MemoryReconciliationAction
  | none => [createUnrecalled]
  | some decision =>
    (actionTypes decision.relation).map fun action =>
      ⟨action.1, some decision.existingContextId, some decision.relation, action.2⟩

/-! ## The plan service -/

def reviewRelation (relation : MemoryRelationType) : Bool :=
  relation == .contradicts || relation == .supersedes || relation == .unknown

def primaryRelation : Option MemoryRelationDecision → MemoryRelationType
  | none => .unrelated
  | some decision => decision.relation

def planWarnings (candidate : MemoryCandidate) (decisions : List MemoryRelationDecision)
    (relation : MemoryRelationType) : List String :=
  (if candidate.canonicalClaims.isEmpty then
    ["Canonical claims were unavailable; semantic classification is limited."] else []) ++
  (if decisions.isEmpty then ["No existing Context candidate was recalled."] else []) ++
  (if relation = .contradicts then ["An unresolved contradiction must remain visible to recall."] else []) ++
  (if relation = .supersedes then
    ["Supersession requires explicit Memory Steward approval before canonical lifecycle mutation."] else []) ++
  (if relation = .unknown then ["Relation confidence is insufficient for automatic resolution."] else [])

/-- The identity and content parts from which a key is generated. -/
def identityText (candidate : MemoryCandidate) : String :=
  "|".intercalate [candidate.scope.value, candidate.identity.project.getD "", candidate.identity.workspaceId.getD "",
    candidate.identity.agentId.getD "", candidate.identity.userId.getD "", candidate.identity.sessionId.getD "",
    candidate.contentHash]

/-- The key that was given, if it is not blank, or the hash of the candidate's identity. -/
def planKey (hashText : String → String) (candidate : MemoryCandidate) (idempotencyKey : Option String) : String :=
  match idempotencyKey with
  | some key => if isBlank isPythonWhitespace key then hashText (identityText candidate) else pythonStrip key
  | none => hashText (identityText candidate)

/-- `build` of the plan service; `planId` is the new identifier it draws. -/
def buildPlan (hashText : String → String) (planId : String) (candidate : MemoryCandidate)
    (decisions : List MemoryRelationDecision) (idempotencyKey : Option String) : MemoryReconciliationPlan :=
  let primary := selectPrimaryDecision decisions
  let relation := primaryRelation primary
  { planId := planId
    candidate := candidate
    decisions := decisions
    primaryDecision := relation
    actions := actionsForDecision primary
    warnings := planWarnings candidate decisions relation
    conflictingContextIds := dedupe ((decisions.filter fun d => d.relation = .contradicts).map (·.existingContextId))
    requiresReview := reviewRelation relation
    idempotencyKey := planKey hashText candidate idempotencyKey
    status := if reviewRelation relation then .reviewRequired else .planned }

/-- The plan is one that the plan service builds. -/
structure IsBuilt (plan : MemoryReconciliationPlan) : Prop where
  relation : plan.primaryDecision = primaryRelation (selectPrimaryDecision plan.decisions)
  actions : plan.actions = actionsForDecision (selectPrimaryDecision plan.decisions)
  review : plan.requiresReview = reviewRelation plan.primaryDecision

theorem buildPlan_isBuilt (hashText : String → String) (planId : String) (candidate : MemoryCandidate)
    (decisions : List MemoryRelationDecision) (idempotencyKey : Option String) :
    IsBuilt (buildPlan hashText planId candidate decisions idempotencyKey) where
  relation := rfl
  actions := rfl
  review := rfl

/-! ## The apply policy -/

def primaryDecision (plan : MemoryReconciliationPlan) : Option MemoryRelationDecision :=
  plan.decisions.find? fun decision => decision.relation = plan.primaryDecision

def hasAction (plan : MemoryReconciliationPlan) (actionType : MemoryReconciliationActionType) : Bool :=
  plan.actions.any fun action => action.actionType = actionType

def candidateLifecycle (plan : MemoryReconciliationPlan) : String :=
  if plan.requiresReview then "pending_review"
  else if plan.candidate.requestedLifecycle ∈ ["active", "current", "draft"] then plan.candidate.requestedLifecycle
  else "active"

def claimText (claim : CanonicalClaim) : String := claim.subject ++ "|" ++ claim.predicate ++ "|" ++ claim.object

def claimKey (plan : MemoryReconciliationPlan) (decision : MemoryRelationDecision) : String :=
  match decision.claimMatches with
  | claim :: _ => claim
  | [] =>
    match plan.candidate.canonicalClaims with
    | claim :: _ => claimText claim
    | [] => "candidate:" ++ plan.candidate.candidateId

def subjectKey (casefold : String → String) (plan : MemoryReconciliationPlan) : String :=
  match plan.candidate.canonicalClaims with
  | claim :: _ => casefold claim.subject
  | [] => casefold plan.candidate.title

section Identifiers
variable (uuid5 : String → String)

def conflictSetId (plan : MemoryReconciliationPlan) (decision : MemoryRelationDecision) : String :=
  uuid5 ("memory-conflict:" ++ plan.planId ++ ":" ++ claimKey plan decision)

def conflictIds (plan : MemoryReconciliationPlan) : Option MemoryRelationDecision → List String
  | none => []
  | some primary => if primary.relation = .contradicts then [conflictSetId uuid5 plan primary] else []

def resultId (planId : String) : String := uuid5 ("memory-reconciliation-result:" ++ planId)

def relationId (sourceContextId targetContextId : String) (relation : MemoryRelationType) : String :=
  uuid5 ("memory-relation:" ++ sourceContextId ++ ":" ++ targetContextId ++ ":" ++ relation.value)

end Identifiers

def relationSummary : Option MemoryRelationDecision → List String
  | none => []
  | some decision => [decision.relation.label ++ ":" ++ decision.existingContextId]

def reviewItemId (planId : String) : String := "memory-review:" ++ planId

/-! ## The two ways to the primary decision -/

section Primary
variable {decisions : List MemoryRelationDecision} {decision : MemoryRelationDecision}
  {plan : MemoryReconciliationPlan}

theorem relationPriority_injective : Function.Injective relationPriority := by
  intro a b h
  cases a <;> cases b <;> simp_all [relationPriority]

theorem selectPrimaryDecision_mem (h : selectPrimaryDecision decisions = some decision) : decision ∈ decisions :=
  List.argmax_mem (by simpa [selectPrimaryDecision] using h)

theorem decisionRank_le {a b : MemoryRelationDecision} : decisionRank a ≤ decisionRank b ↔
    relationPriority a.relation < relationPriority b.relation ∨
      relationPriority a.relation = relationPriority b.relation ∧ a.confidence ≤ b.confidence := by
  rw [decisionRank, decisionRank, Prod.Lex.toLex_le_toLex]

theorem selectPrimaryDecision_rank (h : selectPrimaryDecision decisions = some decision) {other : MemoryRelationDecision}
    (hother : other ∈ decisions) : decisionRank other ≤ decisionRank decision :=
  List.le_of_mem_argmax hother (by simpa [selectPrimaryDecision] using h)

theorem selectPrimaryDecision_isSome (hne : decisions ≠ []) : ∃ decision, selectPrimaryDecision decisions = some decision := by
  cases h : selectPrimaryDecision decisions with
  | none => exact absurd (List.argmax_eq_none.mp h) hne
  | some decision => exact ⟨decision, rfl⟩

/-- The applier finds a decision with the relation that the planner has selected. -/
theorem IsBuilt.exists_primaryDecision (hplan : IsBuilt plan) (h : selectPrimaryDecision plan.decisions = some decision) :
    ∃ recovered, primaryDecision plan = some recovered ∧ recovered ∈ plan.decisions ∧
      recovered.relation = decision.relation := by
  have hrelation : plan.primaryDecision = decision.relation := by
    rw [hplan.relation, h]
    rfl
  cases hfind : primaryDecision plan with
  | none =>
    have := List.find?_eq_none.mp hfind decision (selectPrimaryDecision_mem h)
    simp [hrelation] at this
  | some recovered =>
    refine ⟨recovered, rfl, List.mem_of_find?_eq_some hfind, ?_⟩
    have := List.find?_some hfind
    simpa [hrelation] using this

theorem IsBuilt.actions_eq (hplan : IsBuilt plan) (h : selectPrimaryDecision plan.decisions = some decision) :
    plan.actions = actionsForDecision (some decision) := by
  rw [hplan.actions, h]

theorem actionsForDecision_target {action : MemoryReconciliationAction}
    (h : action ∈ actionsForDecision (some decision)) : action.targetContextId = some decision.existingContextId := by
  obtain ⟨kind, -, rfl⟩ := List.mem_map.mp h
  rfl

theorem exists_mem_actionsForDecision (decision : MemoryRelationDecision) :
    ∃ action, action ∈ actionsForDecision (some decision) := by
  cases hrelation : decision.relation <;> simp [actionsForDecision, actionTypes, hrelation]

/-- A built plan has the actions of the relation it was built for. -/
theorem IsBuilt.hasAction_eq (hplan : IsBuilt plan) (h : selectPrimaryDecision plan.decisions = some decision)
    (actionType : MemoryReconciliationActionType) :
    hasAction plan actionType = (actionTypes decision.relation).any fun action => action.1 = actionType := by
  unfold hasAction
  rw [hplan.actions_eq h, actionsForDecision, List.any_map]
  rfl

end Primary

end Alexandria.Reconciliation
