import Alexandria.Foundations.Keyed
import Alexandria.Foundations.Phases
import Alexandria.Reconciliation.Policy

/-! # The apply service

`_apply_plan` goes through the phases of a plan: the canonical mutations go to a gateway whose world and answers are
arbitrary, the relation, conflict and temporal records to the repository of the request's session. An exception of a
phase is caught and recorded in the result; a violated primary key breaks the session, so that saving the result raises
too and the request's transaction is rolled back. Every call that writes something is listed among the effects.
-/

namespace Alexandria.Reconciliation
set_option autoImplicit false
open Text Phases

/-- What the code takes from the Python library and from the native hash. -/
structure Platform where
  uuid5 : String → String
  casefold : String → String
  hashText : String → String
  /-- `SequenceMatcher(None, a, b).ratio()`. -/
  sequenceRatio : String → String → ℚ

/-! ## The repository -/

/-- A row of the conflict table: the primary key it was inserted with and the latest payload. -/
structure ConflictRow where
  id : String
  payload : MemoryConflictSet
  deriving DecidableEq

/-- The key by which conflict sets are upserted: candidate and claim. -/
abbrev ConflictKey := String × String

def MemoryConflictSet.key (conflict : MemoryConflictSet) : ConflictKey := (conflict.candidateId, conflict.claimKey)

def ConflictRow.key (row : ConflictRow) : ConflictKey := row.payload.key

/-- The rows of the five tables. -/
structure Repository where
  plans : List MemoryReconciliationPlan
  results : List MemoryReconciliationResult
  relations : List MemoryRelationRecord
  conflicts : List ConflictRow
  temporal : List MemoryTemporalState

inductive ApplyException
  | raised (text : String)
  | integrity

namespace Repository

def empty : Repository := ⟨[], [], [], [], []⟩

def getPlan (r : Repository) (planId : String) : Option MemoryReconciliationPlan :=
  Keyed.lookup (·.planId) planId r.plans

def getPlanByIdempotencyKey (r : Repository) (key : String) : Option MemoryReconciliationPlan :=
  Keyed.lookup (·.idempotencyKey) key r.plans

/-- The plan that is stored under the key, which is the new one if there was none. -/
def savePlan (r : Repository) (plan : MemoryReconciliationPlan) :
    Except ApplyException (MemoryReconciliationPlan × Repository) :=
  match r.getPlanByIdempotencyKey plan.idempotencyKey with
  | some existing => .ok (existing, r)
  | none =>
    if (r.getPlan plan.planId).isSome then .error .integrity
    else .ok (plan, { r with plans := r.plans ++ [plan] })

def getResultByPlanId (r : Repository) (planId : String) : Option MemoryReconciliationResult :=
  Keyed.lookup (·.planId) planId r.results

def saveResult (r : Repository) (result : MemoryReconciliationResult) : Except ApplyException Repository :=
  if (r.getResultByPlanId result.planId).isNone ∧
      (Keyed.lookup (·.reconciliationId) result.reconciliationId r.results).isSome then .error .integrity
  else .ok { r with results := Keyed.put (·.planId) result r.results }

/-- The stored relation with the same source, target and type, or the new one. -/
def upsertRelation (r : Repository) (record : MemoryRelationRecord) :
    Except ApplyException (MemoryRelationRecord × Repository) :=
  match r.relations.find? fun stored => stored.sourceContextId = record.sourceContextId ∧
      stored.targetContextId = record.targetContextId ∧ stored.relation = record.relation with
  | some stored => .ok (stored, r)
  | none =>
    if r.relations.any fun stored => stored.relationId = record.relationId then .error .integrity
    else .ok (record, { r with relations := r.relations ++ [record] })

/-- The row with the primary key. -/
def conflictRow (r : Repository) (id : String) : Option ConflictRow := Keyed.lookup (·.id) id r.conflicts

def getConflict (r : Repository) (id : String) : Option MemoryConflictSet := (r.conflictRow id).map (·.payload)

def putConflict (r : Repository) (row : ConflictRow) : Repository :=
  { r with conflicts := Keyed.put ConflictRow.key row r.conflicts }

/-- A stored row keeps its primary key and takes the new payload. -/
def upsertConflict (r : Repository) (conflict : MemoryConflictSet) :
    Except ApplyException (MemoryConflictSet × Repository) :=
  match Keyed.lookup ConflictRow.key conflict.key r.conflicts with
  | some row => .ok (conflict, r.putConflict ⟨row.id, conflict⟩)
  | none =>
    if (r.conflictRow conflict.conflictSetId).isSome then .error .integrity
    else .ok (conflict, r.putConflict ⟨conflict.conflictSetId, conflict⟩)

def getTemporalState (r : Repository) (contextId : String) : Option MemoryTemporalState :=
  Keyed.lookup (·.contextId) contextId r.temporal

def upsertTemporalState (r : Repository) (state : MemoryTemporalState) : Repository :=
  { r with temporal := Keyed.put (·.contextId) state r.temporal }

theorem getTemporalState_upsert (r : Repository) (state : MemoryTemporalState) (contextId : String) :
    (r.upsertTemporalState state).getTemporalState contextId =
      if state.contextId = contextId then some state else r.getTemporalState contextId := Keyed.lookup_put

end Repository

/-! ## The canonical gateway and the effects -/

structure ContextCreation where
  candidate : MemoryCandidate
  lifecycleStatus : String
  supersedesContextId : Option String
  conflictSetIds : List String
  relation : Option MemoryRelationType
  relatedContextId : Option String

/-- The gateway answers from a world of its own, and may raise on every call. -/
structure CanonicalGateway (W : Type) where
  createContext : W → ContextCreation → Except String String × W
  mergeEvidence : W → String → List MemorySourceReference → Except String String × W
  supersede : W → String → String → Except String Unit × W
  verify : W → String → Except String Bool × W

inductive Effect
  | createContext (creation : ContextCreation)
  | mergeEvidence (contextId : String) (evidence : List MemorySourceReference)
  | upsertRelation (record : MemoryRelationRecord)
  | upsertConflict (conflict : MemoryConflictSet)
  | supersede (contextId replacementContextId : String)
  /-- `upsert_temporal_state` for the Context that was created. -/
  | createdState (state : MemoryTemporalState)
  /-- `upsert_temporal_state` for the Context the plan is about. -/
  | targetState (state : MemoryTemporalState)

structure Progress (W : Type) where
  world : W
  repository : Repository
  effects : List Effect
  createdContextId : Option String
  createdContextIds : List String
  updatedContextIds : List String
  supersededContextIds : List String
  createdRelationIds : List String
  createdConflictSetIds : List String
  reviewQueueItemIds : List String
  canonicalChanged : Bool
  failureCode : MemoryReconciliationFailureCode

section Phases
variable {W : Type}

abbrev ApplyPhase (W : Type) := Phase (Progress W) ApplyException

def Progress.start (world : W) (repository : Repository) : Progress W :=
  ⟨world, repository, [], none, [], [], [], [], [], [], false, .policyBlocked⟩

def Progress.note (p : Progress W) (effect : Effect) : Progress W := { p with effects := p.effects ++ [effect] }

variable (gateway : CanonicalGateway W) (platform : Platform) (plan : MemoryReconciliationPlan)
  (primary : Option MemoryRelationDecision)

/-- A phase of an action that the plan may have. -/
def whenAction (actionType : MemoryReconciliationActionType) (phase : ApplyPhase W) : ApplyPhase W := fun p =>
  if hasAction plan actionType then phase p else .ok p

def verifyContext (contextId message : String) : ApplyPhase W := fun p =>
  let (answer, world) := gateway.verify p.world contextId
  let seen := { p with world := world }
  match answer with
  | .error text => .error (.raised text, seen)
  | .ok true => .ok seen
  | .ok false => .error (.raised message, seen)

def contextCreation : ContextCreation where
  candidate := plan.candidate
  lifecycleStatus := candidateLifecycle plan
  supersedesContextId := primary.bind fun decision =>
    if decision.relation = .supersedes then some decision.existingContextId else none
  conflictSetIds := conflictIds platform.uuid5 plan primary
  relation := primary.map (·.relation)
  relatedContextId := primary.map (·.existingContextId)

def createContext : ApplyPhase W := fun p =>
  let creation := contextCreation platform plan primary
  let (answer, world) := gateway.createContext p.world creation
  let noted := { p.note (.createContext creation) with world := world, failureCode := .contextWriteFailed }
  match answer with
  | .error text => .error (.raised text, noted)
  | .ok contextId =>
    verifyContext gateway contextId "Created Context failed canonical read-back"
      { noted with
        createdContextId := some contextId
        createdContextIds := p.createdContextIds ++ [contextId]
        canonicalChanged := true
        failureCode := .readBackVerificationFailed }

def mergeEvidence : ApplyPhase W := fun p =>
  match primary with
  | none => .error (.raised "Reconciliation action requires a target Context", p)
  | some decision =>
    let (answer, world) := gateway.mergeEvidence p.world decision.existingContextId plan.candidate.sourceRefs
    let noted := { p.note (.mergeEvidence decision.existingContextId plan.candidate.sourceRefs) with
      world := world, failureCode := .contextWriteFailed }
    match answer with
    | .error text => .error (.raised text, noted)
    | .ok updated =>
      verifyContext gateway updated "Evidence merge failed canonical read-back"
        { noted with
          updatedContextIds := p.updatedContextIds ++ [updated]
          canonicalChanged := true
          failureCode := .readBackVerificationFailed }

/-- The Context the relation starts from: the created one, or the candidate as evidence. -/
def relationSource (createdContextId : Option String) : String :=
  match createdContextId with
  | some contextId => if contextId = "" then "evidence:" ++ plan.candidate.candidateId else contextId
  | none => "evidence:" ++ plan.candidate.candidateId

def relationRecord (decision : MemoryRelationDecision) (createdContextId : Option String) : MemoryRelationRecord where
  relationId := relationId platform.uuid5 (relationSource plan createdContextId) decision.existingContextId
    decision.relation
  sourceContextId := relationSource plan createdContextId
  targetContextId := decision.existingContextId
  candidateId := plan.candidate.candidateId
  relation := decision.relation
  confidence := decision.confidence
  reason := decision.reason
  decisionSource := decision.decisionSource
  policyVersion := decision.policyVersion
  evidenceRefs := decision.evidenceRefs
  claimMatches := decision.claimMatches
  scores := decision.scores

def persistPrimaryRelation : ApplyPhase W := fun p =>
  match primary with
  | none =>
    .error (.raised "Relation apply requires a primary decision", { p with failureCode := .graphWriteFailed })
  | some decision =>
    let record := relationRecord platform plan decision p.createdContextId
    let noted := { p.note (.upsertRelation record) with failureCode := .graphWriteFailed }
    match p.repository.upsertRelation record with
    | .error exc => .error (exc, noted)
    | .ok (stored, repository) =>
      .ok { noted with repository := repository, createdRelationIds := p.createdRelationIds ++ [stored.relationId] }

def openConflict (decision : MemoryRelationDecision) (createdContextId conflictSetId : String) : MemoryConflictSet where
  conflictSetId := conflictSetId
  contextIds := [createdContextId, decision.existingContextId]
  candidateId := plan.candidate.candidateId
  subjectKey := subjectKey platform.casefold plan
  claimKey := claimKey plan decision
  scope := plan.candidate.scope
  validityOverlap := decide (0 < decision.scores.temporalCompatibility)
  reason := decision.reason
  status := .opened
  resolution := none
  resolvedAt := none

/-- The conflict phase reads the plan's first conflict id before it looks at the two Contexts. -/
def persistConflict : ApplyPhase W := fun p =>
  match conflictIds platform.uuid5 plan primary, primary, p.createdContextId with
  | [], _, _ => .error (.raised "tuple index out of range", { p with failureCode := .conflictWriteFailed })
  | conflictSetId :: _, some decision, some createdContextId =>
    let conflict := openConflict platform plan decision createdContextId conflictSetId
    let noted := { p.note (.upsertConflict conflict) with failureCode := .conflictWriteFailed }
    match p.repository.upsertConflict conflict with
    | .error exc => .error (exc, noted)
    | .ok (stored, repository) =>
      .ok { noted with
        repository := repository, createdConflictSetIds := p.createdConflictSetIds ++ [stored.conflictSetId] }
  | _ :: _, _, _ =>
    .error (.raised "Conflict apply requires both Context identities", { p with failureCode := .conflictWriteFailed })

def markSuperseded : ApplyPhase W := fun p =>
  match primary with
  | none => .error (.raised "Reconciliation action requires a target Context", p)
  | some decision =>
    match p.createdContextId with
    | none => .error (.raised "Supersede apply requires a replacement Context", p)
    | some createdContextId =>
      let (answer, world) := gateway.supersede p.world decision.existingContextId createdContextId
      let noted := { p.note (.supersede decision.existingContextId createdContextId) with
        world := world, failureCode := .lifecycleUpdateFailed }
      match answer with
      | .error text => .error (.raised text, noted)
      | .ok () =>
        .ok { noted with
          supersededContextIds := p.supersededContextIds ++ [decision.existingContextId], canonicalChanged := true }

/-! ## Temporal states -/

def createdState (createdContextId : String) (conflictSetIds : List String) : MemoryTemporalState where
  contextId := createdContextId
  recordedAt := plan.candidate.recordedAt
  observedAt := plan.candidate.observedAt
  validFrom := plan.candidate.validFrom
  validTo := plan.candidate.validTo
  isCurrent := true
  conflictSetIds := conflictSetIds
  supersededBy := []
  supersedes := match primary with
    | some decision => if decision.relation = .supersedes then [decision.existingContextId] else []
    | none => []
  relationSummary := relationSummary primary

/-- The overlay of a Context that has none. -/
def defaultState (targetContextId : String) : MemoryTemporalState where
  contextId := targetContextId
  recordedAt := plan.candidate.recordedAt
  observedAt := none
  validFrom := none
  validTo := none
  isCurrent := true
  conflictSetIds := []
  supersededBy := []
  supersedes := []
  relationSummary := []

def supersededState (candidate : MemoryCandidate) (replacementId : String) (base : MemoryTemporalState) :
    MemoryTemporalState :=
  { base with
    validTo := some ((candidate.validFrom.or candidate.observedAt).getD candidate.recordedAt)
    isCurrent := false
    supersededBy := dedupe (base.supersededBy ++ [replacementId])
    relationSummary := dedupe (base.relationSummary ++ ["superseded_by:" ++ replacementId]) }

def conflictedState (conflictSetIds : List String) (createdContextId : Option String) (base : MemoryTemporalState) :
    MemoryTemporalState :=
  { base with
    conflictSetIds := dedupe (base.conflictSetIds ++ conflictSetIds)
    relationSummary := dedupe (base.relationSummary ++ ["contradicts:" ++ createdContextId.getD "None"]) }

/-- The overlay of the target after the plan, from the one it had. -/
def targetState (decision : MemoryRelationDecision) (createdContextId : Option String) (conflictSetIds : List String)
    (existing : Option MemoryTemporalState) : Except String MemoryTemporalState :=
  let base := existing.getD (defaultState plan decision.existingContextId)
  match decision.relation with
  | .supersedes =>
    match createdContextId with
    | none => .error "Reconciliation action requires a created Context"
    | some replacementId => .ok (supersededState plan.candidate replacementId base)
  | .contradicts => .ok (conflictedState conflictSetIds createdContextId base)
  | _ => .ok base

def writeCreatedState : ApplyPhase W := fun p =>
  match p.createdContextId with
  | none => .ok { p with failureCode := .lifecycleUpdateFailed }
  | some createdContextId =>
    let state := createdState plan primary createdContextId (conflictIds platform.uuid5 plan primary)
    .ok { p.note (.createdState state) with
      repository := p.repository.upsertTemporalState state, failureCode := .lifecycleUpdateFailed }

def writeTargetState : ApplyPhase W := fun p =>
  match primary with
  | none => .ok p
  | some decision =>
    match targetState plan decision p.createdContextId (conflictIds platform.uuid5 plan primary)
        (p.repository.getTemporalState decision.existingContextId) with
    | .error text => .error (.raised text, p)
    | .ok state => .ok { p.note (.targetState state) with repository := p.repository.upsertTemporalState state }

theorem writeCreatedState_eq {p : Progress W} {createdContextId : String} (h : p.createdContextId = some createdContextId) :
    writeCreatedState platform plan primary p = .ok { p.note (.createdState (createdState plan primary createdContextId
        (conflictIds platform.uuid5 plan primary))) with
      repository := p.repository.upsertTemporalState (createdState plan primary createdContextId
        (conflictIds platform.uuid5 plan primary))
      failureCode := .lifecycleUpdateFailed } := by
  unfold writeCreatedState
  rw [h]

theorem writeTargetState_eq {p : Progress W} {decision : MemoryRelationDecision} {state : MemoryTemporalState}
    (h : targetState plan decision p.createdContextId (conflictIds platform.uuid5 plan (some decision))
      (p.repository.getTemporalState decision.existingContextId) = .ok state) :
    writeTargetState platform plan (some decision) p =
      .ok { p.note (.targetState state) with repository := p.repository.upsertTemporalState state } := by
  unfold writeTargetState
  simp only [h]

def persistTemporalStates : ApplyPhase W :=
  (writeCreatedState platform plan primary).andThen (writeTargetState platform plan primary)

def queueReview : ApplyPhase W := fun p =>
  .ok { p with reviewQueueItemIds := p.reviewQueueItemIds ++ [reviewItemId plan.planId] }

/-- The phases in the order of the source; the temporal states are written for every plan. -/
def applyPhases : List (ApplyPhase W) :=
  [whenAction plan .createContext (createContext gateway platform plan primary),
    whenAction plan .mergeEvidence (mergeEvidence gateway plan primary),
    whenAction plan .createRelation (persistPrimaryRelation platform plan primary),
    whenAction plan .createConflictSet (persistConflict platform plan primary),
    whenAction plan .markSuperseded (markSuperseded gateway primary),
    persistTemporalStates platform plan primary,
    whenAction plan .queueReview (queueReview plan)]

/-! ## Results -/

def successfulResult (reviewedBy : Option String) (p : Progress W) : MemoryReconciliationResult where
  reconciliationId := resultId platform.uuid5 plan.planId
  planId := plan.planId
  status := .applied
  createdContextIds := p.createdContextIds
  updatedContextIds := dedupe p.updatedContextIds
  supersededContextIds := p.supersededContextIds
  createdRelationIds := p.createdRelationIds
  createdConflictSetIds := p.createdConflictSetIds
  mergedEvidence := if hasAction plan .mergeEvidence then plan.candidate.sourceRefs else []
  reviewQueueItemIds := p.reviewQueueItemIds
  warnings := plan.warnings
  failureCode := none
  reviewedBy := reviewedBy

def failureStatus (p : Progress W) : MemoryReconciliationStatus :=
  if p.canonicalChanged || !p.createdRelationIds.isEmpty || !p.createdConflictSetIds.isEmpty then .partialApply
  else .failed

def failedResult (reviewedBy : Option String) (text : String) (p : Progress W) : MemoryReconciliationResult where
  reconciliationId := resultId platform.uuid5 plan.planId
  planId := plan.planId
  status := failureStatus p
  createdContextIds := p.createdContextIds
  updatedContextIds := dedupe p.updatedContextIds
  supersededContextIds := p.supersededContextIds
  createdRelationIds := p.createdRelationIds
  createdConflictSetIds := p.createdConflictSetIds
  mergedEvidence := []
  reviewQueueItemIds := p.reviewQueueItemIds
  warnings := plan.warnings ++ [p.failureCode.value ++ ": " ++ text]
  failureCode := some (if failureStatus p = .partialApply then .partialApply else p.failureCode)
  reviewedBy := reviewedBy

/-! ## The service -/

inductive ApplyResponse
  | returned (result : MemoryReconciliationResult)
  | raised

structure ApplyOutcome (W : Type) where
  response : ApplyResponse
  world : W
  repository : Repository
  effects : List Effect

/-- Save the result; when the session refuses, the request is rolled back to the repository it started from. -/
def finish (repository : Repository) (result : MemoryReconciliationResult) (p : Progress W) : ApplyOutcome W :=
  match p.repository.saveResult result with
  | .ok saved => ⟨.returned result, p.world, saved, p.effects⟩
  | .error _ => ⟨.raised, p.world, repository, p.effects⟩

def applyPlan (reviewedBy : Option String) (world : W) (repository : Repository) : ApplyOutcome W :=
  let phases := Phase.sequence (applyPhases gateway platform plan (primaryDecision plan))
  match phases.run (Progress.start world repository) with
  | (p, none) => finish repository (successfulResult platform plan reviewedBy p) p
  | (p, some (.raised text)) => finish repository (failedResult platform plan reviewedBy text p) p
  -- a failed flush leaves a session that refuses `save_result` too
  | (p, some .integrity) => ⟨.raised, p.world, repository, p.effects⟩

structure ApplyRequest where
  planId : String
  retryFailed : Bool
  reviewApproved : Bool
  reviewer : Option String

/-- The reviewer of a plan that needs one, `none` inside if it needs none; an outer `none` is a refusal. -/
def validatedReviewer (request : ApplyRequest) : Option (Option String) :=
  if plan.requiresReview = false then some none
  else if request.reviewApproved = false then none
  else
    let normalized := match request.reviewer with
      | none => ""
      | some reviewer => pythonStrip reviewer
    if normalized = "" ∨ 255 < normalized.length then none else some (some normalized)

/-- The stored result is returned again: it is final, or no retry was asked for. -/
def reusedResult (repository : Repository) (request : ApplyRequest) : Option MemoryReconciliationResult :=
  (repository.getResultByPlanId request.planId).filter fun existing =>
    existing.status = .applied || !request.retryFailed

def apply (request : ApplyRequest) (world : W) (repository : Repository) : ApplyOutcome W :=
  match repository.getPlan request.planId with
  | none => ⟨.raised, world, repository, []⟩
  | some plan =>
    match reusedResult repository request with
    | some existing => ⟨.returned existing, world, repository, []⟩
    | none =>
      match validatedReviewer plan request with
      | none => ⟨.raised, world, repository, []⟩
      | some reviewedBy => applyPlan gateway platform plan reviewedBy world repository

end Phases

end Alexandria.Reconciliation
