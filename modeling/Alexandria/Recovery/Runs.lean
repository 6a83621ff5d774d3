import Alexandria.Foundations.Keyed
import Alexandria.Foundations.Run
import Alexandria.Recovery.Plan
import Mathlib.Logic.Function.Basic

/-! # Starting and retrying recovery runs

`RecoveryRunService.start` and `retry` with the step execution and retry policies, one call after the other, so that
no call finds the active lock of another. The manifests are a function from the run id; what a step callback returns
or raises is an input. `log` records the callbacks that were called.
-/

namespace Alexandria.Recovery
set_option autoImplicit false

inductive RecoveryRunStatus
  | planned
  | running
  | completed
  | blocked
  | failed
deriving DecidableEq

inductive RecoveryStepStatus
  | pending
  | running
  | succeeded
  | skipped
  | blocked
  | failed
deriving DecidableEq

def RecoveryStepStatus.value : RecoveryStepStatus → String
  | .pending => "PENDING"
  | .running => "RUNNING"
  | .succeeded => "SUCCEEDED"
  | .skipped => "SKIPPED"
  | .blocked => "BLOCKED"
  | .failed => "FAILED"

inductive JSONValue
  | null
  | bool (value : Bool)
  | number (value : ℤ)
  | text (value : String)
  | texts (values : List String)
deriving DecidableEq

/-- A dictionary in insertion order; the values of nested dictionaries are of no interest to a run. -/
abbrev JSONObject := List (String × JSONValue)

def JSONObject.get (object : JSONObject) (key : String) : Option JSONValue :=
  (Keyed.lookup Prod.fst key object).map Prod.snd

structure RecoveryRunStepResult where
  code : String
  status : RecoveryStepStatus
  attempts : ℕ
  inputHash : String
  result : JSONObject
deriving DecidableEq

structure RecoveryRun where
  id : String
  parentRunId : Option String
  idempotencyKey : String
  trigger : String
  actor : String
  status : RecoveryRunStatus
  currentStep : Option String
  sourceSnapshot : RecoverySourceSnapshot
  diagnosis : List String
  plannedSteps : List RecoveryPlanStep
  stepResults : List RecoveryRunStepResult
  rebuildResults : List (String × JSONObject)
  verificationResults : JSONObject
  errorCode : Option String
  errorSummary : Option String
  nextActions : List String

structure RecoveryStepFailedError where
  errorCode : String
  errorSummary : String
deriving DecidableEq

/-- What the callbacks of the steps return or raise. -/
structure StepCallbacks where
  reindexVault : Except String JSONObject
  reindexEmbeddings : Except String JSONObject
  verifyReadiness : Except String JSONObject

/-- A callback that was called for a run. -/
structure StepExecution where
  runId : String
  code : String
  outcome : Except String JSONObject

/-! ## Steps -/

def stepInputHash (env : RecoveryEnvironment) (code : String) : String :=
  env.sha256 ("\x7b\n  \"code\": \"" ++ code ++ "\",\n  \"input\": \x7b\x7d\n\x7d")

/-- `_successful_parent_steps`; of several results with a key the last one is kept. -/
def successfulParentSteps (parentRun : Option RecoveryRun) : List RecoveryRunStepResult :=
  match parentRun with
  | none => []
  | some run => run.stepResults.filter fun step => step.status == .succeeded && !step.inputHash.isEmpty

/-- The parent's result that stands for a step. -/
def parentStep (env : RecoveryEnvironment) (parentRun : Option RecoveryRun) (code : String) :
    Option RecoveryRunStepResult :=
  (successfulParentSteps parentRun).reverse.find? fun step => step.code == code && step.inputHash == stepInputHash env code

def skippedStep (env : RecoveryEnvironment) (parent : RecoveryRun) (code : String) (step : RecoveryRunStepResult) :
    RecoveryRunStepResult where
  code := code
  status := .skipped
  attempts := 0
  inputHash := stepInputHash env code
  result := Keyed.put Prod.fst ("skipped_parent_step_status", .text step.status.value)
    (Keyed.put Prod.fst ("skipped_from_parent_run_id", .text parent.id) step.result)

/-- `_execute_step`. -/
def executedStep (env : RecoveryEnvironment) (code : String) (outcome : Except String JSONObject) :
    RecoveryRunStepResult :=
  match outcome with
  | .ok result => ⟨code, .succeeded, 1, stepInputHash env code, result⟩
  | .error text => ⟨code, .failed, 1, stepInputHash env code, [("error", .text text)]⟩

/-- `_execute_or_skip_step`, and the callback it has called. -/
def executeOrSkipStep (env : RecoveryEnvironment) (parentRun : Option RecoveryRun) (runId code : String)
    (outcome : Except String JSONObject) : RecoveryRunStepResult × List StepExecution :=
  match parentRun, parentStep env parentRun code with
  | some parent, some step => (skippedStep env parent code step, [])
  | _, _ => (executedStep env code outcome, [⟨runId, code, outcome⟩])

def requireStepSuccess (step : RecoveryRunStepResult) (errorCode : String) : Option RecoveryStepFailedError :=
  if step.status = .succeeded ∨ step.status = .skipped then none
  else some ⟨errorCode, step.code ++ " failed"⟩

def requireEmptyResultList (step : RecoveryRunStepResult) (key errorCode : String) : Option RecoveryStepFailedError :=
  match step.result.get key with
  | some (.texts (first :: rest)) =>
    some ⟨errorCode, step.code ++ " reported " ++ key ++ ": " ++ ", ".intercalate (first :: rest)⟩
  | _ => none

def snapshotSources (source : RecoverySourceSnapshot) : JSONObject :=
  [("managed_markdown_count", .number source.managedMarkdownCount),
   ("representative_path", source.representativePath.elim .null .text),
   ("representative_sha256", source.representativeSha256.elim .null .text),
   ("markdown_manifest_count", .number source.markdownManifest.length)]

/-- What the step loop has gathered. -/
structure Progress where
  currentStep : Option String
  stepResults : List RecoveryRunStepResult
  rebuildResults : List (String × JSONObject)
  verificationResults : JSONObject
  log : List StepExecution

/-- One round of the step loop, and the error that ends it. -/
def runStep (env : RecoveryEnvironment) (plan : RecoveryPlan) (parentRun : Option RecoveryRun) (callbacks : StepCallbacks)
    (p : Progress) (planned : RecoveryPlanStep) : Progress × Option RecoveryStepFailedError :=
  let execute := executeOrSkipStep env parentRun plan.id planned.code
  if planned.code = "snapshot_sources" then
    let (result, called) := execute (.ok (snapshotSources plan.sourceSnapshot))
    ({ p with
        currentStep := some planned.code
        stepResults := p.stepResults ++ [result]
        log := p.log ++ called }, none)
  else if planned.code = "reindex_vault" then
    let (result, called) := execute callbacks.reindexVault
    let rebuilt := { p with
      currentStep := some planned.code
      rebuildResults := Keyed.put Prod.fst ("vault", result.result) p.rebuildResults
      log := p.log ++ called }
    match (requireStepSuccess result "VAULT_REINDEX_FAILED").or
        (requireEmptyResultList result "errors" "VAULT_REINDEX_FAILED") with
    | some error => (rebuilt, some error)
    | none => ({ rebuilt with stepResults := p.stepResults ++ [result] }, none)
  else if planned.code = "reindex_embeddings" then
    let (result, called) := execute callbacks.reindexEmbeddings
    let rebuilt := { p with
      currentStep := some planned.code
      rebuildResults := Keyed.put Prod.fst ("embeddings", result.result) p.rebuildResults
      log := p.log ++ called }
    match (requireStepSuccess result "EMBEDDING_REINDEX_FAILED").or
        (requireEmptyResultList result "warnings" "EMBEDDING_REINDEX_REQUIRED") with
    | some error => (rebuilt, some error)
    | none => ({ rebuilt with stepResults := p.stepResults ++ [result] }, none)
  else if planned.code = "verify_readiness" then
    let (result, called) := execute callbacks.verifyReadiness
    let verified := { p with
      currentStep := some planned.code
      verificationResults := result.result
      log := p.log ++ called }
    if result.result.get "ready" = some (.bool true) then
      ({ verified with stepResults := p.stepResults ++ [result] }, none)
    else (verified, some ⟨"READINESS_VERIFICATION_FAILED", "Operational readiness did not become READY."⟩)
  else
    ({ p with currentStep := some planned.code },
      some ⟨"UNSUPPORTED_RECOVERY_STEP", "Unsupported recovery step: " ++ planned.code⟩)

def runSteps (env : RecoveryEnvironment) (plan : RecoveryPlan) (parentRun : Option RecoveryRun) (callbacks : StepCallbacks)
    (p : Progress) : List RecoveryPlanStep → Progress × Option RecoveryStepFailedError
  | [] => (p, none)
  | planned :: rest =>
    match runStep env plan parentRun callbacks p planned with
    | (p, some error) => (p, some error)
    | (p, none) => runSteps env plan parentRun callbacks p rest

/-! ## Runs -/

def blockedRun (plan : RecoveryPlan) : RecoveryRun where
  id := plan.id
  parentRunId := plan.parentRunId
  idempotencyKey := plan.idempotencyKey
  trigger := plan.trigger
  actor := plan.actor
  status := .blocked
  currentStep := none
  sourceSnapshot := plan.sourceSnapshot
  diagnosis := plan.diagnosis
  plannedSteps := plan.steps
  stepResults := []
  rebuildResults := []
  verificationResults := []
  errorCode := some "RECOVERY_PLAN_BLOCKED"
  errorSummary := some (", ".intercalate plan.blockedReasons)
  nextActions := plan.nextActions

def finishedRun (plan : RecoveryPlan) (p : Progress) (error : Option RecoveryStepFailedError) : RecoveryRun where
  id := plan.id
  parentRunId := plan.parentRunId
  idempotencyKey := plan.idempotencyKey
  trigger := plan.trigger
  actor := plan.actor
  status := if error.isNone then .completed else .failed
  currentStep := p.currentStep
  sourceSnapshot := plan.sourceSnapshot
  diagnosis := plan.diagnosis
  plannedSteps := plan.steps
  stepResults := p.stepResults
  rebuildResults := p.rebuildResults
  verificationResults := p.verificationResults
  errorCode := error.map (·.errorCode)
  errorSummary := error.map (·.errorSummary)
  nextActions := if error.isNone then [] else ["inspect_recovery_run"]

structure RecoveryStore where
  runs : String → Option RecoveryRun
  log : List StepExecution

def RecoveryStore.empty : RecoveryStore := ⟨fun _ => none, []⟩

/-- What a call meets: the snapshots its plan is made from and the outcomes of its callbacks. -/
structure Circumstances where
  readiness : OperationalReadinessSnapshot
  source : RecoverySourceSnapshot
  callbacks : StepCallbacks

def parentRunForRetry (s : RecoveryStore) (parentRunId : Option String) : Option RecoveryRun := parentRunId.bind s.runs

def start (env : RecoveryEnvironment) (s : RecoveryStore) (request : RecoveryPlanRequest) (c : Circumstances) :
    RecoveryStore × RecoveryRun :=
  let plan := plan env request c.readiness c.source
  match s.runs plan.id with
  | some run => (s, run)
  | none =>
    if !plan.automaticExecutionAllowed then
      ({ s with runs := Function.update s.runs plan.id (some (blockedRun plan)) }, blockedRun plan)
    else
      let parentRun := parentRunForRetry s request.parentRunId
      let (p, error) := runSteps env plan parentRun c.callbacks ⟨none, [], [], [], []⟩ plan.steps
      let run := finishedRun plan p error
      (⟨Function.update s.runs plan.id (some run), s.log ++ p.log⟩, run)

def defaultRetryIdempotencyKey (parentRunId : String) : String := "retry:" ++ parentRunId

/-- The start request that a retry makes. -/
def retryRequest (parentRunId : String) (request : RecoveryPlanRequest) : RecoveryPlanRequest :=
  let key := match request.idempotencyKey with
    | some key => if key.isEmpty then defaultRetryIdempotencyKey parentRunId else key
    | none => defaultRetryIdempotencyKey parentRunId
  ⟨request.trigger, request.actor, some key, some parentRunId⟩

def retry (env : RecoveryEnvironment) (s : RecoveryStore) (parentRunId : String) (request : RecoveryPlanRequest)
    (c : Circumstances) : RecoveryStore × Option RecoveryRun :=
  match s.runs parentRunId with
  | none => (s, none)
  | some _ =>
    let (after, run) := start env s (retryRequest parentRunId request) c
    (after, some run)

/-! ## Sequences of calls -/

/-- A start names no parent; a retry names one. -/
inductive RecoveryCall
  | start (trigger actor : String) (idempotencyKey : Option String) (c : Circumstances)
  | retry (parentRunId : String) (request : RecoveryPlanRequest) (c : Circumstances)

def recoveryStep (env : RecoveryEnvironment) (s : RecoveryStore) : RecoveryCall → Option RecoveryStore
  | .start trigger actor idempotencyKey c => some (start env s ⟨trigger, actor, idempotencyKey, none⟩ c).1
  | .retry parentRunId request c => some (retry env s parentRunId request c).1

/-! ## A deployment with one note -/

def demoEnvironment : RecoveryEnvironment := ⟨fun text => text, fun text => text, true⟩

def demoCircumstances (warning : String) : Circumstances where
  readiness := ⟨.recoveryRequired, true, true, true, [warning]⟩
  source := ⟨1, some "Notes/a.md", some "0", none, [("Notes/a.md", "1:1")]⟩
  callbacks := ⟨.ok [("errors", .texts [])], .ok [("warnings", .texts [])], .ok [("ready", .bool true)]⟩

end Alexandria.Recovery
