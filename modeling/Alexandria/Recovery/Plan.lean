import Mathlib.Data.List.Basic

/-! # Planning a recovery run

`recovery_plan_policy.py` and `RecoveryPlanService.plan`. A plan is made from the readiness snapshot and the source
snapshot of the moment. The hash, the name-based uuid and the database kind are an environment.
-/

namespace Alexandria.Recovery
set_option autoImplicit false

structure RecoveryEnvironment where
  sha256 : String → String
  uuid5 : String → String
  isPostgresql : Bool

inductive OperationalReadinessStatus
  | unknown
  | ready
  | degradedFtsOnly
  | degradedRuntimeDrift
  | degradedRetrievalCanary
  | degradedProjectionIntegrity
  | recoveryRequired
  | recovering
  | verifying
  | blocked
  | failed
deriving DecidableEq

structure OperationalReadinessSnapshot where
  status : OperationalReadinessStatus
  databaseReachable : Bool
  vaultExists : Bool
  alexandriaRootExists : Bool
  warnings : List String

structure RecoverySourceSnapshot where
  managedMarkdownCount : ℕ
  representativePath : Option String
  representativeSha256 : Option String
  accessError : Option String
  markdownManifest : List (String × String)

structure RecoveryPlanRequest where
  trigger : String
  actor : String
  idempotencyKey : Option String
  parentRunId : Option String

structure RecoveryPlanStep where
  code : String
  title : String
  mutatesState : Bool
deriving DecidableEq

structure RecoveryPlan where
  id : String
  parentRunId : Option String
  idempotencyKey : String
  trigger : String
  actor : String
  status : OperationalReadinessStatus
  automaticExecutionAllowed : Bool
  diagnosis : List String
  blockedReasons : List String
  sourceSnapshot : RecoverySourceSnapshot
  steps : List RecoveryPlanStep
  nextActions : List String

/-! ## Policy -/

def defaultIdempotencyKey (env : RecoveryEnvironment) (trigger actor : String) : String :=
  String.ofList ((env.sha256 ("postgresql:" ++ trigger ++ ":" ++ actor)).toList.take 24)

def blockedReasons (readiness : OperationalReadinessSnapshot) (source : RecoverySourceSnapshot) : List String :=
  (if readiness.databaseReachable then [] else ["postgresql_server_recovery_required"]) ++
    source.accessError.toList ++
    (if readiness.vaultExists then [] else ["vault_not_found"]) ++
    (if readiness.alexandriaRootExists then [] else ["alexandria_root_not_found"]) ++
    (if source.managedMarkdownCount = 0 then ["managed_markdown_not_found"] else [])

def planStatus (readiness : OperationalReadinessSnapshot) (reasons : List String) : OperationalReadinessStatus :=
  if reasons.isEmpty then readiness.status else .blocked

def diagnosis (readiness : OperationalReadinessSnapshot) : List String :=
  if readiness.databaseReachable then readiness.warnings else ["POSTGRESQL_DATABASE_UNREACHABLE"]

/-- Whether a text starts with another one. -/
def startsWith (text start : String) : Bool := start.toList.isPrefixOf text.toList

def reconciliationOnlyIssue (warnings : List String) : Bool :=
  !warnings.isEmpty && warnings.all fun warning => startsWith warning "memory_reconciliation_"

/-- Whether one of the names is in the list; Python's `names & set(list)`. -/
def anyOf (names warnings : List String) : Bool := names.any warnings.contains

def snapshotStep : RecoveryPlanStep := ⟨"snapshot_sources", "Snapshot source vault metadata", false⟩

def vaultStep : RecoveryPlanStep := ⟨"reindex_vault", "Rebuild Obsidian and lexical indexes", true⟩

def embeddingsStep : RecoveryPlanStep := ⟨"reindex_embeddings", "Rebuild retrieval embeddings", true⟩

def verifyStep : RecoveryPlanStep := ⟨"verify_readiness", "Verify operational readiness", false⟩

/-- The rebuilds that the warnings ask for. -/
def repairSteps (warnings : List String) : List RecoveryPlanStep :=
  (if anyOf ["obsidian_stale_notes_present", "obsidian_error_notes_present", "rag_fts_not_healthy"] warnings then
    [vaultStep] else []) ++
  (if anyOf ["rag_vector_not_healthy", "rag_embedding_reindex_required", "rag_embedding_not_healthy",
      "rag_default_strategy_not_hybrid", "rag_status_warnings_present"] warnings then
    [embeddingsStep] else [])

/-- `_steps`. -/
def planSteps (readiness : OperationalReadinessSnapshot) : List RecoveryPlanStep :=
  if reconciliationOnlyIssue readiness.warnings then
    [⟨"inspect_memory_reconciliation", "Inspect reconciliation diagnostics without rebuilding storage", false⟩]
  else if !readiness.databaseReachable then
    [⟨"inspect_postgresql_backup_restore", "Inspect PostgreSQL server backup and restore state", false⟩]
  else
    let steps := snapshotStep :: repairSteps readiness.warnings
    if 1 < steps.length then steps ++ [verifyStep] else steps

def reconciliationActions (warnings : List String) : List String :=
  (if warnings.contains "memory_reconciliation_repository_unreachable" then
    ["inspect_memory_reconciliation_repository"] else []) ++
  (if anyOf ["memory_reconciliation_partial_apply_present", "memory_reconciliation_failed_results_present"] warnings then
    ["inspect_memory_reconciliation_failures"] else []) ++
  (if warnings.contains "memory_reconciliation_hard_delete_detected" then
    ["audit_memory_reconciliation_integrity"] else []) ++
  (if warnings.contains "memory_reconciliation_temporal_backfill_required" then
    ["preview_existing_memory_reconciliation"] else []) ++
  (if anyOf ["memory_reconciliation_review_required", "memory_reconciliation_open_conflicts",
      "memory_reconciliation_reviews_in_progress"] warnings then
    ["review_memory_reconciliation"] else [])

def planNextActions (status : OperationalReadinessStatus) (reasons warnings : List String) : List String :=
  if !reasons.isEmpty then
    if reasons.contains "postgresql_server_recovery_required" then ["restore_postgresql_from_backup"]
    else if anyOf ["vault_not_found", "alexandria_root_not_found", "managed_markdown_not_found",
        "source_snapshot_unreadable"] reasons then ["inspect_vault_configuration"]
    else ["resolve_recovery_blockers"]
  else if anyOf ["database_unreachable", "database_integrity_not_healthy"] warnings then ["inspect_database"]
  else if anyOf ["vault_not_found", "alexandria_root_not_found", "obsidian_stale_notes_present",
      "obsidian_error_notes_present"] warnings then ["inspect_vault_configuration"]
  else if !(reconciliationActions warnings).isEmpty then reconciliationActions warnings
  else if status = .recoveryRequired then ["start_recovery_run"]
  else ["no_recovery_required"]

/-! ## Plans -/

def runId (env : RecoveryEnvironment) (idempotencyKey : String) : String :=
  env.uuid5 ("heterarchy-alexandria:recovery:postgresql:" ++ idempotencyKey)

/-- `request.idempotency_key or _default_idempotency_key(..)`. -/
def requestKey (env : RecoveryEnvironment) (request : RecoveryPlanRequest) : String :=
  match request.idempotencyKey with
  | some key => if key.isEmpty then defaultIdempotencyKey env request.trigger request.actor else key
  | none => defaultIdempotencyKey env request.trigger request.actor

/-- `RecoveryPlanService.plan` on the snapshots of the moment. -/
def plan (env : RecoveryEnvironment) (request : RecoveryPlanRequest) (readiness : OperationalReadinessSnapshot)
    (source : RecoverySourceSnapshot) : RecoveryPlan :=
  let key := requestKey env request
  let reasons := blockedReasons readiness source
  let steps := planSteps readiness
  let allowed := env.isPostgresql && readiness.databaseReachable && steps.any (·.mutatesState) && reasons.isEmpty
  let status := if allowed then .recoveryRequired else planStatus readiness reasons
  { id := runId env key, parentRunId := request.parentRunId, idempotencyKey := key, trigger := request.trigger,
    actor := request.actor, status := status, automaticExecutionAllowed := allowed,
    diagnosis := diagnosis readiness, blockedReasons := reasons, sourceSnapshot := source, steps := steps,
    nextActions := planNextActions status reasons readiness.warnings }

theorem repairSteps_mutate {warnings : List String} {step : RecoveryPlanStep} (h : step ∈ repairSteps warnings) :
    step = vaultStep ∨ step = embeddingsStep := by
  unfold repairSteps at h
  simp only [List.mem_append] at h
  obtain h | h := h
  · split at h <;> simp_all
  · split at h <;> simp_all

/-- A plan that may be executed snapshots the sources, rebuilds something, and verifies at the end. -/
theorem allowed_steps {env : RecoveryEnvironment} {request : RecoveryPlanRequest} {readiness : OperationalReadinessSnapshot}
    {source : RecoverySourceSnapshot} (h : (plan env request readiness source).automaticExecutionAllowed = true) :
    (plan env request readiness source).steps = snapshotStep :: repairSteps readiness.warnings ++ [verifyStep] := by
  simp only [plan, Bool.and_eq_true] at h ⊢
  obtain ⟨⟨-, hmutates⟩, -⟩ := h
  unfold planSteps at hmutates ⊢
  split
  · rename_i hreconciliation
    simp [hreconciliation] at hmutates
  · rename_i hreconciliation
    split
    · rename_i hunreachable
      simp [hreconciliation, hunreachable] at hmutates
    · rename_i hreachable
      simp only [hreconciliation, hreachable, if_false, Bool.false_eq_true] at hmutates
      cases hrepair : repairSteps readiness.warnings with
      | nil => simp [hrepair, snapshotStep] at hmutates
      | cons step rest => simp

end Alexandria.Recovery
