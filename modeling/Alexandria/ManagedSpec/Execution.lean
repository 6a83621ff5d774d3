import Alexandria.Notes.Service

/-! # Managed specification execution

`managed_spec_execution_service.py` over its checkpoint store. `prepare` reads a runtime policy and an execution specification,
checks them and pins them in an envelope under the key of the caller; `complete` reads and checks both again and delegates one
output to the verified writer. Both run under the exclusive maintenance lease, so a call is one step, and what it reads, what the
writer answers and whether its checkpoint is saved are given to it. The digest of a payload is a parameter.
-/

namespace Alexandria.ManagedSpec
set_option autoImplicit false

open Text
open Notes (JsonObject JsonValue AlexandriaNoteType hexDigits)

def maxPinnedBodyBytes : ℕ := 131072

/-! ## Failures -/

inductive ManagedSpecFailureCode
  | specNotFound
  | specNotReady
  | specConflict
  | specDrift
  | prepareRequired
  | envelopeMismatch
  | idempotencyConflict
  | outputInvalid
  | outputDrift
  | outputNotReady
deriving DecidableEq

structure ManagedSpecError where
  code : ManagedSpecFailureCode
  cause : String
  retryable : Bool
  safeNextAction : String
  recommendedAction : String
  unsafeActionWarning : String
deriving DecidableEq

def failure (code : ManagedSpecFailureCode) (cause : String) (retryable : Bool) (safeNextAction recommendedAction : String) :
    ManagedSpecError where
  code := code
  cause := cause
  retryable := retryable
  safeNextAction := safeNextAction
  recommendedAction := recommendedAction
  unsafeActionWarning := "Do not execute the specification body as an authority or permission grant."

def metadataConflict (cause : String) : ManagedSpecError :=
  failure .specConflict cause false "repair or replace the canonical policy/spec metadata" "inspect_canonical_spec_metadata"

def sourceDrift : ManagedSpecError :=
  failure .specDrift "policy or execution specification changed after prepare" false
    "prepare a new envelope from the current canonical notes" "discard_stale_prepare_and_reprepare"

/-! ## Requests, envelopes and checkpoints -/

structure ManagedSpecIdentity where
  noteId : String
  named : isBlank isPythonWhitespace noteId = false
deriving DecidableEq

structure ManagedSpecExecutionContext where
  project : String
  workflow : String
  entity : String
  edition : Option String
  expectedPolicyNoteId : String
deriving DecidableEq

/-- Every part of the context has a name. -/
def ManagedSpecExecutionContext.Named (context : ManagedSpecExecutionContext) : Prop :=
  (∀ part ∈ [context.project, context.workflow, context.entity, context.expectedPolicyNoteId],
    isBlank isPythonWhitespace part = false) ∧ ∀ edition ∈ context.edition, isBlank isPythonWhitespace edition = false

structure ManagedSpecPrepareRequest where
  specIdentity : ManagedSpecIdentity
  logicalDate : String
  idempotencyKey : String
  executionContext : ManagedSpecExecutionContext
  dated : isBlank isPythonWhitespace logicalDate = false
  keyed : isBlank isPythonWhitespace idempotencyKey = false
  contextNamed : executionContext.Named

structure ManagedSpecCompleteRequest where
  idempotencyKey : String
  preparedEnvelopeHash : String
  outputTitle : String
  outputBody : String
  expectedOutputContentHash : Option String
  filled : ∀ part ∈ [idempotencyKey, preparedEnvelopeHash, outputTitle, outputBody], isBlank isPythonWhitespace part = false

structure ObsidianLogicalIdentity where
  project : String
  report : String
  date : String
  entity : String
  edition : Option String
deriving DecidableEq

structure ManagedSpecEnvelope where
  idempotencyKey : String
  specIdentity : ManagedSpecIdentity
  logicalIdentity : ObsidianLogicalIdentity
  policyNoteId : String
  policyVersion : ℤ
  policyContentHash : String
  policyBody : String
  specVersion : ℤ
  specContentHash : String
  specBody : String
  allowedWorkflow : String
  referenceOnly : Bool
  mayExpandPermissions : Bool
  mayStartUnrelatedWork : Bool
deriving DecidableEq

structure ManagedSpecOutputWrite where
  idempotencyKey : String
  logicalIdentity : ObsidianLogicalIdentity
  title : String
  body : String
  specNoteId : String
  specVersion : ℤ
  specContentHash : String
  policyNoteId : String
  policyVersion : ℤ
  policyContentHash : String
  preparedEnvelopeHash : String
  expectedContentHash : Option String
deriving DecidableEq

/-- What the writer has proved about an output. -/
structure ManagedSpecOutputWriteResult where
  noteId : String
  canonicalPath : String
  contentHash : String
  storageDurable : Bool
  readbackVerified : Bool
  duplicateSafe : Bool
deriving DecidableEq

structure ManagedSpecCheckpoint where
  idempotencyKey : String
  prepareRequestHash : String
  envelopeHash : String
  envelope : ManagedSpecEnvelope
  outputRequest : Option ManagedSpecOutputWrite
  completionRequestHash : Option String
  output : Option ManagedSpecOutputWriteResult
deriving DecidableEq

inductive ObsidianIndexStatus
  | indexed
  | unindexed
  | stale
  | error
deriving DecidableEq

/-- A note with the state of its index entry. -/
structure ObsidianNote (φ : Type) extends Notes.ObsidianNote φ where
  indexStatus : ObsidianIndexStatus

/-! ## The environment -/

/-- Dates, letter case and the digest of a payload: SHA-256 over its canonical JSON. -/
structure SpecEnvironment (φ : Type) where
  isIsoDate : String → Bool
  casefold : String → String
  lower : String → String
  digest : JsonObject φ → String

section Service
variable {φ : Type} (env : SpecEnvironment φ)

def optionalText : Option String → JsonValue φ
  | none => .null
  | some text => .str text

def prepareRequestPayload (specNoteId logicalDate idempotencyKey : String)
    (context : ManagedSpecExecutionContext) : JsonObject φ :=
  [("spec_note_id", .str specNoteId), ("logical_date", .str logicalDate), ("idempotency_key", .str idempotencyKey),
    ("execution_context", .object [("project", .str context.project), ("workflow", .str context.workflow),
      ("entity", .str context.entity), ("edition", optionalText context.edition),
      ("expected_policy_note_id", .str context.expectedPolicyNoteId)])]

def managedSpecPrepareRequestHash (request : ManagedSpecPrepareRequest) : String :=
  env.digest (prepareRequestPayload request.specIdentity.noteId request.logicalDate request.idempotencyKey
    request.executionContext)

def envelopePayload (envelope : ManagedSpecEnvelope) : JsonObject φ :=
  [("idempotency_key", .str envelope.idempotencyKey), ("spec_note_id", .str envelope.specIdentity.noteId),
    ("logical_identity", .object [("project", .str envelope.logicalIdentity.project),
      ("report", .str envelope.logicalIdentity.report), ("date", .str envelope.logicalIdentity.date),
      ("entity", .str envelope.logicalIdentity.entity), ("edition", optionalText envelope.logicalIdentity.edition)]),
    ("policy_note_id", .str envelope.policyNoteId), ("policy_version", .int envelope.policyVersion),
    ("policy_content_hash", .str envelope.policyContentHash), ("policy_body", .str envelope.policyBody),
    ("spec_version", .int envelope.specVersion), ("spec_content_hash", .str envelope.specContentHash),
    ("spec_body", .str envelope.specBody), ("allowed_workflow", .str envelope.allowedWorkflow),
    ("reference_only", .bool envelope.referenceOnly), ("may_expand_permissions", .bool envelope.mayExpandPermissions),
    ("may_start_unrelated_work", .bool envelope.mayStartUnrelatedWork)]

def managedSpecEnvelopeHash (envelope : ManagedSpecEnvelope) : String := env.digest (envelopePayload envelope)

def managedSpecCompletionRequestHash (request : ManagedSpecCompleteRequest) : String :=
  env.digest [("idempotency_key", .str request.idempotencyKey), ("prepared_envelope_hash", .str request.preparedEnvelopeHash),
    ("output_title", .str request.outputTitle), ("output_body", .str request.outputBody),
    ("expected_output_content_hash", optionalText request.expectedOutputContentHash)]

/-- The key of the output: the logical identity decides it, not the key of the caller. -/
def outputIdempotencyKey (envelope : ManagedSpecEnvelope) : String :=
  "managed-spec-output:" ++ env.digest [("namespace", .str "managed-spec-output-v1"),
    ("project", .str envelope.logicalIdentity.project), ("workflow", .str envelope.logicalIdentity.report),
    ("logical_date", .str envelope.logicalIdentity.date), ("entity", .str envelope.logicalIdentity.entity),
    ("edition", optionalText envelope.logicalIdentity.edition)]

/-! ## The checks of the two notes -/

def metadataText (note : ObsidianNote φ) (key : String) : Except ManagedSpecError String :=
  match note.frontmatter.get key with
  | .str text =>
    if pythonStrip text = "" then .error (metadataConflict ("required metadata " ++ key ++ " is missing or untyped"))
    else .ok (pythonStrip text)
  | _ => .error (metadataConflict ("required metadata " ++ key ++ " is missing or untyped"))

def metadataBool (note : ObsidianNote φ) (key : String) : Except ManagedSpecError Bool :=
  match note.frontmatter.get key with
  | .bool value => .ok value
  | _ => .error (metadataConflict ("required metadata " ++ key ++ " is missing or untyped"))

def metadataVersion (note : ObsidianNote φ) (role : String) : Except ManagedSpecError ℤ :=
  match note.frontmatter.get "version" with
  | .int value =>
    if value ≤ 0 then .error (metadataConflict (role ++ " version is missing or untyped")) else .ok value
  | _ => .error (metadataConflict (role ++ " version is missing or untyped"))

/-- A check that fails with a metadata conflict. -/
def requires (holds : Bool) (cause : String) : Except ManagedSpecError Unit :=
  if holds then .ok () else .error (metadataConflict cause)

def contentHash (note : ObsidianNote φ) (role : String) : Except ManagedSpecError String :=
  let value := env.lower (pythonStrip note.contentHash)
  if value.length ≠ 64 ∨ (value.toList.any fun c => c ∉ hexDigits) then
    .error (metadataConflict (role ++ " content hash is not a SHA-256 digest"))
  else .ok value

def boundedBody (body role : String) : Except ManagedSpecError String :=
  if maxPinnedBodyBytes < body.utf8ByteSize then
    .error (failure .specNotReady (role ++ " body exceeds the bounded managed-spec envelope limit") false
      "reduce the canonical policy/spec body before prepare" "bound_managed_spec_body")
  else .ok body

def validateNoteReady (note : ObsidianNote φ) (role : String) : Except ManagedSpecError Unit := do
  requires (note.alexandriaType = .prompt) (role ++ " must be an Alexandria prompt note")
  if env.casefold (pythonStrip note.status) ∉ ["active", "current"] then
    .error (failure .specNotReady (role ++ " is not active or current") false
      "restore the canonical note to active/current status" "repair_note_lifecycle")
  else if note.indexStatus ≠ .indexed then
    .error (failure .specNotReady (role ++ " index is not current") true "reindex the canonical vault and retry"
      "reindex_then_retry")
  else if pythonStrip note.body = "" then
    .error (failure .specNotReady (role ++ " body is empty") false "restore the canonical note body" "repair_note_body")
  else .ok ()

/-- `not _metadata_bool(note, "canonical") or not _metadata_bool(note, "source_of_truth")`, negated. -/
def isCanonical (note : ObsidianNote φ) : Except ManagedSpecError Bool := do
  if ← metadataBool note "canonical" then metadataBool note "source_of_truth" else return false

def validatePolicy (note : ObsidianNote φ) (context : ManagedSpecExecutionContext) : Except ManagedSpecError ℤ := do
  validateNoteReady env note "runtime policy"
  requires ((← metadataText note "document_type") = "policy") "runtime policy document_type is not policy"
  requires ((← metadataText note "policy_kind") = "scheduler-runtime") "runtime policy policy_kind is not scheduler-runtime"
  requires (← isCanonical note) "runtime policy is not canonical source_of_truth"
  requires ((← metadataText note "identity_model") = "note_id_only") "runtime policy identity_model must be note_id_only"
  requires ((← metadataText note "runtime_selector") = "note_id") "runtime policy runtime_selector must be note_id"
  requires (note.noteId = context.expectedPolicyNoteId) "runtime policy note id does not match trusted context"
  metadataVersion note "runtime policy"

/-- `" ".join(value.casefold().split())` -/
def normalize (value : String) : String :=
  " ".intercalate ((((env.casefold value).toList.splitOnP isPythonWhitespace).filter (!·.isEmpty)).map String.ofList)

def validateSelector (note : ObsidianNote φ) : Except ManagedSpecError Unit :=
  match note.frontmatter.get "execution_spec_note_id" with
  | .null => .ok ()
  | .str declared =>
    requires (declared = note.noteId) "execution specification selector metadata conflicts with exact note id"
  | _ => .error (metadataConflict "execution specification selector metadata is invalid")

def validateSpec (note : ObsidianNote φ) (context : ManagedSpecExecutionContext) (policyNoteId : String) :
    Except ManagedSpecError (ℤ × String) := do
  validateNoteReady env note "execution specification"
  requires ((← metadataText note "document_type") = "execution_prompt") "execution specification document_type is invalid"
  requires ((← metadataText note "prompt_role") = "execution") "execution specification prompt_role is invalid"
  requires (← isCanonical note) "execution specification is not canonical source_of_truth"
  requires ((← metadataText note "runtime_policy_note_id") = policyNoteId)
    "execution specification runtime policy link conflicts"
  let workflow ← metadataText note "report"
  requires (normalize env workflow = normalize env context.workflow)
    "execution specification workflow conflicts with context"
  validateSelector note
  return (← metadataVersion note "execution specification", workflow)

/-! ## Reading and pinning -/

/-- What `read_note` answers. -/
inductive NoteRead (φ : Type)
  | found (note : ObsidianNote φ)
  | notFound
  | domainError
  | unavailable

def readExact (answer : NoteRead φ) (noteId role : String) : Except ManagedSpecError (ObsidianNote φ) :=
  match answer with
  | .found note =>
    if note.noteId ≠ noteId then
      .error (failure .specConflict ("canonical " ++ role ++ " read returned a different note id") false
        "use the exact stable note id returned by canonical resolution" "reject_id_mismatch")
    else .ok note
  | .notFound =>
    .error (failure .specNotFound ("canonical " ++ role ++ " was not found by note id") false
      "verify the canonical note id in the source vault" "resolve_exact_note_id")
  | .domainError =>
    .error (failure .specNotReady ("canonical " ++ role ++ " could not be read") true
      "inspect source readiness and retry after recovery" "readiness_then_retry")
  | .unavailable =>
    .error (failure .specNotReady ("canonical " ++ role ++ " source read or parser is unavailable") true
      "inspect source readiness and retry after recovery" "readiness_then_retry")

/-- The answers to the two reads of a call. -/
structure Reads (φ : Type) where
  policy : NoteRead φ
  spec : NoteRead φ

def logicalIdentity (request : ManagedSpecPrepareRequest) : ObsidianLogicalIdentity where
  project := request.executionContext.project
  report := request.executionContext.workflow
  date := request.logicalDate
  entity := request.executionContext.entity
  edition := request.executionContext.edition

def buildEnvelope (request : ManagedSpecPrepareRequest) (policy spec : ObsidianNote φ) (policyVersion specVersion : ℤ)
    (workflow : String) : Except ManagedSpecError ManagedSpecEnvelope := do
  let policyBody ← boundedBody policy.body "runtime policy"
  let specBody ← boundedBody spec.body "execution specification"
  let policyContentHash ← contentHash env policy "policy"
  let specContentHash ← contentHash env spec "specification"
  return { idempotencyKey := request.idempotencyKey, specIdentity := request.specIdentity,
           logicalIdentity := logicalIdentity request, policyNoteId := policy.noteId, policyVersion, policyContentHash,
           policyBody, specVersion, specContentHash, specBody, allowedWorkflow := workflow, referenceOnly := true,
           mayExpandPermissions := false, mayStartUnrelatedWork := false }

/-- What both branches of `prepare` do: read, check and pin the two notes. -/
def currentEnvelope (request : ManagedSpecPrepareRequest) (reads : Reads φ) : Except ManagedSpecError ManagedSpecEnvelope := do
  let policy ← readExact reads.policy request.executionContext.expectedPolicyNoteId "runtime policy"
  let spec ← readExact reads.spec request.specIdentity.noteId "execution specification"
  let policyVersion ← validatePolicy env policy request.executionContext
  let (specVersion, workflow) ← validateSpec env spec request.executionContext policy.noteId
  buildEnvelope env request policy spec policyVersion specVersion workflow

def contextFromEnvelope (envelope : ManagedSpecEnvelope) : ManagedSpecExecutionContext where
  project := envelope.logicalIdentity.project
  workflow := envelope.logicalIdentity.report
  entity := envelope.logicalIdentity.entity
  edition := envelope.logicalIdentity.edition
  expectedPolicyNoteId := envelope.policyNoteId

/-- A comparison of the current notes with the envelope. -/
def requiresSame (same : Bool) : Except ManagedSpecError Unit := if same then .ok () else .error sourceDrift

/-- The notes are still those of the envelope. The comparisons stop at the first that differs. -/
def unchanged (envelope : ManagedSpecEnvelope) (policy spec : ObsidianNote φ) (policyVersion specVersion : ℤ) :
    Except ManagedSpecError Unit := do
  requiresSame (policy.noteId = envelope.policyNoteId ∧ policyVersion = envelope.policyVersion)
  requiresSame ((← contentHash env policy "policy") = envelope.policyContentHash)
  requiresSame (spec.noteId = envelope.specIdentity.noteId ∧ specVersion = envelope.specVersion)
  requiresSame ((← contentHash env spec "specification") = envelope.specContentHash)
  requiresSame ((← boundedBody policy.body "runtime policy") = envelope.policyBody)
  requiresSame ((← boundedBody spec.body "execution specification") = envelope.specBody)

def revalidateEnvelope (envelope : ManagedSpecEnvelope) (reads : Reads φ) : Except ManagedSpecError Unit := do
  let policy ← readExact reads.policy envelope.policyNoteId "runtime policy"
  let spec ← readExact reads.spec envelope.specIdentity.noteId "execution specification"
  let policyVersion ← validatePolicy env policy (contextFromEnvelope envelope)
  let (specVersion, _) ← validateSpec env spec (contextFromEnvelope envelope) policy.noteId
  unchanged env envelope policy spec policyVersion specVersion

/-! ## The checkpoints -/

abbrev Checkpoints := String → Option ManagedSpecCheckpoint

/-- How the save of a checkpoint ends: it may raise before or after the file is replaced. -/
inductive SaveOutcome
  | saved
  | lost
  | raised
deriving DecidableEq

inductive WriterFault
  | writeConflict
  | identityConflict
  | domainError
  | unexpected
deriving DecidableEq

/-- How a call fails: with a failure of its own, or with what the store or the writer has raised. -/
inductive CallError
  | managed (error : ManagedSpecError)
  | store
  | writer (fault : WriterFault)
deriving DecidableEq

def Checkpoints.save (checkpoints : Checkpoints) (checkpoint : ManagedSpecCheckpoint) : SaveOutcome → Checkpoints
  | .lost => checkpoints
  | .saved | .raised => Function.update checkpoints checkpoint.idempotencyKey (some checkpoint)

/-- `save_if_absent`: whether the checkpoint is admitted, and the store after it. -/
def Checkpoints.saveIfAbsent (checkpoints : Checkpoints) (checkpoint : ManagedSpecCheckpoint) (outcome : SaveOutcome) :
    Bool × Checkpoints :=
  if (checkpoints checkpoint.idempotencyKey).isSome then (false, checkpoints) else (true, checkpoints.save checkpoint outcome)

inductive ManagedSpecPrepareStatus
  | prepared
  | replayed
deriving DecidableEq

structure ManagedSpecPrepareResult where
  status : ManagedSpecPrepareStatus
  envelope : ManagedSpecEnvelope
  envelopeHash : String
deriving DecidableEq

inductive ManagedSpecCompletionStatus
  | completed
  | replayed
deriving DecidableEq

structure ManagedSpecCompleteResult where
  status : ManagedSpecCompletionStatus
  envelope : ManagedSpecEnvelope
  envelopeHash : String
  output : ManagedSpecOutputWriteResult
deriving DecidableEq

/-! ## The calls -/

def requireSamePrepareRequest (checkpoint : ManagedSpecCheckpoint) (requestHash : String) : Except ManagedSpecError Unit :=
  if checkpoint.prepareRequestHash ≠ requestHash then
    .error (failure .idempotencyConflict "idempotency key was reused for different managed-spec input" false
      "use a new idempotency key for a different execution" "choose_new_idempotency_key")
  else .ok ()

def requireVerifiedOutput (result : ManagedSpecOutputWriteResult) : Except ManagedSpecError Unit :=
  if !result.storageDurable || !result.readbackVerified then
    .error (failure .specNotReady "verified output writer did not prove durable source readback" true
      "inspect the writer checkpoint and read the canonical output" "recover_verified_output_before_retry")
  else if !result.duplicateSafe then
    .error (failure .specConflict "verified output writer could not prove logical duplicate safety" false
      "inspect the existing logical output before retrying" "resolve_logical_output_conflict")
  else .ok ()

def validateLogicalDate (logicalDate : String) : Except ManagedSpecError Unit :=
  if env.isIsoDate logicalDate then .ok ()
  else .error (failure .specConflict "logical_date must be an ISO calendar date" false "send a YYYY-MM-DD logical date"
    "correct_logical_date")

/-- The branch of `prepare` for a key that has a checkpoint. -/
def replayPrepare (request : ManagedSpecPrepareRequest) (reads : Reads φ) (existing : ManagedSpecCheckpoint) :
    Except ManagedSpecError ManagedSpecPrepareResult := do
  requireSamePrepareRequest existing (managedSpecPrepareRequestHash env request)
  let envelope ← currentEnvelope env request reads
  if managedSpecEnvelopeHash env envelope ≠ existing.envelopeHash then
    .error (failure .specDrift "canonical policy or execution specification changed after prepare" false
      "prepare a new envelope from the current canonical notes" "discard_stale_prepare_and_reprepare")
  else return ⟨.replayed, existing.envelope, existing.envelopeHash⟩

/-- The checkpoint of another admission of the key. -/
def prepareWinner (requestHash : String) : Option ManagedSpecCheckpoint → Except ManagedSpecError ManagedSpecPrepareResult
  | none =>
    .error (failure .specNotReady "prepare checkpoint became unavailable after a concurrent admission" true
      "read the prepare checkpoint and retry the same request" "retry_prepare_after_durable_readback")
  | some winner => do
    requireSamePrepareRequest winner requestHash
    return ⟨.replayed, winner.envelope, winner.envelopeHash⟩

def preparedCheckpoint (request : ManagedSpecPrepareRequest) (envelope : ManagedSpecEnvelope) : ManagedSpecCheckpoint where
  idempotencyKey := request.idempotencyKey
  prepareRequestHash := managedSpecPrepareRequestHash env request
  envelopeHash := managedSpecEnvelopeHash env envelope
  envelope := envelope
  outputRequest := none
  completionRequestHash := none
  output := none

/-- `_prepare_serialized`: the checkpoints it leaves, and what it returns. -/
def prepareSerialized (checkpoints : Checkpoints) (request : ManagedSpecPrepareRequest) (reads : Reads φ)
    (outcome : SaveOutcome) : Checkpoints × Except CallError ManagedSpecPrepareResult :=
  match validateLogicalDate env request.logicalDate with
  | .error error => (checkpoints, .error (.managed error))
  | .ok () =>
    match checkpoints request.idempotencyKey with
    | some existing => (checkpoints, (replayPrepare env request reads existing).mapError .managed)
    | none =>
      match currentEnvelope env request reads with
      | .error error => (checkpoints, .error (.managed error))
      | .ok envelope =>
        let checkpoint := preparedCheckpoint env request envelope
        let (admitted, after) := checkpoints.saveIfAbsent checkpoint outcome
        if !admitted then
          (after, (prepareWinner checkpoint.prepareRequestHash (after request.idempotencyKey)).mapError .managed)
        else if outcome = .saved then (after, .ok ⟨.prepared, envelope, checkpoint.envelopeHash⟩)
        else (after, .error .store)

def outputRequest (checkpoint : ManagedSpecCheckpoint) (request : ManagedSpecCompleteRequest) : ManagedSpecOutputWrite where
  idempotencyKey := outputIdempotencyKey env checkpoint.envelope
  logicalIdentity := checkpoint.envelope.logicalIdentity
  title := request.outputTitle
  body := request.outputBody
  specNoteId := checkpoint.envelope.specIdentity.noteId
  specVersion := checkpoint.envelope.specVersion
  specContentHash := checkpoint.envelope.specContentHash
  policyNoteId := checkpoint.envelope.policyNoteId
  policyVersion := checkpoint.envelope.policyVersion
  policyContentHash := checkpoint.envelope.policyContentHash
  preparedEnvelopeHash := checkpoint.envelopeHash
  expectedContentHash := request.expectedOutputContentHash

/-- What a completion leaves: the checkpoints, the request that the writer has received, and what it returns. -/
structure Completion where
  checkpoints : Checkpoints
  delegated : Option ManagedSpecOutputWrite
  result : Except CallError ManagedSpecCompleteResult

/-- The writer answers, the output is verified, and the checkpoint that records it is saved. -/
def deliver (checkpoints : Checkpoints) (write : ManagedSpecOutputWrite)
    (answer : Except WriterFault ManagedSpecOutputWriteResult) (outcome : SaveOutcome) (onFault : WriterFault → CallError)
    (status : ManagedSpecCompletionStatus) (recorded : ManagedSpecOutputWriteResult → ManagedSpecCheckpoint) : Completion :=
  match answer with
  | .error fault => ⟨checkpoints, some write, .error (onFault fault)⟩
  | .ok output =>
    match requireVerifiedOutput output with
    | .error error => ⟨checkpoints, some write, .error (.managed error)⟩
    | .ok () =>
      let checkpoint := recorded output
      ⟨checkpoints.save checkpoint outcome, some write,
        if outcome = .saved then .ok ⟨status, checkpoint.envelope, checkpoint.envelopeHash, output⟩ else .error .store⟩

/-- What a fault of the writer becomes in a replay. -/
def replayFault : WriterFault → CallError
  | .writeConflict | .identityConflict =>
    .managed (failure .outputDrift "canonical output changed or disappeared after completion" false
      "inspect the canonical logical output before retrying" "resolve_output_drift")
  | .domainError =>
    .managed (failure .outputNotReady "canonical output readback is unavailable after completion" true
      "inspect output readiness and retry the same completion" "recover_verified_output_before_retry")
  | .unexpected => .writer .unexpected

/-- The branch of a checkpoint that has an output: the same request goes to the writer again. -/
def replayCompletion (checkpoints : Checkpoints) (checkpoint : ManagedSpecCheckpoint) (request : ManagedSpecCompleteRequest)
    (reads : Reads φ) (answer : Except WriterFault ManagedSpecOutputWriteResult) (outcome : SaveOutcome) : Completion :=
  if checkpoint.completionRequestHash ≠ some (managedSpecCompletionRequestHash env request) then
    ⟨checkpoints, none, .error (.managed (failure .idempotencyConflict
      "the logical execution already completed with different output data" false
      "read the completed output or choose a new logical execution" "do_not_retry_with_changed_output"))⟩
  else match revalidateEnvelope env checkpoint.envelope reads with
    | .error error => ⟨checkpoints, none, .error (.managed error)⟩
    | .ok () =>
      match checkpoint.outputRequest with
      | none =>
        ⟨checkpoints, none, .error (.managed (failure .outputNotReady
          "completed checkpoint has no immutable output request for readback" true
          "inspect the verified-upsert checkpoint before retrying" "recover_verified_output_checkpoint"))⟩
      | some write =>
        deliver checkpoints write answer outcome replayFault .replayed fun output => { checkpoint with output := some output }

/-- The branch of a checkpoint that has none yet. -/
def firstCompletion (checkpoints : Checkpoints) (checkpoint : ManagedSpecCheckpoint) (request : ManagedSpecCompleteRequest)
    (reads : Reads φ) (answer : Except WriterFault ManagedSpecOutputWriteResult) (outcome : SaveOutcome) : Completion :=
  match revalidateEnvelope env checkpoint.envelope reads with
  | .error error => ⟨checkpoints, none, .error (.managed error)⟩
  | .ok () =>
    let write := outputRequest env checkpoint request
    deliver checkpoints write answer outcome .writer .completed fun output =>
      { checkpoint with
        outputRequest := some write
        completionRequestHash := some (managedSpecCompletionRequestHash env request)
        output := some output }

/-- `_complete_serialized` -/
def completeSerialized (checkpoints : Checkpoints) (request : ManagedSpecCompleteRequest) (reads : Reads φ)
    (answer : Except WriterFault ManagedSpecOutputWriteResult) (outcome : SaveOutcome) : Completion :=
  match checkpoints request.idempotencyKey with
  | none =>
    ⟨checkpoints, none, .error (.managed (failure .prepareRequired
      "no durable prepare envelope exists for this idempotency key" false
      "call prepare with the exact policy and specification note ids" "prepare_managed_spec"))⟩
  | some checkpoint =>
    if request.preparedEnvelopeHash ≠ checkpoint.envelopeHash then
      ⟨checkpoints, none, .error (.managed (failure .envelopeMismatch
        "completion does not reference the persisted prepare envelope" false "use the envelope_hash returned by prepare"
        "read_prepare_result_before_complete"))⟩
    else if checkpoint.output.isSome then replayCompletion env checkpoints checkpoint request reads answer outcome
    else firstCompletion env checkpoints checkpoint request reads answer outcome

end Service

/-! ## The machine -/

/-- One request that the writer has received, with what the call has read. -/
structure Delegation (φ : Type) where
  idempotencyKey : String
  reads : Reads φ
  write : ManagedSpecOutputWrite

/-- What a call has returned. -/
inductive Answer
  | prepared (request : ManagedSpecPrepareRequest) (result : ManagedSpecPrepareResult)
  | completed (request : ManagedSpecCompleteRequest) (result : ManagedSpecCompleteResult)

structure SpecSystem (φ : Type) where
  checkpoints : Checkpoints
  delegations : List (Delegation φ)
  answers : List Answer

def SpecSystem.start (φ : Type) : SpecSystem φ := ⟨fun _ => none, [], []⟩

inductive SpecCall (φ : Type)
  | prepare (request : ManagedSpecPrepareRequest) (reads : Reads φ) (outcome : SaveOutcome)
  | complete (request : ManagedSpecCompleteRequest) (reads : Reads φ) (answer : Except WriterFault ManagedSpecOutputWriteResult)
      (outcome : SaveOutcome)

/-- One call. The writer has received a request also when it fails or the checkpoint is not saved. -/
def execute {φ : Type} (env : SpecEnvironment φ) (s : SpecSystem φ) : SpecCall φ → Option (SpecSystem φ)
  | .prepare request reads outcome =>
    let (checkpoints, result) := prepareSerialized env s.checkpoints request reads outcome
    some { s with checkpoints, answers := s.answers ++ (result.toOption.map (Answer.prepared request)).toList }
  | .complete request reads answer outcome =>
    let completion := completeSerialized env s.checkpoints request reads answer outcome
    some { checkpoints := completion.checkpoints
           delegations := s.delegations ++ (completion.delegated.map (Delegation.mk request.idempotencyKey reads)).toList
           answers := s.answers ++ (completion.result.toOption.map (Answer.completed request)).toList }

end Alexandria.ManagedSpec
