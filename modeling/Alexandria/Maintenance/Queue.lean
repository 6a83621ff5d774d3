import Alexandria.Foundations.Run
import Mathlib.Data.Int.Notation
import Mathlib.Data.List.Nodup
import Mathlib.Logic.Function.Basic

/-! # The Redis maintenance queue and its workers

`operations/infrastructure/redis_maintenance_job_consumer.py` and the loop of
`operations/workers/redis_maintenance_worker.py`, one Redis command at a time. A worker is the
position it has reached between two commands, so a crash at any cut point is the label `crash`.

* The stream is append only, so an entry is named by its index; `delivered` is the consumer group's
  last-delivered id and `pending` its pending-entries list.
* Time is not modelled: `autoclaim` may take any pending entry (it may have been idle long enough)
  and `ttl` may drop any status hash. `EXPIRE` therefore changes nothing but is still a command a
  worker can crash before or after.
* `issued` and `starts` record which job ids were handed out and how often a handler was started.
-/

namespace Alexandria.Maintenance
set_option autoImplicit false

inductive MaintenanceJobKind
  | embeddingReindex
  | batchNoteWrite
deriving DecidableEq

inductive MaintenanceJobStatus
  | queued
  | running
  | retrying
  | succeeded
  | failed
deriving DecidableEq

/-- The statuses the worker calls terminal: success, and failure moved to the dead-letter stream. -/
def MaintenanceJobStatus.terminal : MaintenanceJobStatus → Bool
  | .succeeded => true
  | .failed => true
  | _ => false

structure MaintenanceJobRequest where
  kind : MaintenanceJobKind
  requestedBy : String
  sourceId : String
  limit : ℤ
  force : Bool
  submittedAt : String
deriving DecidableEq

/-- The bounds are those of the settings field. -/
structure MaintenanceQueueConfig where
  maxAttempts : ℕ
  one_le : 1 ≤ maxAttempts
  le_ten : maxAttempts ≤ 10

/-! ## Redis -/

/-- The hash behind `_status_key`. The request fields are written together by the enqueue script and
by nothing else, so a hash that expired and was created again by a worker lacks them. -/
structure StatusHash where
  request : Option MaintenanceJobRequest := none
  status : Option MaintenanceJobStatus := none
  attempts : Option ℕ := none
  startedAt : Option String := none
  finishedAt : Option String := none
  resultJson : Option String := none
  errorSummary : Option String := none

structure MaintenanceStatusMutation where
  status : MaintenanceJobStatus
  startedAt : Option String := none
  finishedAt : Option String := none
  resultJson : Option String := none
  errorSummary : Option String := none

structure MaintenanceDeadLetter (J : Type) where
  jobId : J
  kind : MaintenanceJobKind
  attempts : ℕ
  failedAt : String
  errorSummary : String
  sourceStreamId : ℕ

structure Redis (J : Type) where
  hashes : J → Option StatusHash
  stream : List J
  delivered : ℕ
  pending : ℕ → Bool
  deadLetters : List (MaintenanceDeadLetter J)

section Commands
variable {J : Type} [DecidableEq J]

/-- `HSET`: the named fields are replaced, the hash is created when it is absent. -/
def StatusHash.set (h : StatusHash) (m : MaintenanceStatusMutation) : StatusHash :=
  { h with
    status := some m.status
    startedAt := m.startedAt.or h.startedAt
    finishedAt := m.finishedAt.or h.finishedAt
    resultJson := m.resultJson.or h.resultJson
    errorSummary := m.errorSummary.or h.errorSummary }

/-- The hash a write command works on: the stored one, or a new empty one. -/
def Redis.hashOf (r : Redis J) (j : J) : StatusHash := (r.hashes j).getD {}

def Redis.hset (r : Redis J) (j : J) (m : MaintenanceStatusMutation) : Redis J :=
  { r with hashes := Function.update r.hashes j (some ((r.hashOf j).set m)) }

/-- The value `HINCRBY attempts 1` returns. -/
def Redis.nextAttempt (r : Redis J) (j : J) : ℕ := (r.hashOf j).attempts.getD 0 + 1

def Redis.hincrby (r : Redis J) (j : J) : Redis J :=
  let counted : StatusHash := { r.hashOf j with attempts := some (r.nextAttempt j) }
  { r with hashes := Function.update r.hashes j (some counted) }

def Redis.xack (r : Redis J) (e : ℕ) : Redis J :=
  { r with pending := Function.update r.pending e false }

def Redis.xadd (r : Redis J) (letter : MaintenanceDeadLetter J) : Redis J :=
  { r with deadLetters := r.deadLetters ++ [letter] }

end Commands

/-! ## One worker -/

structure MaintenanceJobSnapshot where
  request : MaintenanceJobRequest
  status : MaintenanceJobStatus
  attempts : ℕ

/-- `decode_job_snapshot`: `none` for an absent hash, an error when a required field is missing. -/
def decodeJobSnapshot : Option StatusHash → Except String (Option MaintenanceJobSnapshot)
  | none => .ok none
  | some h =>
    match h.request, h.status, h.attempts with
    | none, _, _ => .error "Redis maintenance status field is missing: job_id"
    | some _, none, _ => .error "Redis maintenance status field is missing: status"
    | some _, some _, none => .error "Redis maintenance status field is missing: attempts"
    | some request, some status, some attempts => .ok (some ⟨request, status, attempts⟩)

/-- How `_execute_job` ended: a result, or an exception with its bounded summary. -/
inductive JobOutcome
  | result (json : String)
  | error (summary : String)
deriving DecidableEq

/-- Where a worker stands while it holds an entry; the comment names the next command. -/
inductive Phase
  | received                                                            -- HGETALL
  | dropping                                                            -- XACK, no status hash
  | delivered (job : MaintenanceJobSnapshot)                            -- HINCRBY attempts
  | counted (job : MaintenanceJobSnapshot) (attempt : ℕ)                -- HSET RUNNING
  | marked (job : MaintenanceJobSnapshot) (attempt : ℕ)                 -- EXPIRE
  | ready (job : MaintenanceJobSnapshot) (attempt : ℕ)                  -- start the handler
  | executing (job : MaintenanceJobSnapshot) (attempt : ℕ)
  | ended (job : MaintenanceJobSnapshot) (attempt : ℕ) (outcome : JobOutcome)     -- HSET status
  | recorded (job : MaintenanceJobSnapshot) (attempt : ℕ) (outcome : JobOutcome)  -- EXPIRE
  | burying (job : MaintenanceJobSnapshot) (attempt : ℕ) (summary : String)       -- XADD dead letter
  | acking (job : MaintenanceJobSnapshot) (attempt : ℕ)                 -- XACK

inductive Worker (J : Type)
  | idle
  | busy (entry : ℕ) (job : J) (phase : Phase)

/-- The status an ended execution is given: `mark_succeeded`, or `mark_failed` at this attempt. -/
def outcomeStatus (cfg : MaintenanceQueueConfig) (attempt : ℕ) : JobOutcome → MaintenanceJobStatus
  | .result _ => .succeeded
  | .error _ => if cfg.maxAttempts ≤ attempt then .failed else .retrying

def boundedError (summary : String) : String := String.ofList (summary.toList.take 1000)

def runningMutation (now : String) : MaintenanceStatusMutation where
  status := .running
  startedAt := some now
  finishedAt := some ""
  errorSummary := some ""

def outcomeMutation (cfg : MaintenanceQueueConfig) (now : String) (attempt : ℕ) (outcome : JobOutcome) :
    MaintenanceStatusMutation :=
  match outcome with
  | .result json =>
    { status := outcomeStatus cfg attempt outcome, finishedAt := some now, resultJson := some json,
      errorSummary := some "" }
  | .error summary =>
    { status := outcomeStatus cfg attempt outcome,
      finishedAt := if cfg.maxAttempts ≤ attempt then some now else none,
      errorSummary := some (boundedError summary) }

/-- What follows the EXPIRE after the status write. -/
def afterRecord (cfg : MaintenanceQueueConfig) (e : ℕ) {J : Type} (j : J) (job : MaintenanceJobSnapshot)
    (attempt : ℕ) : JobOutcome → Worker J
  | .result _ => .busy e j (.acking job attempt)
  | .error summary =>
    if cfg.maxAttempts ≤ attempt then .busy e j (.burying job attempt summary) else .idle

section Worker
variable {J : Type} [DecidableEq J]

/-- The next command of a worker that holds entry `e` of job `j`. -/
def advance (cfg : MaintenanceQueueConfig) (now : String) (r : Redis J) (e : ℕ) (j : J) :
    Phase → Option (Redis J × Worker J)
  | .received =>
    match decodeJobSnapshot (r.hashes j) with
    | .error _ => some (r, .idle)
    | .ok none => some (r, .busy e j .dropping)
    | .ok (some job) => some (r, .busy e j (.delivered job))
  | .dropping => some (r.xack e, .idle)
  | .delivered job => some (r.hincrby j, .busy e j (.counted job (r.nextAttempt j)))
  | .counted job attempt => some (r.hset j (runningMutation now), .busy e j (.marked job attempt))
  | .marked job attempt => some (r, .busy e j (.ready job attempt))
  | .ready job attempt => some (r, .busy e j (.executing job attempt))
  | .executing _ _ => none
  | .ended job attempt outcome =>
    some (r.hset j (outcomeMutation cfg now attempt outcome), .busy e j (.recorded job attempt outcome))
  | .recorded job attempt outcome => some (r, afterRecord cfg e j job attempt outcome)
  | .burying job attempt summary =>
    some (r.xadd ⟨j, job.request.kind, attempt, now, boundedError summary, e⟩, .busy e j (.acking job attempt))
  | .acking _ _ => some (r.xack e, .idle)

/-! ## The system -/

structure System (J W : Type) where
  redis : Redis J
  workers : W → Worker J
  issued : J → Bool
  starts : J → ℕ

inductive Label (J W : Type)
  | submit (j : J) (request : MaintenanceJobRequest)
  | ttl (j : J)
  | autoclaim (w : W) (e : ℕ)
  | readgroup (w : W)
  | command (w : W) (now : String)
  | handlerEnds (w : W) (outcome : JobOutcome)
  | crash (w : W)

def Label.isAutoclaim {J W : Type} : Label J W → Bool
  | .autoclaim _ _ => true
  | _ => false

variable {W : Type} [DecidableEq W]

def System.setWorker (s : System J W) (w : W) (x : Worker J) : System J W :=
  { s with workers := Function.update s.workers w x }

/-- The atomic enqueue script for a request that is neither deduplicated nor rate limited. -/
def System.enqueue (s : System J W) (j : J) (request : MaintenanceJobRequest) : System J W :=
  { s with
    redis := { s.redis with
      hashes := Function.update s.redis.hashes j
        (some { request := some request, status := some .queued, attempts := some 0,
                resultJson := some "", errorSummary := some "" })
      stream := s.redis.stream ++ [j] }
    issued := Function.update s.issued j true }

def startsAfter (s : System J W) (j : J) : Phase → (J → ℕ)
  | .ready _ _ => Function.update s.starts j (s.starts j + 1)
  | _ => s.starts

def step (cfg : MaintenanceQueueConfig) (s : System J W) : Label J W → Option (System J W)
  | .submit j request => if s.issued j then none else some (s.enqueue j request)
  | .ttl j => some { s with redis := { s.redis with hashes := Function.update s.redis.hashes j none } }
  | .autoclaim w e =>
    match s.workers w, s.redis.pending e, s.redis.stream[e]? with
    | .idle, true, some j => some (s.setWorker w (.busy e j .received))
    | _, _, _ => none
  | .readgroup w =>
    match s.workers w, s.redis.stream[s.redis.delivered]? with
    | .idle, some j =>
      some { s.setWorker w (.busy s.redis.delivered j .received) with
        redis := { s.redis with
          delivered := s.redis.delivered + 1
          pending := Function.update s.redis.pending s.redis.delivered true } }
    | _, _ => none
  | .command w now =>
    match s.workers w with
    | .idle => none
    | .busy e j phase =>
      (advance cfg now s.redis e j phase).map fun (r, x) =>
        { s.setWorker w x with redis := r, starts := startsAfter s j phase }
  | .handlerEnds w outcome =>
    match s.workers w with
    | .busy e j (.executing job attempt) => some (s.setWorker w (.busy e j (.ended job attempt outcome)))
    | _ => none
  | .crash w => some (s.setWorker w .idle)

/-- No job was ever submitted and every worker is in front of `receive`. -/
def System.start : System J W where
  redis := ⟨fun _ => none, [], 0, fun _ => false, []⟩
  workers := fun _ => .idle
  issued := fun _ => false
  starts := fun _ => 0

/-- The status a reader of the job sees. -/
def System.status (s : System J W) (j : J) : Option MaintenanceJobStatus :=
  (s.redis.hashes j).bind (·.status)

end Worker

end Alexandria.Maintenance
