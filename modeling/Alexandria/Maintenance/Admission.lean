import Alexandria.Foundations.Expiring
import Alexandria.Maintenance.Queue
import Mathlib.Data.List.Nodup

/-! # Admission to the maintenance queue

The enqueue script of `redis_maintenance_job_scripts.py` and `enqueue` of `redis_maintenance_job_queue.py`.
The script is one atomic step at one time; the status read that follows it has a time of its own. Times are
milliseconds, the settings are seconds. The key prefixes keep the key families apart, so each family is a
store of its own, and SHA-256 is a parameter.
-/

namespace Alexandria.Maintenance.Admission
set_option autoImplicit false

open Expiring

def MaintenanceJobKind.value : MaintenanceJobKind → String
  | .embeddingReindex => "embedding_reindex"
  | .batchNoteWrite => "batch_note_write"

/-- The boundary schemas ask for a requester and a source of at least one character. -/
structure MaintenanceJobRequest where
  kind : MaintenanceJobKind
  requestedBy : String
  sourceId : String
  limit : ℤ
  force : Bool
  requestedBy_ne : requestedBy ≠ ""
  sourceId_ne : sourceId ≠ ""
deriving DecidableEq

/-- The settings the submission reads, with their bounds. -/
structure MaintenanceQueueConfig where
  statusTtlSeconds : ℕ
  dedupCooldownSeconds : ℕ
  submissionLimit : ℕ
  submissionWindowSeconds : ℕ
  maxStreamLength : ℕ
  statusTtl_pos : 60 ≤ statusTtlSeconds
  cooldown_pos : 1 ≤ dedupCooldownSeconds
  limit_pos : 1 ≤ submissionLimit
  window_pos : 1 ≤ submissionWindowSeconds
  stream_pos : 100 ≤ maxStreamLength

structure StatusRecord where
  jobId : String
  request : MaintenanceJobRequest
  status : MaintenanceJobStatus
  attempts : ℕ
  submittedAt : String
  streamId : ℕ
  resultJson : String
  errorSummary : String
deriving DecidableEq

structure StreamEntry where
  streamId : ℕ
  jobId : String
  request : MaintenanceJobRequest
  submittedAt : String
deriving DecidableEq

structure Redis where
  dedup : Store String String
  rate : Store String ℕ
  status : Store String StatusRecord
  stream : List StreamEntry
  lastStreamId : ℕ

def Redis.start : Redis := ⟨Expiring.empty, Expiring.empty, Expiring.empty, [], 0⟩

/-- One call: the request, the fresh job id, when the script runs and when the status is read, and how many of the
oldest entries the approximate trimming is ready to drop. -/
structure Call where
  request : MaintenanceJobRequest
  jobId : String
  submittedAt : String
  evalAt : ℕ
  readAt : ℕ
  trimming : ℕ
deriving DecidableEq

inductive ScriptAnswer
  | deduplicated (existing : String)
  | rateLimited (ttl : ℤ)
  | queued (jobId : String) (streamId : ℕ)
deriving DecidableEq

inductive EnqueueError
  | rateLimit (retryAfterSeconds : ℤ)
  | unavailable (message : String)
deriving DecidableEq

structure MaintenanceJobSnapshot where
  record : StatusRecord
  deduplicated : Bool
deriving DecidableEq

def dedupMaterial (request : MaintenanceJobRequest) : String :=
  "\x1f".intercalate [MaintenanceJobKind.value request.kind, request.requestedBy, request.sourceId,
    toString request.limit, if request.force then "1" else "0"]

def rateMaterial (request : MaintenanceJobRequest) : String :=
  "\x1f".intercalate [MaintenanceJobKind.value request.kind, request.requestedBy]

/-- `TTL`: the seconds left, rounded; -1 for a key without a deadline, -2 for none. -/
def ttl {V : Type} (now : ℕ) : Option (Entry V) → ℤ
  | none => -2
  | some entry => entry.deadline.elim (-1) fun deadline => ((deadline - now + 500) / 1000 : ℕ)

/-- `INCR`, and `EXPIRE` when the counter is new. -/
def countedEntry (window now : ℕ) (entry : Option (Entry ℕ)) : Entry ℕ :=
  let current := entry.elim 1 (·.value + 1)
  ⟨current, if current = 1 then some (now + window) else entry.bind (·.deadline)⟩

/-- `XADD` with `MAXLEN ~`: the oldest entries may go, but never below the bound. -/
def trimmed (maxLength trimming : ℕ) (stream : List StreamEntry) : List StreamEntry :=
  stream.drop (min trimming (stream.length - maxLength))

def MaintenanceQueueConfig.cooldown (cfg : MaintenanceQueueConfig) : ℕ := 1000 * cfg.dedupCooldownSeconds
def MaintenanceQueueConfig.window (cfg : MaintenanceQueueConfig) : ℕ := 1000 * cfg.submissionWindowSeconds
def MaintenanceQueueConfig.statusTtl (cfg : MaintenanceQueueConfig) : ℕ := 1000 * cfg.statusTtlSeconds

/-- The hash the script writes for a new job. -/
def Call.record (call : Call) (streamId : ℕ) : StatusRecord :=
  ⟨call.jobId, call.request, .queued, 0, call.submittedAt, streamId, "", ""⟩

section Script
variable (cfg : MaintenanceQueueConfig) (sha256 : String → String)

def dedupKey (request : MaintenanceJobRequest) : String := sha256 (dedupMaterial request)
def rateKey (request : MaintenanceJobRequest) : String := sha256 (rateMaterial request)

/-- The counter the script leaves behind `INCR`. -/
def Redis.counter (redis : Redis) (call : Call) : Entry ℕ :=
  countedEntry cfg.window call.evalAt (redis.rate.find call.evalAt (rateKey sha256 call.request))

def Redis.counted (redis : Redis) (call : Call) : Redis :=
  { redis with rate := redis.rate.set (rateKey sha256 call.request) (redis.counter cfg sha256 call) }

/-- The writes of a job that is admitted. -/
def Redis.admitted (redis : Redis) (call : Call) : Redis :=
  let streamId := redis.lastStreamId + 1
  { redis with
    stream := trimmed cfg.maxStreamLength call.trimming
      (redis.stream ++ [⟨streamId, call.jobId, call.request, call.submittedAt⟩])
    lastStreamId := streamId
    status := redis.status.set call.jobId ⟨call.record streamId, some (call.evalAt + cfg.statusTtl)⟩
    dedup := redis.dedup.set (dedupKey sha256 call.request) ⟨call.jobId, some (call.evalAt + cfg.cooldown)⟩ }

def enqueueScript (redis : Redis) (call : Call) : Redis × ScriptAnswer :=
  match redis.dedup.get call.evalAt (dedupKey sha256 call.request) with
  | some existing => (redis, .deduplicated existing)
  | none =>
    let counter := redis.counter cfg sha256 call
    let counted := redis.counted cfg sha256 call
    if cfg.submissionLimit < counter.value then (counted, .rateLimited (ttl call.evalAt (some counter)))
    else (counted.admitted cfg sha256 call, .queued call.jobId (redis.lastStreamId + 1))

/-- `get`: the hash as it is when it is read. -/
def readStatus (redis : Redis) (call : Call) (jobId : String) (deduplicated : Bool) :
    Except EnqueueError MaintenanceJobSnapshot :=
  match redis.status.get call.readAt jobId with
  | none => .error (.unavailable "Redis maintenance job status was not persisted")
  | some record => .ok ⟨record, deduplicated⟩

def enqueueResult (redis : Redis) (call : Call) : ScriptAnswer → Except EnqueueError MaintenanceJobSnapshot
  | .rateLimited retryAfter => .error (.rateLimit (max 1 retryAfter))
  | .deduplicated existing => readStatus redis call existing true
  | .queued jobId _ => readStatus redis call jobId false

/-! ## Runs -/

/-- One call with the store before and after it and what it was answered. -/
structure Exchange where
  call : Call
  before : Redis
  after : Redis
  answer : ScriptAnswer
  result : Except EnqueueError MaintenanceJobSnapshot

def enqueue (redis : Redis) (call : Call) : Exchange :=
  let (after, answer) := enqueueScript cfg sha256 redis call
  ⟨call, redis, after, answer, enqueueResult after call answer⟩

def history (redis : Redis) : List Call → List Exchange
  | [] => []
  | call :: calls =>
    let exchange := enqueue cfg sha256 redis call
    exchange :: history exchange.after calls

/-- The calls follow each other, and no job id is issued twice. -/
structure Schedule (calls : List Call) : Prop where
  reads : ∀ call ∈ calls, call.evalAt ≤ call.readAt
  ordered : calls.Pairwise fun first second => first.readAt ≤ second.evalAt
  fresh : (calls.map (·.jobId)).Nodup

def Exchange.created (exchange : Exchange) : Bool :=
  match exchange.answer with
  | .queued _ _ => true
  | _ => false

def Exchange.merged (exchange : Exchange) : Bool :=
  match exchange.answer with
  | .deduplicated _ => true
  | _ => false

/-- The call found no counter of its requester and kind and was not merged: a new window begins with it. -/
def Exchange.opensWindow (exchange : Exchange) : Prop :=
  exchange.merged = false ∧ exchange.before.rate.find exchange.call.evalAt (rateKey sha256 exchange.call.request) = none

def SameSubmitter (first second : Exchange) : Prop :=
  first.call.request.kind = second.call.request.kind ∧ first.call.request.requestedBy = second.call.request.requestedBy

instance (first second : Exchange) : Decidable (SameSubmitter first second) :=
  inferInstanceAs (Decidable (_ ∧ _))

/-- The new jobs of the window that begins with `opening`, among the exchanges. -/
def createdInWindow (opening : Exchange) (exchanges : List Exchange) : List Exchange :=
  exchanges.filter fun exchange => exchange.created &&
    decide (SameSubmitter opening exchange ∧ exchange.call.evalAt < opening.call.evalAt + cfg.window)

/-- What admission promises of a run: of every window, of every cooldown, of every merged and every rejected call. -/
structure Admitted (exchanges : List Exchange) : Prop where
  rate_bounded : ∀ earlier opening later, exchanges = earlier ++ opening :: later → opening.opensWindow sha256 →
    (createdInWindow cfg opening (opening :: later)).length ≤ cfg.submissionLimit
  rate_windows : ∀ exchange ∈ exchanges, exchange.created = true → ∃ opening ∈ exchanges,
    opening.opensWindow sha256 ∧ exchange ∈ createdInWindow cfg opening exchanges
  cooldown : ∀ earlier first later, exchanges = earlier ++ first :: later → first.created = true →
    ∀ second ∈ later, second.call.request = first.call.request →
      second.call.readAt < first.call.evalAt + cfg.cooldown →
      second.created = false ∧
        (first.result.toOption.map (·.record.jobId)) = some first.call.jobId ∧
        (second.result.toOption.map (·.record.jobId)) = some first.call.jobId
  never_merged : ∀ first ∈ exchanges, first.created = true → ∀ second ∈ exchanges,
    second.result.toOption.map (·.record.jobId) = some first.call.jobId → second.call.request = first.call.request
  merged_free : ∀ exchange ∈ exchanges, exchange.merged = true → exchange.after.rate = exchange.before.rate
  unadmitted_traceless : ∀ exchange ∈ exchanges, exchange.created = false →
    exchange.after.stream = exchange.before.stream ∧ exchange.after.status = exchange.before.status

end Script

end Alexandria.Maintenance.Admission
