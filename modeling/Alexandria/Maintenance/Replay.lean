import Alexandria.Maintenance.Admission
import Alexandria.Maintenance.Terminal

/-! # Dead letters and their replay

`replay_dead_letter` of `redis_maintenance_job_queue.py` beside the workers: the queue of `System` with the
request fields of its stream entries, the live dedup keys, and the calls that submit and replay. A replay reads
the dead letter and its source entry and goes through `enqueue` like every other submission. Time is not
modelled: a dedup key may expire at any moment and the rate limit may refuse any call.
-/

namespace Alexandria.Maintenance
set_option autoImplicit false

/-- What a replay call that returned was answered. -/
structure ReplayAnswer (J : Type) where
  letter : ℕ
  returned : J
  issuedBefore : Bool
  entry : Option ℕ
deriving DecidableEq

structure Deployment (J W : Type) where
  system : System J W
  requests : List MaintenanceJobRequest
  dedup : String → Option J
  purged : ℕ
  replays : List (ReplayAnswer J)

inductive Event (J W : Type)
  | enqueue (request : MaintenanceJobRequest) (j : J) (limited : Bool)
  | replay (letter : ℕ) (j : J) (now : String) (limited : Bool)
  | cooldownEnds (key : String)
  | purge
  | queue (l : Label J W)

def Deployment.start {J W : Type} : Deployment J W := ⟨System.start, [], fun _ => none, 0, []⟩

/-- The texts `_dedup_key` joins; the submission time is not among them. -/
def MaintenanceJobRequest.dedupMaterial (request : MaintenanceJobRequest) : String :=
  "\x1f".intercalate [Admission.MaintenanceJobKind.value request.kind, request.requestedBy, request.sourceId,
    toString request.limit, if request.force then "1" else "0"]

inductive EnqueueAnswer (J : Type)
  | deduplicated (existing : J)
  | rateLimited
  | queued (j : J)

section Deployment
variable {J W : Type} [DecidableEq J] [DecidableEq W] (cfg : MaintenanceQueueConfig) (sha256 : String → String)

def Deployment.queued (d : Deployment J W) (request : MaintenanceJobRequest) (j : J) : Deployment J W :=
  { d with
    system := d.system.enqueue j request
    requests := d.requests ++ [request]
    dedup := Function.update d.dedup (sha256 request.dedupMaterial) (some j) }

/-- The enqueue script; `none` for a job id that is not fresh. -/
def Deployment.enqueue (d : Deployment J W) (request : MaintenanceJobRequest) (j : J) (limited : Bool) :
    Option (Deployment J W × EnqueueAnswer J) :=
  match d.dedup (sha256 request.dedupMaterial) with
  | some existing => some (d, .deduplicated existing)
  | none =>
    if limited then some (d, .rateLimited)
    else if d.system.issued j then none
    else some (d.queued sha256 request j, .queued j)

/-- `get` of the answered job: the call returns only when a complete status is there. -/
def Deployment.answered (d : Deployment J W) (letter : ℕ) (returned : J) (issuedBefore : Bool) (entry : Option ℕ) :
    Deployment J W :=
  match decodeJobSnapshot (d.system.redis.hashes returned) with
  | .ok (some _) => { d with replays := d.replays ++ [⟨letter, returned, issuedBefore, entry⟩] }
  | _ => d

def Deployment.replaySource (d : Deployment J W) (letter : ℕ) : Option MaintenanceJobRequest :=
  if letter < d.purged then none
  else (d.system.redis.deadLetters[letter]?).bind fun entry => d.requests[entry.sourceStreamId]?

def Deployment.replay (d : Deployment J W) (letter : ℕ) (j : J) (now : String) (limited : Bool) :
    Option (Deployment J W) := do
  let source ← d.replaySource letter
  let (after, answer) ← d.enqueue sha256 { source with submittedAt := now } j limited
  match answer with
  | .deduplicated existing => some (after.answered letter existing (d.system.issued existing) none)
  | .rateLimited => some after
  | .queued j => some (after.answered letter j (d.system.issued j) (some d.system.redis.stream.length))

def Deployment.step (d : Deployment J W) : Event J W → Option (Deployment J W)
  | .enqueue request j limited => (d.enqueue sha256 request j limited).map (·.1)
  | .replay letter j now limited => d.replay sha256 letter j now limited
  | .cooldownEnds key => some { d with dedup := Function.update d.dedup key none }
  | .purge => some { d with purged := d.system.redis.deadLetters.length }
  | .queue (.submit _ _) => none
  | .queue l => (Maintenance.step cfg d.system l).map fun system => { d with system }

end Deployment

section Promises
variable {J W : Type}

def MaintenanceJobStatus.waiting : MaintenanceJobStatus → Bool
  | .queued => true
  | .retrying => true
  | _ => false

/-- The job has an entry that was not delivered yet or is pending in the group. -/
def System.Deliverable (s : System J W) (j : J) : Prop :=
  ∃ e : ℕ, s.redis.stream[e]? = some j ∧ (s.redis.delivered ≤ e ∨ s.redis.pending e = true)

structure Deployment.Promises (d : Deployment J W) : Prop where
  deliverable : ∀ j st, d.system.status j = some st → st.waiting = true → d.system.Deliverable j
  buriedOnce : (d.system.redis.deadLetters.map (·.jobId)).Nodup
  replayedNew : ∀ answer ∈ d.replays, answer.issuedBefore = false ∧
    ∃ e, answer.entry = some e ∧ d.system.redis.stream[e]? = some answer.returned

def System.Buried (s : System J W) (j : J) : Prop := ∃ letter ∈ s.redis.deadLetters, letter.jobId = j

/-- No redelivery of an entry that is still worked on, no crash between a dead letter and its acknowledgement, and no
replay of a request whose dedup key is live. -/
def Undisturbed (sha256 : String → String) (d : Deployment J W) : Event J W → Prop
  | .queue (.autoclaim w e) => Unheld d.system (.autoclaim w e)
  | .queue (.crash w) => ∀ e j job n, d.system.workers w = .busy e j (.acking job n) → ¬ d.system.Buried j
  | .replay letter _ now _ => ∀ source, d.replaySource letter = some source →
      d.dedup (sha256 ({ source with submittedAt := now } : MaintenanceJobRequest).dedupMaterial) = none
  | _ => True

end Promises

/-! ## What the queue keeps -/

section Kept
variable {J W : Type}

/-- What a holder may rely on about the status of its job. -/
def Phase.Relies (cfg : MaintenanceQueueConfig) (status : Option MaintenanceJobStatus) : Phase → Prop
  | .dropping => status = none
  | .recorded _ n outcome => ∀ st, status = some st → st = outcomeStatus cfg n outcome
  | .burying _ _ _ => ∀ st, status = some st → st.terminal = true
  | .acking _ _ => ∀ st, status = some st → st.terminal = true
  | _ => True

structure Kept (cfg : MaintenanceQueueConfig) (s : System J W) : Prop where
  owned : Owned s
  streamed : ∀ j, s.redis.hashes j ≠ none → j ∈ s.redis.stream
  issued : ∀ j, s.issued j = true → j ∈ s.redis.stream
  relies : ∀ w e j p, s.workers w = .busy e j p → p.Relies cfg (s.status j)
  acked : ∀ e j, s.redis.stream[e]? = some j → e < s.redis.delivered → s.redis.pending e = false →
    ∀ st, s.status j = some st → st.terminal = true
  buried : ∀ letter ∈ s.redis.deadLetters, ∃ e, s.redis.stream[e]? = some letter.jobId ∧ e < s.redis.delivered ∧
    (s.redis.pending e = false ∨ ∃ w job n, s.workers w = .busy e letter.jobId (.acking job n))
  once : (s.redis.deadLetters.map (·.jobId)).Nodup

theorem kept_start (cfg : MaintenanceQueueConfig) : Kept cfg (System.start : System J W) where
  owned := owned_start
  streamed := by simp [System.start]
  issued := by simp [System.start]
  relies := by simp [System.start]
  acked := by simp [System.start]
  buried := by simp [System.start]
  once := by simp [System.start]

variable {cfg : MaintenanceQueueConfig} {s : System J W}

theorem Kept.deliverable (h : Kept cfg s) {j : J} {st : MaintenanceJobStatus} (hst : s.status j = some st)
    (hwaiting : st.waiting = true) : s.Deliverable j := by
  have present : s.redis.hashes j ≠ none := by
    intro hnone
    simp [System.status, hnone] at hst
  obtain ⟨e, he⟩ := List.mem_iff_getElem?.mp (h.streamed j present)
  refine ⟨e, he, ?_⟩
  by_contra hlost
  simp only [not_or, Nat.not_le, Bool.not_eq_true] at hlost
  have terminal := h.acked e j he hlost.1 hlost.2 st hst
  cases st <;> simp [MaintenanceJobStatus.waiting, MaintenanceJobStatus.terminal] at hwaiting terminal

end Kept

/-! ## One command -/

section Commands
variable {J W : Type} [DecidableEq J] {cfg : MaintenanceQueueConfig}

def Redis.status (r : Redis J) (j : J) : Option MaintenanceJobStatus := (r.hashes j).bind (·.status)

theorem hset_status (r : Redis J) (j : J) (m : MaintenanceStatusMutation) : (r.hset j m).status j = some m.status := by
  simp [Redis.status, Redis.hset, StatusHash.set]

theorem outcomeMutation_status (now : String) (n : ℕ) (outcome : JobOutcome) :
    (outcomeMutation cfg now n outcome).status = outcomeStatus cfg n outcome := by
  cases outcome <;> rfl

theorem decode_none {h : Option StatusHash} (hdecode : decodeJobSnapshot h = .ok none) : h = none := by
  cases h with
  | none => rfl
  | some hash =>
    simp only [decodeJobSnapshot] at hdecode
    split at hdecode <;> simp at hdecode

omit [DecidableEq J] in
/-- After the status write of an ended handler the worker goes on with what that status says. -/
theorem afterRecord_relies {e f : ℕ} {j i : J} {job : MaintenanceJobSnapshot} {n : ℕ} {outcome : JobOutcome} {q : Phase}
    {status : Option MaintenanceJobStatus} (h : afterRecord cfg e j job n outcome = .busy f i q)
    (hstatus : ∀ st, status = some st → st = outcomeStatus cfg n outcome) : q.Relies cfg status := by
  cases outcome with
  | result json =>
    cases h
    intro st hst
    rw [hstatus st hst]
    rfl
  | error summary =>
    simp only [afterRecord] at h
    split at h
    · rename_i hlast
      cases h
      intro st hst
      rw [hstatus st hst]
      simp [outcomeStatus, hlast, MaintenanceJobStatus.terminal]
    · cases h

theorem advance_relies {now : String} {r r' : Redis J} {e f : ℕ} {j i : J} {p q : Phase}
    (h : advance cfg now r e j p = some (r', .busy f i q)) (hp : p.Relies cfg (r.status j)) :
    q.Relies cfg (r'.status j) := by
  cases p with
  | received =>
    simp only [advance] at h
    split at h <;> cases h
    · rename_i hdecode
      simp [Phase.Relies, Redis.status, decode_none hdecode]
    · trivial
  | dropping => cases h
  | delivered job => cases h; trivial
  | counted job n => cases h; trivial
  | marked job n => cases h; trivial
  | ready job n => cases h; trivial
  | executing job n => cases h
  | ended job n outcome =>
    cases h
    intro st hst
    rw [hset_status, outcomeMutation_status] at hst
    exact (Option.some.inj hst).symm
  | recorded job n outcome =>
    simp only [advance, Option.some.injEq, Prod.mk.injEq] at h
    obtain ⟨rfl, hafter⟩ := h
    exact afterRecord_relies hafter hp
  | burying job n summary => cases h; exact hp
  | acking job n => cases h

/-- An entry is acknowledged when its job is over, or when there is no status any more. -/
theorem advance_acked {now : String} {r r' : Redis J} {e : ℕ} {j : J} {p : Phase} {x : Worker J}
    (h : advance cfg now r e j p = some (r', x)) (hp : p.Relies cfg (r.status j)) (hpending : r.pending e = true)
    (hacked : r'.pending e = false) : ∀ st, r'.status j = some st → st.terminal = true := by
  cases p with
  | dropping =>
    cases h
    intro st hst
    have gone : r.status j = none := hp
    exact absurd (gone.symm.trans hst) (by simp)
  | acking job n => cases h; exact hp
  | received =>
    simp only [advance] at h
    split at h <;> cases h <;> simp [hpending] at hacked
  | executing job n => cases h
  | delivered | counted | marked | ready | ended | recorded | burying =>
    cases h
    simp [Redis.hincrby, Redis.hset, Redis.xadd, hpending] at hacked

theorem advance_acking {now : String} {r r' : Redis J} {e : ℕ} {j : J} {job : MaintenanceJobSnapshot} {n : ℕ}
    {x : Worker J} (h : advance cfg now r e j (.acking job n) = some (r', x)) : r'.pending e = false := by
  cases h
  simp [Redis.xack]

/-- Only burying writes a dead letter, and the acknowledgement comes next. -/
theorem advance_letters {now : String} {r r' : Redis J} {e : ℕ} {j : J} {p : Phase} {x : Worker J}
    (h : advance cfg now r e j p = some (r', x)) : r'.deadLetters = r.deadLetters ∨
      ∃ job n summary letter, p = .burying job n summary ∧ letter.jobId = j ∧
        r'.deadLetters = r.deadLetters ++ [letter] ∧ x = .busy e j (.acking job n) := by
  cases p with
  | received =>
    simp only [advance] at h
    split at h <;> cases h <;> exact Or.inl rfl
  | executing job n => cases h
  | burying job n summary => cases h; exact Or.inr ⟨job, n, summary, _, rfl, rfl, rfl, rfl⟩
  | dropping | delivered | counted | marked | ready | ended | recorded | acking => cases h; exact Or.inl rfl

/-- A command that creates the hash is one of a holder, so the hash belongs to a job of the stream. -/
theorem advance_hashes {now : String} {r r' : Redis J} {e : ℕ} {j : J} {p : Phase} {x : Worker J}
    (h : advance cfg now r e j p = some (r', x)) {i : J} (hi : r'.hashes i ≠ none) : r.hashes i ≠ none ∨ i = j := by
  by_cases hij : i = j
  · exact Or.inr hij
  · rw [(advance_touches h).hashes i hij] at hi
    exact Or.inl hi

end Commands

/-! ## One step -/

section Steps
variable {J W : Type} [DecidableEq J] [DecidableEq W] {cfg : MaintenanceQueueConfig} {s t : System J W}

omit [DecidableEq W] in
theorem Kept.submit (h : Kept cfg s) {j : J} {request : MaintenanceJobRequest} (hj : s.issued j = false) :
    Kept cfg (s.enqueue j request) := by
  have absent : j ∉ s.redis.stream := by
    intro hmem
    rw [h.owned.issued j hmem] at hj
    cases hj
  have old : ∀ {e : ℕ} {i : J}, (s.enqueue j request).redis.stream[e]? = some i → e < s.redis.stream.length →
      s.redis.stream[e]? = some i ∧ i ≠ j := by
    intro e i he hlt
    have hi : s.redis.stream[e]? = some i := (List.getElem?_append_left hlt).symm.trans he
    refine ⟨hi, ?_⟩
    rintro rfl
    exact absent (List.mem_of_getElem? hi)
  have status_other : ∀ i, i ≠ j → (s.enqueue j request).status i = s.status i := by
    intro i hi
    simp [System.status, System.enqueue, Function.update_of_ne hi]
  refine ⟨h.owned.submit j request hj, ?_, ?_, ?_, ?_, ?_, h.once⟩
  · intro i hi
    by_cases hij : i = j
    · simp [System.enqueue, hij]
    · have present : s.redis.hashes i ≠ none := by simpa [System.enqueue, Function.update_of_ne hij] using hi
      exact List.mem_append_left _ (h.streamed i present)
  · intro i hi
    by_cases hij : i = j
    · simp [System.enqueue, hij]
    · have issued : s.issued i = true := by simpa [System.enqueue, Function.update_of_ne hij] using hi
      exact List.mem_append_left _ (h.issued i issued)
  · intro w e i p hw
    have hne : i ≠ j := by
      rintro rfl
      exact absent (List.mem_of_getElem? (h.owned.held w e i p hw).2)
    rw [status_other i hne]
    exact h.relies w e i p hw
  · intro e i he hdelivered hpending
    have hlt : e < s.redis.stream.length := Nat.lt_of_lt_of_le hdelivered h.owned.bound
    obtain ⟨hi, hne⟩ := old he hlt
    rw [status_other i hne]
    exact h.acked e i hi hdelivered hpending
  · intro letter hletter
    obtain ⟨e, he, hdelivered, hrest⟩ := h.buried letter hletter
    have hlt := (List.getElem?_eq_some_iff.mp he).1
    exact ⟨e, (List.getElem?_append_left hlt).trans he, hdelivered, hrest⟩

omit [DecidableEq W] in
theorem Kept.ttl (h : Kept cfg s) (j : J) :
    Kept cfg { s with redis := { s.redis with hashes := Function.update s.redis.hashes j none } } := by
  -- a status is as it was, or gone
  have status : ∀ i st, ({ s with redis := { s.redis with hashes := Function.update s.redis.hashes j none } } :
      System J W).status i = some st → s.status i = some st := by
    intro i st hst
    by_cases hij : i = j
    · simp [System.status, hij] at hst
    · simpa [System.status, Function.update_of_ne hij] using hst
  refine ⟨⟨h.owned.nodup, h.owned.issued, h.owned.bound, h.owned.delivered, h.owned.held, h.owned.alone⟩, ?_, h.issued,
    ?_, ?_, h.buried, h.once⟩
  · intro i hi
    refine h.streamed i ?_
    by_cases hij : i = j
    · simp [hij] at hi
    · simpa [Function.update_of_ne hij] using hi
  · intro w e i p hw
    have relies := h.relies w e i p hw
    cases p with
    | dropping =>
      refine Option.eq_none_iff_forall_ne_some.mpr fun st hst => ?_
      exact absurd ((show s.status i = none from relies).symm.trans (status i st hst)) (by simp)
    | recorded job n outcome => exact fun st hst => relies st (status i st hst)
    | burying job n summary => exact fun st hst => relies st (status i st hst)
    | acking job n => exact fun st hst => relies st (status i st hst)
    | received | delivered | counted | marked | ready | executing | ended => trivial
  · intro e i he hdelivered hpending st hst
    exact h.acked e i he hdelivered hpending st (status i st hst)

omit [DecidableEq J] in
/-- Moving a worker that is not acknowledging a dead-lettered job. -/
theorem Kept.setWorker (h : Kept cfg s) {w : W} {x : Worker J} (owned : Owned (s.setWorker w x))
    (hx : ∀ e j p, x = .busy e j p → p.Relies cfg (s.status j))
    (hw : ∀ e j job n, s.workers w = .busy e j (.acking job n) → ¬ s.Buried j) : Kept cfg (s.setWorker w x) := by
  refine ⟨owned, h.streamed, h.issued, ?_, h.acked, ?_, h.once⟩
  · intro v e j p hv
    obtain ⟨-, hv⟩ | ⟨-, hv⟩ := holder_setWorker hv
    · exact hx e j p hv
    · exact h.relies v e j p hv
  · intro letter hletter
    obtain ⟨e, he, hdelivered, hpending | ⟨v, job, n, hv⟩⟩ := h.buried letter hletter
    · exact ⟨e, he, hdelivered, Or.inl hpending⟩
    · have hne : v ≠ w := by
        rintro rfl
        exact hw e letter.jobId job n hv ⟨letter, hletter, rfl⟩
      exact ⟨e, he, hdelivered, Or.inr ⟨v, job, n, (setWorker_other s w v x hne).trans hv⟩⟩

omit [DecidableEq J] in
theorem Kept.readgroup (h : Kept cfg s) {w : W} {j : J} (hw : s.workers w = .idle)
    (owned : Owned { s.setWorker w (.busy s.redis.delivered j .received) with
      redis := { s.redis with
        delivered := s.redis.delivered + 1
        pending := Function.update s.redis.pending s.redis.delivered true } }) :
    Kept cfg { s.setWorker w (.busy s.redis.delivered j .received) with
      redis := { s.redis with
        delivered := s.redis.delivered + 1
        pending := Function.update s.redis.pending s.redis.delivered true } } := by
  refine ⟨owned, h.streamed, h.issued, ?_, ?_, ?_, h.once⟩
  · intro v e i p hv
    obtain ⟨-, hv⟩ | ⟨-, hv⟩ := holder_setWorker (s := s) hv
    · cases hv; trivial
    · exact h.relies v e i p hv
  · intro e i he hdelivered hpending
    have hne : e ≠ s.redis.delivered := by
      rintro rfl
      simp at hpending
    have hlt : e < s.redis.delivered := by
      have : e < s.redis.delivered + 1 := hdelivered
      omega
    exact h.acked e i he hlt (by simpa [Function.update_of_ne hne] using hpending)
  · intro letter hletter
    obtain ⟨e, he, hdelivered, hrest⟩ := h.buried letter hletter
    have hne : e ≠ s.redis.delivered := Nat.ne_of_lt hdelivered
    refine ⟨e, he, Nat.lt_succ_of_lt hdelivered, ?_⟩
    rcases hrest with hpending | ⟨v, job, n, hv⟩
    · exact Or.inl ((Function.update_of_ne hne _ _).trans hpending)
    · have hvw : v ≠ w := by
        rintro rfl
        rw [hw] at hv
        cases hv
      exact Or.inr ⟨v, job, n, (setWorker_other s w v _ hvw).trans hv⟩

/-- One command of the holder `w` of entry `e` of job `j`. -/
theorem Kept.command (h : Kept cfg s) {w : W} {e : ℕ} {j : J} {p : Phase} {r : Redis J} {x : Worker J} {now : String}
    (hw : s.workers w = .busy e j p) (ha : advance cfg now s.redis e j p = some (r, x))
    (owned : Owned { s.setWorker w x with redis := r, starts := startsAfter s j p }) :
    Kept cfg { s.setWorker w x with redis := r, starts := startsAfter s j p } := by
  have touch := advance_touches ha
  have relies := h.relies w e j p hw
  obtain ⟨hpending, hentry⟩ := h.owned.held w e j p hw
  have hdelivered := h.owned.delivered e hpending
  have other : ∀ i, i ≠ j → r.status i = s.status i := by
    intro i hi
    simp [Redis.status, System.status, touch.hashes i hi]
  have acked_before : ∀ f, r.pending f = false → f ≠ e → s.redis.pending f = false := by
    intro f hf hne
    obtain hsame | ⟨hsame, -⟩ := touch.pending
    · exact hsame ▸ hf
    · simpa [hsame, Function.update_of_ne hne] using hf
  have stays : ∀ f, s.redis.pending f = false → r.pending f = false := by
    intro f hf
    obtain hsame | ⟨hsame, -⟩ := touch.pending
    · exact hsame ▸ hf
    · by_cases hne : f = e
      · simp [hsame, hne]
      · simpa [hsame, Function.update_of_ne hne] using hf
  refine ⟨owned, ?_, ?_, ?_, ?_, ?_, ?_⟩
  · intro i hi
    rw [show ({ s.setWorker w x with redis := r, starts := startsAfter s j p } : System J W).redis.stream =
      s.redis.stream from touch.stream]
    obtain hi | rfl := advance_hashes ha hi
    · exact h.streamed i hi
    · exact List.mem_of_getElem? hentry
  · intro i hi
    rw [show ({ s.setWorker w x with redis := r, starts := startsAfter s j p } : System J W).redis.stream =
      s.redis.stream from touch.stream]
    exact h.issued i hi
  · intro v f i q hbusy
    obtain ⟨-, hx⟩ | ⟨hne, hv⟩ := holder_setWorker (s := s) hbusy
    · obtain hidle | ⟨q', hbusy⟩ := touch.worker
      · rw [hidle] at hx
        cases hx
      · rw [hbusy] at hx ha
        cases hx
        exact advance_relies ha relies
    · have hij : i ≠ j := by
        rintro rfl
        exact hne (h.owned.holder_unique hv hw)
      have kept := h.relies v f i q hv
      rwa [← other i hij] at kept
  · intro f i hf hfdelivered hfpending
    change r.stream[f]? = some i at hf
    rw [touch.stream] at hf
    change f < r.delivered at hfdelivered
    rw [touch.delivered] at hfdelivered
    by_cases hfe : f = e
    · subst hfe
      obtain rfl : i = j := Option.some.inj (hf.symm.trans hentry)
      exact advance_acked ha relies hpending hfpending
    · have hij : i ≠ j := by
        rintro rfl
        exact hfe (h.owned.entry_unique hf hentry)
      have acked := h.acked f i hf hfdelivered (acked_before f hfpending hfe)
      intro st hst
      exact acked st ((other i hij).symm.trans hst)
  · -- an earlier letter is still settled, a new one is about to be
    have settled : ∀ letter ∈ s.redis.deadLetters, ∃ f, r.stream[f]? = some letter.jobId ∧ f < r.delivered ∧
        (r.pending f = false ∨ ∃ v job n, (s.setWorker w x).workers v = .busy f letter.jobId (.acking job n)) := by
      intro letter hletter
      obtain ⟨f, hf, hfdelivered, hrest⟩ := h.buried letter hletter
      refine ⟨f, touch.stream ▸ hf, touch.delivered ▸ hfdelivered, ?_⟩
      rcases hrest with hfpending | ⟨v, job, n, hv⟩
      · exact Or.inl (stays f hfpending)
      · by_cases hvw : v = w
        · subst hvw
          rw [hw] at hv
          cases hv
          exact Or.inl (advance_acking ha)
        · exact Or.inr ⟨v, job, n, (setWorker_other s w v x hvw).trans hv⟩
    intro letter hletter
    change letter ∈ r.deadLetters at hletter
    obtain hsame | ⟨job, n, summary, added, -, hid, hadded, hx⟩ := advance_letters ha
    · exact settled letter (hsame ▸ hletter)
    · rw [hadded] at hletter
      rcases List.mem_append.mp hletter with hold | hnew
      · exact settled letter hold
      · obtain rfl := List.mem_singleton.mp hnew
        refine ⟨e, ?_, touch.delivered ▸ hdelivered, Or.inr ⟨w, job, n, ?_⟩⟩
        · rw [hid]
          exact touch.stream ▸ hentry
        · rw [hid, ← hx]
          exact setWorker_self s w x
  · change (r.deadLetters.map (·.jobId)).Nodup
    obtain hsame | ⟨job, n, summary, added, hp, hid, hadded, -⟩ := advance_letters ha
    · rw [hsame]
      exact h.once
    · rw [hadded, List.map_append]
      refine List.nodup_append.mpr ⟨h.once, by simp, ?_⟩
      intro i hi k hk heq
      obtain ⟨letter, hletter, rfl⟩ := List.mem_map.mp hi
      have hjob : letter.jobId = j := by
        rw [heq, ← hid]
        simpa using hk
      -- the job of an earlier letter is acknowledged or being acknowledged; this worker is still burying
      obtain ⟨f, hf, -, hrest⟩ := h.buried letter hletter
      rw [hjob] at hf hrest
      obtain rfl := h.owned.entry_unique hf hentry
      rcases hrest with hdone | ⟨v, job', n', hv⟩
      · rw [hpending] at hdone
        cases hdone
      · obtain rfl := h.owned.holder_unique hv hw
        rw [hw, hp] at hv
        cases hv

theorem Kept.step {sha256 : String → String} {d : Deployment J W} (h : Kept cfg d.system) {l : Label J W}
    (hok : Undisturbed sha256 d (.queue l)) (hl : ∀ j request, l ≠ .submit j request)
    (hstep : Maintenance.step cfg d.system l = some t) : Kept cfg t := by
  have unheld : Unheld d.system l := by
    cases l with
    | autoclaim w e => exact hok
    | _ => trivial
  have owned := h.owned.step unheld hstep
  cases l with
  | submit j request => exact absurd rfl (hl j request)
  | ttl j => cases hstep; exact h.ttl j
  | autoclaim w e =>
    obtain ⟨j, hw, -, -, rfl⟩ := step_autoclaim hstep
    refine h.setWorker owned ?_ (fun e j job n hbusy => by rw [hw] at hbusy; cases hbusy)
    rintro e j p ⟨⟩
    trivial
  | readgroup w =>
    obtain ⟨j, hw, -, rfl⟩ := step_readgroup hstep
    exact h.readgroup hw owned
  | command w now =>
    obtain ⟨e, j, p, r, x, hw, ha, rfl⟩ := step_command hstep
    exact h.command hw ha owned
  | handlerEnds w outcome =>
    obtain ⟨e, j, job, n, hw, rfl⟩ := step_handlerEnds hstep
    refine h.setWorker owned ?_ (fun e j job n hbusy => by rw [hw] at hbusy; cases hbusy)
    rintro e j p ⟨⟩
    trivial
  | crash w =>
    cases hstep
    refine h.setWorker owned ?_ hok
    rintro e j p ⟨⟩

end Steps

/-! ## Runs of the deployment -/

section Deployments
variable {J W : Type} [DecidableEq J] [DecidableEq W] {cfg : MaintenanceQueueConfig} {sha256 : String → String}
  {d t : Deployment J W}

structure Deployment.Kept (cfg : MaintenanceQueueConfig) (d : Deployment J W) : Prop where
  system : Maintenance.Kept cfg d.system
  replayed : ∀ answer ∈ d.replays, answer.issuedBefore = false ∧
    ∃ e, answer.entry = some e ∧ d.system.redis.stream[e]? = some answer.returned

omit [DecidableEq J] [DecidableEq W] in
theorem Deployment.kept_start : (Deployment.start : Deployment J W).Kept cfg := ⟨Maintenance.kept_start cfg, by simp [Deployment.start]⟩

omit [DecidableEq W] in
theorem enqueue_cases {request : MaintenanceJobRequest} {j : J} {limited : Bool} {answer : EnqueueAnswer J}
    (h : d.enqueue sha256 request j limited = some (t, answer)) :
    (t = d ∧ ∃ existing, d.dedup (sha256 request.dedupMaterial) = some existing ∧ answer = .deduplicated existing) ∨
      (t = d ∧ answer = .rateLimited) ∨
      (t = d.queued sha256 request j ∧ d.system.issued j = false ∧ answer = .queued j) := by
  unfold Deployment.enqueue at h
  cases hdedup : d.dedup (sha256 request.dedupMaterial) with
  | some existing =>
    simp only [hdedup, Option.some.injEq, Prod.mk.injEq] at h
    exact Or.inl ⟨h.1.symm, existing, rfl, h.2.symm⟩
  | none =>
    simp only [hdedup] at h
    split at h
    · cases h
      exact Or.inr (Or.inl ⟨rfl, rfl⟩)
    · split at h
      · cases h
      · rename_i hissued
        cases h
        exact Or.inr (Or.inr ⟨rfl, by simpa using hissued, rfl⟩)

omit [DecidableEq W] in
theorem Deployment.Kept.queued (h : d.Kept cfg) {request : MaintenanceJobRequest} {j : J}
    (hj : d.system.issued j = false) : (d.queued sha256 request j).Kept cfg := by
  refine ⟨h.system.submit hj, fun answer hmem => ?_⟩
  obtain ⟨hnew, e, hentry, hstream⟩ := h.replayed answer hmem
  exact ⟨hnew, e, hentry, (List.getElem?_append_left (List.getElem?_eq_some_iff.mp hstream).1).trans hstream⟩

omit [DecidableEq J] [DecidableEq W] in
theorem Deployment.Kept.answered (h : d.Kept cfg) {letter e : ℕ} {j : J}
    (hentry : d.system.redis.stream[e]? = some j) : (d.answered letter j false (some e)).Kept cfg := by
  unfold Deployment.answered
  split
  · refine ⟨h.system, fun answer hmem => ?_⟩
    rcases List.mem_append.mp hmem with hold | hnew
    · exact h.replayed answer hold
    · rw [List.mem_singleton.mp hnew]
      exact ⟨rfl, e, rfl, hentry⟩
  · exact h

theorem step_stream {s u : System J W} {l : Label J W} (hl : ∀ j request, l ≠ .submit j request)
    (h : Maintenance.step cfg s l = some u) : u.redis.stream = s.redis.stream := by
  cases l with
  | submit j request => exact absurd rfl (hl j request)
  | ttl j => cases h; rfl
  | autoclaim w e =>
    obtain ⟨j, -, -, -, rfl⟩ := step_autoclaim h
    rfl
  | readgroup w =>
    obtain ⟨j, -, -, rfl⟩ := step_readgroup h
    rfl
  | command w now =>
    obtain ⟨e, j, p, r, x, -, ha, rfl⟩ := step_command h
    exact (advance_touches ha).stream
  | handlerEnds w outcome =>
    obtain ⟨e, j, job, n, -, rfl⟩ := step_handlerEnds h
    rfl
  | crash w => cases h; rfl

theorem Deployment.Kept.step (h : d.Kept cfg) {event : Event J W} (hok : Undisturbed sha256 d event)
    (hstep : d.step cfg sha256 event = some t) : t.Kept cfg := by
  cases event with
  | enqueue request j limited =>
    obtain ⟨⟨after, answer⟩, henqueue, rfl⟩ := Option.map_eq_some_iff.mp hstep
    obtain ⟨rfl, -⟩ | ⟨rfl, -⟩ | ⟨rfl, hj, -⟩ := enqueue_cases henqueue
    · exact h
    · exact h
    · exact h.queued hj
  | cooldownEnds key => cases hstep; exact ⟨h.system, h.replayed⟩
  | purge => cases hstep; exact ⟨h.system, h.replayed⟩
  | replay letter j now limited =>
    obtain ⟨source, hsource, hrest⟩ := Option.bind_eq_some_iff.mp hstep
    obtain ⟨⟨after, answer⟩, henqueue, hanswer⟩ := Option.bind_eq_some_iff.mp hrest
    obtain ⟨-, existing, hdedup, -⟩ | ⟨rfl, rfl⟩ | ⟨rfl, hj, rfl⟩ := enqueue_cases henqueue
    · -- the condition: no live dedup key answers in the new job's place
      rw [hok source hsource] at hdedup
      cases hdedup
    · cases hanswer
      exact h
    · simp only [hj, Option.some.injEq] at hanswer
      rw [← hanswer]
      exact (h.queued hj).answered (by simp [Deployment.queued, System.enqueue])
  | queue l =>
    have hl : ∀ i request, l ≠ .submit i request := by
      rintro i request rfl
      cases hstep
    have hinner : ∃ system, Maintenance.step cfg d.system l = some system ∧ { d with system } = t := by
      cases l with
      | submit i request => exact absurd rfl (hl i request)
      | ttl | autoclaim | readgroup | command | handlerEnds | crash => exact Option.map_eq_some_iff.mp hstep
    obtain ⟨system, hsystem, rfl⟩ := hinner
    refine ⟨h.system.step hok hl hsystem, fun answer hmem => ?_⟩
    rw [show ({ d with system } : Deployment J W).system.redis.stream = d.system.redis.stream from step_stream hl hsystem]
    exact h.replayed answer hmem

/-- In an undisturbed run a waiting job is deliverable, a job has at most one dead letter, and every replay that
returned has queued a new job. -/
theorem undisturbed_promises (h : Run.Guarded (Deployment.step cfg sha256) (Undisturbed sha256) Deployment.start d) :
    d.Promises := by
  have kept : d.Kept cfg := h.invariant (P := fun d => d.Kept cfg) Deployment.kept_start
    fun _ _ _ ha hok hstep => ha.step hok hstep
  exact ⟨fun j st hst hwaiting => kept.system.deliverable hst hwaiting, kept.system.once, kept.replayed⟩

end Deployments

/-! ## A redelivery while the handler still runs -/

def queueLabels (labels : List (Label ℕ ℕ)) : List (Event ℕ ℕ) := labels.map .queue

def submission : List (Event ℕ ℕ) := [.enqueue ⟨.embeddingReindex, "api", "nightly", 100, false, "t0"⟩ 7 false]

/-- From delivery to the start of the handler. -/
def handlerStarts (w : ℕ) : List (Label ℕ ℕ) := List.replicate 5 (.command w "t1")

/-- Worker 1 claims the entry from worker 0, whose handler takes long; worker 0 succeeds, then worker 1 fails. -/
def overtakenRun : List (Event ℕ ℕ) :=
  submission ++ queueLabels ([Label.readgroup 0] ++ handlerStarts 0 ++ [Label.autoclaim 1 0] ++ handlerStarts 1 ++
    [Label.handlerEnds 0 (.result "done")] ++ List.replicate 3 (Label.command 0 "t2") ++
    [Label.handlerEnds 1 (.error "locked")] ++ List.replicate 2 (Label.command 1 "t3"))

def threeAttempts : MaintenanceQueueConfig := defaultQueueConfig

def oneAttempt : MaintenanceQueueConfig := ⟨1, by decide, by decide⟩

theorem overtaken_state :
    ((Run.exec (Deployment.step threeAttempts id) Deployment.start overtakenRun).map fun d =>
      (d.system.status 7, d.system.redis.stream, d.system.redis.delivered, d.system.redis.pending 0)) =
      some (some .retrying, [7], 1, false) := by
  decide

theorem retrying_job_lost : ¬ ∀ (cfg : MaintenanceQueueConfig) (sha256 : String → String) (d : Deployment ℕ ℕ),
    Run.Runs (Deployment.step cfg sha256) Deployment.start d → d.Promises := by
  intro promises
  obtain ⟨d, hd, hstate⟩ := Option.map_eq_some_iff.mp overtaken_state
  simp only [Prod.mk.injEq] at hstate
  obtain ⟨hstatus, hstream, hdelivered, hpending⟩ := hstate
  obtain ⟨e, he, hrest⟩ := (promises threeAttempts id d (Run.Runs.of_exec _ hd)).deliverable 7 _ hstatus rfl
  rw [hstream] at he
  obtain rfl : e = 0 := by
    have := (List.getElem?_eq_some_iff.mp he).1
    simpa using this
  rcases hrest with hundelivered | hheld
  · rw [hdelivered] at hundelivered
    exact absurd hundelivered (by decide)
  · rw [hpending] at hheld
    cases hheld

/-- A job that fails for good, and the replay of its dead letter after the cooldown. -/
def replayRun : List (Event ℕ ℕ) :=
  submission ++ queueLabels ([Label.readgroup 0] ++ handlerStarts 0 ++ [Label.handlerEnds 0 (.error "locked")] ++
    List.replicate 4 (Label.command 0 "t2")) ++ [Event.cooldownEnds "key", Event.replay 0 8 "t3" false]

def calm (d : Deployment ℕ ℕ) : Event ℕ ℕ → Bool
  | .queue (.autoclaim _ _) => false
  | .queue (.crash _) => false
  | .replay letter _ now _ => (d.replaySource letter).all fun source =>
      (d.dedup ((fun _ => "key") ({ source with submittedAt := now } : MaintenanceJobRequest).dedupMaterial)).isNone
  | _ => true

theorem calm_undisturbed (d : Deployment ℕ ℕ) (event : Event ℕ ℕ) (h : calm d event = true) :
    Undisturbed (fun _ => "key") d event := by
  cases event with
  | replay letter j now limited =>
    intro source hsource
    simpa [calm, hsource] using h
  | queue l => cases l <;> simp_all [calm, Undisturbed]
  | enqueue | cooldownEnds | purge => trivial

theorem replay_state :
    ((Run.exec (Run.checked (Deployment.step oneAttempt fun _ => "key") calm) Deployment.start replayRun).map fun d =>
      (d.system.status 7, d.system.status 8, d.system.redis.deadLetters.map (·.jobId), d.replays)) =
      some (some .failed, some .queued, [7], [⟨0, 8, false, some 1⟩]) := by
  decide

theorem replay_promises : ∃ d : Deployment ℕ ℕ, d.system.status 8 = some .queued ∧
    d.replays = [⟨0, 8, false, some 1⟩] ∧ d.Promises := by
  obtain ⟨d, hd, hstate⟩ := Option.map_eq_some_iff.mp replay_state
  simp only [Prod.mk.injEq] at hstate
  exact ⟨d, hstate.2.1, hstate.2.2.2, undisturbed_promises (Run.Guarded.of_exec calm_undisturbed _ hd)⟩

end Alexandria.Maintenance
