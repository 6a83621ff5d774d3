import Alexandria.Maintenance.Terminal

/-! # How often a handler is started

`mark_running` advances the attempts counter and `mark_failed` compares it with `max_attempts`; nothing
compares it when an entry is handed out again. A worker that dies inside the handler never reaches
`mark_failed`, so each redelivery starts the handler once more. Starts stay bounded in the runs in which
auto-claim hands out an entry only while its counter is below the limit and no worker is working on it.
-/

namespace Alexandria.Maintenance
set_option autoImplicit false

variable {J W : Type}

/-! ## The side condition on redelivery -/

/-- The stored attempts counter; an absent hash or field counts as zero, as `HINCRBY` does. -/
def Redis.attempts (r : Redis J) (j : J) : ℕ := ((r.hashes j).bind (·.attempts)).getD 0

/-- Auto-claim takes only entries that no worker is working on and whose counter is below the limit. -/
def RedeliversBelowLimit (cfg : MaintenanceQueueConfig) (s : System J W) : Label J W → Prop
  | .autoclaim w e =>
    Unheld s (.autoclaim w e) ∧ ∀ j, s.redis.stream[e]? = some j → s.redis.attempts j < cfg.maxAttempts
  | _ => True

section Condition
variable {cfg : MaintenanceQueueConfig} {s : System J W} {l : Label J W}

theorem RedeliversBelowLimit.unheld (h : RedeliversBelowLimit cfg s l) : Unheld s l := by
  cases l with
  | autoclaim w e => exact h.1
  | _ => trivial

theorem RedeliversBelowLimit.of_not_autoclaim (h : l.isAutoclaim = false) : RedeliversBelowLimit cfg s l := by
  cases l with
  | autoclaim w e => cases h
  | _ => trivial

end Condition

/-! ## The budget of one job

Only a hash that still has its request fields leads to a start, so the counter is compared with the starts
there; a hash that expired and came back through `HINCRBY` counts from zero but is never started from.
-/

/-- `n` starts are paid for by the counter, and there is room for the next write of it. -/
structure Budget (cfg : MaintenanceQueueConfig) (n : ℕ) (h : Option StatusHash) : Prop where
  le : n ≤ cfg.maxAttempts
  paid : ∀ hash, h = some hash → hash.request.isSome → n ≤ hash.attempts.getD 0

/-- A counter below the limit. -/
def BelowLimit (cfg : MaintenanceQueueConfig) (h : Option StatusHash) : Prop :=
  ∀ hash, h = some hash → hash.request.isSome → hash.attempts.getD 0 < cfg.maxAttempts

/-- What a holder may rely on until it starts the handler. -/
def Allowance (cfg : MaintenanceQueueConfig) (n : ℕ) (h : Option StatusHash) : Phase → Prop
  | .received => BelowLimit cfg h
  | .delivered _ => n + 1 ≤ cfg.maxAttempts
  | .counted _ _ => Budget cfg (n + 1) h
  | .marked _ _ => Budget cfg (n + 1) h
  | .ready _ _ => Budget cfg (n + 1) h
  | _ => True

theorem Allowance.of_closing {cfg : MaintenanceQueueConfig} {n : ℕ} {h : Option StatusHash} {p : Phase}
    (hp : p.closing = true) : Allowance cfg n h p := by
  cases p with
  | dropping | recorded | burying | acking => trivial
  | _ => cases hp

section Commands
variable [DecidableEq J] {cfg : MaintenanceQueueConfig}

theorem Budget.hset {r : Redis J} {j : J} {n : ℕ} (hb : Budget cfg n (r.hashes j)) (m : MaintenanceStatusMutation) :
    Budget cfg n ((r.hset j m).hashes j) := by
  refine ⟨hb.le, ?_⟩
  intro hash hhash hreq
  have heq : (r.hashOf j).set m = hash := by simpa [Redis.hset] using hhash
  subst heq
  cases hj : r.hashes j with
  | none => simp [Redis.hashOf, hj, StatusHash.set] at hreq
  | some old =>
    simp only [Redis.hashOf, hj, StatusHash.set, Option.getD_some] at hreq ⊢
    exact hb.paid old hj hreq

theorem Budget.hincrby {r : Redis J} {j : J} {n : ℕ} (hb : Budget cfg n (r.hashes j)) (hn : n + 1 ≤ cfg.maxAttempts) :
    Budget cfg (n + 1) ((r.hincrby j).hashes j) := by
  refine ⟨hn, ?_⟩
  intro hash hhash hreq
  have heq : { r.hashOf j with attempts := some (r.nextAttempt j) } = hash := by
    simpa [Redis.hincrby] using hhash
  subst heq
  cases hj : r.hashes j with
  | none => simp [Redis.hashOf, hj] at hreq
  | some old =>
    simp only [Redis.nextAttempt, Redis.hashOf, hj, Option.getD_some] at hreq ⊢
    have := hb.paid old hj hreq
    omega

theorem Budget.room {n : ℕ} {h : Option StatusHash} {job : MaintenanceJobSnapshot} (hb : Budget cfg n h)
    (hlimit : BelowLimit cfg h) (hdec : decodeJobSnapshot h = .ok (some job)) : n + 1 ≤ cfg.maxAttempts := by
  cases h with
  | none => cases hdec
  | some hash =>
    have hreq : hash.request.isSome := by
      cases hr : hash.request with
      | none => simp [decodeJobSnapshot, hr] at hdec
      | some request => rfl
    have := hb.paid hash rfl hreq
    have := hlimit hash rfl hreq
    omega

/-- One command keeps the budget of its job, and its holder's allowance. -/
theorem advance_budget {s : System J W} {now : String} {r : Redis J} {e : ℕ} {j : J} {p : Phase} {x : Worker J}
    (h : advance cfg now s.redis e j p = some (r, x)) (hb : Budget cfg (s.starts j) (s.redis.hashes j))
    (hp : Allowance cfg (s.starts j) (s.redis.hashes j) p) :
    Budget cfg (startsAfter s j p j) (r.hashes j) ∧
      ∀ f i q, x = .busy f i q → Allowance cfg (startsAfter s j p j) (r.hashes j) q := by
  cases p with
  | received =>
    simp only [advance] at h
    split at h
    · cases h
      exact ⟨hb, by rintro f i q ⟨⟩⟩
    · cases h
      exact ⟨hb, by rintro f i q ⟨⟩; trivial⟩
    · rename_i job hdec
      cases h
      exact ⟨hb, by rintro f i q ⟨⟩; exact hb.room hp hdec⟩
  | dropping => cases h; exact ⟨hb, by rintro f i q ⟨⟩⟩
  | delivered job =>
    cases h
    have counted := hb.hincrby hp
    refine ⟨⟨hb.le, fun hash hhash hreq => ?_⟩, by rintro f i q ⟨⟩; exact counted⟩
    exact Nat.le_of_succ_le (counted.paid hash hhash hreq)
  | counted job n =>
    cases h
    exact ⟨hb.hset _, by rintro f i q ⟨⟩; exact Budget.hset hp _⟩
  | marked job n => cases h; exact ⟨hb, by rintro f i q ⟨⟩; exact hp⟩
  | ready job n =>
    cases h
    have started : startsAfter s j (.ready job n) j = s.starts j + 1 := Function.update_self _ _ _
    rw [started]
    exact ⟨hp, by rintro f i q ⟨⟩; trivial⟩
  | executing job n => cases h
  | ended job n outcome => cases h; exact ⟨hb.hset _, by rintro f i q ⟨⟩; trivial⟩
  | recorded job n outcome =>
    cases h
    exact ⟨hb, fun f i q hx => .of_closing (afterRecord_closing hx)⟩
  | burying job n summary => cases h; exact ⟨hb, by rintro f i q ⟨⟩; trivial⟩
  | acking job n => cases h; exact ⟨hb, by rintro f i q ⟨⟩⟩

theorem startsAfter_other (s : System J W) (j : J) (p : Phase) (i : J) (h : i ≠ j) :
    startsAfter s j p i = s.starts i := by
  cases p with
  | ready job n => exact Function.update_of_ne h _ _
  | _ => rfl

end Commands

/-! ## The budget over the system -/

structure Budgeted (cfg : MaintenanceQueueConfig) (s : System J W) : Prop where
  owned : Owned s
  budget : ∀ j, Budget cfg (s.starts j) (s.redis.hashes j)
  unissued : ∀ j, s.issued j = false → s.starts j = 0
  undelivered : ∀ e j, s.redis.stream[e]? = some j → s.redis.delivered ≤ e → BelowLimit cfg (s.redis.hashes j)
  allowance : ∀ w e j p, s.workers w = .busy e j p → Allowance cfg (s.starts j) (s.redis.hashes j) p

theorem budgeted_start (cfg : MaintenanceQueueConfig) : Budgeted cfg (System.start : System J W) where
  owned := owned_start
  budget := fun j => ⟨Nat.zero_le _, by simp [System.start]⟩
  unissued := by simp [System.start]
  undelivered := by simp [System.start]
  allowance := by simp [System.start]

theorem belowLimit_of_attempts {cfg : MaintenanceQueueConfig} {r : Redis J} {j : J}
    (h : r.attempts j < cfg.maxAttempts) : BelowLimit cfg (r.hashes j) := by
  intro hash hhash _
  simpa [Redis.attempts, hhash] using h

section Runs
variable {cfg : MaintenanceQueueConfig}

/-- Submission of a fresh job: it starts with an unspent counter. -/
theorem Budgeted.submit [DecidableEq J] {s : System J W} (hs : Budgeted cfg s) {i : J} {request : MaintenanceJobRequest}
    (hi : s.issued i = false) (owned : Owned (s.enqueue i request)) : Budgeted cfg (s.enqueue i request) := by
  have other : ∀ j, j ≠ i → (s.enqueue i request).redis.hashes j = s.redis.hashes j :=
    fun j hj => Function.update_of_ne hj _ _
  have positive := cfg.one_le
  have fresh : BelowLimit cfg ((s.enqueue i request).redis.hashes i) := by
    intro hash hhash _
    have : hash.attempts = some 0 := by
      simp only [System.enqueue, Function.update_self, Option.some.injEq] at hhash
      simp [← hhash]
    simp only [this, Option.getD_some]
    omega
  have unheld : ∀ w e j p, s.workers w = .busy e j p → j ≠ i := by
    rintro w e j p hw rfl
    have := hs.owned.issued j (List.mem_of_getElem? (hs.owned.held w e j p hw).2)
    rw [this] at hi
    simp at hi
  refine ⟨owned, ?_, ?_, ?_, ?_⟩
  · intro j
    by_cases hij : j = i
    · subst hij
      have zero : (s.enqueue j request).starts j = 0 := hs.unissued j hi
      rw [zero]
      exact ⟨Nat.zero_le _, fun _ _ _ => Nat.zero_le _⟩
    · rw [other j hij]
      exact hs.budget j
  · intro j hj
    by_cases hij : j = i
    · exact hij ▸ hs.unissued i hi
    · exact hs.unissued j (by simpa [System.enqueue, Function.update_of_ne hij] using hj)
  · intro e j hj he
    by_cases hij : j = i
    · exact hij ▸ fresh
    · rw [other j hij]
      have hj' : (s.redis.stream ++ [i])[e]? = some j := hj
      rw [List.getElem?_append] at hj'
      split at hj'
      · exact hs.undelivered e j hj' he
      · exact absurd (List.mem_singleton.mp (List.mem_of_getElem? hj')) hij
  · intro w e j p hw
    have hij := unheld w e j p hw
    rw [other j hij]
    exact hs.allowance w e j p hw

/-- An expired hash owes nothing. -/
theorem Allowance.expire {n : ℕ} {h : Option StatusHash} {p : Phase} (hp : Allowance cfg n h p) :
    Allowance cfg n none p := by
  have gone : ∀ {m}, Budget cfg m h → Budget cfg m none := fun hb => ⟨hb.le, by simp⟩
  cases p with
  | received => intro hash hhash; cases hhash
  | delivered job => exact hp
  | counted job n => exact gone hp
  | marked job n => exact gone hp
  | ready job n => exact gone hp
  | _ => trivial

theorem Budgeted.ttl [DecidableEq J] {s : System J W} (hs : Budgeted cfg s) {i : J} :
    Budgeted cfg { s with redis := { s.redis with hashes := Function.update s.redis.hashes i none } } := by
  refine ⟨⟨hs.owned.nodup, hs.owned.issued, hs.owned.bound, hs.owned.delivered, hs.owned.held, hs.owned.alone⟩,
    ?_, hs.unissued, ?_, ?_⟩
  · intro j
    by_cases hij : j = i
    · subst hij
      simp only [Function.update_self]
      exact ⟨(hs.budget j).le, by simp⟩
    · simp only [Function.update_of_ne hij]
      exact hs.budget j
  · intro e j hj he
    by_cases hij : j = i
    · subst hij
      simp only [Function.update_self]
      intro hash hhash
      simp at hhash
    · simp only [Function.update_of_ne hij]
      exact hs.undelivered e j hj he
  · intro w e j p hw
    by_cases hij : j = i
    · subst hij
      simp only [Function.update_self]
      exact (hs.allowance w e j p hw).expire
    · simp only [Function.update_of_ne hij]
      exact hs.allowance w e j p hw

/-- A worker that takes an entry, or leaves one, without a write. -/
theorem Budgeted.setWorker [DecidableEq W] {s : System J W} (hs : Budgeted cfg s) {w : W} {x : Worker J}
    (owned : Owned (s.setWorker w x))
    (hx : ∀ e j p, x = .busy e j p → Allowance cfg (s.starts j) (s.redis.hashes j) p) :
    Budgeted cfg (s.setWorker w x) := by
  refine ⟨owned, hs.budget, hs.unissued, hs.undelivered, ?_⟩
  intro v e j p hv
  obtain ⟨-, hv⟩ | ⟨-, hv⟩ := holder_setWorker hv
  · exact hx e j p hv
  · exact hs.allowance v e j p hv

variable [DecidableEq J] [DecidableEq W]

theorem Budgeted.command {s : System J W} (hs : Budgeted cfg s) {w : W} {e : ℕ} {i : J} {p : Phase} {r : Redis J}
    {x : Worker J} {now : String} (hw : s.workers w = .busy e i p)
    (ha : advance cfg now s.redis e i p = some (r, x))
    (owned : Owned { s.setWorker w x with redis := r, starts := startsAfter s i p }) :
    Budgeted cfg { s.setWorker w x with redis := r, starts := startsAfter s i p } := by
  have touch := advance_touches ha
  obtain ⟨hpe, hie⟩ := hs.owned.held w e i p hw
  obtain ⟨budget, allowance⟩ := advance_budget ha (hs.budget i) (hs.allowance w e i p hw)
  refine ⟨owned, ?_, ?_, ?_, ?_⟩
  · intro j
    by_cases hij : j = i
    · exact hij ▸ budget
    · simp only [startsAfter_other s i p j hij, touch.hashes j hij]
      exact hs.budget j
  · intro j hj
    have hij : j ≠ i := by
      rintro rfl
      have := hs.owned.issued j (List.mem_of_getElem? hie)
      rw [setWorker_issued, this] at hj
      simp at hj
    simp only [startsAfter_other s i p j hij]
    exact hs.unissued j hj
  · intro f j hj hf
    simp only [touch.stream, touch.delivered] at hj hf ⊢
    have hij : j ≠ i := by
      rintro rfl
      have := hs.owned.delivered e hpe
      rw [hs.owned.entry_unique hj hie] at hf
      omega
    rw [touch.hashes j hij]
    exact hs.undelivered f j hj hf
  · intro v f j q hv
    obtain ⟨-, hx⟩ | ⟨hvw, hold⟩ := holder_setWorker (s := s) hv
    · obtain hx' | ⟨q', hx'⟩ := touch.worker <;> rw [hx'] at hx <;> cases hx
      exact allowance e i q hx'
    · have hij : j ≠ i := by
        rintro rfl
        exact hvw (hs.owned.holder_unique hold hw)
      simp only [startsAfter_other s i p j hij, touch.hashes j hij]
      exact hs.allowance v f j q hold

theorem Budgeted.step {s t : System J W} {l : Label J W} (hs : Budgeted cfg s) (hok : RedeliversBelowLimit cfg s l)
    (h : step cfg s l = some t) : Budgeted cfg t := by
  have owned := hs.owned.step hok.unheld h
  cases l with
  | submit i request =>
    obtain ⟨hi, rfl⟩ := step_submit h
    exact hs.submit hi owned
  | ttl i => cases h; exact hs.ttl
  | autoclaim w e =>
    obtain ⟨j, -, -, hj, rfl⟩ := step_autoclaim h
    refine hs.setWorker owned ?_
    rintro e' j' p ⟨⟩
    exact belowLimit_of_attempts (hok.2 j hj)
  | readgroup w =>
    obtain ⟨j, -, hj, rfl⟩ := step_readgroup h
    refine ⟨owned, hs.budget, hs.unissued, ?_, ?_⟩
    · intro e i hi he
      exact hs.undelivered e i hi (Nat.le_of_succ_le he)
    · intro v e i p hv
      obtain ⟨-, hv⟩ | ⟨-, hv⟩ := holder_setWorker (s := s) hv
      · cases hv
        exact hs.undelivered _ _ hj (Nat.le_refl _)
      · exact hs.allowance v e i p hv
  | command w now =>
    obtain ⟨e, i, p, r, x, hw, ha, rfl⟩ := step_command h
    exact hs.command hw ha owned
  | handlerEnds w outcome =>
    obtain ⟨e, i, job, n, -, rfl⟩ := step_handlerEnds h
    exact hs.setWorker owned (by rintro e' j' p ⟨⟩; trivial)
  | crash w =>
    cases h
    exact hs.setWorker owned (by rintro e' j' p ⟨⟩)

/-! ## Whole runs -/

/-- In every run in which auto-claim redelivers only entries whose counter is below the limit and that no
worker is working on, no job's handler is started more often than `max_attempts`. -/
theorem starts_le_max_attempts {s : System J W} (h : Run.Guarded (step cfg) (RedeliversBelowLimit cfg) System.start s)
    (j : J) : s.starts j ≤ cfg.maxAttempts := by
  have budgeted : Budgeted cfg s :=
    h.invariant (budgeted_start cfg) fun _ _ _ ha hok hstep => ha.step hok hstep
  exact (budgeted.budget j).le

end Runs

/-! ## The crash loop -/

def acceptance : List (Label ℕ ℕ) := [.submit 7 ⟨.embeddingReindex, "api", "", 100, false, "t0"⟩, .readgroup 0]

/-- From delivery to the start of the handler. -/
def startHandler (w : ℕ) : List (Label ℕ ℕ) := List.replicate 5 (.command w "t1")

/-- The worker dies inside the handler, and another one claims the entry and starts it again. -/
def crashAndRestart (w : ℕ) : List (Label ℕ ℕ) := [.crash w, .autoclaim (w + 1) 0] ++ startHandler (w + 1)

theorem four_starts :
    ((Run.exec (step defaultQueueConfig) System.start
        (acceptance ++ startHandler 0 ++ crashAndRestart 0 ++ crashAndRestart 1 ++ crashAndRestart 2)).map
      fun s => s.starts 7) = some 4 := by
  decide

/-- The number of starts is not bounded by `max_attempts` over all runs of the workers. -/
theorem starts_exceed_max_attempts :
    ¬ ∀ (cfg : MaintenanceQueueConfig) (s : System ℕ ℕ) (j : ℕ), Run.Runs (step cfg) System.start s →
      s.starts j ≤ cfg.maxAttempts := by
  intro bounded
  obtain ⟨s, hs, h⟩ := Option.map_eq_some_iff.mp four_starts
  have := bounded defaultQueueConfig s 7 (.of_exec _ hs)
  rw [h] at this
  exact absurd this (by decide)

theorem one_start :
    ((Run.exec (Run.checked (step defaultQueueConfig) fun _ l => !l.isAutoclaim) System.start
      (acceptance ++ startHandler 0)).map fun s => s.starts 7) = some 1 := by
  decide

theorem starts_le_max_attempts_once :
    ∃ s : System ℕ ℕ, s.starts 7 = 1 ∧ s.starts 7 ≤ defaultQueueConfig.maxAttempts := by
  obtain ⟨s, hs, h⟩ := Option.map_eq_some_iff.mp one_start
  have permitted : ∀ (a : System ℕ ℕ) l, (!l.isAutoclaim) = true → RedeliversBelowLimit defaultQueueConfig a l :=
    fun a l hl => .of_not_autoclaim (by simpa using hl)
  exact ⟨s, h, starts_le_max_attempts (.of_exec permitted _ hs) 7⟩

end Alexandria.Maintenance
