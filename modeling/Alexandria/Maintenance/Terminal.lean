import Alexandria.Maintenance.Delivery

/-! # Terminal statuses

A worker writes SUCCEEDED or FAILED with one command and acknowledges the entry with a later one. Between
the two the entry is still pending, so auto-claim can hand it out again, and `mark_running` writes RUNNING
without looking at the stored status. The first half shows that run; the second half shows that redelivery
of a live or an already finished entry is the only way a terminal status is lost.
-/

namespace Alexandria.Maintenance
set_option autoImplicit false

variable {J W : Type}

/-! ## The side condition on redelivery -/

/-- Auto-claim takes only entries that no worker is working on and whose job is not finished. -/
def RedeliversUnfinished (s : System J W) : Label J W → Prop
  | .autoclaim w e =>
    Unheld s (.autoclaim w e) ∧
      ∀ j st, s.redis.stream[e]? = some j → s.status j = some st → st.terminal = false
  | _ => True

theorem RedeliversUnfinished.unheld {s : System J W} {l : Label J W} (h : RedeliversUnfinished s l) : Unheld s l := by
  cases l with
  | autoclaim w e => exact h.1
  | _ => trivial

theorem RedeliversUnfinished.of_not_autoclaim {s : System J W} {l : Label J W} (h : l.isAutoclaim = false) :
    RedeliversUnfinished s l := by
  cases l with
  | autoclaim w e => cases h
  | _ => trivial

/-- The phases in which a worker writes no status any more. -/
def Phase.closing : Phase → Bool
  | .dropping => true
  | .recorded _ _ _ => true
  | .burying _ _ _ => true
  | .acking _ _ => true
  | _ => false

/-- A finished job was delivered, and whoever holds it only has to acknowledge it; after its hash expired
a new holder may also be about to find that out. -/
structure Closed (s : System J W) (j : J) : Prop where
  issued : s.issued j = true
  delivered : ∀ e, s.redis.stream[e]? = some j → e < s.redis.delivered
  holders : ∀ w e p, s.workers w = .busy e j p → p.closing = true ∨ p = .received ∧ s.redis.hashes j = none

structure Settled (s : System J W) : Prop where
  owned : Owned s
  unissued : ∀ j, s.issued j = false → s.redis.hashes j = none
  closed : ∀ j st, s.status j = some st → st.terminal = true → Closed s j

theorem settled_start : Settled (System.start : System J W) where
  owned := owned_start
  unissued := by simp [System.start]
  closed := by simp [System.status, System.start]

/-! ## What a command does to the status -/

section Commands
variable {cfg : MaintenanceQueueConfig}

theorem afterRecord_closing {e : ℕ} {j : J} {job : MaintenanceJobSnapshot} {n : ℕ} {outcome : JobOutcome}
    {f : ℕ} {i : J} {q : Phase} (h : afterRecord cfg e j job n outcome = .busy f i q) : q.closing = true := by
  cases outcome with
  | result json => cases h; rfl
  | error summary =>
    by_cases hn : cfg.maxAttempts ≤ n <;> simp only [afterRecord, hn, if_true, if_false] at h <;> cases h
    rfl

variable [DecidableEq J]

/-- A worker in a closing phase writes no hash and stays in one until it lets go. -/
theorem advance_closing {now : String} {r r' : Redis J} {e : ℕ} {j : J} {p : Phase} {x : Worker J}
    (h : advance cfg now r e j p = some (r', x)) (hp : p.closing = true) :
    r'.hashes = r.hashes ∧ ∀ f i q, x = .busy f i q → q.closing = true := by
  cases p with
  | dropping =>
    cases h
    exact ⟨rfl, by rintro f i q ⟨⟩⟩
  | recorded job n outcome =>
    cases h
    exact ⟨rfl, fun f i q hx => afterRecord_closing hx⟩
  | burying job n summary =>
    cases h
    exact ⟨rfl, by rintro f i q ⟨⟩; rfl⟩
  | acking job n =>
    cases h
    exact ⟨rfl, by rintro f i q ⟨⟩⟩
  | _ => cases hp

/-- The only command after which a status is terminal that was not so before is the outcome write, and
its worker is closing. -/
theorem advance_terminal {now : String} {r r' : Redis J} {e : ℕ} {j : J} {p : Phase} {x : Worker J}
    (h : advance cfg now r e j p = some (r', x))
    (before : ∀ st, (r.hashes j).bind (·.status) = some st → st.terminal = false)
    {st : MaintenanceJobStatus} (after : (r'.hashes j).bind (·.status) = some st) (hst : st.terminal = true) :
    ∀ f i q, x = .busy f i q → q.closing = true := by
  have same : r'.hashes j = r.hashes j → False := by
    intro hr
    rw [hr] at after
    rw [before st after] at hst
    simp at hst
  cases p with
  | received =>
    simp only [advance] at h
    split at h <;> cases h <;> exact (same rfl).elim
  | delivered job =>
    cases h
    exfalso
    have kept : ((r.hincrby j).hashes j).bind (·.status) = (r.hashOf j).status := by
      simp [Redis.hincrby]
    rw [kept] at after
    cases hj : r.hashes j with
    | none => simp [Redis.hashOf, hj] at after
    | some hash =>
      have := before st (by simpa [Redis.hashOf, hj] using after)
      rw [this] at hst
      simp at hst
  | counted job n =>
    cases h
    exfalso
    have : st = .running := by simpa [Redis.hset, StatusHash.set, runningMutation] using after.symm
    rw [this] at hst
    cases hst
  | ended job n outcome =>
    cases h
    rintro f i q ⟨⟩
    rfl
  | executing job n => cases h
  | dropping => cases h; exact (same rfl).elim
  | marked job n => cases h; exact (same rfl).elim
  | ready job n => cases h; exact (same rfl).elim
  | recorded job n outcome => cases h; exact (same rfl).elim
  | burying job n summary => cases h; exact (same rfl).elim
  | acking job n => cases h; exact (same rfl).elim

end Commands

section Runs
variable [DecidableEq J] [DecidableEq W] {cfg : MaintenanceQueueConfig}

/-! ## A finished job stays finished -/

/-- One permitted move keeps a finished job closed, and changes its status only by expiry. -/
theorem Closed.step {s t : System J W} {l : Label J W} {j : J} (hj : Closed s j)
    (hdone : (∃ st, s.status j = some st ∧ st.terminal = true) ∨ s.redis.hashes j = none)
    (hok : RedeliversUnfinished s l) (h : step cfg s l = some t) :
    Closed t j ∧ (t.redis.hashes j = s.redis.hashes j ∨ t.redis.hashes j = none) := by
  cases l with
  | submit i request =>
    obtain ⟨hi, rfl⟩ := step_submit h
    have hne : j ≠ i := by
      rintro rfl
      rw [hj.issued] at hi
      simp at hi
    have hashes : (s.enqueue i request).redis.hashes j = s.redis.hashes j := Function.update_of_ne hne _ _
    refine ⟨⟨?_, ?_, ?_⟩, .inl hashes⟩
    · exact (Function.update_of_ne hne _ _).trans hj.issued
    · intro e he
      refine hj.delivered e ?_
      have he' : (s.redis.stream ++ [i])[e]? = some j := he
      rw [List.getElem?_append] at he'
      split at he'
      · exact he'
      · have := List.mem_of_getElem? he'
        exact absurd (List.mem_singleton.mp this) hne
    · intro w e p hw
      rw [hashes]
      exact hj.holders w e p hw
  | ttl i =>
    cases h
    by_cases hij : j = i
    · subst hij
      refine ⟨⟨hj.issued, hj.delivered, ?_⟩, .inr (Function.update_self _ _ _)⟩
      intro w e p hw
      exact (hj.holders w e p hw).imp_right fun hp => ⟨hp.1, Function.update_self _ _ _⟩
    · have hashes := Function.update_of_ne hij (none : Option StatusHash) s.redis.hashes
      refine ⟨⟨hj.issued, hj.delivered, ?_⟩, .inl hashes⟩
      intro w e p hw
      exact (hj.holders w e p hw).imp_right fun hp => ⟨hp.1, hashes.trans hp.2⟩
  | autoclaim w e =>
    obtain ⟨i, -, -, hi, rfl⟩ := step_autoclaim h
    refine ⟨⟨hj.issued, hj.delivered, ?_⟩, .inl rfl⟩
    intro v f p hv
    obtain ⟨-, hv⟩ | ⟨-, hv⟩ := holder_setWorker hv
    · cases hv
      refine .inr ⟨rfl, ?_⟩
      obtain ⟨st, hst, hterm⟩ | hnone := hdone
      · rw [hok.2 j st hi hst] at hterm
        simp at hterm
      · exact hnone
    · exact hj.holders v f p hv
  | readgroup w =>
    obtain ⟨i, -, hi, rfl⟩ := step_readgroup h
    have hne : i ≠ j := by
      rintro rfl
      exact absurd (hj.delivered _ hi) (Nat.lt_irrefl _)
    refine ⟨⟨hj.issued, fun e he => Nat.lt_succ_of_lt (hj.delivered e he), ?_⟩, .inl rfl⟩
    intro v f p hv
    obtain ⟨-, hv⟩ | ⟨-, hv⟩ := holder_setWorker (s := s) hv
    · cases hv
      exact absurd rfl hne
    · exact hj.holders v f p hv
  | command w now =>
    obtain ⟨e, i, p, r, x, hw, ha, rfl⟩ := step_command h
    have touch := advance_touches ha
    have rest : r.hashes j = s.redis.hashes j → (∀ f q, x = .busy f j q → q.closing = true) →
        Closed { s.setWorker w x with redis := r, starts := startsAfter s i p } j := by
      intro hashes hx
      refine ⟨hj.issued, ?_, ?_⟩
      · simpa only [touch.stream, touch.delivered] using hj.delivered
      · intro v f q hv
        obtain ⟨-, hv⟩ | ⟨-, hv⟩ := holder_setWorker (s := s) hv
        · exact .inl (hx f q hv)
        · simpa only [hashes] using hj.holders v f q hv
    by_cases hij : i = j
    · subst hij
      obtain hp | ⟨rfl, hnone⟩ := hj.holders w e p hw
      · obtain ⟨hashes, hx⟩ := advance_closing ha hp
        exact ⟨rest (congrFun hashes i) fun f q => hx f i q, .inl (congrFun hashes i)⟩
      · simp only [advance, hnone, decodeJobSnapshot] at ha
        cases ha
        exact ⟨rest rfl (by rintro f q ⟨⟩; rfl), .inl rfl⟩
    · have hashes := touch.hashes j (Ne.symm hij)
      refine ⟨rest hashes ?_, .inl hashes⟩
      rintro f q rfl
      obtain hx | ⟨q', hx⟩ := touch.worker
      · simp at hx
      · cases hx
        exact absurd rfl hij
  | handlerEnds w outcome =>
    obtain ⟨e, i, job, n, hw, rfl⟩ := step_handlerEnds h
    have hne : i ≠ j := by
      rintro rfl
      obtain hp | ⟨hp, -⟩ := hj.holders w e _ hw <;> cases hp
    refine ⟨⟨hj.issued, hj.delivered, ?_⟩, .inl rfl⟩
    intro v f p hv
    obtain ⟨-, hv⟩ | ⟨-, hv⟩ := holder_setWorker hv
    · cases hv
      exact absurd rfl hne
    · exact hj.holders v f p hv
  | crash w =>
    cases h
    refine ⟨⟨hj.issued, hj.delivered, ?_⟩, .inl rfl⟩
    intro v f p hv
    obtain ⟨-, hv⟩ | ⟨-, hv⟩ := holder_setWorker hv
    · simp at hv
    · exact hj.holders v f p hv

/-- A command that makes a status terminal leaves the job closed: its only holder is the writer. -/
theorem Settled.closed_command {s : System J W} {w : W} {e : ℕ} {j : J} {p : Phase} {r : Redis J} {x : Worker J}
    {now : String} (hs : Settled s) (hw : s.workers w = .busy e j p)
    (ha : advance cfg now s.redis e j p = some (r, x))
    (before : ∀ st, s.status j = some st → st.terminal = false) {st : MaintenanceJobStatus}
    (after : (r.hashes j).bind (·.status) = some st) (hst : st.terminal = true) :
    Closed { s.setWorker w x with redis := r, starts := startsAfter s j p } j := by
  have touch := advance_touches ha
  have closing := advance_terminal ha before after hst
  obtain ⟨hpe, hje⟩ := hs.owned.held w e j p hw
  refine ⟨?_, ?_, ?_⟩
  · exact hs.owned.issued j (List.mem_of_getElem? hje)
  · intro f hf
    simp only [touch.stream, touch.delivered] at hf ⊢
    rw [hs.owned.entry_unique hf hje]
    exact hs.owned.delivered e hpe
  · intro v f q hv
    obtain ⟨-, hv⟩ | ⟨hvw, hv⟩ := holder_setWorker (s := s) hv
    · exact .inl (closing f j q hv)
    · exact absurd (hs.owned.holder_unique hv hw) hvw

theorem Settled.step {s t : System J W} {l : Label J W} (hs : Settled s) (hok : RedeliversUnfinished s l)
    (h : step cfg s l = some t) : Settled t := by
  have owned := hs.owned.step hok.unheld h
  have keeps : ∀ j st, s.status j = some st → st.terminal = true → Closed t j := fun j st hst hterm =>
    ((hs.closed j st hst hterm).step (.inl ⟨st, hst, hterm⟩) hok h).1
  cases l with
  | submit i request =>
    obtain ⟨hi, rfl⟩ := step_submit h
    refine ⟨owned, ?_, ?_⟩
    · intro j hj
      by_cases hij : j = i
      · simp [System.enqueue, hij] at hj
      · have hj' : s.issued j = false := by simpa [System.enqueue, Function.update_of_ne hij] using hj
        simpa [System.enqueue, Function.update_of_ne hij] using hs.unissued j hj'
    · intro j st hst hterm
      by_cases hij : j = i
      · have : st = .queued := by simpa [System.status, System.enqueue, hij] using hst.symm
        rw [this] at hterm
        cases hterm
      · refine keeps j st ?_ hterm
        simpa [System.status, System.enqueue, Function.update_of_ne hij] using hst
  | ttl i =>
    cases h
    refine ⟨owned, ?_, ?_⟩
    · intro j hj
      by_cases hij : j = i
      · simp [hij]
      · simpa [Function.update_of_ne hij] using hs.unissued j hj
    · intro j st hst hterm
      by_cases hij : j = i
      · simp [System.status, hij] at hst
      · refine keeps j st ?_ hterm
        simpa [System.status, Function.update_of_ne hij] using hst
  | autoclaim w e =>
    obtain ⟨i, -, -, -, rfl⟩ := step_autoclaim h
    exact ⟨owned, hs.unissued, keeps⟩
  | readgroup w =>
    obtain ⟨i, -, -, rfl⟩ := step_readgroup h
    exact ⟨owned, hs.unissued, keeps⟩
  | command w now =>
    obtain ⟨e, i, p, r, x, hw, ha, rfl⟩ := step_command h
    have touch := advance_touches ha
    obtain ⟨-, hie⟩ := hs.owned.held w e i p hw
    refine ⟨owned, ?_, ?_⟩
    · intro j hj
      have hij : j ≠ i := by
        rintro rfl
        have := hs.owned.issued j (List.mem_of_getElem? hie)
        rw [setWorker_issued, this] at hj
        simp at hj
      exact (touch.hashes j hij).trans (hs.unissued j hj)
    · intro j st hst hterm
      by_cases hold : ∃ st', s.status j = some st' ∧ st'.terminal = true
      · obtain ⟨st', hst', hterm'⟩ := hold
        exact keeps j st' hst' hterm'
      · by_cases hij : j = i
        · subst hij
          refine hs.closed_command hw ha ?_ hst hterm
          intro st' hst'
          exact Bool.eq_false_iff.mpr fun hterm' => hold ⟨st', hst', hterm'⟩
        · refine keeps j st ?_ hterm
          simpa [System.status, touch.hashes j hij] using hst
  | handlerEnds w outcome =>
    obtain ⟨e, i, job, n, -, rfl⟩ := step_handlerEnds h
    exact ⟨owned, hs.unissued, keeps⟩
  | crash w =>
    cases h
    exact ⟨owned, hs.unissued, keeps⟩

/-! ## Whole runs -/

/-- In every run in which auto-claim redelivers only unfinished entries that no worker is working on, a
terminal status is never changed again; it can only expire with its hash. -/
theorem terminal_status_final {s t : System J W} {j : J} {st : MaintenanceJobStatus}
    (hs : Run.Guarded (step cfg) RedeliversUnfinished System.start s)
    (ht : Run.Guarded (step cfg) RedeliversUnfinished s t)
    (hst : s.status j = some st) (hterm : st.terminal = true) : t.status j = some st ∨ t.status j = none := by
  have settled : Settled s := hs.invariant settled_start fun _ _ _ ha hok h => ha.step hok h
  have closed := settled.closed j st hst hterm
  have kept : Closed t j ∧ (t.status j = some st ∨ t.redis.hashes j = none) := by
    refine ht.invariant (P := fun t => Closed t j ∧ (t.status j = some st ∨ t.redis.hashes j = none))
      ⟨closed, .inl hst⟩ ?_
    rintro a l b ⟨ha, hold⟩ hok h
    have done : (∃ st, a.status j = some st ∧ st.terminal = true) ∨ a.redis.hashes j = none :=
      hold.imp_left fun hst => ⟨st, hst, hterm⟩
    obtain ⟨hb, hashes⟩ := ha.step done hok h
    refine ⟨hb, ?_⟩
    obtain hashes | hashes := hashes
    · simpa only [System.status, hashes] using hold
    · exact .inr hashes
  exact kept.2.imp_right fun hnone => by simp [System.status, hnone]

end Runs

/-! ## The lost success and the kept one -/

/-- A worker of job 7 up to and including the command that writes SUCCEEDED. -/
def successRun : List (Label ℕ ℕ) :=
  [.submit 7 ⟨.embeddingReindex, "api", "", 100, false, "t0"⟩, .readgroup 0, .command 0 "t1", .command 0 "t1",
   .command 0 "t1", .command 0 "t1", .command 0 "t1", .handlerEnds 0 (.result "done"), .command 0 "t2"]

/-- The worker dies before its XACK and a second worker claims the entry and marks it running. -/
def redeliveryRun : List (Label ℕ ℕ) :=
  [.crash 0, .autoclaim 1 0, .command 1 "t3", .command 1 "t3", .command 1 "t3"]

/-- The worker goes on to acknowledge the entry. -/
def acknowledgedRun : List (Label ℕ ℕ) := [.command 0 "t3", .command 0 "t3"]

def defaultQueueConfig : MaintenanceQueueConfig := ⟨3, by decide, by decide⟩

theorem success_then_running :
    ((Run.exec (step defaultQueueConfig) System.start successRun).bind fun s =>
      (Run.exec (step defaultQueueConfig) s redeliveryRun).map fun t => (s.status 7, t.status 7)) =
      some (some .succeeded, some .running) := by
  decide

/-- A job's terminal status is not final over all runs of the workers. -/
theorem terminal_status_lost :
    ¬ ∀ (cfg : MaintenanceQueueConfig) (s t : System ℕ ℕ) (j : ℕ) (st : MaintenanceJobStatus),
      Run.Runs (step cfg) System.start s → Run.Runs (step cfg) s t →
      s.status j = some st → st.terminal = true → t.status j = some st ∨ t.status j = none := by
  intro final
  obtain ⟨s, hs, h⟩ := Option.bind_eq_some_iff.mp success_then_running
  obtain ⟨t, ht, h⟩ := Option.map_eq_some_iff.mp h
  have hsucceeded : s.status 7 = some .succeeded := congrArg Prod.fst h
  have hrunning : t.status 7 = some .running := congrArg Prod.snd h
  have := final defaultQueueConfig s t 7 .succeeded (.of_exec _ hs) (.of_exec _ ht) hsucceeded rfl
  simp [hrunning] at this

theorem success_then_acknowledged :
    ((Run.exec (Run.checked (step defaultQueueConfig) fun _ l => !l.isAutoclaim) System.start successRun).bind fun s =>
      (Run.exec (Run.checked (step defaultQueueConfig) fun _ l => !l.isAutoclaim) s acknowledgedRun).map fun t =>
        (s.status 7, t.redis.pending 0)) = some (some .succeeded, false) := by
  decide

theorem terminal_status_final_acknowledged :
    ∃ s t : System ℕ ℕ, s.status 7 = some .succeeded ∧ t.redis.pending 0 = false ∧
      (t.status 7 = some .succeeded ∨ t.status 7 = none) := by
  obtain ⟨s, hs, h⟩ := Option.bind_eq_some_iff.mp success_then_acknowledged
  obtain ⟨t, ht, h⟩ := Option.map_eq_some_iff.mp h
  have hsucceeded : s.status 7 = some .succeeded := congrArg Prod.fst h
  have permitted : ∀ (a : System ℕ ℕ) l, (!l.isAutoclaim) = true → RedeliversUnfinished a l :=
    fun a l hl => .of_not_autoclaim (by simpa using hl)
  exact ⟨s, t, hsucceeded, congrArg Prod.snd h,
    terminal_status_final (.of_exec permitted _ hs) (.of_exec permitted _ ht) hsucceeded rfl⟩

end Alexandria.Maintenance
