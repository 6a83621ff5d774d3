import Alexandria.Index.Exclusion

/-! # Failed acquisitions

An acquisition fails at once, in the queue of the condition, or at the process lock. Whatever the other tasks do
meanwhile, the task has the lease afterwards that it had before; and when nothing else moves, the whole ledger and
the number of waiting exclusive requests are what they were.
-/

namespace Alexandria.Index
set_option autoImplicit false

/-- The task is inside an acquisition that has not ended. -/
def TaskState.calling (task : TaskState) : Bool :=
  match task.awaiting with
  | some (.sharedTurn _ _) => true
  | some (.exclusiveTurn _ _) => true
  | some (.processLock _ _ _) => true
  | _ => false

theorem sharedBlocked_congr {T : Type} {c c' : Coordinator T} (hledger : c.ledger = c'.ledger)
    (hwaiting : c.waitingExclusiveCount = c'.waitingExclusiveCount) : c.sharedBlocked = c'.sharedBlocked := by
  have howner : c.exclusiveOwner = c'.exclusiveOwner := congrArg Ledger.exclusiveOwner hledger
  unfold Coordinator.sharedBlocked
  rw [howner, hwaiting]

theorem exclusiveAvailable_congr {T : Type} {c c' : Coordinator T} (hledger : c.ledger = c'.ledger) :
    c.exclusiveAvailable = c'.exclusiveAvailable := by
  have howner : c.exclusiveOwner = c'.exclusiveOwner := congrArg Ledger.exclusiveOwner hledger
  have hcount : c.activeSharedCount = c'.activeSharedCount := congrArg Ledger.activeSharedCount hledger
  unfold Coordinator.exclusiveAvailable
  rw [howner, hcount]

section Calls
variable {T : Type} [DecidableEq T] {cfg : CoordinatorConfig} {s s' : IndexSystem T} {t : T}

/-- Task `t` makes a call in the first state and the call has just raised in the second one; the steps in between
meet `ok`. -/
inductive FailedCall (cfg : CoordinatorConfig) (ok : IndexLabel T → Prop) (t : T) (s : IndexSystem T) :
    IndexSystem T → Prop
  | atOnce {s' : IndexSystem T} {name : String} {wait : Bool} {mode : IndexLeaseMode} :
    indexStep cfg s (.enter t name wait mode) = some s' → (s'.tasks t).raised.isSome = true → FailedCall cfg ok t s s'
  | later {a b s' : IndexSystem T} {name : String} {wait : Bool} {mode : IndexLeaseMode} {l : IndexLabel T} :
    indexStep cfg s (.enter t name wait mode) = some a →
    Run.Guarded (indexStep cfg) (fun c l => (c.tasks t).calling = true ∧ ok l) a b → (b.tasks t).calling = true →
    indexStep cfg b l = some s' → ok l → (s'.tasks t).calling = false → (s'.tasks t).raised.isSome = true →
    FailedCall cfg ok t s s'

/-! ## A step concerns its own task -/

theorem releaseLocal_other {c c' : Coordinator T} {u : T} (hu : u ≠ t) (h : c.releaseLocal t = .ok c') :
    c'.taskLeases.lookup u = c.taskLeases.lookup u := by
  cases hlookup : c.taskLeases.lookup t with
  | none =>
    unfold Coordinator.releaseLocal at h
    rw [hlookup] at h
    simp at h
  | some lease =>
    obtain ⟨c'', hc, -, hcases⟩ := releaseLocal_cases hlookup
    rw [h] at hc
    cases hc
    have htable : ∀ ledger : Ledger T, c'.ledger = ledger → c'.taskLeases = ledger.taskLeases := by
      rintro _ rfl
      rfl
    obtain ⟨-, hledger⟩ | ⟨-, hledger⟩ := hcases
    · rw [htable _ hledger, Keyed.lookup_replace _ hlookup, if_neg hu]
    · cases hmode : lease.mode with
      | exclusive =>
        rw [hmode] at hledger
        rw [htable _ hledger]
        exact AList.lookup_erase_ne hu
      | shared =>
        rw [hmode] at hledger
        rw [htable _ hledger]
        exact AList.lookup_erase_ne hu

/-- What a step leaves of the other tasks. -/
def SameFor (s s' : IndexSystem T) (u : T) : Prop :=
  s'.coordinator.taskLeases.lookup u = s.coordinator.taskLeases.lookup u ∧ s'.tasks u = s.tasks u

theorem release_other {u : T} (hu : u ≠ t) (raised : Option LeaseError) : SameFor s (s.release t raised) u := by
  unfold IndexSystem.release
  split
  · rename_i c hc
    exact ⟨releaseLocal_other hu hc, Function.update_of_ne hu _ _⟩
  · exact ⟨rfl, Function.update_of_ne hu _ _⟩

theorem acquired_other {u : T} (hu : u ≠ t) {c : Coordinator T}
    (hc : c.taskLeases.lookup u = s.coordinator.taskLeases.lookup u) (name : String) (wait : Bool)
    (mode : IndexLeaseMode) : SameFor s (s.acquired cfg t c name wait mode) u :=
  ⟨hc, Function.update_of_ne hu _ _⟩

theorem acquireLocal_other {u : T} (hu : u ≠ t) (name : String) (wait : Bool) (mode : IndexLeaseMode) :
    SameFor s (acquireLocal cfg s t name wait mode) u := by
  unfold acquireLocal
  split
  · rename_i existing hexisting
    split
    · exact ⟨rfl, Function.update_of_ne hu _ _⟩
    · refine ⟨?_, Function.update_of_ne hu _ _⟩
      show (s.coordinator.taskLeases.replace t _).lookup u = _
      rw [Keyed.lookup_replace _ hexisting, if_neg hu]
  · split
    · split
      · exact ⟨rfl, Function.update_of_ne hu _ _⟩
      · exact acquired_other hu (AList.lookup_insert_ne hu) _ _ _
    · split
      · exact acquired_other hu (AList.lookup_insert_ne hu) _ _ _
      · split
        · exact ⟨rfl, Function.update_of_ne hu _ _⟩
        · exact ⟨rfl, Function.update_of_ne hu _ _⟩

theorem resumeShared_other {u : T} (hu : u ≠ t) (name : String) (wait : Bool) :
    SameFor s (resumeShared cfg s t name wait) u := by
  unfold resumeShared
  simp only
  split
  · exact ⟨rfl, Function.update_of_ne hu _ _⟩
  · split
    · exact ⟨rfl, Function.update_of_ne hu _ _⟩
    · exact acquired_other hu (AList.lookup_insert_ne hu) _ _ _

theorem resumeExclusive_other {u : T} (hu : u ≠ t) (name : String) (wait : Bool) :
    SameFor s (resumeExclusive cfg s t name wait) u := by
  unfold resumeExclusive
  simp only
  split
  · exact ⟨rfl, Function.update_of_ne hu _ _⟩
  · split
    · exact acquired_other hu (AList.lookup_insert_ne hu) _ _ _
    · exact ⟨rfl, Function.update_of_ne hu _ _⟩

theorem indexStep_other {l : IndexLabel T} {u : T} (hu : u ≠ l.task) (h : indexStep cfg s l = some s') :
    SameFor s s' u := by
  cases l with
  | enter t name wait mode =>
    simp only [indexStep] at h
    split at h
    · cases h
      exact acquireLocal_other hu name wait mode
    · simp at h
  | interrupt t =>
    simp only [indexStep] at h
    split at h
    · cases h
      exact ⟨rfl, Function.update_of_ne hu _ _⟩
    · cases h
      exact ⟨rfl, Function.update_of_ne hu _ _⟩
    · simp at h
  | resume t =>
    simp only [indexStep] at h
    split at h
    · split at h
      · cases h
        exact resumeShared_other hu _ _
      · cases h
        exact resumeExclusive_other hu _ _
      · simp at h
    · simp at h
  | lockTaken t =>
    simp only [indexStep] at h
    split at h
    · cases h
      exact ⟨rfl, Function.update_of_ne hu _ _⟩
    · simp at h
  | lockFailed t blocking =>
    simp only [indexStep] at h
    split at h
    · cases h
      exact release_other hu _
    · simp at h
  | leave t =>
    simp only [indexStep] at h
    split at h
    · split at h
      · cases h
        exact ⟨rfl, Function.update_of_ne hu _ _⟩
      · cases h
        exact release_other hu _
    · simp at h
  | lockReleased t =>
    simp only [indexStep] at h
    split at h
    · cases h
      exact release_other hu _
    · simp at h

/-! ## How a call starts and how it ends -/

/-- A call raises at once, is nested in a lease of the task, or concerns a task without a lease. -/
theorem acquireLocal_cases (cfg : CoordinatorConfig) (s : IndexSystem T) (t : T) (name : String) (wait : Bool)
    (mode : IndexLeaseMode) :
    (∃ e, acquireLocal cfg s t name wait mode = s.raise t e) ∨
    ((acquireLocal cfg s t name wait mode).tasks t).awaiting = none ∧
      ((acquireLocal cfg s t name wait mode).tasks t).raised = none ∨
    s.coordinator.taskLeases.lookup t = none ∧ ((acquireLocal cfg s t name wait mode).tasks t).raised = none := by
  unfold acquireLocal
  split
  · split
    · exact .inl ⟨_, rfl⟩
    · refine .inr (.inl ⟨?_, ?_⟩) <;> simp [IndexSystem.setTask]
  · rename_i hnone
    split
    · split
      · exact .inr (.inr ⟨hnone, by simp [IndexSystem.suspend, IndexSystem.setTask]⟩)
      · exact .inr (.inr ⟨hnone, by simp [IndexSystem.acquired, IndexSystem.setTask]⟩)
    · split
      · exact .inr (.inr ⟨hnone, by simp [IndexSystem.acquired, IndexSystem.setTask]⟩)
      · split
        · exact .inr (.inr ⟨hnone, by simp [IndexSystem.suspend, IndexSystem.setTask]⟩)
        · exact .inl ⟨_, rfl⟩

/-- Only a task without a lease is still calling after its first step. -/
theorem lookup_none_of_calling {name : String} {wait : Bool} {mode : IndexLeaseMode}
    (h : indexStep cfg s (.enter t name wait mode) = some s') (hcalling : (s'.tasks t).calling = true) :
    s.coordinator.taskLeases.lookup t = none := by
  simp only [indexStep] at h
  split at h
  · cases h
    obtain ⟨e, he⟩ | ⟨hawait, -⟩ | ⟨hnone, -⟩ := acquireLocal_cases cfg s t name wait mode
    · rw [he] at hcalling
      simp [IndexSystem.raise, IndexSystem.setTask, TaskState.calling] at hcalling
    · unfold TaskState.calling at hcalling
      rw [hawait] at hcalling
      simp at hcalling
    · exact hnone
  · simp at h

theorem calling_first {ok : IndexLabel T → Prop} {a b : IndexSystem T}
    (h : Run.Guarded (indexStep cfg) (fun c l => (c.tasks t).calling = true ∧ ok l) a b)
    (hb : (b.tasks t).calling = true) : (a.tasks t).calling = true := by
  induction h with
  | refl => exact hb
  | next _ hok _ ih => exact ih hok.1

/-- What a task can do while it is in a call. -/
theorem calling_step {b c : IndexSystem T} {l : IndexLabel T} (hcalling : (b.tasks t).calling = true)
    (hl : l.task = t) (h : indexStep cfg b l = some c) :
    c = { b.setTask t { (b.tasks t) with interrupted := true } with coordinator := b.coordinator.signal t } ∨
    (∃ name wait, (b.tasks t).awaiting = some (.sharedTurn name wait) ∧ c = resumeShared cfg b t name wait) ∨
    (∃ name wait, (b.tasks t).awaiting = some (.exclusiveTurn name wait) ∧ c = resumeExclusive cfg b t name wait) ∨
    c = b.setTask t { (b.tasks t) with awaiting := none, raised := none } ∨
    ∃ name wait shared blocking, (b.tasks t).awaiting = some (.processLock name wait shared) ∧
      c = b.release t (some (lockError name blocking)) := by
  cases l with
  | enter u name wait mode =>
    obtain rfl : u = t := hl
    simp only [indexStep] at h
    split at h
    · rename_i hawait
      unfold TaskState.calling at hcalling
      rw [hawait] at hcalling
      simp at hcalling
    · simp at h
  | interrupt u =>
    obtain rfl : u = t := hl
    simp only [indexStep] at h
    split at h
    · cases h
      exact .inl rfl
    · cases h
      exact .inl rfl
    · simp at h
  | resume u =>
    obtain rfl : u = t := hl
    simp only [indexStep] at h
    split at h
    · split at h
      · rename_i name wait hawait
        cases h
        exact .inr (.inl ⟨name, wait, hawait, rfl⟩)
      · rename_i name wait hawait
        cases h
        exact .inr (.inr (.inl ⟨name, wait, hawait, rfl⟩))
      · simp at h
    · simp at h
  | lockTaken u =>
    obtain rfl : u = t := hl
    simp only [indexStep] at h
    split at h
    · cases h
      exact .inr (.inr (.inr (.inl rfl)))
    · simp at h
  | lockFailed u blocking =>
    obtain rfl : u = t := hl
    simp only [indexStep] at h
    split at h
    · rename_i name wait shared hawait
      cases h
      exact .inr (.inr (.inr (.inr ⟨name, wait, shared, blocking, hawait, rfl⟩)))
    · simp at h
  | leave u =>
    obtain rfl : u = t := hl
    simp only [indexStep] at h
    split at h
    · rename_i hawait _
      unfold TaskState.calling at hcalling
      rw [hawait] at hcalling
      simp at hcalling
    · simp at h
  | lockReleased u =>
    obtain rfl : u = t := hl
    simp only [indexStep] at h
    split at h
    · rename_i hawait
      unfold TaskState.calling at hcalling
      rw [hawait] at hcalling
      simp at hcalling
    · simp at h

/-- A call that ends by raising ends in the queue or at the process lock. -/
theorem failure_cases {b : IndexSystem T} {l : IndexLabel T} (hcalling : (b.tasks t).calling = true)
    (h : indexStep cfg b l = some s') (hends : (s'.tasks t).calling = false)
    (hraised : (s'.tasks t).raised.isSome = true) :
    (∃ name wait, (b.tasks t).awaiting = some (.sharedTurn name wait) ∧
      s' = { b.raise t .interrupted with coordinator := (b.coordinator.withdraw t).notifyOne }) ∨
    (∃ name wait, (b.tasks t).awaiting = some (.exclusiveTurn name wait) ∧
      s' = { b.raise t .interrupted with coordinator := Coordinator.notifyOne { b.coordinator.withdraw t with
        waitingExclusiveCount := b.coordinator.waitingExclusiveCount - 1 } }) ∨
    ∃ name wait shared blocking, (b.tasks t).awaiting = some (.processLock name wait shared) ∧
      s' = b.release t (some (lockError name blocking)) := by
  have own : l.task = t := by
    by_contra hne
    have hsame := (indexStep_other (Ne.symm hne) h).2
    rw [hsame, hcalling] at hends
    simp at hends
  obtain rfl | ⟨name, wait, hawait, rfl⟩ | ⟨name, wait, hawait, rfl⟩ | rfl | hlock := calling_step hcalling own h
  · have stays : (Function.update b.tasks t { (b.tasks t) with interrupted := true } t).calling =
        (b.tasks t).calling := by
      rw [Function.update_self]
      rfl
    exact absurd (hcalling.symm.trans (stays.symm.trans hends)) (by decide)
  · refine .inl ⟨name, wait, hawait, ?_⟩
    unfold resumeShared at hraised ⊢
    simp only at hraised ⊢
    split
    · rfl
    · rename_i hfree
      rw [if_neg hfree] at hraised
      split at hraised <;> simp [IndexSystem.suspend, IndexSystem.acquired, IndexSystem.setTask] at hraised
  · refine .inr (.inl ⟨name, wait, hawait, ?_⟩)
    unfold resumeExclusive at hraised ⊢
    simp only at hraised ⊢
    split
    · rfl
    · rename_i hfree
      rw [if_neg hfree] at hraised
      split at hraised <;> simp [IndexSystem.suspend, IndexSystem.acquired, IndexSystem.setTask] at hraised
  · simp [IndexSystem.setTask] at hraised
  · exact .inr (.inr hlock)

theorem release_leases (raised : Option LeaseError) :
    ((s.release t raised).tasks t).leases = (s.tasks t).leases.tail := by
  unfold IndexSystem.release
  split <;> simp [IndexSystem.setTask]

/-- After a call that raised later, the task has no open lease. -/
theorem leases_nil_of_failure {b : IndexSystem T} {l : IndexLabel T} (hb : b.Kept)
    (hcalling : (b.tasks t).calling = true) (h : indexStep cfg b l = some s') (hends : (s'.tasks t).calling = false)
    (hraised : (s'.tasks t).raised.isSome = true) : (s'.tasks t).leases = [] := by
  have hfits := hb.booked.fits t
  unfold TaskState.Fits at hfits
  obtain ⟨name, wait, hawait, rfl⟩ | ⟨name, wait, hawait, rfl⟩ | ⟨name, wait, shared, blocking, hawait, rfl⟩ :=
    failure_cases hcalling h hends hraised
  · rw [hawait] at hfits
    simpa [IndexSystem.raise, IndexSystem.setTask] using hfits
  · rw [hawait] at hfits
    simpa [IndexSystem.raise, IndexSystem.setTask] using hfits
  · rw [hawait] at hfits
    rw [release_leases]
    exact hfits

/-- Whatever the others do meanwhile, a failed call leaves its task with the leases it had. -/
theorem FailedCall.restores (hs : s.Kept) (h : FailedCall cfg (fun _ => True) t s s') :
    s'.coordinator.taskLeases.lookup t = s.coordinator.taskLeases.lookup t ∧
      (s'.tasks t).leases = (s.tasks t).leases := by
  cases h with
  | atOnce hstep hraised =>
    simp only [indexStep] at hstep
    split at hstep
    · cases hstep
      obtain ⟨e, he⟩ | ⟨-, hnone⟩ | ⟨-, hnone⟩ := acquireLocal_cases cfg s t _ _ _
      · rw [he]
        simp [IndexSystem.raise, IndexSystem.setTask]
      · rw [hnone] at hraised
        simp at hraised
      · rw [hnone] at hraised
        simp at hraised
    · simp at hstep
  | later hstep hrun hcalling hlast _ hends hraised =>
    have hb := hrun.invariant (hs.step hstep) fun _ _ _ hc _ hl => IndexSystem.Kept.step hc hl
    have hs' : s'.Kept := hb.step hlast
    have hnone := lookup_none_of_calling hstep (calling_first hrun hcalling)
    have hnil := leases_nil_of_failure hb hcalling hlast hends hraised
    exact ⟨(hs'.lookup_none hnil).trans hnone.symm, hnil.trans (hs.booked.leases_nil hnone).symm⟩

/-! ## A call alone -/

/-- The state of the coordinator while task `t` is in a call that it made in state `s`, when nothing else moves. -/
def OwnCall (s : IndexSystem T) (t : T) (b : IndexSystem T) : Prop :=
  match (b.tasks t).awaiting with
  | some (.sharedTurn _ _) => s.coordinator.sharedBlocked = true ∧ b.coordinator.ledger = s.coordinator.ledger ∧
      b.coordinator.waitingExclusiveCount = s.coordinator.waitingExclusiveCount
  | some (.exclusiveTurn _ _) =>
      s.coordinator.exclusiveAvailable = false ∧ b.coordinator.ledger = s.coordinator.ledger ∧
      b.coordinator.waitingExclusiveCount = s.coordinator.waitingExclusiveCount + 1
  | some (.processLock _ _ _) =>
      (∃ name, b.coordinator.ledger = (s.coordinator.takeShared t name).ledger ∨
        s.coordinator.exclusiveAvailable = true ∧ b.coordinator.ledger = (s.coordinator.takeExclusive t name).ledger) ∧
      b.coordinator.waitingExclusiveCount = s.coordinator.waitingExclusiveCount
  | _ => True

theorem ownCall_of_none {b : IndexSystem T} (h : (b.tasks t).awaiting = none) : OwnCall s t b := by
  unfold OwnCall
  rw [h]
  trivial

theorem ownCall_enter {a : IndexSystem T} {name : String} {wait : Bool} {mode : IndexLeaseMode}
    (h : indexStep cfg s (.enter t name wait mode) = some a) : OwnCall s t a := by
  simp only [indexStep] at h
  split at h
  · cases h
    unfold acquireLocal
    split
    · split
      · exact ownCall_of_none (by simp [IndexSystem.raise, IndexSystem.setTask])
      · exact ownCall_of_none (by simp [IndexSystem.setTask])
    · split
      · split
        · rename_i hblocked
          simpa [OwnCall, IndexSystem.suspend, IndexSystem.setTask] using ⟨hblocked, rfl, rfl⟩
        · cases hlock : cfg.processLock with
          | false => exact ownCall_of_none (by simp [IndexSystem.acquired, IndexSystem.setTask, hlock])
          | true =>
            simp only [OwnCall, IndexSystem.acquired, IndexSystem.setTask, hlock, Function.update_self, if_true]
            exact ⟨⟨name, .inl rfl⟩, rfl⟩
      · split
        · rename_i hfree
          cases hlock : cfg.processLock with
          | false => exact ownCall_of_none (by simp [IndexSystem.acquired, IndexSystem.setTask, hlock])
          | true =>
            simp only [OwnCall, IndexSystem.acquired, IndexSystem.setTask, hlock, Function.update_self, if_true]
            exact ⟨⟨name, .inr ⟨hfree, rfl⟩⟩, rfl⟩
        · rename_i hbusy
          split
          · simpa [OwnCall, IndexSystem.suspend, IndexSystem.setTask] using ⟨by simpa using hbusy, rfl, rfl⟩
          · exact ownCall_of_none (by simp [IndexSystem.raise, IndexSystem.setTask])
  · simp at h

/-- Alone, a waiting task is woken by an interruption only: a turn it resumes in is still not free. -/
theorem ownCall_step {b c : IndexSystem T} {l : IndexLabel T} (hb : OwnCall s t b)
    (hcalling : (b.tasks t).calling = true) (hl : l.task = t) (h : indexStep cfg b l = some c) : OwnCall s t c := by
  obtain rfl | ⟨name, wait, hawait, rfl⟩ | ⟨name, wait, hawait, rfl⟩ | rfl | ⟨name, wait, shared, blocking, -, rfl⟩ :=
    calling_step hcalling hl h
  · unfold OwnCall at hb ⊢
    simp only [IndexSystem.setTask, Function.update_self]
    exact hb
  · unfold OwnCall at hb
    rw [hawait] at hb
    obtain ⟨hblocked, hledger, hwaiting⟩ := hb
    have hstill : (b.coordinator.withdraw t).sharedBlocked = true := by
      rw [← hblocked]
      exact sharedBlocked_congr hledger hwaiting
    unfold resumeShared
    simp only [hstill, if_true]
    split
    · exact ownCall_of_none (by simp [IndexSystem.raise, IndexSystem.setTask])
    · simpa [OwnCall, IndexSystem.suspend, IndexSystem.setTask] using ⟨hblocked, hledger, hwaiting⟩
  · unfold OwnCall at hb
    rw [hawait] at hb
    obtain ⟨hbusy, hledger, hwaiting⟩ := hb
    have hstill : (b.coordinator.withdraw t).exclusiveAvailable = false := by
      rw [← hbusy]
      exact exclusiveAvailable_congr hledger
    unfold resumeExclusive
    simp only [hstill]
    split
    · exact ownCall_of_none (by simp [IndexSystem.raise, IndexSystem.setTask])
    · simpa [OwnCall, IndexSystem.suspend, IndexSystem.setTask] using ⟨hbusy, hledger, hwaiting⟩
  · exact ownCall_of_none (by simp [IndexSystem.setTask])
  · refine ownCall_of_none ?_
    unfold IndexSystem.release
    split <;> simp [IndexSystem.setTask]

theorem erase_insert {table : AList fun _ : T => TaskLease} {lease : TaskLease} (h : table.lookup t = none) :
    (table.insert t lease).erase t = table := by
  have hnot : t ∉ table := AList.lookup_eq_none.mp h
  apply AList.ext
  show ((table.insert t lease).entries).kerase t = table.entries
  rw [AList.entries_insert_of_notMem hnot]
  exact List.kerase_cons_eq rfl

theorem drop_takeShared {c : Coordinator T} (h : c.taskLeases.lookup t = none) (name : String) :
    (c.takeShared t name).ledger.drop t .shared = c.ledger := by
  simp [Coordinator.ledger, Coordinator.takeShared, Ledger.drop, erase_insert h]

theorem drop_takeExclusive {c : Coordinator T} (h : c.taskLeases.lookup t = none) (howner : c.exclusiveOwner = none)
    (hactive : c.activeOperation = none) (name : String) :
    (c.takeExclusive t name).ledger.drop t .exclusive = c.ledger := by
  simp [Coordinator.ledger, Coordinator.takeExclusive, Ledger.drop, erase_insert h, howner, hactive]

/-- Releasing the one level of a lease that was just taken. -/
theorem release_taken {b : IndexSystem T} {lease : TaskLease} (raised : Option LeaseError)
    (hlookup : b.coordinator.ledger.taskLeases.lookup t = some lease) (hdepth : lease.depth = 1) :
    (b.release t raised).coordinator.ledger = b.coordinator.ledger.drop t lease.mode ∧
    (b.release t raised).coordinator.waitingExclusiveCount = b.coordinator.waitingExclusiveCount := by
  obtain ⟨c, hc, hwaiting, ⟨hdeep, -⟩ | ⟨-, hledger⟩⟩ := releaseLocal_cases hlookup
  · rw [hdepth] at hdeep
    exact absurd hdeep (by decide)
  · unfold IndexSystem.release
    rw [hc]
    exact ⟨hledger, hwaiting⟩

/-- A failed call that nothing else interleaves with leaves the ledger and the waiting count. -/
theorem FailedCall.restores_ledger (hs : s.Kept) (h : FailedCall cfg (fun l => l.task = t) t s s') :
    s'.coordinator.ledger = s.coordinator.ledger ∧
      s'.coordinator.waitingExclusiveCount = s.coordinator.waitingExclusiveCount := by
  cases h with
  | atOnce hstep hraised =>
    simp only [indexStep] at hstep
    split at hstep
    · cases hstep
      obtain ⟨e, he⟩ | ⟨-, hnone⟩ | ⟨-, hnone⟩ := acquireLocal_cases cfg s t _ _ _
      · rw [he]
        exact ⟨rfl, rfl⟩
      · rw [hnone] at hraised
        simp at hraised
      · rw [hnone] at hraised
        simp at hraised
    · simp at hstep
  | later hstep hrun hcalling hlast _ hends hraised =>
    have hown := hrun.invariant (ownCall_enter hstep) fun _ _ _ hc hok hl => ownCall_step hc hok.1 hok.2 hl
    have hnone := lookup_none_of_calling hstep (calling_first hrun hcalling)
    unfold OwnCall at hown
    obtain ⟨name, wait, hawait, rfl⟩ | ⟨name, wait, hawait, rfl⟩ | ⟨name, wait, shared, blocking, hawait, rfl⟩ :=
      failure_cases hcalling hlast hends hraised
    · rw [hawait] at hown
      exact ⟨hown.2.1, hown.2.2⟩
    · rw [hawait] at hown
      refine ⟨hown.2.1, ?_⟩
      show _ - 1 = _
      rw [hown.2.2]
      omega
    · rw [hawait] at hown
      obtain ⟨⟨taken, hledger | ⟨hfree, hledger⟩⟩, hwaiting⟩ := hown
      · have hlookup : (s.coordinator.takeShared t taken).ledger.taskLeases.lookup t = some ⟨.shared, taken, 1⟩ :=
          AList.lookup_insert _
        rw [← hledger] at hlookup
        obtain ⟨hreleased, hcount⟩ := release_taken (some (lockError name blocking)) hlookup rfl
        rw [hreleased, hledger]
        exact ⟨drop_takeShared hnone taken, hcount.trans hwaiting⟩
      · have hlookup : (s.coordinator.takeExclusive t taken).ledger.taskLeases.lookup t =
            some ⟨.exclusive, taken, 1⟩ := AList.lookup_insert _
        rw [← hledger] at hlookup
        obtain ⟨hreleased, hcount⟩ := release_taken (some (lockError name blocking)) hlookup rfl
        rw [hreleased, hledger]
        obtain ⟨howner, -⟩ := exclusiveAvailable_iff.mp hfree
        exact ⟨drop_takeExclusive hnone howner (hs.lanes.named howner) taken, hcount.trans hwaiting⟩

/-! ## The coordinator over whole runs -/

/-- The open leases of a task, counted by mode, against its entry in the table. -/
theorem IndexSystem.Kept.openLeases_eq (hk : s.Kept) (mode : IndexLeaseMode) :
    (s.tasks t).openLeases mode = match s.coordinator.taskLeases.lookup t with
      | some lease => if lease.mode = mode then lease.depth else 0
      | none => 0 := by
  have hheld := hk.booked.held t
  cases hlookup : s.coordinator.taskLeases.lookup t with
  | none =>
    have hnil : (s.tasks t).leases = [] := hk.booked.leases_nil hlookup
    unfold TaskState.openLeases
    rw [hnil]
    rfl
  | some lease =>
    have hopen : openLease (s.tasks t).leases = some lease := hheld.symm.trans hlookup
    have huniform := hk.booked.uniform t lease hlookup
    unfold TaskState.openLeases
    by_cases hmode : lease.mode = mode
    · simp only [if_pos hmode, openLease_depth hopen]
      apply List.countP_eq_length.mpr
      intro inner hinner
      simpa using (huniform inner hinner).trans hmode
    · simp only [if_neg hmode]
      apply List.countP_eq_zero.mpr
      intro inner hinner
      rw [huniform inner hinner]
      simpa using hmode

theorem IndexSystem.Kept.openLeases_pos (hk : s.Kept) {mode : IndexLeaseMode} :
    0 < (s.tasks t).openLeases mode ↔ HasLease s.coordinator.taskLeases t mode := by
  rw [hk.openLeases_eq]
  cases hlookup : s.coordinator.taskLeases.lookup t with
  | none => simpa using not_hasLease_of_lookup hlookup
  | some lease =>
    have hopen : openLease (s.tasks t).leases = some lease := (hk.booked.held t).symm.trans hlookup
    have hpos : 0 < lease.depth := by
      rw [openLease_depth hopen]
      apply List.length_pos_of_ne_nil
      intro hnil
      rw [hnil] at hopen
      cases hopen
    rw [hasLease_of_lookup hlookup]
    by_cases hmode : lease.mode = mode <;> simp [hmode, hpos]

/-- Exclusion, exact counters, and acquisitions that fail without a trace. -/
structure LeasesExact (cfg : CoordinatorConfig) (s : IndexSystem T) : Prop where
  exclusive : ∀ t, s.coordinator.exclusiveOwner = some t → ∀ u, u ≠ t → (s.tasks u).openLeases .shared = 0
  shared : ∃ holders : Finset T, (∀ t, t ∈ holders ↔ 0 < (s.tasks t).openLeases .shared) ∧
    s.coordinator.activeSharedCount = holders.card
  depth : ∀ t lease, s.coordinator.taskLeases.lookup t = some lease → lease.depth = (s.tasks t).openLeases lease.mode
  listed : ∀ t mode, 0 < (s.tasks t).openLeases mode → HasLease s.coordinator.taskLeases t mode
  owner : ∀ t, s.coordinator.exclusiveOwner = some t → ∃ lease, s.coordinator.taskLeases.lookup t = some lease ∧
    lease.mode = .exclusive ∧ lease.depth = (s.tasks t).openLeases .exclusive
  foreign : ∀ l s', indexStep cfg s l = some s' → ∀ u, u ≠ l.task → SameFor s s' u
  failed : ∀ t s', FailedCall cfg (fun _ => True) t s s' →
    s'.coordinator.taskLeases.lookup t = s.coordinator.taskLeases.lookup t ∧
      (s'.tasks t).leases = (s.tasks t).leases
  failedAlone : ∀ t s', FailedCall cfg (fun l => l.task = t) t s s' →
    s'.coordinator.ledger = s.coordinator.ledger ∧
      s'.coordinator.waitingExclusiveCount = s.coordinator.waitingExclusiveCount

/-- In every state of every run: an exclusive owner excludes the shared leases of all other tasks, the counters and
depths are the numbers of open leases, and a failed acquisition leaves them as they were. -/
theorem index_leases_exact (h : Run.Runs (indexStep cfg) IndexSystem.start s) : LeasesExact cfg s := by
  have hk : s.Kept := h.invariant kept_start fun _ _ _ ha _ hstep => IndexSystem.Kept.step ha hstep
  obtain ⟨holders, hholders, hcount⟩ := hk.lanes.shared
  have hdepth : ∀ t lease, s.coordinator.taskLeases.lookup t = some lease →
      lease.depth = (s.tasks t).openLeases lease.mode := by
    intro t lease hlookup
    rw [hk.openLeases_eq, hlookup]
    simp
  refine ⟨?_, ⟨holders, ?_, hcount⟩, hdepth, fun t mode => hk.openLeases_pos.mp, ?_, ?_, ?_, ?_⟩
  · intro t howner u _
    have hzero := hk.lanes.apart (by
      show s.coordinator.exclusiveOwner ≠ none
      rw [howner]
      exact Option.some_ne_none t)
    rw [hcount] at hzero
    have hempty : holders = ∅ := Finset.card_eq_zero.mp (by exact_mod_cast hzero)
    have hnot : ¬ 0 < (s.tasks u).openLeases .shared := by
      intro hpos
      have hmem := (hholders u).mpr (hk.openLeases_pos.mp hpos)
      rw [hempty] at hmem
      exact absurd hmem (Finset.notMem_empty u)
    omega
  · exact fun t => (hholders t).trans hk.openLeases_pos.symm
  · intro t howner
    obtain ⟨lease, hlookup, hmode⟩ := (hk.lanes.owner t).mp howner
    refine ⟨lease, hlookup, hmode, ?_⟩
    rw [← hmode]
    exact hdepth t lease hlookup
  · exact fun l s' hstep u hu => indexStep_other hu hstep
  · exact fun t s' hfailed => hfailed.restores hk
  · exact fun t s' hfailed => hfailed.restores_ledger hk

end Calls

/-- Maintenance nests a write, a writer queues behind it and is cancelled, another maintenance is refused. -/
def busyRun : List (IndexLabel (Fin 3)) :=
  [.operation 0 "vault_reindex" false, .lockTaken 0, .writeOperation ⟨true, true⟩ 0 "note_write",
   .writeOperation ⟨true, true⟩ 1 "note_write", .operation 2 "graph_rebuild" false, .interrupt 1, .resume 1]

theorem busy_run_owner :
    ((Run.exec (indexStep ⟨true, true⟩) IndexSystem.start busyRun).map fun s =>
      (s.coordinator.exclusiveOwner, (s.tasks 0).openLeases .exclusive, (s.tasks 1).raised, (s.tasks 2).raised)) =
      some (some 0, 2, some .interrupted, some (.indexMaintenanceConflictError
        "index maintenance 'graph_rebuild' cannot start while 'vault_reindex' is active")) := by
  decide

theorem index_leases_exact_busy :
    ∃ s : IndexSystem (Fin 3), s.coordinator.exclusiveOwner = some 0 ∧ (s.tasks 0).openLeases .exclusive = 2 ∧
      LeasesExact ⟨true, true⟩ s := by
  obtain ⟨s, hs, h⟩ := Option.map_eq_some_iff.mp busy_run_owner
  have howner := congrArg Prod.fst h
  have hdepth := congrArg (fun outcome => outcome.2.1) h
  exact ⟨s, howner, hdepth, index_leases_exact (.of_exec _ hs)⟩

end Alexandria.Index
