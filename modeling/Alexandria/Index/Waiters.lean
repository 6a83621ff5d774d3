import Alexandria.Index.Acquisition

/-! # Waiters of the condition

A task that waits and has not been notified has a reason to wait: a shared request that the lane is taken or claimed, an
exclusive one that a lease is held. Only the end of an exclusive request that is cancelled or times out takes a reason away without
waking every waiter.
-/

namespace Alexandria.Index
set_option autoImplicit false

/-! ## The queue -/

def TaskState.sharedWaiter (task : TaskState) : Bool :=
  match task.awaiting with
  | some (.sharedTurn _ _) => true
  | _ => false

def TaskState.exclusiveWaiter (task : TaskState) : Bool :=
  match task.awaiting with
  | some (.exclusiveTurn _ _) => true
  | _ => false

section Notify
variable {T : Type}

attribute [local simp] notify

theorem notify_fst (n : ℕ) (waiters : List (T × Bool)) : (notify n waiters).map Prod.fst = waiters.map Prod.fst := by
  induction waiters generalizing n with
  | nil => cases n <;> rfl
  | cons waiter waiters ih =>
    obtain ⟨t, done⟩ := waiter
    cases n with
    | zero => rfl
    | succ n => cases done <;> simp [notify, ih]

/-- Nobody is unnotified who has been notified. -/
theorem mem_of_mem_notify {n : ℕ} {waiters : List (T × Bool)} {t : T} (h : (t, false) ∈ notify n waiters) :
    (t, false) ∈ waiters := by
  induction waiters generalizing n with
  | nil => cases n <;> exact h
  | cons waiter waiters ih =>
    obtain ⟨u, done⟩ := waiter
    cases n with
    | zero => exact h
    | succ n =>
      cases done with
      | true =>
        rw [notify, List.mem_cons] at h
        obtain h | h := h
        · simp at h
        · exact List.mem_cons_of_mem _ (ih h)
      | false =>
        rw [notify, List.mem_cons] at h
        obtain h | h := h
        · simp at h
        · exact List.mem_cons_of_mem _ (ih h)

/-- The waiters that have not been notified. -/
def pending (waiters : List (T × Bool)) : List (T × Bool) := waiters.filter fun waiter => !waiter.2

theorem mem_pending {waiters : List (T × Bool)} {t : T} : (t, false) ∈ pending waiters ↔ (t, false) ∈ waiters := by
  simp [pending]

theorem pending_notify (n : ℕ) (waiters : List (T × Bool)) : pending (notify n waiters) = (pending waiters).drop n := by
  induction waiters generalizing n with
  | nil => cases n <;> rfl
  | cons waiter waiters ih =>
    obtain ⟨t, done⟩ := waiter
    cases n with
    | zero => rfl
    | succ n =>
      cases done with
      | true => simpa [pending, notify] using ih (n + 1)
      | false => simpa [pending, notify] using ih n

theorem pending_notifyAll (waiters : List (T × Bool)) : pending (notify waiters.length waiters) = [] := by
  rw [pending_notify]
  exact List.drop_eq_nil_of_le (List.length_filter_le _ _)

theorem not_pending {waiters : List (T × Bool)} (h : pending waiters = []) (t : T) : (t, false) ∉ waiters := by
  rw [← mem_pending, h]
  exact List.not_mem_nil

end Notify

/-! ## Reasons to wait -/

section Reasons
variable {T : Type} {c c' : Coordinator T} {task : TaskState}

/-- The reason of a waiting task that has not been notified. -/
structure HasReason (c : Coordinator T) (task : TaskState) : Prop where
  shared : task.sharedWaiter = true → c.sharedBlocked = true
  exclusive : task.exclusiveWaiter = true → c.exclusiveAvailable = false

/-- The reasons of `c` are reasons of `c'`. -/
structure StaysBlocked (c c' : Coordinator T) : Prop where
  shared : c.sharedBlocked = true → c'.sharedBlocked = true
  exclusive : c.exclusiveAvailable = false → c'.exclusiveAvailable = false

theorem HasReason.mono (h : HasReason c task) (hstays : StaysBlocked c c') : HasReason c' task :=
  ⟨fun hshared => hstays.shared (h.shared hshared), fun hexclusive => hstays.exclusive (h.exclusive hexclusive)⟩

/-- The queue lists the waiting tasks, the count is that of the exclusive ones, and who has not been notified has a reason. -/
structure Queued (c : Coordinator T) (tasks : T → TaskState) : Prop where
  distinct : (c.waiters.map Prod.fst).Nodup
  listed : ∀ t, t ∈ c.waiters.map Prod.fst ↔ (tasks t).sharedWaiter = true ∨ (tasks t).exclusiveWaiter = true
  counted : ∃ waiting : Finset T, (∀ t, t ∈ waiting ↔ (tasks t).exclusiveWaiter = true) ∧
    c.waitingExclusiveCount = waiting.card
  reason : ∀ t, (t, false) ∈ c.waiters → HasReason c (tasks t)

def IndexSystem.Queued (s : IndexSystem T) : Prop := Index.Queued s.coordinator s.tasks

def exclusiveCount (task : TaskState) : ℤ := if task.exclusiveWaiter then 1 else 0

end Reasons

section Queue
variable {T : Type} [DecidableEq T] {c c' : Coordinator T} {tasks : T → TaskState} {task : TaskState} {t : T}

/-- A step of task `t`. -/
theorem Queued.update (h : Queued c tasks) (hdistinct : (c'.waiters.map Prod.fst).Nodup)
    (hothers : ∀ u, u ≠ t → (u ∈ c'.waiters.map Prod.fst ↔ u ∈ c.waiters.map Prod.fst))
    (hself : t ∈ c'.waiters.map Prod.fst ↔ task.sharedWaiter = true ∨ task.exclusiveWaiter = true)
    (hcount : c'.waitingExclusiveCount = c.waitingExclusiveCount - exclusiveCount (tasks t) + exclusiveCount task)
    (hreason : ∀ u, (u, false) ∈ c'.waiters → HasReason c' (Function.update tasks t task u)) :
    Queued c' (Function.update tasks t task) := by
  refine ⟨hdistinct, ?_, ?_, hreason⟩
  · intro u
    by_cases hu : u = t
    · subst hu
      rw [Function.update_self]
      exact hself
    · rw [Function.update_of_ne hu, hothers u hu]
      exact h.listed u
  · obtain ⟨waiting, hwaiting, hcard⟩ := h.counted
    have hold : (waiting.erase t).card = waiting.card - exclusiveCount (tasks t) := by
      unfold exclusiveCount
      by_cases ht : (tasks t).exclusiveWaiter = true
      · have hmem := (hwaiting t).mpr ht
        have hpos := Finset.card_pos.mpr ⟨t, hmem⟩
        rw [if_pos ht, Finset.card_erase_of_mem hmem]
        omega
      · have hmem : t ∉ waiting := fun hmem => ht ((hwaiting t).mp hmem)
        rw [if_neg ht, Finset.erase_eq_of_notMem hmem]
        omega
    have hrest : ∀ u, u ≠ t → (u ∈ waiting.erase t ↔ (tasks u).exclusiveWaiter = true) := by
      intro u hu
      rw [Finset.mem_erase]
      simp [hu, hwaiting u]
    by_cases hnew : task.exclusiveWaiter = true
    · refine ⟨insert t (waiting.erase t), ?_, ?_⟩
      · intro u
        rw [Finset.mem_insert]
        by_cases hu : u = t
        · subst hu
          simp [hnew]
        · rw [hrest u hu, Function.update_of_ne hu]
          simp [hu]
      · rw [hcount, hcard, Finset.card_insert_of_notMem (Finset.notMem_erase t waiting)]
        have hone : exclusiveCount task = 1 := if_pos hnew
        push_cast
        omega
    · refine ⟨waiting.erase t, ?_, ?_⟩
      · intro u
        by_cases hu : u = t
        · subst hu
          simp [hnew]
        · rw [hrest u hu, Function.update_of_ne hu]
      · have hzero : exclusiveCount task = 0 := if_neg hnew
        omega

/-- A task that waits neither before nor after its step leaves the queue, in which tasks may be notified. -/
theorem Queued.idle (h : Queued c tasks) (hqueue : c'.waiters.map Prod.fst = c.waiters.map Prod.fst)
    (hfewer : ∀ u, (u, false) ∈ c'.waiters → (u, false) ∈ c.waiters) (hcount : c'.waitingExclusiveCount = c.waitingExclusiveCount)
    (hstays : ∀ u, (u, false) ∈ c'.waiters → StaysBlocked c c') (hsame : task.sharedWaiter = (tasks t).sharedWaiter)
    (hsame' : task.exclusiveWaiter = (tasks t).exclusiveWaiter) : Queued c' (Function.update tasks t task) := by
  refine h.update ?_ ?_ ?_ ?_ ?_
  · rw [hqueue]
    exact h.distinct
  · intro u _
    rw [hqueue]
  · rw [hqueue, hsame, hsame']
    exact h.listed t
  · unfold exclusiveCount
    rw [hcount, hsame']
    omega
  · intro u hu
    have hreason := (h.reason u (hfewer u hu)).mono (hstays u hu)
    by_cases hut : u = t
    · subst hut
      rw [Function.update_self]
      refine ⟨fun hwaits => hreason.shared ?_, fun hwaits => hreason.exclusive ?_⟩
      · rw [← hsame]
        exact hwaits
      · rw [← hsame']
        exact hwaits
    · rw [Function.update_of_ne hut]
      exact hreason

/-! ## Leaving and entering the queue -/

theorem mem_withdraw {u : T} : u ∈ (c.withdraw t).waiters.map Prod.fst ↔ u ∈ c.waiters.map Prod.fst ∧ u ≠ t := by
  unfold Coordinator.withdraw
  simp only [List.mem_map, List.mem_filter, decide_eq_true_eq]
  constructor
  · rintro ⟨waiter, ⟨hmem, hne⟩, rfl⟩
    exact ⟨⟨waiter, hmem, rfl⟩, hne⟩
  · rintro ⟨⟨waiter, hmem, rfl⟩, hne⟩
    exact ⟨waiter, ⟨hmem, hne⟩, rfl⟩

theorem mem_of_mem_withdraw {u : T} {done : Bool} (h : (u, done) ∈ (c.withdraw t).waiters) : (u, done) ∈ c.waiters ∧ u ≠ t := by
  obtain ⟨hmem, hne⟩ := List.mem_filter.mp h
  exact ⟨hmem, by simpa using hne⟩

/-- The task leaves the queue for good. -/
theorem Queued.withdraw (h : Queued c tasks) (hqueue : c'.waiters.map Prod.fst = (c.withdraw t).waiters.map Prod.fst)
    (hfewer : ∀ u, (u, false) ∈ c'.waiters → (u, false) ∈ (c.withdraw t).waiters)
    (hcount : c'.waitingExclusiveCount = c.waitingExclusiveCount - exclusiveCount (tasks t))
    (hstays : ∀ u, (u, false) ∈ c'.waiters → HasReason c (tasks u) → HasReason c' (tasks u))
    (hshared : task.sharedWaiter = false) (hexclusive : task.exclusiveWaiter = false) :
    Queued c' (Function.update tasks t task) := by
  refine h.update ?_ ?_ ?_ ?_ ?_
  · rw [hqueue]
    exact h.distinct.sublist (List.filter_sublist.map Prod.fst)
  · intro u hu
    rw [hqueue, mem_withdraw]
    simp [hu]
  · rw [hqueue, mem_withdraw, hshared, hexclusive]
    simp
  · have hzero : exclusiveCount task = 0 := if_neg (by rw [hexclusive]; exact Bool.false_ne_true)
    omega
  · intro u hu
    obtain ⟨hmem, hne⟩ := mem_of_mem_withdraw (hfewer u hu)
    rw [Function.update_of_ne hne]
    exact hstays u hu (h.reason u hmem)

/-- The task waits again, for the same turn and with a reason. -/
theorem Queued.rejoin (h : Queued c tasks) (hqueue : c'.waiters = (c.withdraw t).waiters ++ [(t, false)])
    (hcount : c'.waitingExclusiveCount = c.waitingExclusiveCount - exclusiveCount (tasks t) + exclusiveCount task)
    (hstays : StaysBlocked c c') (hwaits : task.sharedWaiter = true ∨ task.exclusiveWaiter = true) (hreason : HasReason c' task) :
    Queued c' (Function.update tasks t task) := by
  have hmem : ∀ u, u ∈ c'.waiters.map Prod.fst ↔ u ∈ (c.withdraw t).waiters.map Prod.fst ∨ u = t := by
    intro u
    rw [hqueue, List.map_append, List.mem_append]
    simp
  refine h.update ?_ ?_ ?_ hcount ?_
  · rw [hqueue, List.map_append]
    refine List.Nodup.append (h.distinct.sublist (List.filter_sublist.map Prod.fst)) (List.nodup_singleton t) ?_
    intro u hu ht
    exact (mem_withdraw.mp hu).2 (List.mem_singleton.mp ht)
  · intro u hu
    rw [hmem, mem_withdraw]
    simp [hu]
  · rw [hmem]
    simp [hwaits]
  · intro u hu
    rw [hqueue] at hu
    obtain hu | hu := List.mem_append.mp hu
    · obtain ⟨hold, hne⟩ := mem_of_mem_withdraw hu
      rw [Function.update_of_ne hne]
      exact (h.reason u hold).mono hstays
    · obtain rfl : u = t := congrArg Prod.fst (List.mem_singleton.mp hu)
      rw [Function.update_self]
      exact hreason

theorem withdraw_absent (h : t ∉ c.waiters.map Prod.fst) : (c.withdraw t).waiters = c.waiters := by
  unfold Coordinator.withdraw
  simp only
  rw [List.filter_eq_self]
  intro waiter hwaiter
  have hne : waiter.1 ≠ t := by
    intro heq
    exact h (heq ▸ List.mem_map_of_mem hwaiter)
  simpa using hne

end Queue

/-! ## Every step keeps the queue -/

section Steps
variable {T : Type} [DecidableEq T] {cfg : CoordinatorConfig} {s s' : IndexSystem T} {t : T}

omit [DecidableEq T] in
theorem queued_start : (IndexSystem.start : IndexSystem T).Queued where
  distinct := List.nodup_nil
  listed t := by simp [IndexSystem.start, Coordinator.new, TaskState.new, TaskState.sharedWaiter, TaskState.exclusiveWaiter]
  counted := ⟨∅, by simp [IndexSystem.start, TaskState.new, TaskState.exclusiveWaiter], rfl⟩
  reason t h := by cases h

/-- The task waits for nothing. -/
structure IdleTask (task : TaskState) : Prop where
  shared : task.sharedWaiter = false
  exclusive : task.exclusiveWaiter = false

theorem idleTask_of_awaiting {task : TaskState} (h : task.awaiting = none) : IdleTask task := by
  constructor
  · rw [TaskState.sharedWaiter, h]
  · rw [TaskState.exclusiveWaiter, h]

omit [DecidableEq T] in
theorem IndexSystem.Queued.absent (hq : s.Queued) (ht : IdleTask (s.tasks t)) : t ∉ s.coordinator.waiters.map Prod.fst := by
  rw [hq.listed, ht.shared, ht.exclusive]
  simp

theorem IndexSystem.Queued.raise (hq : s.Queued) (ht : IdleTask (s.tasks t)) (e : LeaseError) : (s.raise t e).Queued :=
  Index.Queued.idle hq rfl (fun _ h => h) rfl (fun _ _ => ⟨id, id⟩) ht.shared.symm ht.exclusive.symm

/-- The last level of a lease is released with everybody notified. -/
theorem releaseLocal_waiters {c c' : Coordinator T} (h : c.releaseLocal t = .ok c') :
    c'.waiters.map Prod.fst = c.waiters.map Prod.fst ∧ c'.waitingExclusiveCount = c.waitingExclusiveCount ∧
      (∀ u, (u, false) ∈ c'.waiters → (u, false) ∈ c.waiters ∧ StaysBlocked c c') := by
  unfold Coordinator.releaseLocal at h
  split at h
  · cases h
  · rename_i lease hlease
    split at h
    · cases h
      exact ⟨rfl, rfl, fun u hu => ⟨hu, id, id⟩⟩
    · have hall : ∀ u, (u, false) ∉ notify c.waiters.length c.waiters := not_pending (pending_notifyAll c.waiters)
      split at h
      · cases h
        exact ⟨notify_fst _ _, rfl, fun u hu => absurd hu (hall u)⟩
      · cases h
        exact ⟨notify_fst _ _, rfl, fun u hu => absurd hu (hall u)⟩

theorem IndexSystem.Queued.release (hq : s.Queued) (ht : IdleTask (s.tasks t)) (raised : Option LeaseError) :
    (s.release t raised).Queued := by
  unfold IndexSystem.release
  cases hrelease : s.coordinator.releaseLocal t with
  | error e => exact Index.Queued.idle hq rfl (fun _ h => h) rfl (fun _ _ => ⟨id, id⟩) ht.shared.symm ht.exclusive.symm
  | ok c =>
    obtain ⟨hqueue, hcount, hfewer⟩ := releaseLocal_waiters hrelease
    exact Index.Queued.idle hq hqueue (fun u hu => (hfewer u hu).1) hcount (fun u hu => (hfewer u hu).2) ht.shared.symm
      ht.exclusive.symm

/-- One more shared lease leaves the lane taken. -/
theorem staysBlocked_takeShared (hk : s.Kept) (name : String) :
    StaysBlocked s.coordinator (s.coordinator.takeShared t name) := by
  refine ⟨id, ?_⟩
  intro _
  obtain ⟨holders, -, hcount⟩ := hk.lanes.shared
  have hnonneg : s.coordinator.activeSharedCount = holders.card := hcount
  have hne : s.coordinator.activeSharedCount + 1 ≠ 0 := by omega
  simp [Coordinator.exclusiveAvailable, Coordinator.takeShared, hne]

omit [DecidableEq T] in
theorem staysBlocked_owner {c c' : Coordinator T} (h : c'.exclusiveOwner.isSome = true) : StaysBlocked c c' := by
  refine ⟨fun _ => ?_, fun _ => ?_⟩
  · simp [Coordinator.sharedBlocked, h]
  · unfold Coordinator.exclusiveAvailable
    cases howner : c'.exclusiveOwner with
    | none => simp [howner] at h
    | some owner => rfl

/-- A task that did not wait has taken its lease. -/
theorem IndexSystem.Queued.acquired (hq : s.Queued) (ht : IdleTask (s.tasks t)) {c : Coordinator T}
    (hwaiters : c.waiters = s.coordinator.waiters) (hcount : c.waitingExclusiveCount = s.coordinator.waitingExclusiveCount)
    (hstays : StaysBlocked s.coordinator c) (name : String) (wait : Bool) (mode : IndexLeaseMode) :
    (s.acquired cfg t c name wait mode).Queued := by
  have hqueue : c.waiters.map Prod.fst = s.coordinator.waiters.map Prod.fst := by rw [hwaiters]
  refine Index.Queued.idle hq hqueue ?_ hcount (fun _ _ => hstays) ?_ ?_
  · intro u hu
    rw [← hwaiters]
    exact hu
  · rw [ht.shared]
    cases cfg.processLock <;> rfl
  · rw [ht.exclusive]
    cases cfg.processLock <;> rfl

theorem IndexSystem.Queued.acquireLocal (hq : s.Queued) (hk : s.Kept) (ht : IdleTask (s.tasks t)) (name : String) (wait : Bool)
    (mode : IndexLeaseMode) : (acquireLocal cfg s t name wait mode).Queued := by
  have habsent := withdraw_absent (hq.absent ht)
  have hidle : exclusiveCount (s.tasks t) = 0 := if_neg (by rw [ht.exclusive]; exact Bool.false_ne_true)
  unfold Index.acquireLocal
  split
  · split
    · exact hq.raise ht _
    · exact Index.Queued.idle hq rfl (fun _ h => h) rfl (fun _ _ => ⟨id, id⟩) ht.shared.symm ht.exclusive.symm
  · split
    · split
      · rename_i hblocked
        refine Index.Queued.rejoin hq ?_ ?_ ⟨id, id⟩ (.inl rfl) ⟨fun _ => hblocked, fun h => (by cases h)⟩
        · rw [habsent]
          rfl
        · rw [hidle]
          show s.coordinator.waitingExclusiveCount = _ - 0 + 0
          omega
      · exact hq.acquired (c := s.coordinator.takeShared t name) ht rfl rfl (staysBlocked_takeShared hk name) name wait .shared
    · split
      · exact hq.acquired (c := s.coordinator.takeExclusive t name) ht rfl rfl (staysBlocked_owner rfl) name wait .exclusive
      · rename_i htaken
        split
        · have htaken' : s.coordinator.exclusiveAvailable = false := Bool.eq_false_iff.mpr htaken
          refine Index.Queued.rejoin hq ?_ ?_ ?_ (.inr rfl) ⟨fun h => (by cases h), fun _ => htaken'⟩
          · rw [habsent]
            rfl
          · rw [hidle]
            show s.coordinator.waitingExclusiveCount + 1 = _ - 0 + 1
            omega
          · refine ⟨?_, id⟩
            intro h
            have hcounted : s.coordinator.exclusiveOwner.isSome = true ∨ 0 < s.coordinator.waitingExclusiveCount := by
              simpa [Coordinator.sharedBlocked] using h
            obtain howner | hpos := hcounted
            · simp [Coordinator.sharedBlocked, IndexSystem.suspend, Coordinator.join, howner]
            · have hmore : 0 < s.coordinator.waitingExclusiveCount + 1 := by omega
              simp [Coordinator.sharedBlocked, IndexSystem.suspend, Coordinator.join, hmore]
        · exact hq.raise ht _

/-- Whom an interrupted task leaves unnotified. -/
theorem notifyOne_fewer {c : Coordinator T} {u : T} (h : (u, false) ∈ (c.withdraw t).notifyOne.waiters) :
    (u, false) ∈ (c.withdraw t).waiters := mem_of_mem_notify h

theorem IndexSystem.Queued.resumeShared (hq : s.Queued) (hk : s.Kept) {name : String} {wait : Bool}
    (ht : (s.tasks t).awaiting = some (.sharedTurn name wait)) : (resumeShared cfg s t name wait).Queued := by
  have hidle : exclusiveCount (s.tasks t) = 0 := by
    rw [exclusiveCount, TaskState.exclusiveWaiter, ht]
    rfl
  have hcount : s.coordinator.waitingExclusiveCount = s.coordinator.waitingExclusiveCount - exclusiveCount (s.tasks t) := by
    omega
  unfold Index.resumeShared
  simp only
  split
  · exact Index.Queued.withdraw hq (notify_fst _ _) (fun u hu => notifyOne_fewer hu) hcount
      (fun u _ h => h.mono ⟨id, id⟩) rfl rfl
  · split
    · rename_i hblocked
      refine Index.Queued.rejoin hq rfl ?_ ⟨id, id⟩ (.inl rfl) ⟨fun _ => hblocked, fun h => (by cases h)⟩
      show s.coordinator.waitingExclusiveCount = _ - _ + 0
      omega
    · have hstays : StaysBlocked s.coordinator ((s.coordinator.withdraw t).takeShared t name) :=
        ⟨id, (staysBlocked_takeShared (t := t) hk name).exclusive⟩
      refine Index.Queued.withdraw hq rfl (fun u hu => hu) hcount (fun u _ h => h.mono hstays) ?_ ?_
      · cases cfg.processLock <;> rfl
      · cases cfg.processLock <;> rfl

/-- The task waits for the exclusive lane and has been cancelled or has timed out. -/
def GivesUp (s : IndexSystem T) (t : T) : Prop := (s.tasks t).exclusiveWaiter = true ∧ (s.tasks t).interrupted = true

instance (s : IndexSystem T) (t : T) : Decidable (GivesUp s t) := inferInstanceAs (Decidable (_ ∧ _))

/-- The last waiting exclusive request does not give up while the lane is free and more than one waiter has not been notified. -/
def WakesEnough (s : IndexSystem T) : IndexLabel T → Prop
  | .resume t => GivesUp s t → s.coordinator.exclusiveOwner = none → s.coordinator.waitingExclusiveCount = 1 →
      (pending s.coordinator.waiters).length ≤ 1
  | _ => True

theorem exclusiveCount_waiter {task : TaskState} (h : task.exclusiveWaiter = true) : exclusiveCount task = 1 := if_pos h

theorem pending_withdraw_le (c : Coordinator T) (t : T) :
    (pending (c.withdraw t).waiters).length ≤ (pending c.waiters).length := by
  unfold pending Coordinator.withdraw
  exact (List.filter_sublist.filter _).length_le

theorem IndexSystem.Queued.resumeExclusive (hq : s.Queued) {name : String} {wait : Bool}
    (ht : (s.tasks t).awaiting = some (.exclusiveTurn name wait)) (hok : WakesEnough s (.resume t)) :
    (resumeExclusive cfg s t name wait).Queued := by
  have hwaits : (s.tasks t).exclusiveWaiter = true := by rw [TaskState.exclusiveWaiter, ht]
  have hone := exclusiveCount_waiter hwaits
  have hcount : s.coordinator.waitingExclusiveCount - 1 = s.coordinator.waitingExclusiveCount - exclusiveCount (s.tasks t) := by
    omega
  unfold Index.resumeExclusive
  simp only
  split
  · rename_i hinterrupted
    refine Index.Queued.withdraw hq (notify_fst _ _) (fun u hu => notifyOne_fewer hu) hcount ?_ rfl rfl
    intro u hu hreason
    refine ⟨?_, hreason.exclusive⟩
    intro hshared
    have hblocked := hreason.shared hshared
    by_cases hlast : s.coordinator.exclusiveOwner = none ∧ s.coordinator.waitingExclusiveCount = 1
    · -- the one who is notified is the only one
      have hpending : pending (notify 1 (s.coordinator.withdraw t).waiters) = [] := by
        rw [pending_notify]
        apply List.drop_eq_nil_of_le
        exact (pending_withdraw_le s.coordinator t).trans (hok ⟨hwaits, hinterrupted⟩ hlast.1 hlast.2)
      exact absurd hu (not_pending hpending u)
    · have hcases : s.coordinator.exclusiveOwner.isSome = true ∨ 0 < s.coordinator.waitingExclusiveCount := by
        simpa [Coordinator.sharedBlocked] using hblocked
      cases howner : s.coordinator.exclusiveOwner with
      | some owner => simp [Coordinator.sharedBlocked, Coordinator.notifyOne, Coordinator.withdraw, howner]
      | none =>
        rw [howner] at hcases
        have hpos : 0 < s.coordinator.waitingExclusiveCount := by simpa using hcases
        have hmore : s.coordinator.waitingExclusiveCount ≠ 1 := fun h => hlast ⟨howner, h⟩
        have hstill : 1 < s.coordinator.waitingExclusiveCount := by omega
        simp [Coordinator.sharedBlocked, Coordinator.notifyOne, Coordinator.withdraw, hstill]
  · split
    · have hstays : ∀ c : Coordinator T, StaysBlocked s.coordinator (c.takeExclusive t name) := fun _ => staysBlocked_owner rfl
      refine Index.Queued.withdraw hq rfl (fun u hu => hu) hcount (fun u _ h => h.mono (hstays _)) ?_ ?_
      · cases cfg.processLock <;> rfl
      · cases cfg.processLock <;> rfl
    · rename_i htaken
      have htaken' : s.coordinator.exclusiveAvailable = false := Bool.eq_false_iff.mpr htaken
      refine Index.Queued.rejoin hq rfl ?_ ⟨id, id⟩ (.inr rfl) ⟨fun h => (by cases h), fun _ => htaken'⟩
      show s.coordinator.waitingExclusiveCount = _ - _ + 1
      omega

theorem IndexSystem.Queued.interrupt (hq : s.Queued) :
    IndexSystem.Queued { s.setTask t { (s.tasks t) with interrupted := true } with coordinator := s.coordinator.signal t } := by
  have hqueue : (s.coordinator.signal t).waiters.map Prod.fst = s.coordinator.waiters.map Prod.fst := by
    unfold Coordinator.signal
    rw [List.map_map]
    apply List.map_congr_left
    intro waiter _
    simp only [Function.comp_apply]
    split
    · rename_i heq
      exact heq.symm
    · rfl
  refine Index.Queued.idle hq hqueue ?_ rfl (fun _ _ => ⟨id, id⟩) rfl rfl
  intro u hu
  obtain ⟨waiter, hmem, heq⟩ := List.mem_map.mp hu
  split at heq
  · cases heq
  · rw [← heq]
    exact hmem

theorem IndexSystem.Queued.step {l : IndexLabel T} (hq : s.Queued) (hk : s.Kept) (hok : WakesEnough s l)
    (h : indexStep cfg s l = some s') : s'.Queued := by
  cases l with
  | enter t name wait mode =>
    simp only [indexStep] at h
    split at h
    · rename_i hawaiting
      cases h
      exact hq.acquireLocal hk (idleTask_of_awaiting hawaiting) name wait mode
    · cases h
  | interrupt t =>
    simp only [indexStep] at h
    split at h
    · cases h
      exact hq.interrupt
    · cases h
      exact hq.interrupt
    · cases h
  | resume t =>
    simp only [indexStep] at h
    split at h
    · split at h
      · rename_i name wait hawaiting
        cases h
        exact hq.resumeShared hk hawaiting
      · rename_i name wait hawaiting
        cases h
        exact hq.resumeExclusive hawaiting hok
      · cases h
    · cases h
  | lockTaken t =>
    simp only [indexStep] at h
    split at h
    · rename_i name wait shared hawaiting
      have hidle : IdleTask (s.tasks t) := ⟨by rw [TaskState.sharedWaiter, hawaiting], by rw [TaskState.exclusiveWaiter, hawaiting]⟩
      cases h
      exact Index.Queued.idle hq rfl (fun _ h => h) rfl (fun _ _ => ⟨id, id⟩) hidle.shared.symm hidle.exclusive.symm
    · cases h
  | lockFailed t blocking =>
    simp only [indexStep] at h
    split at h
    · rename_i name wait shared hawaiting
      have hidle : IdleTask (s.tasks t) := ⟨by rw [TaskState.sharedWaiter, hawaiting], by rw [TaskState.exclusiveWaiter, hawaiting]⟩
      cases h
      exact hq.release hidle _
    · cases h
  | leave t =>
    simp only [indexStep] at h
    split at h
    · rename_i lease rest hawaiting hleases
      have hidle := idleTask_of_awaiting hawaiting
      split at h
      · cases h
        exact Index.Queued.idle hq rfl (fun _ h => h) rfl (fun _ _ => ⟨id, id⟩) hidle.shared.symm hidle.exclusive.symm
      · cases h
        exact hq.release hidle _
    · cases h
  | lockReleased t =>
    simp only [indexStep] at h
    split at h
    · rename_i hawaiting
      have hidle : IdleTask (s.tasks t) := ⟨by rw [TaskState.sharedWaiter, hawaiting], by rw [TaskState.exclusiveWaiter, hawaiting]⟩
      cases h
      exact hq.release hidle _
    · cases h

/-! ## No stuck waiter -/

/-- Who could take a lease that nobody stands against has a wake-up pending. -/
structure NoStuckWaiter (s : IndexSystem T) : Prop where
  shared : (∀ t, (s.tasks t).openLeases .exclusive = 0) → (∀ t, (s.tasks t).exclusiveWaiter = false) →
    ∀ t, (s.tasks t).sharedWaiter = true → (t, true) ∈ s.coordinator.waiters
  exclusive : (∀ t, (s.tasks t).leases = []) → ∀ t, (s.tasks t).exclusiveWaiter = true →
    ∃ u, (s.tasks u).exclusiveWaiter = true ∧ (u, true) ∈ s.coordinator.waiters

theorem IndexSystem.Kept.owner_none (hk : s.Kept) :
    s.coordinator.exclusiveOwner = none ↔ ∀ t, (s.tasks t).openLeases .exclusive = 0 := by
  constructor
  · intro howner t
    by_contra hne
    have hlease := hk.openLeases_pos.mp (Nat.pos_of_ne_zero hne)
    have hsome : s.coordinator.exclusiveOwner = some t := (hk.lanes.owner t).mpr hlease
    rw [howner] at hsome
    cases hsome
  · intro hfree
    cases howner : s.coordinator.exclusiveOwner with
    | none => rfl
    | some t =>
      have hpos := hk.openLeases_pos.mpr ((hk.lanes.owner t).mp howner)
      rw [hfree t] at hpos
      exact absurd hpos (by decide)

omit [DecidableEq T] in
theorem IndexSystem.Queued.done_or_pending (hq : s.Queued)
    (ht : (s.tasks t).sharedWaiter = true ∨ (s.tasks t).exclusiveWaiter = true) :
    (t, true) ∈ s.coordinator.waiters ∨ (t, false) ∈ s.coordinator.waiters := by
  obtain ⟨waiter, hmem, rfl⟩ := List.mem_map.mp ((hq.listed t).mpr ht)
  obtain ⟨u, done⟩ := waiter
  cases done with
  | true => exact .inl hmem
  | false => exact .inr hmem

omit [DecidableEq T] in
theorem IndexSystem.Queued.count_zero (hq : s.Queued) (hnone : ∀ t, (s.tasks t).exclusiveWaiter = false) :
    s.coordinator.waitingExclusiveCount = 0 := by
  obtain ⟨waiting, hwaiting, hcount⟩ := hq.counted
  have hempty : waiting = ∅ := by
    apply Finset.eq_empty_of_forall_notMem
    intro t ht
    rw [hwaiting, hnone] at ht
    cases ht
  rw [hcount, hempty]
  rfl

theorem IndexSystem.Queued.noStuckWaiter (hq : s.Queued) (hk : s.Kept) : NoStuckWaiter s := by
  constructor
  · intro hfree hnone t ht
    obtain hdone | hpending := hq.done_or_pending (.inl ht)
    · exact hdone
    · have hblocked := (hq.reason t hpending).shared ht
      have howner := hk.owner_none.mpr hfree
      simp [Coordinator.sharedBlocked, howner, hq.count_zero hnone] at hblocked
  · intro hfree t ht
    refine ⟨t, ht, ?_⟩
    obtain hdone | hpending := hq.done_or_pending (.inr ht)
    · exact hdone
    · have htaken := (hq.reason t hpending).exclusive ht
      have hopen : ∀ mode u, (s.tasks u).openLeases mode = 0 := by
        intro mode u
        rw [TaskState.openLeases, hfree u]
        rfl
      obtain ⟨holders, hholders, hcount⟩ := hk.lanes.shared
      have hempty : holders = ∅ := by
        apply Finset.eq_empty_of_forall_notMem
        intro u hu
        have hpos := hk.openLeases_pos.mpr ((hholders u).mp hu)
        rw [hopen] at hpos
        exact absurd hpos (by decide)
      rw [hempty] at hcount
      have hall : s.coordinator.exclusiveAvailable = true :=
        exclusiveAvailable_iff.mpr ⟨hk.owner_none.mpr (hopen .exclusive), hcount⟩
      rw [hall] at htaken
      cases htaken

/-- Otherwise one of the waiters is left behind. -/
theorem stuck_of_givesUp (hq : s.Queued) (hk : s.Kept) {name : String} {wait : Bool}
    (ht : (s.tasks t).awaiting = some (.exclusiveTurn name wait)) (hdone : (t, true) ∈ s.coordinator.waiters)
    (hok : ¬ WakesEnough s (.resume t)) : ¬ NoStuckWaiter (resumeExclusive cfg s t name wait) := by
  simp only [WakesEnough, not_forall] at hok
  obtain ⟨⟨hwaits, hinterrupted⟩, howner, hcount, hmany⟩ := hok
  intro hfine
  unfold resumeExclusive at hfine
  simp only at hfine
  rw [if_pos hinterrupted] at hfine
  obtain ⟨waiting, hwaiting, hcard⟩ := hq.counted
  have hsingle : waiting = {t} := by
    have hone : waiting.card = 1 := by omega
    obtain ⟨u, hu⟩ := Finset.card_eq_one.mp hone
    have hmem := (hwaiting t).mpr hwaits
    rw [hu, Finset.mem_singleton] at hmem
    rw [hu, hmem]
  have hother : ∀ u, u ≠ t → (s.tasks u).exclusiveWaiter = false := by
    intro u hu
    rw [← Bool.not_eq_true, ← hwaiting, hsingle, Finset.mem_singleton]
    exact hu
  -- the task that gives up is among the notified ones
  have hsame : pending (s.coordinator.withdraw t).waiters = pending s.coordinator.waiters := by
    unfold pending Coordinator.withdraw
    rw [List.filter_filter]
    apply List.filter_congr
    intro waiter hwaiter
    by_cases heq : waiter.1 = t
    · have hentry : waiter = (t, true) := List.inj_on_of_nodup_map hq.distinct hwaiter hdone heq
      simp [hentry]
    · simp [heq]
  obtain ⟨u, hleft⟩ : ∃ u, (u, false) ∈ notify 1 (s.coordinator.withdraw t).waiters := by
    have hlength : 0 < (pending (notify 1 (s.coordinator.withdraw t).waiters)).length := by
      rw [pending_notify, hsame, List.length_drop]
      omega
    obtain ⟨waiter, hwaiter⟩ := List.exists_mem_of_length_pos hlength
    obtain ⟨hmem, hnot⟩ := List.mem_filter.mp hwaiter
    obtain ⟨u, done⟩ := waiter
    cases done with
    | true => cases hnot
    | false => exact ⟨u, hmem⟩
  obtain ⟨hold, hne⟩ := mem_of_mem_withdraw (mem_of_mem_notify hleft)
  have hshared : (s.tasks u).sharedWaiter = true := by
    have hlisted := (hq.listed u).mp (List.mem_map_of_mem hold)
    rw [hother u hne] at hlisted
    simpa using hlisted
  have htask : ∀ v, v ≠ t → (s.raise t .interrupted).tasks v = s.tasks v := fun v hv => Function.update_of_ne hv _ _
  have hself : (s.raise t .interrupted).tasks t = { s.tasks t with awaiting := none, interrupted := false, raised := some .interrupted } :=
    Function.update_self _ _ _
  have hfree := hk.owner_none.mp howner
  have hnotified := hfine.shared ?_ ?_ u (by rw [htask u hne]; exact hshared)
  · have hdistinct : ((notify 1 (s.coordinator.withdraw t).waiters).map Prod.fst).Nodup := by
      rw [notify_fst]
      exact hq.distinct.sublist (List.filter_sublist.map Prod.fst)
    have heq := List.inj_on_of_nodup_map hdistinct hnotified hleft rfl
    cases heq
  · intro v
    by_cases hv : v = t
    · subst hv
      rw [hself]
      exact hfree v
    · rw [htask v hv]
      exact hfree v
  · intro v
    by_cases hv : v = t
    · subst hv
      rw [hself]
      rfl
    · rw [htask v hv]
      exact hother v hv

theorem IndexSystem.Queued.step_iff {l : IndexLabel T} (hq : s.Queued) (hk : s.Kept) (h : indexStep cfg s l = some s') :
    NoStuckWaiter s' ↔ WakesEnough s l := by
  constructor
  · intro hfine
    by_contra hok
    cases l with
    | resume t =>
      simp only [indexStep] at h
      split at h
      · rename_i hdone
        split at h
        · rename_i name wait hawaiting
          apply hok
          rintro ⟨hwaits, -⟩
          rw [TaskState.exclusiveWaiter, hawaiting] at hwaits
          cases hwaits
        · rename_i name wait hawaiting
          cases h
          exact stuck_of_givesUp hq hk hawaiting hdone hok hfine
        · cases h
      · cases h
    | enter t name wait mode => exact hok trivial
    | interrupt t => exact hok trivial
    | lockTaken t => exact hok trivial
    | lockFailed t blocking => exact hok trivial
    | leave t => exact hok trivial
    | lockReleased t => exact hok trivial
  · intro hok
    exact (hq.step hk hok h).noStuckWaiter (hk.step h)

/-- No waiter is stuck in a run in which the last waiting exclusive request never gives up with the lane free and more than one waiter
unnotified; the first step at which one does leaves a waiter stuck. -/
theorem no_stuck_waiter_iff (h : Run.Guarded (indexStep cfg) WakesEnough IndexSystem.start s) :
    NoStuckWaiter s ∧ ∀ l s', indexStep cfg s l = some s' → (NoStuckWaiter s' ↔ WakesEnough s l) := by
  have hkept : s.Kept ∧ s.Queued := by
    refine Run.Guarded.invariant (P := fun a : IndexSystem T => a.Kept ∧ a.Queued) h ⟨kept_start, queued_start⟩ ?_
    intro a l b hboth hok hstep
    obtain ⟨hk, hq⟩ := hboth
    exact ⟨hk.step hstep, hq.step hk hok hstep⟩
  obtain ⟨hk, hq⟩ := hkept
  exact ⟨hq.noStuckWaiter hk, fun l s' hstep => hq.step_iff hk hstep⟩

instance (s : IndexSystem T) (l : IndexLabel T) : Decidable (WakesEnough s l) := by
  cases l <;> (unfold WakesEnough; infer_instance)

end Steps

/-! ## Writers behind a maintenance that is cancelled -/

def cancelledMaintenance : List (IndexLabel (Fin 4)) :=
  [.writeOperation ⟨false, true⟩ 0 "note_write", .operation 1 "vault_reindex" true, .writeOperation ⟨false, true⟩ 2 "note_write",
    .writeOperation ⟨false, true⟩ 3 "note_write", .interrupt 1, .resume 1]

/-- Of the two writers that waited behind the maintenance one is woken. -/
theorem writer_left_behind : ∃ s : IndexSystem (Fin 4),
    Run.Runs (indexStep ⟨false, true⟩) IndexSystem.start s ∧ ¬ NoStuckWaiter s := by
  have hrun : ((Run.exec (indexStep ⟨false, true⟩) IndexSystem.start cancelledMaintenance).map fun s =>
      (decide (∀ t, (s.tasks t).openLeases .exclusive = 0), decide (∀ t, (s.tasks t).exclusiveWaiter = false),
        (s.tasks 3).sharedWaiter, decide ((3, true) ∈ s.coordinator.waiters))) = some (true, true, true, false) := by decide
  obtain ⟨s, hs, hstate⟩ := Option.map_eq_some_iff.mp hrun
  simp only [Prod.mk.injEq] at hstate
  obtain ⟨hfree, hnone, hwaits, hasleep⟩ := hstate
  refine ⟨s, Run.Runs.of_exec _ hs, ?_⟩
  intro hfine
  exact of_decide_eq_false hasleep (hfine.shared (of_decide_eq_true hfree) (of_decide_eq_true hnone) 3 hwaits)

/-- With one writer behind it the maintenance may be cancelled. -/
theorem no_stuck_waiter_iff_one : ∃ s : IndexSystem (Fin 4), (s.tasks 2).sharedWaiter = true ∧ NoStuckWaiter s := by
  have hrun : ((Run.exec (Run.checked (indexStep ⟨false, true⟩) fun s l => decide (WakesEnough s l)) IndexSystem.start
      ([.writeOperation ⟨false, true⟩ 0 "note_write", .operation 1 "vault_reindex" true,
        .writeOperation ⟨false, true⟩ 2 "note_write", .interrupt 1, .resume 1] : List (IndexLabel (Fin 4)))).map fun s => (s.tasks 2).sharedWaiter) =
      some true := by decide
  obtain ⟨s, hs, hwaits⟩ := Option.map_eq_some_iff.mp hrun
  exact ⟨s, hwaits, (no_stuck_waiter_iff (.of_exec (fun _ _ hcheck => of_decide_eq_true hcheck) _ hs)).1⟩

end Alexandria.Index
