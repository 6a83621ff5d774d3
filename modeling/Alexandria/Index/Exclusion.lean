import Alexandria.Foundations.Keyed
import Alexandria.Index.Coordinator
import Mathlib.Data.Finset.Card
import Mathlib.Tactic.Common

/-! # Exclusive and shared leases

The books of the coordinator are exact: the lease of every task is determined by the leases it has open, the owner
is the one task with an exclusive lease, and the shared count is the number of tasks with a shared one. The queue
of the condition plays no part in this, so the invariant speaks about the ledger only.
-/

namespace Alexandria.Index
set_option autoImplicit false

/-! ## The ledger -/

/-- What the coordinator knows about leases. -/
structure Ledger (T : Type) where
  taskLeases : AList fun _ : T => TaskLease
  exclusiveOwner : Option T
  activeSharedCount : ℤ
  activeOperation : Option String

def Coordinator.ledger {T : Type} (c : Coordinator T) : Ledger T :=
  ⟨c.taskLeases, c.exclusiveOwner, c.activeSharedCount, c.activeOperation⟩

/-- The last level of a lease is released. -/
def Ledger.drop {T : Type} [DecidableEq T] (ledger : Ledger T) (t : T) : IndexLeaseMode → Ledger T
  | .exclusive =>
    { ledger with taskLeases := ledger.taskLeases.erase t, exclusiveOwner := none, activeOperation := none }
  | .shared =>
    { ledger with taskLeases := ledger.taskLeases.erase t, activeSharedCount := ledger.activeSharedCount - 1 }

/-- The lease that open leases amount to, innermost first: the outermost one names it. -/
def openLease : List OpenLease → Option TaskLease
  | [] => none
  | [lease] => some ⟨lease.mode, lease.name, 1⟩
  | _ :: lease :: rest => (openLease (lease :: rest)).map fun outer => { outer with depth := outer.depth + 1 }

/-- How many leases of a mode are open. -/
def TaskState.openLeases (task : TaskState) (mode : IndexLeaseMode) : ℕ :=
  task.leases.countP fun lease => lease.mode = mode

/-- A task in the queue has no lease, and one that awaits the process lock has just the outermost. -/
def TaskState.Fits (task : TaskState) : Prop :=
  match task.awaiting with
  | some (.sharedTurn _ _) => task.leases = []
  | some (.exclusiveTurn _ _) => task.leases = []
  | some (.processLock _ _ _) => task.leases.tail = []
  | _ => True

theorem TaskState.fits_of_nil {task : TaskState} (h : task.leases = []) : task.Fits := by
  unfold TaskState.Fits
  split
  · exact h
  · exact h
  · rw [h]
    rfl
  · trivial

theorem openLease_push {leases : List OpenLease} {outer : TaskLease} (lease : OpenLease)
    (h : openLease leases = some outer) :
    openLease (lease :: leases) = some { outer with depth := outer.depth + 1 } := by
  cases leases with
  | nil => cases h
  | cons next rest => simp [openLease, h]

theorem openLease_eq_none {leases : List OpenLease} : openLease leases = none ↔ leases = [] := by
  induction leases with
  | nil => simp [openLease]
  | cons lease leases ih =>
    cases leases with
    | nil => simp [openLease]
    | cons next rest => simpa [openLease] using ih

theorem openLease_depth {leases : List OpenLease} {outer : TaskLease} (h : openLease leases = some outer) :
    outer.depth = leases.length := by
  induction leases generalizing outer with
  | nil => cases h
  | cons lease leases ih =>
    cases leases with
    | nil =>
      cases h
      rfl
    | cons next rest =>
      obtain ⟨inner, hinner, rfl⟩ := Option.map_eq_some_iff.mp h
      simp only [ih hinner, List.length_cons]

section Books
variable {T : Type} [DecidableEq T]

/-- The table lists every task's open leases. -/
structure Booked (table : AList fun _ : T => TaskLease) (tasks : T → TaskState) : Prop where
  held : ∀ t, table.lookup t = openLease (tasks t).leases
  uniform : ∀ t lease, table.lookup t = some lease → ∀ inner ∈ (tasks t).leases, inner.mode = lease.mode
  fits : ∀ t, (tasks t).Fits

/-- The task has a lease of the mode. -/
def HasLease (table : AList fun _ : T => TaskLease) (t : T) (mode : IndexLeaseMode) : Prop :=
  ∃ lease, table.lookup t = some lease ∧ lease.mode = mode

/-- The counters say what the table says. -/
structure Lanes (ledger : Ledger T) : Prop where
  owner : ∀ t, ledger.exclusiveOwner = some t ↔ HasLease ledger.taskLeases t .exclusive
  shared : ∃ holders : Finset T, (∀ t, t ∈ holders ↔ HasLease ledger.taskLeases t .shared) ∧ ledger.activeSharedCount = holders.card
  apart : ledger.exclusiveOwner ≠ none → ledger.activeSharedCount = 0
  named : ledger.exclusiveOwner = none → ledger.activeOperation = none

structure LeasesKept (ledger : Ledger T) (tasks : T → TaskState) : Prop where
  booked : Booked ledger.taskLeases tasks
  lanes : Lanes ledger

variable {table table' : AList fun _ : T => TaskLease} {tasks : T → TaskState} {ledger : Ledger T} {t : T}
  {task : TaskState}

/-- A step of task `t` that changes the table for `t` only. -/
theorem Booked.update (hb : Booked table tasks) (hothers : ∀ u, u ≠ t → table'.lookup u = table.lookup u)
    (hheld : table'.lookup t = openLease task.leases)
    (huniform : ∀ lease, table'.lookup t = some lease → ∀ inner ∈ task.leases, inner.mode = lease.mode)
    (hfits : task.Fits) : Booked table' (Function.update tasks t task) := by
  refine ⟨?_, ?_, ?_⟩
  · intro u
    by_cases hu : u = t
    · subst hu
      rwa [Function.update_self]
    · rw [Function.update_of_ne hu, hothers u hu]
      exact hb.held u
  · intro u lease hlease
    by_cases hu : u = t
    · subst hu
      rw [Function.update_self]
      exact huniform lease hlease
    · rw [hothers u hu] at hlease
      rw [Function.update_of_ne hu]
      exact hb.uniform u lease hlease
  · intro u
    by_cases hu : u = t
    · subst hu
      rwa [Function.update_self]
    · rw [Function.update_of_ne hu]
      exact hb.fits u

/-- A step that leaves the open leases. -/
theorem LeasesKept.idle (hk : LeasesKept ledger tasks) (hleases : task.leases = (tasks t).leases)
    (hfits : task.Fits) : LeasesKept ledger (Function.update tasks t task) := by
  refine ⟨hk.booked.update (fun _ _ => rfl) ?_ ?_ hfits, hk.lanes⟩
  · rw [hleases]
    exact hk.booked.held t
  · rw [hleases]
    exact hk.booked.uniform t

/-- Without a lease in the table nothing is open. -/
theorem Booked.leases_nil (hb : Booked table tasks) (ht : table.lookup t = none) : (tasks t).leases = [] :=
  openLease_eq_none.mp ((hb.held t).symm.trans ht)

/-! ## Taking a lease -/

theorem hasLease_congr {mode : IndexLeaseMode} (h : table'.lookup t = table.lookup t) :
    HasLease table' t mode ↔ HasLease table t mode := by
  unfold HasLease
  rw [h]

theorem hasLease_of_lookup {lease : TaskLease} {mode : IndexLeaseMode} (h : table.lookup t = some lease) :
    HasLease table t mode ↔ lease.mode = mode := by
  constructor
  · rintro ⟨found, hfound, hmode⟩
    rw [h] at hfound
    cases hfound
    exact hmode
  · exact fun hmode => ⟨lease, h, hmode⟩

theorem not_hasLease_of_lookup {mode : IndexLeaseMode} (h : table.lookup t = none) : ¬ HasLease table t mode := by
  rintro ⟨_, hlease, -⟩
  rw [h] at hlease
  simp at hlease

/-- An outermost lease is entered in the table. -/
theorem Booked.insert (hb : Booked table tasks) (ht : table.lookup t = none) {name : String} {mode : IndexLeaseMode}
    (hleases : task.leases = ⟨name, mode, true⟩ :: (tasks t).leases) (hfits : task.leases.tail = [] → task.Fits) :
    Booked (table.insert t ⟨mode, name, 1⟩) (Function.update tasks t task) := by
  rw [hb.leases_nil ht] at hleases
  refine hb.update ?_ ?_ ?_ ?_
  · exact fun u hu => AList.lookup_insert_ne hu
  · rw [hleases, AList.lookup_insert]
    rfl
  · intro lease hlease inner hinner
    rw [AList.lookup_insert] at hlease
    cases hlease
    rw [hleases, List.mem_singleton] at hinner
    rw [hinner]
  · apply hfits
    rw [hleases]
    rfl

theorem Lanes.takeShared (hl : Lanes ledger) (ht : ledger.taskLeases.lookup t = none)
    (howner : ledger.exclusiveOwner = none) (name : String) :
    Lanes { ledger with
      taskLeases := ledger.taskLeases.insert t ⟨.shared, name, 1⟩
      activeSharedCount := ledger.activeSharedCount + 1 } := by
  obtain ⟨holders, hholders, hcount⟩ := hl.shared
  have hnew : (ledger.taskLeases.insert t ⟨.shared, name, 1⟩).lookup t = some ⟨.shared, name, 1⟩ :=
    AList.lookup_insert _
  have absent : t ∉ holders := fun h => not_hasLease_of_lookup ht ((hholders t).mp h)
  refine ⟨?_, ⟨insert t holders, ?_, ?_⟩, ?_, hl.named⟩
  · intro u
    by_cases hu : u = t
    · subst hu
      rw [hasLease_of_lookup hnew, howner]
      simp
    · rw [hasLease_congr (AList.lookup_insert_ne hu)]
      exact hl.owner u
  · intro u
    rw [Finset.mem_insert]
    by_cases hu : u = t
    · subst hu
      rw [hasLease_of_lookup hnew]
      simp
    · rw [hasLease_congr (AList.lookup_insert_ne hu)]
      simp [hu, hholders u]
  · rw [Finset.card_insert_of_notMem absent]
    show ledger.activeSharedCount + 1 = _
    rw [hcount]
    norm_cast
  · exact fun hsome => absurd howner hsome

theorem Lanes.takeExclusive (hl : Lanes ledger) (ht : ledger.taskLeases.lookup t = none)
    (howner : ledger.exclusiveOwner = none) (hcount : ledger.activeSharedCount = 0) (name : String) :
    Lanes { ledger with
      taskLeases := ledger.taskLeases.insert t ⟨.exclusive, name, 1⟩
      exclusiveOwner := some t
      activeOperation := some name } := by
  obtain ⟨holders, hholders, hcard⟩ := hl.shared
  have hnew : (ledger.taskLeases.insert t ⟨.exclusive, name, 1⟩).lookup t = some ⟨.exclusive, name, 1⟩ :=
    AList.lookup_insert _
  have absent : t ∉ holders := fun h => not_hasLease_of_lookup ht ((hholders t).mp h)
  refine ⟨?_, ⟨holders, ?_, hcard⟩, fun _ => hcount, ?_⟩
  · intro u
    by_cases hu : u = t
    · subst hu
      rw [hasLease_of_lookup hnew]
      simp
    · rw [hasLease_congr (AList.lookup_insert_ne hu), ← hl.owner u, howner]
      simp [Ne.symm hu]
  · intro u
    by_cases hu : u = t
    · subst hu
      rw [hasLease_of_lookup hnew]
      simp [absent]
    · rw [hasLease_congr (AList.lookup_insert_ne hu)]
      exact hholders u
  · exact fun hnone => by cases hnone

/-! ## Nesting and releasing -/

/-- The lanes depend on the modes in the table, not on the depths. -/
theorem Lanes.congr (hl : Lanes ledger) (hmode : ∀ u mode, HasLease table' u mode ↔ HasLease ledger.taskLeases u mode) :
    Lanes { ledger with taskLeases := table' } := by
  obtain ⟨holders, hholders, hcount⟩ := hl.shared
  refine ⟨?_, ⟨holders, ?_, hcount⟩, hl.apart, hl.named⟩
  · exact fun u => (hl.owner u).trans (hmode u .exclusive).symm
  · exact fun u => (hholders u).trans (hmode u .shared).symm

theorem Lanes.setDepth (hl : Lanes ledger) {lease : TaskLease} (ht : ledger.taskLeases.lookup t = some lease)
    (depth : ℕ) : Lanes { ledger with taskLeases := ledger.taskLeases.replace t { lease with depth := depth } } := by
  apply hl.congr
  intro u mode
  by_cases hu : u = t
  · subst hu
    have hnew : (ledger.taskLeases.replace u { lease with depth := depth }).lookup u =
        some { lease with depth := depth } := by
      rw [Keyed.lookup_replace _ ht, if_pos rfl]
    rw [hasLease_of_lookup hnew, hasLease_of_lookup ht]
  · apply hasLease_congr
    rw [Keyed.lookup_replace _ ht, if_neg hu]

/-- The depth in the table follows the open leases. -/
theorem Booked.setDepth (hb : Booked table tasks) {lease : TaskLease} (ht : table.lookup t = some lease) {depth : ℕ}
    (hheld : openLease task.leases = some { lease with depth := depth })
    (huniform : ∀ inner ∈ task.leases, inner.mode = lease.mode) (hfits : task.Fits) :
    Booked (table.replace t { lease with depth := depth }) (Function.update tasks t task) := by
  have hnew : (table.replace t { lease with depth := depth }).lookup t = some { lease with depth := depth } := by
    rw [Keyed.lookup_replace _ ht, if_pos rfl]
  refine hb.update ?_ ?_ ?_ hfits
  · intro u hu
    rw [Keyed.lookup_replace _ ht, if_neg hu]
  · rw [hnew, hheld]
  · intro latest hlatest
    rw [hnew] at hlatest
    cases hlatest
    exact huniform

theorem Lanes.erase (hl : Lanes ledger) {lease : TaskLease} (ht : ledger.taskLeases.lookup t = some lease) :
    Lanes (ledger.drop t lease.mode) := by
  obtain ⟨holders, hholders, hcount⟩ := hl.shared
  have hnew : (ledger.taskLeases.erase t).lookup t = none := AList.lookup_erase _ _
  cases hmode : lease.mode with
  | exclusive =>
    unfold Ledger.drop
    have howner : ledger.exclusiveOwner = some t := (hl.owner t).mpr ((hasLease_of_lookup ht).mpr hmode)
    have absent : t ∉ holders := by
      rw [hholders t, hasLease_of_lookup ht, hmode]
      simp
    refine ⟨?_, ⟨holders, ?_, hcount⟩, fun hsome => absurd rfl hsome, fun _ => rfl⟩
    · intro u
      by_cases hu : u = t
      · subst hu
        simp [not_hasLease_of_lookup hnew]
      · rw [hasLease_congr (AList.lookup_erase_ne hu), ← hl.owner u, howner]
        simp [Ne.symm hu]
    · intro u
      by_cases hu : u = t
      · subst hu
        simp [not_hasLease_of_lookup hnew, absent]
      · rw [hasLease_congr (AList.lookup_erase_ne hu)]
        exact hholders u
  | shared =>
    unfold Ledger.drop
    have present : t ∈ holders := (hholders t).mpr ((hasLease_of_lookup ht).mpr hmode)
    have unowned : ledger.exclusiveOwner = none := by
      by_contra hsome
      have hzero := hl.apart hsome
      rw [hcount] at hzero
      have hempty : holders = ∅ := Finset.card_eq_zero.mp (by exact_mod_cast hzero)
      rw [hempty] at present
      exact absurd present (Finset.notMem_empty t)
    refine ⟨?_, ⟨holders.erase t, ?_, ?_⟩, fun hsome => absurd unowned hsome, hl.named⟩
    · intro u
      by_cases hu : u = t
      · subst hu
        simp [not_hasLease_of_lookup hnew, unowned]
      · rw [hasLease_congr (AList.lookup_erase_ne hu)]
        exact hl.owner u
    · intro u
      by_cases hu : u = t
      · subst hu
        simp [not_hasLease_of_lookup hnew]
      · rw [hasLease_congr (AList.lookup_erase_ne hu)]
        simp [hu, hholders u]
    · have hpos := Finset.card_pos.mpr ⟨t, present⟩
      rw [Finset.card_erase_of_mem present]
      show ledger.activeSharedCount - 1 = _
      rw [hcount]
      omega

theorem Booked.erase (hb : Booked table tasks) (hleases : task.leases = []) :
    Booked (table.erase t) (Function.update tasks t task) := by
  have hnew : (table.erase t).lookup t = none := AList.lookup_erase _ _
  refine hb.update ?_ ?_ ?_ (TaskState.fits_of_nil hleases)
  · exact fun u hu => AList.lookup_erase_ne hu
  · rw [hnew, hleases]
    rfl
  · intro lease hlease
    rw [hnew] at hlease
    simp at hlease

end Books

/-! ## Every step keeps the books -/

theorem sharedBlocked_eq_false {T : Type} {c : Coordinator T} (h : c.sharedBlocked = false) : c.exclusiveOwner = none := by
  unfold Coordinator.sharedBlocked at h
  rw [Bool.or_eq_false_iff] at h
  simpa using h.1

theorem exclusiveAvailable_iff {T : Type} {c : Coordinator T} :
    c.exclusiveAvailable = true ↔ c.exclusiveOwner = none ∧ c.activeSharedCount = 0 := by
  simp [Coordinator.exclusiveAvailable]

section Steps
variable {T : Type} [DecidableEq T] {cfg : CoordinatorConfig} {s s' : IndexSystem T} {t : T}

def IndexSystem.Kept (s : IndexSystem T) : Prop := LeasesKept s.coordinator.ledger s.tasks

theorem kept_start : (IndexSystem.start : IndexSystem T).Kept where
  booked := ⟨fun _ => rfl, fun _ _ h => (nomatch h), fun _ => trivial⟩
  lanes := by
    refine ⟨?_, ⟨∅, ?_, rfl⟩, fun h => absurd rfl h, fun _ => rfl⟩
    · intro u
      exact ⟨fun h => (nomatch h), fun h => absurd h (not_hasLease_of_lookup (AList.lookup_empty u))⟩
    · intro u
      exact ⟨fun h => absurd h (Finset.notMem_empty u), fun h => absurd h (not_hasLease_of_lookup (AList.lookup_empty u))⟩

/-- What `_release_local` leaves: the lease one level less deep, or no lease. -/
theorem releaseLocal_cases {c : Coordinator T} {lease : TaskLease} (ht : c.taskLeases.lookup t = some lease) :
    ∃ c', c.releaseLocal t = .ok c' ∧ c'.waitingExclusiveCount = c.waitingExclusiveCount ∧
      (0 < lease.depth - 1 ∧ c'.ledger = { c.ledger with
        taskLeases := c.taskLeases.replace t { lease with depth := lease.depth - 1 } } ∨
      lease.depth - 1 = 0 ∧ c'.ledger = c.ledger.drop t lease.mode) := by
  unfold Coordinator.releaseLocal
  rw [ht]
  simp only
  by_cases hdepth : 0 < lease.depth - 1
  · rw [if_pos hdepth]
    exact ⟨_, rfl, rfl, .inl ⟨hdepth, rfl⟩⟩
  · rw [if_neg hdepth]
    have hzero : lease.depth - 1 = 0 := by omega
    cases hmode : lease.mode with
    | exclusive => exact ⟨_, rfl, rfl, .inr ⟨hzero, rfl⟩⟩
    | shared => exact ⟨_, rfl, rfl, .inr ⟨hzero, rfl⟩⟩

/-- Leaving a lease never finds the table without it. -/
theorem IndexSystem.Kept.release (hk : s.Kept) (raised : Option LeaseError) : (s.release t raised).Kept := by
  unfold IndexSystem.release
  cases hlookup : s.coordinator.taskLeases.lookup t with
  | none =>
    have hnil := hk.booked.leases_nil hlookup
    have herror : s.coordinator.releaseLocal t =
        .error (.runtimeError "index lease release without matching acquisition") := by
      unfold Coordinator.releaseLocal
      rw [hlookup]
    rw [herror]
    apply LeasesKept.idle hk
    · rw [hnil]
      rfl
    · trivial
  | some lease =>
    have hheld : openLease (s.tasks t).leases = some lease := (hk.booked.held t).symm.trans hlookup
    have hdepth := openLease_depth hheld
    have huniform := hk.booked.uniform t lease hlookup
    obtain ⟨c, hc, -, hcases⟩ := releaseLocal_cases hlookup
    rw [hc]
    show LeasesKept c.ledger (Function.update s.tasks t ⟨(s.tasks t).leases.tail, none, false, raised⟩)
    cases hleases : (s.tasks t).leases with
    | nil =>
      rw [hleases] at hheld
      cases hheld
    | cons inner rest =>
      rw [hleases, List.length_cons] at hdepth
      obtain ⟨hdeep, hledger⟩ | ⟨hlast, hledger⟩ := hcases
      · -- a nested lease ends, the outer ones stay
        obtain ⟨outer, houter⟩ : ∃ outer, openLease rest = some outer := by
          cases hrest : openLease rest with
          | some outer => exact ⟨outer, rfl⟩
          | none =>
            have hnil := openLease_eq_none.mp hrest
            rw [hnil] at hdepth
            rw [hdepth] at hdeep
            exact absurd hdeep (by decide)
        have hpush := openLease_push inner houter
        rw [hleases, hpush] at hheld
        cases hheld
        rw [hledger]
        refine ⟨hk.booked.setDepth hlookup ?_ ?_ trivial, hk.lanes.setDepth hlookup _⟩
        · exact houter
        · intro mid hmid
          apply huniform mid
          rw [hleases]
          exact List.mem_cons_of_mem inner hmid
      · have hrest : rest = [] := List.length_eq_zero_iff.mp (by omega)
        rw [hledger]
        refine ⟨?_, hk.lanes.erase hlookup⟩
        have hleases : (⟨rest, none, false, raised⟩ : TaskState).leases = [] := hrest
        have hbooked := hk.booked.erase (t := t) hleases
        cases hmode : lease.mode <;> exact hbooked

theorem fits_acquired {leases : List OpenLease} {name : String} {wait shared : Bool} (h : leases.tail = []) :
    TaskState.Fits ⟨leases, if cfg.processLock then some (.processLock name wait shared) else none, false, none⟩ := by
  cases cfg.processLock with
  | false => trivial
  | true => exact h

/-- An outermost shared lease, from a coordinator that differs in its queue only. -/
theorem IndexSystem.Kept.takeShared (hk : s.Kept) {c : Coordinator T} (hc : c.ledger = s.coordinator.ledger)
    (ht : c.taskLeases.lookup t = none) (hfree : c.exclusiveOwner = none) (name : String) (wait : Bool) :
    (s.acquired cfg t (c.takeShared t name) name wait .shared).Kept := by
  have hkept : LeasesKept c.ledger s.tasks := by
    rw [hc]
    exact hk
  refine ⟨hkept.booked.insert ht rfl ?_, hkept.lanes.takeShared ht hfree name⟩
  exact fits_acquired

theorem IndexSystem.Kept.takeExclusive (hk : s.Kept) {c : Coordinator T} (hc : c.ledger = s.coordinator.ledger)
    (ht : c.taskLeases.lookup t = none) (hfree : c.exclusiveAvailable = true) (name : String) (wait : Bool) :
    (s.acquired cfg t (c.takeExclusive t name) name wait .exclusive).Kept := by
  have hkept : LeasesKept c.ledger s.tasks := by
    rw [hc]
    exact hk
  obtain ⟨howner, hcount⟩ := exclusiveAvailable_iff.mp hfree
  refine ⟨hkept.booked.insert ht rfl ?_, hkept.lanes.takeExclusive ht howner hcount name⟩
  exact fits_acquired

/-- A task without a lease suspends. -/
theorem IndexSystem.Kept.suspend (hk : s.Kept) {c : Coordinator T} (hc : c.ledger = s.coordinator.ledger)
    (ht : (s.tasks t).leases = []) (turn : Await) : (s.suspend t c turn).Kept := by
  have hkept : LeasesKept c.ledger s.tasks := by
    rw [hc]
    exact hk
  exact hkept.idle rfl (TaskState.fits_of_nil ht)

/-- A call that raises leaves the ledger. -/
theorem IndexSystem.Kept.raise (hk : s.Kept) (e : LeaseError) : (s.raise t e).Kept :=
  LeasesKept.idle hk rfl trivial

theorem IndexSystem.Kept.acquireLocal (hk : s.Kept) (name : String) (wait : Bool) (mode : IndexLeaseMode) :
    (acquireLocal cfg s t name wait mode).Kept := by
  unfold Index.acquireLocal
  split
  · rename_i existing hexisting
    split
    · exact hk.raise _
    · have hheld : openLease (s.tasks t).leases = some existing := (hk.booked.held t).symm.trans hexisting
      refine ⟨hk.booked.setDepth hexisting (openLease_push _ hheld) ?_ trivial, hk.lanes.setDepth hexisting _⟩
      intro inner hinner
      obtain rfl | hinner := List.mem_cons.mp hinner
      · rfl
      · exact hk.booked.uniform t existing hexisting inner hinner
  · rename_i hnone
    have hnil := hk.booked.leases_nil hnone
    split
    · split
      · exact hk.suspend rfl hnil _
      · rename_i hfree
        exact hk.takeShared rfl hnone (sharedBlocked_eq_false (Bool.eq_false_iff.mpr hfree)) name wait
    · split
      · rename_i hfree
        exact hk.takeExclusive rfl hnone hfree name wait
      · split
        · exact hk.suspend rfl hnil _
        · exact hk.raise _

/-- A task without open leases is not in the table. -/
theorem IndexSystem.Kept.lookup_none (hk : s.Kept) (ht : (s.tasks t).leases = []) :
    s.coordinator.taskLeases.lookup t = none := by
  have hheld := hk.booked.held t
  rwa [ht] at hheld

theorem IndexSystem.Kept.resumeShared (hk : s.Kept) (hnil : (s.tasks t).leases = []) (name : String) (wait : Bool) :
    (resumeShared cfg s t name wait).Kept := by
  have hnone := hk.lookup_none hnil
  unfold Index.resumeShared
  simp only
  split
  · exact hk.raise _
  · split
    · exact hk.suspend rfl hnil _
    · rename_i hfree
      have hunblocked := sharedBlocked_eq_false (Bool.eq_false_iff.mpr hfree)
      exact hk.takeShared rfl hnone hunblocked name wait

theorem IndexSystem.Kept.resumeExclusive (hk : s.Kept) (hnil : (s.tasks t).leases = []) (name : String) (wait : Bool) :
    (resumeExclusive cfg s t name wait).Kept := by
  have hnone := hk.lookup_none hnil
  unfold Index.resumeExclusive
  simp only
  split
  · exact hk.raise _
  · split
    · rename_i hfree
      exact hk.takeExclusive rfl hnone hfree name wait
    · exact hk.suspend rfl hnil _

theorem IndexSystem.Kept.step {l : IndexLabel T} (hk : s.Kept) (h : indexStep cfg s l = some s') : s'.Kept := by
  cases l with
  | enter t name wait mode =>
    simp only [indexStep] at h
    split at h
    · cases h
      exact hk.acquireLocal name wait mode
    · simp at h
  | interrupt t =>
    simp only [indexStep] at h
    split at h
    · cases h
      exact LeasesKept.idle hk rfl (hk.booked.fits t)
    · cases h
      exact LeasesKept.idle hk rfl (hk.booked.fits t)
    · simp at h
  | resume t =>
    simp only [indexStep] at h
    split at h
    · split at h
      · rename_i name wait ht
        cases h
        have hfits := hk.booked.fits t
        unfold TaskState.Fits at hfits
        rw [ht] at hfits
        exact hk.resumeShared hfits name wait
      · rename_i name wait ht
        cases h
        have hfits := hk.booked.fits t
        unfold TaskState.Fits at hfits
        rw [ht] at hfits
        exact hk.resumeExclusive hfits name wait
      · simp at h
    · simp at h
  | lockTaken t =>
    simp only [indexStep] at h
    split at h
    · cases h
      exact LeasesKept.idle hk rfl trivial
    · simp at h
  | lockFailed t blocking =>
    simp only [indexStep] at h
    split at h
    · cases h
      exact hk.release _
    · simp at h
  | leave t =>
    simp only [indexStep] at h
    split at h
    · split at h
      · cases h
        exact LeasesKept.idle hk rfl trivial
      · cases h
        exact hk.release _
    · simp at h
  | lockReleased t =>
    simp only [indexStep] at h
    split at h
    · cases h
      exact hk.release _
    · simp at h

end Steps

end Alexandria.Index
