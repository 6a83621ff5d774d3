import Mathlib.Data.List.Basic
import Mathlib.Logic.Function.Basic

/-! # A table under READ COMMITTED

Every row has its committed version and at most one uncommitted version, whose transaction holds the row
lock. A statement reads the committed version, or the transaction's own uncommitted one; a write waits for
the lock, so it is enabled only while no other transaction holds it. `keys` are the keys that were ever
written, over which a statement without a key scans.
-/

namespace Alexandria.ReadCommitted
set_option autoImplicit false

structure Table (K R T : Type) where
  keys : List K
  committed : K → Option R
  pending : K → Option (T × R)

/-- How a statement that writes ends: it waits for a lock, it fails, or it is done. -/
inductive Statement (α : Type)
  | waits
  | fails
  | done (result : α)

namespace Table
variable {K R T : Type}

/-- A table nothing was written to. -/
def empty : Table K R T := ⟨[], fun _ => none, fun _ => none⟩

section Definitions
variable [DecidableEq K] [DecidableEq T] (tab : Table K R T) (t : T)

/-- The version a statement of transaction `t` sees. -/
def read (k : K) : Option R :=
  match tab.pending k with
  | some (owner, row) => if owner = t then some row else tab.committed k
  | none => tab.committed k

/-- No other transaction holds the row lock. -/
def writable (k : K) : Bool :=
  match tab.pending k with
  | some (owner, _) => owner = t
  | none => true

/-- Take the row lock and write a new version. -/
def write (k : K) (row : R) : Table K R T :=
  { tab with
    keys := if k ∈ tab.keys then tab.keys else tab.keys ++ [k]
    pending := Function.update tab.pending k (some (t, row)) }

/-- The uncommitted version of `k`, when transaction `t` owns it. -/
def own (k : K) : Option R :=
  match tab.pending k with
  | some (owner, row) => if owner = t then some row else none
  | none => none

/-- The uncommitted versions after transaction `t` ended. -/
def released (k : K) : Option (T × R) :=
  match tab.pending k with
  | some (owner, row) => if owner = t then none else some (owner, row)
  | none => none

def commit : Table K R T :=
  { tab with committed := fun k => (tab.own t k).or (tab.committed k), pending := tab.released t }

def abort : Table K R T := { tab with pending := tab.released t }

/-- `UPDATE … WHERE key = k`: the latest version is changed; a row that is not there fails the flush. -/
def update (k : K) (f : R → R) : Statement (Table K R T) :=
  if tab.writable t k then
    match tab.read t k with
    | some row => .done (tab.write t k (f row))
    | none => .fails
  else .waits

/-- `INSERT`: a key that is already there violates the primary key. -/
def insert (k : K) (row : R) : Statement (Table K R T) :=
  if tab.writable t k then
    match tab.read t k with
    | some _ => .fails
    | none => .done (tab.write t k row)
  else .waits

/-- The effect of a whole transaction that wrote one row. -/
def seed (k : K) (row : R) : Table K R T :=
  { tab with
    keys := if k ∈ tab.keys then tab.keys else tab.keys ++ [k]
    committed := Function.update tab.committed k (some row) }

/-- The keys of the visible rows that satisfy a condition, at the start of a statement. -/
def select (p : R → Bool) : List K := tab.keys.filter fun k => (tab.read t k).any p

end Definitions

/-! ## Reads -/

section Transactions
variable [DecidableEq T] {tab : Table K R T} {t u : T} {k : K} {row : R}

theorem own_eq_some : tab.own t k = some row ↔ tab.pending k = some (t, row) := by
  unfold own
  cases h : tab.pending k with
  | none => simp
  | some version =>
    obtain ⟨owner, latest⟩ := version
    by_cases ho : owner = t <;> simp [ho]

theorem own_eq_none : tab.own t k = none ↔ ∀ row, tab.pending k ≠ some (t, row) := by
  rw [Option.eq_none_iff_forall_ne_some]
  exact forall_congr' fun row => not_congr own_eq_some

theorem read_eq (tab : Table K R T) (t : T) (k : K) : tab.read t k = (tab.own t k).or (tab.committed k) := by
  unfold read own
  cases tab.pending k with
  | none => rfl
  | some version => by_cases h : version.1 = t <;> simp [h]

theorem released_eq_some : tab.released t k = some (u, row) ↔ tab.pending k = some (u, row) ∧ u ≠ t := by
  unfold released
  cases h : tab.pending k with
  | none => simp
  | some version =>
    obtain ⟨owner, latest⟩ := version
    by_cases ho : owner = t
    · subst ho
      simp only [if_true, Option.some.injEq, Prod.mk.injEq, reduceCtorEq, false_iff]
      rintro ⟨⟨rfl, -⟩, hne⟩
      exact hne rfl
    · simp only [if_neg ho, Option.some.injEq, Prod.mk.injEq]
      constructor
      · rintro ⟨rfl, rfl⟩
        exact ⟨⟨rfl, rfl⟩, ho⟩
      · rintro ⟨⟨rfl, rfl⟩, -⟩
        exact ⟨rfl, rfl⟩

theorem writable_pending (h : tab.writable t k = true) (hp : tab.pending k = some (u, row)) : u = t := by
  unfold writable at h
  rw [hp] at h
  simpa using h

/-! ## The end of a transaction -/

theorem commit_owned (h : tab.pending k = some (t, row)) : (tab.commit t).committed k = some row := by
  simp [commit, own_eq_some.mpr h]

theorem commit_unowned (h : ∀ row, tab.pending k ≠ some (t, row)) : (tab.commit t).committed k = tab.committed k := by
  simp [commit, own_eq_none.mpr h]

theorem commit_cases (h : (tab.commit t).committed k = some row) :
    tab.pending k = some (t, row) ∨ (∀ row, tab.pending k ≠ some (t, row)) ∧ tab.committed k = some row := by
  cases ho : tab.own t k with
  | some latest =>
    have hp := own_eq_some.mp ho
    rw [commit_owned hp] at h
    cases h
    exact .inl hp
  | none =>
    have hp := own_eq_none.mp ho
    exact .inr ⟨hp, (commit_unowned hp).symm.trans h⟩

theorem commit_pending : (tab.commit t).pending k = some (u, row) ↔ tab.pending k = some (u, row) ∧ u ≠ t :=
  released_eq_some

theorem abort_pending : (tab.abort t).pending k = some (u, row) ↔ tab.pending k = some (u, row) ∧ u ≠ t :=
  released_eq_some

theorem released_eq_self (h : ∀ k row, tab.pending k ≠ some (t, row)) : tab.released t = tab.pending := by
  funext k
  unfold released
  cases hp : tab.pending k with
  | none => rfl
  | some version =>
    obtain ⟨owner, row⟩ := version
    have howner : owner ≠ t := by
      rintro rfl
      exact h k row hp
    simp [howner]

/-- A transaction that wrote nothing leaves the table as it is. -/
theorem commit_eq_self (h : ∀ k row, tab.pending k ≠ some (t, row)) : tab.commit t = tab := by
  have hcommitted : (fun k => (tab.own t k).or (tab.committed k)) = tab.committed := by
    funext k
    rw [own_eq_none.mpr (h k), Option.none_or]
  unfold commit
  rw [hcommitted, released_eq_self h]

theorem abort_eq_self (h : ∀ k row, tab.pending k ≠ some (t, row)) : tab.abort t = tab := by
  unfold abort
  rw [released_eq_self h]

/-- Without an own version a statement reads the committed one. -/
theorem read_eq_committed (h : ∀ row, tab.pending k ≠ some (t, row)) : tab.read t k = tab.committed k := by
  rw [read_eq, own_eq_none.mpr h, Option.none_or]

theorem mem_select {p : R → Bool} : k ∈ tab.select t p ↔ k ∈ tab.keys ∧ ∃ row, tab.read t k = some row ∧ p row = true := by
  simp [select, List.mem_filter, Option.any_eq_true]

end Transactions

/-! ## Writes -/

section Writes
variable [DecidableEq K] {tab : Table K R T} {t u : T} {k j : K} {row : R}

@[simp] theorem write_pending_self : (tab.write t k row).pending k = some (t, row) := Function.update_self _ _ _

theorem write_pending_other (h : j ≠ k) : (tab.write t k row).pending j = tab.pending j :=
  Function.update_of_ne h _ _

theorem write_pending_cases {latest : R} (h : (tab.write t k row).pending j = some (u, latest)) :
    (j = k ∧ u = t ∧ latest = row) ∨ (j ≠ k ∧ tab.pending j = some (u, latest)) := by
  by_cases hj : j = k
  · subst hj
    rw [write_pending_self] at h
    cases h
    exact .inl ⟨rfl, rfl, rfl⟩
  · rw [write_pending_other hj] at h
    exact .inr ⟨hj, h⟩

/-- A write under the row lock leaves the versions of the others. -/
theorem write_pending_foreign [DecidableEq T] {latest : R} (hw : tab.writable t k = true) (hu : u ≠ t) :
    (tab.write t k row).pending j = some (u, latest) ↔ tab.pending j = some (u, latest) := by
  constructor
  · intro hp
    obtain ⟨-, hut, -⟩ | ⟨-, hold⟩ := write_pending_cases hp
    · exact absurd hut hu
    · exact hold
  · intro hp
    have hj : j ≠ k := by
      rintro rfl
      exact hu (writable_pending hw hp)
    rwa [write_pending_other hj]

theorem mem_write_keys : j ∈ (tab.write t k row).keys ↔ j ∈ tab.keys ∨ j = k := by
  unfold write
  by_cases hk : k ∈ tab.keys
  · simp only [hk, if_true]
    constructor
    · exact .inl
    · rintro (hj | rfl)
      · exact hj
      · exact hk
  · simp [hk]

/-! ## Statements -/

section Statements
variable [DecidableEq T]

theorem update_done {f : R → R} {tab' : Table K R T} (h : tab.update t k f = .done tab') :
    tab.writable t k = true ∧ ∃ row, tab.read t k = some row ∧ tab' = tab.write t k (f row) := by
  unfold update at h
  split at h
  · rename_i hw
    refine ⟨hw, ?_⟩
    split at h
    · rename_i row hrow
      cases h
      exact ⟨row, hrow, rfl⟩
    · simp at h
  · simp at h

/-- An update by key finds a committed row. -/
theorem update_ne_fails {f : R → R} (h : tab.committed k = some row) : tab.update t k f ≠ .fails := by
  unfold update
  split
  · split
    · exact fun hf => by cases hf
    · rename_i hnone
      rw [read_eq, h] at hnone
      cases hown : tab.own t k <;> rw [hown] at hnone <;> cases hnone
  · exact fun hf => by cases hf

theorem insert_done {tab' : Table K R T} (h : tab.insert t k row = .done tab') :
    tab.writable t k = true ∧ tab.read t k = none ∧ tab' = tab.write t k row := by
  unfold insert at h
  split at h
  · rename_i hw
    split at h
    · simp at h
    · rename_i hnone
      cases h
      exact ⟨hw, hnone, rfl⟩
  · simp at h

theorem insert_ne_fails (h : tab.read t k = none) : tab.insert t k row ≠ .fails := by
  unfold insert
  rw [h]
  split <;> exact fun hf => by cases hf

end Statements

end Writes

end Table

end Alexandria.ReadCommitted
