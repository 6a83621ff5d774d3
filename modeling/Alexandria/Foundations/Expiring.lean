import Mathlib.Logic.Function.Basic
import Mathlib.Data.Nat.Notation

/-! # Keys that expire

A store in which a value may carry a deadline: from the deadline on the key reads as absent, and nothing
has to happen for that. Reads therefore take the time, writes do not.
-/

namespace Alexandria.Expiring
set_option autoImplicit false

universe u v

structure Entry (V : Type v) where
  value : V
  deadline : Option ℕ

def Entry.live {V : Type v} (entry : Entry V) (now : ℕ) : Bool := entry.deadline.all fun deadline => now < deadline

abbrev Store (K : Type u) (V : Type v) := K → Option (Entry V)

variable {K : Type u} {V : Type v}

def empty : Store K V := fun _ => none

/-- The entry a reader finds at the time. -/
def Store.find (store : Store K V) (now : ℕ) (k : K) : Option (Entry V) := (store k).filter fun entry => entry.live now

def Store.get (store : Store K V) (now : ℕ) (k : K) : Option V := (store.find now k).map (·.value)

def Store.set [DecidableEq K] (store : Store K V) (k : K) (entry : Entry V) : Store K V :=
  Function.update store k (some entry)

variable {store : Store K V} {now : ℕ} {k k' : K} {entry : Entry V} {v : V}

theorem live_until {deadline : ℕ} : Entry.live ⟨v, some deadline⟩ now = true ↔ now < deadline := by
  simp [Entry.live]

theorem Store.find_eq_some : store.find now k = some entry ↔ store k = some entry ∧ entry.live now = true := by
  simp [Store.find, Option.filter_eq_some_iff]

theorem Store.get_eq_some : store.get now k = some v ↔ ∃ deadline, store.find now k = some ⟨v, deadline⟩ := by
  simp only [Store.get, Option.map_eq_some_iff]
  constructor
  · intro ⟨entry, hfind, hv⟩
    exact ⟨entry.deadline, by rw [hfind, ← hv]⟩
  · intro ⟨deadline, hfind⟩
    exact ⟨_, hfind, rfl⟩

theorem Store.get_until {deadline : ℕ} (h : store k = some ⟨v, some deadline⟩) (hnow : now < deadline) :
    store.get now k = some v :=
  Store.get_eq_some.mpr ⟨_, Store.find_eq_some.mpr ⟨h, live_until.mpr hnow⟩⟩

section Set
variable [DecidableEq K]

@[simp] theorem Store.set_self (store : Store K V) (k : K) (entry : Entry V) : store.set k entry k = some entry :=
  Function.update_self ..

theorem Store.set_of_ne (store : Store K V) (entry : Entry V) (h : k' ≠ k) : store.set k entry k' = store k' :=
  Function.update_of_ne h _ _

theorem Store.set_eq_some {other : Entry V} (h : store.set k entry k' = some other) :
    k' = k ∧ other = entry ∨ k' ≠ k ∧ store k' = some other := by
  by_cases hk : k' = k
  · subst hk
    rw [Store.set_self] at h
    exact Or.inl ⟨rfl, (Option.some.inj h).symm⟩
  · rw [Store.set_of_ne store entry hk] at h
    exact Or.inr ⟨hk, h⟩

end Set

end Alexandria.Expiring
