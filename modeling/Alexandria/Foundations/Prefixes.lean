import Mathlib.Data.List.Basic

/-! # Prefixes of ordered lists

A predicate that holds of an element only where it holds of those before it picks a prefix; so the first entries of the list hold
as many such elements as there is room for. Entries that are to be left out can be made up for by as many more.
-/

namespace Alexandria.Prefixes
set_option autoImplicit false

variable {α : Type*} {p : α → Bool} {xs : List α}

/-- The list puts what the predicate picks first. -/
def First (p : α → Bool) (xs : List α) : Prop := xs.Pairwise fun a b => p b = true → p a = true

theorem First.append_of_none {ys : List α} (h : First p xs) (hy : ∀ y ∈ ys, p y = false) : First p (xs ++ ys) := by
  have hnone : ∀ y ∈ ys, ¬ p y = true := fun y hmem hp => Bool.false_ne_true ((hy y hmem).symm.trans hp)
  exact List.pairwise_append.mpr ⟨h, List.pairwise_of_forall_mem_list fun x _ y hmem hp => absurd hp (hnone y hmem),
    fun x _ y hmem hp => absurd hp (hnone y hmem)⟩

theorem First.countP_take (h : First p xs) (n : ℕ) : (xs.take n).countP p = min n (xs.countP p) := by
  induction xs generalizing n with
  | nil => simp
  | cons x xs ih =>
    obtain ⟨hx, hxs⟩ := List.pairwise_cons.mp h
    cases n with
    | zero => simp
    | succ n =>
      rw [List.take_succ_cons, List.countP_cons, List.countP_cons, ih hxs]
      by_cases hp : p x = true
      · simp only [hp, if_true]
        omega
      · have hnone : xs.countP p = 0 := List.countP_eq_zero.mpr fun b hb hpb => hp (hx b hb hpb)
        simp [hp, hnone]

/-- As many extra entries as are left out make up for them. -/
theorem take_filter_take {n k : ℕ} (h : xs.countP (fun x => !p x) ≤ k) :
    ((xs.take (n + k)).filter p).take n = (xs.filter p).take n := by
  induction xs generalizing n k with
  | nil => simp
  | cons x xs ih =>
    cases hp : p x with
    | true =>
      rw [List.countP_cons_of_neg (by simp [hp])] at h
      cases n with
      | zero => simp
      | succ n =>
        rw [Nat.add_right_comm, List.take_succ_cons, List.filter_cons_of_pos hp, List.filter_cons_of_pos hp,
          List.take_succ_cons, List.take_succ_cons, ih h]
    | false =>
      rw [List.countP_cons_of_pos (by simp [hp])] at h
      obtain ⟨j, rfl⟩ : ∃ j, k = j + 1 := ⟨k - 1, by omega⟩
      rw [← Nat.add_assoc, List.take_succ_cons, List.filter_cons_of_neg (by simp [hp]), List.filter_cons_of_neg (by simp [hp]),
        ih (by omega)]

end Alexandria.Prefixes
