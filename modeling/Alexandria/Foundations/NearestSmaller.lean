import Mathlib.Data.List.Chain
import Mathlib.Data.List.Nodup
import Mathlib.Data.List.TakeWhile
import Mathlib.Data.Nat.Find
import Mathlib.Order.Lattice
import Mathlib.Tactic.Common

/-! # Nearest smaller values

Each place of a sequence of levels hangs under the nearest place before it that has a smaller level. The places above one
form a chain, which a stack of open places yields.
-/

namespace Alexandria.NearestSmaller
set_option autoImplicit false

variable {α : Type} [LinearOrder α] {level : ℕ → α} {p q n m : ℕ}

/-- `p` is the nearest place before `q` with a smaller level. -/
structure Parent (level : ℕ → α) (p q : ℕ) : Prop where
  before : p < q
  smaller : level p < level q
  nearest : ∀ j, p < j → j < q → level q ≤ level j

/-- The open places at `n`, the last of them `n` itself. A place closes those whose level is not smaller than its own. -/
def ancestors (level : ℕ → α) : ℕ → List ℕ
  | 0 => [0]
  | n + 1 => (ancestors level n).takeWhile (fun p => level p < level (n + 1)) ++ [n + 1]

theorem getLast?_ancestors (level : ℕ → α) (n : ℕ) : (ancestors level n).getLast? = some n := by
  cases n with
  | zero => rfl
  | succ n => rw [ancestors, List.getLast?_concat]

/-- The open places are in order, and their levels grow. -/
theorem ancestors_sorted (level : ℕ → α) (n : ℕ) :
    (ancestors level n).Pairwise (fun p q => p < q ∧ level p < level q) ∧ ∀ p ∈ ancestors level n, p ≤ n := by
  induction n with
  | zero => simp [ancestors]
  | succ n ih =>
    obtain ⟨hsorted, hle⟩ := ih
    have hkept : ∀ p ∈ (ancestors level n).takeWhile (fun p => level p < level (n + 1)),
        p < n + 1 ∧ level p < level (n + 1) := by
      intro p hp
      have hpn := hle p ((List.takeWhile_sublist _).mem hp)
      exact ⟨by omega, by simpa using List.mem_takeWhile_imp hp⟩
    constructor
    · rw [ancestors, List.pairwise_append]
      refine ⟨hsorted.sublist (List.takeWhile_sublist _), List.pairwise_singleton _ _, fun p hp q hq => ?_⟩
      rw [List.mem_singleton.mp hq]
      exact hkept p hp
    · intro p hp
      rw [ancestors, List.mem_append, List.mem_singleton] at hp
      obtain hp | rfl := hp
      · exact (hkept p hp).1.le
      · exact le_rfl

/-- Of a list with growing levels the places below a bound come first. -/
theorem mem_takeWhile_level {places : List ℕ} {bound : α}
    (hsorted : places.Pairwise (fun p q => p < q ∧ level p < level q)) :
    p ∈ places.takeWhile (fun p => level p < bound) ↔ p ∈ places ∧ level p < bound := by
  induction places with
  | nil => simp
  | cons q places ih =>
    rw [List.pairwise_cons] at hsorted
    by_cases hq : level q < bound
    · rw [List.takeWhile_cons_of_pos (by simpa using hq), List.mem_cons, List.mem_cons, ih hsorted.2]
      constructor
      · rintro (rfl | hp)
        · exact ⟨.inl rfl, hq⟩
        · exact ⟨.inr hp.1, hp.2⟩
      · rintro ⟨rfl | hp, hlt⟩
        · exact .inl rfl
        · exact .inr ⟨hp, hlt⟩
    · rw [List.takeWhile_cons_of_neg (by simpa using hq)]
      refine ⟨fun h => absurd h List.not_mem_nil, fun ⟨hp, hlt⟩ => absurd hlt ?_⟩
      obtain rfl | hp := List.mem_cons.mp hp
      · exact hq
      · exact ((not_lt.mp hq).trans (hsorted.1 p hp).2.le).not_gt

/-- A place is open just where all later ones have larger levels. -/
theorem mem_ancestors : p ∈ ancestors level n ↔ p ≤ n ∧ ∀ j, p < j → j ≤ n → level p < level j := by
  induction n with
  | zero =>
    rw [ancestors, List.mem_singleton]
    constructor
    · rintro rfl
      exact ⟨le_rfl, fun j hj hle => by omega⟩
    · rintro ⟨hp, -⟩
      omega
  | succ n ih =>
    rw [ancestors, List.mem_append, List.mem_singleton, mem_takeWhile_level (ancestors_sorted level n).1, ih]
    constructor
    · rintro (⟨⟨hp, hopen⟩, hlt⟩ | rfl)
      · refine ⟨by omega, fun j hj hle => ?_⟩
        obtain hle | rfl := Nat.lt_or_eq_of_le hle
        · exact hopen j hj (by omega)
        · exact hlt
      · exact ⟨le_rfl, fun j hj hle => by omega⟩
    · rintro ⟨hp, hopen⟩
      obtain hp | rfl := Nat.lt_or_eq_of_le hp
      · exact .inl ⟨⟨by omega, fun j hj hle => hopen j hj (by omega)⟩, hopen (n + 1) hp le_rfl⟩
      · exact .inr rfl

/-- What is open at a place is what is open at its parent, and itself. -/
theorem Parent.ancestors_eq (h : Parent level p q) : ancestors level q = ancestors level p ++ [q] := by
  -- Between the two, closing never reaches below the level of `q`.
  have hbetween : ∀ k, p + k < q →
      (ancestors level (p + k)).takeWhile (fun j => level j < level q) = ancestors level p := by
    intro k
    induction k with
    | zero =>
      intro _
      rw [Nat.add_zero, List.takeWhile_eq_self_iff]
      intro j hj
      obtain ⟨hle, hopen⟩ := mem_ancestors.mp hj
      obtain hlt | rfl := Nat.lt_or_eq_of_le hle
      · exact decide_eq_true ((hopen p hlt le_rfl).trans h.smaller)
      · exact decide_eq_true h.smaller
    | succ k ih =>
      intro hk
      have hlevel : level q ≤ level (p + k + 1) := h.nearest (p + k + 1) (by omega) hk
      have hdrop : ∀ places : List ℕ,
          (places.takeWhile (fun j => level j < level (p + k + 1)) ++ [p + k + 1]).takeWhile
            (fun j => level j < level q) = places.takeWhile (fun j => level j < level q) := by
        intro places
        induction places with
        | nil => simp [hlevel]
        | cons j places ih =>
          by_cases hj : level j < level q
          · have hj' : level j < level (p + k + 1) := hj.trans_le hlevel
            simpa [hj, hj'] using ih
          · by_cases hj' : level j < level (p + k + 1)
            · simp [hj, hj']
            · simp [hj, hj', hlevel]
      rw [← Nat.add_assoc, ancestors, hdrop, ih (by omega)]
  obtain ⟨k, rfl⟩ : ∃ k, q = p + k + 1 := ⟨q - p - 1, by have := h.before; omega⟩
  rw [ancestors, hbetween k (by omega)]

/-- A chain in which each place is the parent of the next is the end of all that is open at its last one. -/
theorem chain_suffix {places : List ℕ} (hchain : places.IsChain (Parent level)) (hlast : places.getLast? = some n) :
    places <:+ ancestors level n := by
  induction places using List.reverseRecOn generalizing n with
  | nil => cases hlast
  | append_singleton places q ih =>
    rw [List.getLast?_concat, Option.some_inj] at hlast
    subst hlast
    cases hprevious : places.getLast? with
    | none =>
      rw [List.getLast?_eq_none_iff.mp hprevious]
      obtain ⟨front, hfront⟩ := List.getLast?_eq_some_iff.mp (getLast?_ancestors level q)
      exact ⟨front, hfront.symm⟩
    | some p =>
      have hparent : Parent level p q := (List.isChain_append.mp hchain).2.2 p hprevious q rfl
      rw [hparent.ancestors_eq]
      obtain ⟨front, hfront⟩ := ih (List.isChain_append.mp hchain).1 hprevious
      exact ⟨front, by rw [← List.append_assoc, hfront]⟩

/-- Where a smaller level stands before, there is a nearest one. -/
theorem exists_parent (hp : p < q) (hlt : level p < level q) : ∃ m, Parent level m q := by
  have hle : p ≤ q - 1 := by omega
  refine ⟨Nat.findGreatest (fun j => level j < level q) (q - 1), ?_, ?_, fun j hj hjq => ?_⟩
  · have := Nat.findGreatest_le (P := fun j => level j < level q) (q - 1)
    omega
  · exact Nat.findGreatest_spec (P := fun j => level j < level q) hle hlt
  · exact not_lt.mp (Nat.findGreatest_is_greatest hj (by omega))

/-- What is open at a place is a chain of parents. -/
theorem ancestors_chain (level : ℕ → α) (n : ℕ) : (ancestors level n).IsChain (Parent level) := by
  induction n using Nat.strong_induction_on with
  | _ n ih =>
    by_cases hparent : ∃ p, Parent level p n
    · obtain ⟨p, hparent⟩ := hparent
      rw [hparent.ancestors_eq, List.isChain_append]
      refine ⟨ih p hparent.before, List.isChain_singleton n, fun j hj k hk => ?_⟩
      rw [getLast?_ancestors, Option.mem_some_iff] at hj
      rw [List.head?_cons, Option.mem_some_iff] at hk
      rwa [← hj, ← hk]
    · cases n with
      | zero => exact List.isChain_singleton 0
      | succ n =>
        have hnone : (ancestors level n).takeWhile (fun p => level p < level (n + 1)) = [] := by
          refine List.eq_nil_iff_forall_not_mem.mpr fun p hp => hparent ?_
          obtain ⟨hmem, hlt⟩ := (mem_takeWhile_level (ancestors_sorted level n).1).mp hp
          exact exists_parent (by have := (ancestors_sorted level n).2 p hmem; omega) hlt
        rw [ancestors, hnone]
        exact List.isChain_singleton (n + 1)

end Alexandria.NearestSmaller
