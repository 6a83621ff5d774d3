import Alexandria.Foundations.Lists
import Mathlib.Data.List.Destutter

/-! # One representative of each identity

A list is put in the order of a key, and of neighbours with one identity the first is kept. Where the key
orders the identities, every identity of the list is kept once, with a least key; which of several elements
with that key is kept depends on the order of the list.
-/

namespace Alexandria.Representative
set_option autoImplicit false

open Lists

variable {α ι κ : Type} {xs ys : List α} {x y : α}

def representatives [LinearOrder κ] [DecidableEq ι] (key : α → κ) (ident : α → ι) (xs : List α) : List α :=
  (sorted key xs).destutter fun a b => ident a ≠ ident b

/-- An element of a list whose key is least among those with its identity. -/
structure Least [LinearOrder κ] (key : α → κ) (ident : α → ι) (xs : List α) (x : α) : Prop where
  mem : x ∈ xs
  le : ∀ y ∈ xs, ident y = ident x → key x ≤ key y

section Least
variable [LinearOrder κ] {key : α → κ} {ident : α → ι}

theorem Least.perm (h : Least key ident xs x) (hperm : xs.Perm ys) : Least key ident ys x :=
  ⟨hperm.mem_iff.mp h.mem, fun y hy => h.le y (hperm.mem_iff.mpr hy)⟩

theorem Least.key_eq (hx : Least key ident xs x) (hy : Least key ident xs y) (h : ident x = ident y) :
    key x = key y := le_antisymm (hx.le y hy.mem h.symm) (hy.le x hx.mem h)

end Least

/-! ## The first of each run of a list ordered by identity -/

variable [LinearOrder ι] [LinearOrder κ] {key : α → κ} {ident : α → ι}

theorem mem_destutter'_iff {a : α} {l : List α} (h : (a :: l).Pairwise fun b c => ident b ≤ ident c) :
    x ∈ l.destutter' (fun b c => ident b ≠ ident c) a ↔ (a :: l).find? (fun b => ident b = ident x) = some x := by
  induction l generalizing a with
  | nil =>
    by_cases hax : ident a = ident x
    · simp [hax, eq_comm]
    · have : x ≠ a := fun e => hax (by rw [e])
      simp [hax, this]
  | cons b l ih =>
    rw [List.pairwise_cons] at h
    obtain ⟨hle, htail⟩ := h
    by_cases hab : ident a = ident b
    · -- the second element of a run is dropped
      have hal : (a :: l).Pairwise fun c d => ident c ≤ ident d :=
        List.pairwise_cons.mpr ⟨fun c hc => hle c (List.mem_cons_of_mem b hc), (List.pairwise_cons.mp htail).2⟩
      rw [List.destutter'_cons_neg (h := not_not.mpr hab), ih hal]
      by_cases hax : ident a = ident x
      · simp [hax]
      · have hbx : ident b ≠ ident x := fun e => hax (hab.trans e)
        simp [hax, hbx]
    · rw [List.destutter'_cons_pos (h := hab), List.mem_cons, ih htail]
      by_cases hax : ident a = ident x
      · have later : (b :: l).find? (fun c => ident c = ident x) ≠ some x := by
          intro found
          have hbx : ident b ≤ ident x := by
            rcases List.mem_cons.mp (List.mem_of_find?_eq_some found) with rfl | hx
            · exact le_rfl
            · exact (List.pairwise_cons.mp htail).1 x hx
          exact hab (le_antisymm (hle b (by simp)) (hax ▸ hbx))
        simp only [hax, List.find?_cons_of_pos, decide_true, Option.some.injEq, later, or_false]
        exact eq_comm
      · have : x ≠ a := fun e => hax (by rw [e])
        simp [hax, this]

section Ordered
variable (mono : ∀ a b, key a ≤ key b → ident a ≤ ident b)
include mono

theorem sorted_ident (xs : List α) : (sorted key xs).Pairwise fun a b => ident a ≤ ident b :=
  (sorted_pairwise key xs).imp fun {a b} => mono a b

theorem mem_representatives : x ∈ representatives key ident xs ↔
    (sorted key xs).find? (fun a => ident a = ident x) = some x := by
  have ordered := sorted_ident mono xs
  rw [representatives]
  cases hl : sorted key xs with
  | nil => simp
  | cons a l =>
    rw [hl] at ordered
    exact mem_destutter'_iff ordered

theorem least_of_mem (h : x ∈ representatives key ident xs) : Least key ident xs x := by
  have found := (mem_representatives mono).mp h
  refine ⟨mem_sorted.mp (List.mem_of_find?_eq_some found), fun y hy hident => ?_⟩
  obtain ⟨-, before, after, hsplit, hbefore⟩ := List.find?_eq_some_iff_append.mp found
  have ordered := sorted_pairwise key xs
  rw [hsplit] at ordered
  have hy : y ∈ sorted key xs := mem_sorted.mpr hy
  rw [hsplit] at hy
  rcases List.mem_append.mp hy with hy | hy
  · simpa [hident] using hbefore y hy
  · rcases List.mem_cons.mp hy with rfl | hy
    · exact le_rfl
    · exact (List.pairwise_cons.mp (List.pairwise_append.mp ordered).2.1).1 y hy

theorem exists_representative (h : y ∈ xs) : ∃ x ∈ representatives key ident xs, ident x = ident y := by
  have found : ((sorted key xs).find? fun a => ident a = ident y).isSome := by
    rw [List.find?_isSome]
    exact ⟨y, mem_sorted.mpr h, by simp⟩
  obtain ⟨x, hx⟩ := Option.isSome_iff_exists.mp found
  have hident : ident x = ident y := by simpa using List.find?_some hx
  exact ⟨x, (mem_representatives mono).mpr (by rw [hident]; exact hx), hident⟩

theorem representatives_pairwise (xs : List α) :
    (representatives key ident xs).Pairwise fun a b => ident a < ident b := by
  unfold representatives
  have ordered := (sorted_ident mono xs).sublist (List.destutter_sublist (fun a b => ident a ≠ ident b) _)
  have distinct := List.isChain_destutter (fun a b : α => ident a ≠ ident b) (sorted key xs)
  have : IsTrans α fun a b => ident a < ident b := ⟨fun _ _ _ => lt_trans⟩
  rw [← List.isChain_iff_pairwise, List.isChain_iff_getElem]
  rw [List.isChain_iff_getElem] at distinct
  intro i hi
  exact lt_of_le_of_ne (List.pairwise_iff_getElem.mp ordered i (i + 1) (by omega) hi (by omega)) (distinct i hi)

theorem representatives_nodup (xs : List α) : ((representatives key ident xs).map ident).Nodup :=
  List.pairwise_map.mpr ((representatives_pairwise mono xs).imp fun h => h.ne)

/-- The first of two elements with one least key is kept. -/
theorem mem_representatives_cons (h : Least key ident (x :: xs) x) : x ∈ representatives key ident (x :: xs) := by
  obtain ⟨before, after, hold, hnew, hbefore⟩ := sorted_cons key x xs
  refine (mem_representatives mono).mpr (List.find?_eq_some_iff_append.mpr ⟨by simp, before, after, hnew, fun y hy => ?_⟩)
  have hmem : y ∈ sorted key xs := hold ▸ List.mem_append_left after hy
  have hident : ident y ≠ ident x := fun e =>
    absurd (h.le y (List.mem_cons_of_mem x (mem_sorted.mp hmem)) e) (not_le.mpr (hbefore y hy))
  simpa using hident

theorem mem_representatives_cons_of_ne (h : ident x ≠ ident y) :
    x ∈ representatives key ident (y :: xs) ↔ x ∈ representatives key ident xs := by
  obtain ⟨before, after, hold, hnew, -⟩ := sorted_cons key y xs
  rw [mem_representatives mono, mem_representatives mono, hold, hnew, List.find?_append, List.find?_append,
    List.find?_cons_of_neg (by simpa using h.symm)]

/-- Two orders of one list keep elements with the same keys. -/
theorem representatives_key_perm (hperm : xs.Perm ys) :
    (representatives key ident xs).map key = (representatives key ident ys).map key := by
  have strict : ∀ l : List α, ((representatives key ident l).map key).Pairwise (· < ·) := fun l =>
    List.pairwise_map.mpr ((representatives_pairwise mono l).imp fun {a b} h =>
      not_le.mp fun hle => absurd (mono b a hle) (not_le.mpr h))
  have inclusion : ∀ {l m : List α}, l.Perm m → ∀ k ∈ (representatives key ident l).map key,
      k ∈ (representatives key ident m).map key := by
    intro l m hlm k hk
    obtain ⟨a, ha, rfl⟩ := List.mem_map.mp hk
    have hleast := (least_of_mem mono ha).perm hlm
    obtain ⟨b, hb, hident⟩ := exists_representative mono hleast.mem
    exact List.mem_map.mpr ⟨b, hb, (least_of_mem mono hb).key_eq hleast hident⟩
  refine List.Perm.eq_of_pairwise (fun a b _ _ hab hba => absurd hab (not_lt.mpr hba.le))
    (strict xs) (strict ys) ?_
  have nodup : ∀ l : List α, ((representatives key ident l).map key).Nodup := fun l => (strict l).imp fun h => h.ne
  exact (List.perm_ext_iff_of_nodup (nodup xs) (nodup ys)).mpr fun k =>
    ⟨inclusion hperm k, inclusion hperm.symm k⟩

end Ordered

end Alexandria.Representative
