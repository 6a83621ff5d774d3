import Mathlib.Data.List.Dedup
import Mathlib.Data.List.Induction
import Mathlib.Data.List.Nodup
import Mathlib.Data.List.Sort
import Mathlib.Data.List.TakeWhile

/-! # Lists in order and without repetition

Lists that agree under a map, lists sorted by a key, and the first occurrences in a list.
-/

namespace Alexandria.Lists
set_option autoImplicit false

variable {α β : Type} {xs ys : List α} {x y : α}

/-! ## Lists that agree under a map -/

theorem map_eq_of_map_eq {γ : Type} {f : α → β} {g : α → γ} {xs ys : List α}
    (hfg : ∀ x ∈ xs, ∀ y ∈ ys, f x = f y → g x = g y) (h : xs.map f = ys.map f) : xs.map g = ys.map g := by
  induction xs generalizing ys with
  | nil =>
    rw [List.map_nil, eq_comm, List.map_eq_nil_iff] at h
    rw [h, List.map_nil]
  | cons x xs ih =>
    cases ys with
    | nil => cases h
    | cons y ys =>
      obtain ⟨hxy, hrest⟩ := List.cons.inj h
      have htail := ih (fun a ha b hb => hfg a (List.mem_cons_of_mem x ha) b (List.mem_cons_of_mem y hb)) hrest
      rw [List.map_cons, List.map_cons, hfg x List.mem_cons_self y List.mem_cons_self hxy, htail]

theorem filter_map_congr {f : α → β} {p q : α → Bool} {xs ys : List α} (h : xs.map f = ys.map f)
    (hp : ∀ x ∈ xs, ∀ y ∈ ys, f x = f y → p x = q y) : (xs.filter p).map f = (ys.filter q).map f := by
  induction xs generalizing ys with
  | nil =>
    rw [List.map_nil, eq_comm, List.map_eq_nil_iff] at h
    rw [h]
    rfl
  | cons x xs ih =>
    cases ys with
    | nil => cases h
    | cons y ys =>
      obtain ⟨hxy, hrest⟩ := List.cons.inj h
      have hhead := hp x List.mem_cons_self y List.mem_cons_self hxy
      have htail := ih hrest fun a ha b hb => hp a (List.mem_cons_of_mem x ha) b (List.mem_cons_of_mem y hb)
      cases hx : p x <;> simp only [List.filter_cons, hx, ← hhead, if_true, List.map_cons, hxy, htail, Bool.false_eq_true,
        if_false]

/-- A map that fails on no element does not fail on the list, and keeps what it keeps of each element. -/
theorem mapM_ok {γ ε : Type} {f : α → Except ε β} {g : α → γ} {h : β → γ} {xs : List α}
    (hf : ∀ x ∈ xs, ∃ y, f x = .ok y ∧ h y = g x) : ∃ ys, xs.mapM f = .ok ys ∧ ys.map h = xs.map g := by
  induction xs with
  | nil => exact ⟨[], rfl, rfl⟩
  | cons x xs ih =>
    obtain ⟨y, hy, hkept⟩ := hf x List.mem_cons_self
    obtain ⟨ys, hys, hrest⟩ := ih fun z hz => hf z (List.mem_cons_of_mem x hz)
    refine ⟨y :: ys, ?_, by rw [List.map_cons, List.map_cons, hkept, hrest]⟩
    rw [List.mapM_cons, hy, hys]
    rfl

/-! ## Lists sorted by a key -/

section Sorted
variable {κ : Type} [LinearOrder κ]

def sorted (key : α → κ) (xs : List α) : List α := xs.insertionSort fun a b => key a ≤ key b

variable (key : α → κ)

theorem sorted_pairwise (xs : List α) : (sorted key xs).Pairwise fun a b => key a ≤ key b :=
  have : Std.Total (fun a b : α => key a ≤ key b) := ⟨fun a b => le_total (key a) (key b)⟩
  have : IsTrans α fun a b => key a ≤ key b := ⟨fun _ _ _ => le_trans⟩
  xs.pairwise_insertionSort _

variable {key} in
theorem mem_sorted : x ∈ sorted key xs ↔ x ∈ xs := List.mem_insertionSort _

/-- An element goes before those of a sorted list whose keys are not smaller. -/
theorem sorted_cons (x : α) (xs : List α) : ∃ before after, sorted key xs = before ++ after ∧
    sorted key (x :: xs) = before ++ x :: after ∧ ∀ y ∈ before, key y < key x := by
  refine ⟨(sorted key xs).takeWhile fun y => ¬ key x ≤ key y, (sorted key xs).dropWhile fun y => ¬ key x ≤ key y,
    (List.takeWhile_append_dropWhile).symm, ?_, fun y hy => ?_⟩
  · exact List.orderedInsert_eq_take_drop _ _ _
  · simpa using List.mem_takeWhile_imp hy

/-- Two orders of one list are sorted to the same list where the key tells its elements apart. -/
theorem insertionSort_perm {xs ys : List α} (h : xs.Perm ys)
    (hkey : ∀ a ∈ xs, ∀ b ∈ xs, key a = key b → a = b) :
    xs.insertionSort (fun a b => key a ≤ key b) = ys.insertionSort fun a b => key a ≤ key b := by
  have hsorted := ((xs.perm_insertionSort fun a b => key a ≤ key b).trans h).trans
    (ys.perm_insertionSort fun a b => key a ≤ key b).symm
  refine List.Perm.eq_of_pairwise (fun a b ha hb hab hba => ?_)
    (sorted_pairwise key xs) (sorted_pairwise key ys) hsorted
  exact hkey a (List.mem_insertionSort _ |>.mp ha) b (h.mem_iff.mpr ((List.mem_insertionSort _).mp hb)) (le_antisymm hab hba)

/-- A filtered map over sorted distinct keys depends on the keys with a value only. -/
theorem filterMap_sorted_congr {f g : κ → Option β} {xs ys : List κ} (hfg : ∀ k, f k = g k)
    (hx : ∀ k, (f k).isSome → k ∈ xs) (hy : ∀ k, (g k).isSome → k ∈ ys) :
    (xs.dedup.insertionSort (· ≤ ·)).filterMap f = (ys.dedup.insertionSort (· ≤ ·)).filterMap g := by
  obtain rfl : f = g := funext hfg
  have hsome : ∀ zs : List κ, (zs.dedup.insertionSort (· ≤ ·)).filterMap f =
      ((zs.dedup.filter fun k => (f k).isSome).insertionSort (· ≤ ·)).filterMap f := by
    intro zs
    have hsorted : ((zs.dedup.insertionSort (· ≤ ·)).filter fun k => (f k).isSome) =
        (zs.dedup.filter fun k => (f k).isSome).insertionSort (· ≤ ·) := by
      have hperm := ((zs.dedup.perm_insertionSort (· ≤ ·)).filter fun k => (f k).isSome).trans
        ((zs.dedup.filter fun k => (f k).isSome).perm_insertionSort (· ≤ ·)).symm
      exact List.Perm.eq_of_pairwise (fun a b _ _ hab hba => le_antisymm hab hba)
        ((sorted_pairwise id zs.dedup).sublist List.filter_sublist) (sorted_pairwise id _) hperm
    rw [← hsorted, List.filterMap_filter]
    refine List.filterMap_congr fun k _ => ?_
    cases hk : f k <;> simp
  have hperm : (xs.dedup.filter fun k => (f k).isSome).Perm (ys.dedup.filter fun k => (f k).isSome) := by
    refine (List.perm_ext_iff_of_nodup (xs.nodup_dedup.filter _) (ys.nodup_dedup.filter _)).mpr fun k => ?_
    simp only [List.mem_filter, List.mem_dedup]
    exact ⟨fun h => ⟨hy k h.2, h.2⟩, fun h => ⟨hx k h.2, h.2⟩⟩
  rw [hsome xs, hsome ys]
  exact congrArg (List.filterMap f) (insertionSort_perm id hperm fun a _ b _ h => h)

theorem mem_take_of_before {measure : α → ℕ} {items : List α}
    (hitems : items.Pairwise fun earlier later => measure earlier ≤ measure later) {n : ℕ} {x y : α} (hx : x ∈ items.take n)
    (hy : y ∈ items) (hlt : measure y < measure x) : y ∈ items.take n := by
  rw [← List.take_append_drop n items] at hy hitems
  obtain hy | hy := List.mem_append.mp hy
  · exact hy
  · have hle := (List.pairwise_append.mp hitems).2.2 x hx y hy
    omega

end Sorted

/-! ## First occurrences -/

section First
variable [DecidableEq α]

theorem eraseDups_concat (xs : List α) (x : α) :
    (xs ++ [x]).eraseDups = if x ∈ xs then xs.eraseDups else xs.eraseDups ++ [x] := by
  rw [List.eraseDups_append]
  by_cases hx : x ∈ xs
  · simp [List.removeAll, hx]
  · simp [List.removeAll, hx, List.eraseDups_cons]

theorem nodup_eraseDups (xs : List α) : xs.eraseDups.Nodup := by
  induction xs using List.reverseRecOn with
  | nil => simp
  | append_singleton xs x ih =>
    rw [eraseDups_concat]
    by_cases hx : x ∈ xs
    · rw [if_pos hx]
      exact ih
    · rw [if_neg hx]
      refine List.nodup_append.mpr ⟨ih, List.nodup_singleton x, fun a ha b hb => ?_⟩
      rintro rfl
      rw [List.mem_singleton.mp hb] at ha
      exact hx (List.mem_eraseDups.mp ha)

theorem idxOf_concat (xs : List α) (x y : α) (h : y ∈ xs) : (xs ++ [x]).idxOf y = xs.idxOf y :=
  List.idxOf_append_of_mem h

/-- Without repetitions, elements stand in the order of their first occurrences. -/
theorem pairwise_eraseDups (xs : List α) : xs.eraseDups.Pairwise fun a b => xs.idxOf a < xs.idxOf b := by
  induction xs using List.reverseRecOn with
  | nil => simp
  | append_singleton xs x ih =>
    have hold : xs.eraseDups.Pairwise fun a b => (xs ++ [x]).idxOf a < (xs ++ [x]).idxOf b := by
      refine ih.imp_of_mem fun {a b} ha hb hab => ?_
      rw [idxOf_concat xs x a (List.mem_eraseDups.mp ha), idxOf_concat xs x b (List.mem_eraseDups.mp hb)]
      exact hab
    rw [eraseDups_concat]
    by_cases hx : x ∈ xs
    · rw [if_pos hx]
      exact hold
    · rw [if_neg hx]
      refine List.pairwise_append.mpr ⟨hold, List.pairwise_singleton _ _, fun a ha b hb => ?_⟩
      have ha := List.mem_eraseDups.mp ha
      rw [List.mem_singleton.mp hb, idxOf_concat xs x a ha, List.idxOf_append_of_notMem hx]
      have hlt := List.idxOf_lt_length_of_mem ha
      omega

theorem idxOf?_of_mem {xs : List α} {y : α} (h : y ∈ xs) : xs.idxOf? y = some (xs.idxOf y) := by
  induction xs with
  | nil => cases h
  | cons x xs ih =>
    rw [List.idxOf?_cons, List.idxOf_cons]
    by_cases hxy : x = y
    · simp [hxy]
    · have hy := (List.mem_cons.mp h).resolve_left (Ne.symm hxy)
      have hne : (x == y) = false := beq_eq_false_iff_ne.mpr hxy
      simp [hne, ih hy]

theorem idxOf?_concat (xs : List α) (x y : α) :
    (xs ++ [x]).idxOf? y = (xs.idxOf? y).or (if x = y then some xs.length else none) := by
  rw [List.idxOf?, List.findIdx?_append]
  congr 1
  by_cases hxy : x = y <;> simp [hxy]

theorem idxOf?_concat_of_mem {xs : List α} {x y : α} (h : y ∈ xs) : (xs ++ [x]).idxOf? y = xs.idxOf? y := by
  rw [idxOf?_concat]
  cases hy : xs.idxOf? y with
  | some i => rfl
  | none => exact absurd h (List.idxOf?_eq_none_iff.mp hy)

end First

/-! ## Parts between separators -/

theorem sep_not_mem_splitOn [DecidableEq α] {sep : α} {part : List α} (h : part ∈ xs.splitOn sep) : sep ∉ part := by
  induction xs generalizing part with
  | nil =>
    rw [List.splitOn_nil, List.mem_singleton] at h
    rw [h]
    exact List.not_mem_nil
  | cons x xs ih =>
    rw [List.splitOn_cons_eq_if_modifyHead] at h
    split at h
    · obtain rfl | h := List.mem_cons.mp h
      · exact List.not_mem_nil
      · exact ih h
    · rename_i hx
      cases hsplit : xs.splitOn sep with
      | nil => exact absurd hsplit (List.splitOn_ne_nil sep xs)
      | cons first rest =>
        rw [hsplit] at h ih
        obtain rfl | h := List.mem_cons.mp h
        · rw [List.mem_cons, not_or]
          exact ⟨fun heq => hx (beq_iff_eq.mpr heq.symm), ih List.mem_cons_self⟩
        · exact ih (List.mem_cons_of_mem first h)

end Alexandria.Lists
