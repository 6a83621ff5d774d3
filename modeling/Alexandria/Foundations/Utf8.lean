import Mathlib.Algebra.Ring.Nat
import Mathlib.Data.List.Basic
import Mathlib.Data.Nat.Notation
import Mathlib.Tactic.Common

/-! # Byte offsets of a text

A text is the list of its characters. Its UTF-8 encoding gives each character a width, so each character position has
a byte offset; a slice between two byte offsets takes the characters whose encoding lies between them.
-/

namespace Alexandria.Utf8
set_option autoImplicit false

def size (text : List Char) : ℕ := (text.map Char.utf8Size).sum

/-- The byte offset of every character position of a text that starts at byte `b`, and of its end. -/
def offsets (b : ℕ) : List Char → List ℕ
  | [] => [b]
  | c :: text => b :: offsets (b + c.utf8Size) text

/-- The longest prefix whose encoding has at most `n` bytes. -/
def takeBytes (n : ℕ) : List Char → List Char
  | [] => []
  | c :: text => if c.utf8Size ≤ n then c :: takeBytes (n - c.utf8Size) text else []

/-- What is left once that prefix is removed. -/
def dropBytes (n : ℕ) : List Char → List Char
  | [] => []
  | c :: text => if c.utf8Size ≤ n then dropBytes (n - c.utf8Size) text else c :: text

/-- The text between two byte offsets. -/
def slice (text : List Char) (start stop : ℕ) : List Char := takeBytes (stop - start) (dropBytes start text)

attribute [local simp] offsets takeBytes dropBytes

theorem size_cons (c : Char) (text : List Char) : size (c :: text) = c.utf8Size + size text := rfl

theorem length_le_size (text : List Char) : text.length ≤ size text := by
  induction text with
  | nil => exact Nat.le_refl 0
  | cons c text ih =>
    have hc := c.utf8Size_pos
    rw [size_cons, List.length_cons]
    omega

theorem offsets_getElem? (b : ℕ) (text : List Char) (i : ℕ) (h : i ≤ text.length) :
    (offsets b text)[i]? = some (b + size (text.take i)) := by
  induction text generalizing b i with
  | nil =>
    have hi : i = 0 := by simpa using h
    subst hi
    rfl
  | cons c text ih =>
    cases i with
    | zero => rfl
    | succ i =>
      have hi : i ≤ text.length := by simpa using h
      simp only [offsets, List.getElem?_cons_succ, List.take_succ_cons, size_cons]
      rw [ih (b + c.utf8Size) i hi, Nat.add_assoc]

/-- Different positions have different offsets, so a search for an offset finds its position. -/
theorem offsets_idxOf? (b : ℕ) (text : List Char) (i : ℕ) (h : i ≤ text.length) :
    (offsets b text).idxOf? (b + size (text.take i)) = some i := by
  induction text generalizing b i with
  | nil =>
    have hi : i = 0 := by simpa using h
    subst hi
    simp [offsets, size, List.idxOf?_cons]
  | cons c text ih =>
    cases i with
    | zero => simp [offsets, size, List.idxOf?_cons]
    | succ i =>
      have hi : i ≤ text.length := by simpa using h
      have hc := c.utf8Size_pos
      have hne : (b == b + size ((c :: text).take (i + 1))) = false := by
        rw [List.take_succ_cons, size_cons]
        simp only [beq_eq_false_iff_ne]
        omega
      rw [offsets, List.idxOf?_cons, hne, List.take_succ_cons, size_cons, ← Nat.add_assoc, ih _ i hi]
      rfl

theorem dropBytes_size_take (text : List Char) (i : ℕ) : dropBytes (size (text.take i)) text = text.drop i := by
  induction text generalizing i with
  | nil => simp [dropBytes]
  | cons c text ih =>
    cases i with
    | zero =>
      have hc := c.utf8Size_pos
      have hn : ¬ c.utf8Size ≤ 0 := by omega
      simp only [List.take_zero, List.drop_zero]
      exact if_neg hn
    | succ i =>
      rw [List.take_succ_cons, size_cons, List.drop_succ_cons, ← ih i]
      simp only [dropBytes]
      rw [if_pos (Nat.le_add_right _ _), Nat.add_sub_cancel_left]

theorem takeBytes_size_take (text : List Char) (i : ℕ) : takeBytes (size (text.take i)) text = text.take i := by
  induction text generalizing i with
  | nil => simp [takeBytes]
  | cons c text ih =>
    cases i with
    | zero =>
      have hc := c.utf8Size_pos
      have hn : ¬ c.utf8Size ≤ 0 := by omega
      simp only [List.take_zero]
      exact if_neg hn
    | succ i =>
      rw [List.take_succ_cons, size_cons]
      simp only [takeBytes]
      rw [if_pos (Nat.le_add_right _ _), Nat.add_sub_cancel_left, ih i]

theorem size_append (l m : List Char) : size (l ++ m) = size l + size m := by
  unfold size
  rw [List.map_append, List.sum_append]

theorem size_take_le (text : List Char) {i j : ℕ} (h : i ≤ j) : size (text.take i) ≤ size (text.take j) := by
  have hsplit : text.take j = text.take i ++ (text.take j).drop i := by
    have ht : text.take i = (text.take j).take i := by rw [List.take_take, Nat.min_eq_left h]
    rw [ht, List.take_append_drop]
  rw [hsplit, size_append]
  exact Nat.le_add_right _ _

/-- A slice between the offsets of two character positions holds the characters between these positions. -/
theorem slice_offsets (text : List Char) (i j : ℕ) (h : i ≤ j) :
    slice text (size (text.take i)) (size (text.take j)) = (text.drop i).take (j - i) := by
  have hsplit : text.take j = text.take i ++ (text.drop i).take (j - i) := by
    rw [List.take_drop, Nat.add_sub_cancel' h]
    have ht : text.take i = (text.take j).take i := by rw [List.take_take, Nat.min_eq_left h]
    rw [ht, List.take_append_drop]
  have hsize : size (text.take j) - size (text.take i) = size ((text.drop i).take (j - i)) := by
    rw [hsplit, size_append, Nat.add_sub_cancel_left]
  unfold slice
  rw [hsize, dropBytes_size_take, takeBytes_size_take]

/-- A part of a text lies between the sizes of what stands before it and of that with it. -/
theorem slice_middle (before text after : List Char) :
    slice (before ++ text ++ after) (size before) (size before + size text) = text := by
  have hslice := slice_offsets (before ++ text ++ after) before.length (before ++ text).length (by simp)
  have hbefore : (before ++ text ++ after).take before.length = before := by rw [List.append_assoc, List.take_left]
  have hrest : (before ++ text ++ after).drop before.length = text ++ after := by rw [List.append_assoc, List.drop_left]
  rw [hbefore, List.take_left, hrest, List.length_append, Nat.add_sub_cancel_left, List.take_left,
    size_append] at hslice
  exact hslice

end Alexandria.Utf8
