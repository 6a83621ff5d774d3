import Mathlib.Data.List.DropRight
import Mathlib.Tactic.Common

/-! # Text as lists of characters

The two whitespace classes the implementation languages use for trimming, and trimming itself.
-/

namespace Alexandria.Text
set_option autoImplicit false

/-- The Unicode `White_Space` property, which trimming without an argument uses in Rust. -/
def isWhitespace (c : Char) : Bool :=
  ('\x09' ≤ c && c ≤ '\x0d') || c == ' ' || c == '\u0085' || c == '\u00a0' || c == '\u1680' ||
    ('\u2000' ≤ c && c ≤ '\u200a') || c == '\u2028' || c == '\u2029' || c == '\u202f' || c == '\u205f' ||
    c == '\u3000'

/-- The `str.isspace` class of Python: `White_Space` and the four information separators. -/
def isPythonWhitespace (c : Char) : Bool := isWhitespace c || ('\x1c' ≤ c && c ≤ '\x1f')

/-- Remove the characters of a class from both ends. -/
def trimBy (p : Char → Bool) (cs : List Char) : List Char := (cs.dropWhile p).rdropWhile p

def trim (s : String) : String := String.ofList (trimBy isWhitespace s.toList)

def pythonStrip (s : String) : String := String.ofList (trimBy isPythonWhitespace s.toList)

/-- Is there nothing but characters of the class? -/
def isBlank (p : Char → Bool) (s : String) : Bool := (trimBy p s.toList).isEmpty

/-- `s.startswith(start)`. -/
def opensWith (start s : String) : Bool := start.toList.isPrefixOf s.toList

/-- `s.removeprefix(start)`. -/
def withoutStart (start s : String) : String :=
  if opensWith start s then String.ofList (s.toList.drop start.length) else s

theorem forall_mem_of_all {P : Char → Prop} [DecidablePred P] {l : List Char}
    (h : (l.all fun c => decide (P c)) = true) : ∀ c ∈ l, P c := fun c hc => of_decide_eq_true (List.all_eq_true.mp h c hc)

/-! ## Trimming -/

section Trimming
variable {p q : Char → Bool} {c : Char} {l m : List Char}

theorem rdropWhile_cons : (c :: l).rdropWhile p = if l.rdropWhile p = [] ∧ p c = true then [] else c :: l.rdropWhile p := by
  induction l using List.reverseRecOn with
  | nil =>
    rw [List.rdropWhile_singleton]
    cases p c <;> simp
  | append_singleton l x ih =>
    rw [← List.cons_append]
    by_cases hx : p x = true
    · rw [List.rdropWhile_concat_pos _ _ _ hx, List.rdropWhile_concat_pos _ _ _ hx]
      exact ih
    · rw [List.rdropWhile_concat_neg _ _ _ hx, List.rdropWhile_concat_neg _ _ _ hx]
      simp

theorem rdropWhile_cons_neg (hc : p c = false) : (c :: l).rdropWhile p = c :: l.rdropWhile p := by
  rw [rdropWhile_cons, if_neg]
  rintro ⟨-, h⟩
  rw [hc] at h
  simp at h

theorem trimBy_cons_pos (hc : p c = true) : trimBy p (c :: l) = trimBy p l := by
  unfold trimBy
  rw [List.dropWhile_cons_of_pos hc]

theorem trimBy_cons_neg (hc : p c = false) : trimBy p (c :: l) = c :: l.rdropWhile p := by
  unfold trimBy
  rw [List.dropWhile_cons_of_neg (by rw [hc]; exact Bool.false_ne_true), rdropWhile_cons_neg hc]

theorem trimBy_rdropWhile : trimBy p (l.rdropWhile p) = trimBy p l := by
  induction l with
  | nil => rfl
  | cons c l ih =>
    cases hc : p c with
    | false =>
      rw [rdropWhile_cons_neg hc, trimBy_cons_neg hc, trimBy_cons_neg hc, List.rdropWhile_idempotent]
    | true =>
      rw [trimBy_cons_pos hc, rdropWhile_cons]
      split
      · rename_i hall
        rw [← ih, hall.1]
      · rw [trimBy_cons_pos hc]
        exact ih

theorem trimBy_head_neg (h : (trimBy p l).head? = some c) : p c = false := by
  induction l with
  | nil => cases h
  | cons x l ih =>
    cases hx : p x with
    | true =>
      rw [trimBy_cons_pos hx] at h
      exact ih h
    | false =>
      rw [trimBy_cons_neg hx, List.head?_cons] at h
      cases h
      exact hx

theorem trimBy_trimBy : trimBy p (trimBy p l) = trimBy p l := by
  induction l with
  | nil => rfl
  | cons c l ih =>
    cases hc : p c with
    | true =>
      rw [trimBy_cons_pos hc]
      exact ih
    | false => rw [trimBy_cons_neg hc, trimBy_cons_neg hc, List.rdropWhile_idempotent]

theorem mem_of_mem_trimBy (h : c ∈ trimBy p l) : c ∈ l :=
  (List.dropWhile_suffix p).mem ((List.rdropWhile_prefix p (l.dropWhile p)).mem h)

theorem mem_trimBy (h : c ∈ l) (hkept : p c = false) : c ∈ trimBy p l := by
  induction l with
  | nil => exact h
  | cons d l ih =>
    cases hd : p d with
    | true =>
      rw [trimBy_cons_pos hd]
      obtain rfl | h := List.mem_cons.mp h
      · rw [hkept] at hd
        simp at hd
      · exact ih h
    | false =>
      rw [trimBy_cons_neg hd, List.mem_cons]
      obtain rfl | h := List.mem_cons.mp h
      · exact .inl rfl
      · right
        rw [← List.rdropWhile_append_rtakeWhile (p := p) (l := l)] at h
        obtain h | h := List.mem_append.mp h
        · exact h
        · rw [List.mem_rtakeWhile_imp h] at hkept
          simp at hkept

/-- Between two characters that stay, everything stays. -/
theorem trimBy_between {a b : Char} (ha : p a = false) (hb : p b = false) :
    trimBy p (a :: (m ++ [b])) = a :: (m ++ [b]) := by
  rw [trimBy_cons_neg ha, List.rdropWhile_concat_neg _ _ _ (by rw [hb]; exact Bool.false_ne_true)]

/-- A text whose first and last characters stay is not changed. -/
theorem trimBy_of_ends (first : ∀ c, l.head? = some c → p c = false) (last : ∀ c, l.getLast? = some c → p c = false) :
    trimBy p l = l := by
  cases l with
  | nil => rfl
  | cons a l =>
    rw [trimBy_cons_neg (first a rfl)]
    congr 1
    rw [List.rdropWhile_eq_self_iff]
    intro hl hlast
    have hend : (a :: l).getLast? = some (l.getLast hl) := by
      rw [List.getLast?_eq_some_getLast (List.cons_ne_nil a l), List.getLast_cons hl]
    rw [last _ hend] at hlast
    simp at hlast

theorem trimBy_eq_self (h : ∀ c ∈ l, p c = false) : trimBy p l = l :=
  trimBy_of_ends (fun c hc => h c (List.mem_of_mem_head? hc)) fun c hc => h c (List.mem_of_getLast? hc)

theorem rdropWhile_settled (h : ∀ c, l.getLast? = some c → p c = false) :
    l.rdropWhile p = l := by
  cases l using List.reverseRecOn with
  | nil => exact List.rdropWhile_nil _
  | append_singleton l c =>
    have hc := h c List.getLast?_concat
    exact List.rdropWhile_concat_neg _ _ _ (by rw [hc]; exact Bool.false_ne_true)

theorem rdropWhile_append_last {c : Char} (hc : p c = false) (u v : List Char) :
    (u ++ c :: v).rdropWhile p = u ++ c :: v.rdropWhile p := by
  induction v using List.reverseRecOn with
  | nil =>
    rw [List.rdropWhile_concat_neg _ _ _ (by rw [hc]; exact Bool.false_ne_true), List.rdropWhile_nil]
  | append_singleton v d ih =>
    have hassoc : u ++ c :: (v ++ [d]) = (u ++ c :: v) ++ [d] := by simp
    rw [hassoc]
    by_cases hd : p d = true
    · rw [List.rdropWhile_concat_pos _ _ _ hd, List.rdropWhile_concat_pos _ _ _ hd, ih]
    · rw [List.rdropWhile_concat_neg _ _ _ hd, List.rdropWhile_concat_neg _ _ _ hd, hassoc]

theorem dropWhile_append_first {c : Char} (hc : p c = false) (u v : List Char) :
    (u ++ c :: v).dropWhile p = u.dropWhile p ++ c :: v := by
  induction u with
  | nil =>
    rw [List.nil_append, List.dropWhile_cons_of_neg (by rw [hc]; exact Bool.false_ne_true)]
    rfl
  | cons d u ih =>
    rw [List.cons_append]
    by_cases hd : p d = true
    · rw [List.dropWhile_cons_of_pos hd, List.dropWhile_cons_of_pos hd, ih]
    · rw [List.dropWhile_cons_of_neg hd, List.dropWhile_cons_of_neg hd, List.cons_append]

theorem trimBy_eq_nil_iff : trimBy p l = [] ↔ ∀ c ∈ l, p c = true := by
  constructor
  · intro h c hc
    by_contra hp
    have hmem := mem_trimBy hc (by simpa using hp)
    rw [h] at hmem
    cases hmem
  · intro h
    unfold trimBy
    rw [List.dropWhile_eq_nil_iff.mpr h, List.rdropWhile_nil]

theorem trimBy_append_blank (hl : ∀ c ∈ l, p c = true) (v : List Char) : trimBy p (l ++ v) = trimBy p v := by
  induction l with
  | nil => rfl
  | cons c l ih =>
    rw [List.cons_append, trimBy_cons_pos (hl c List.mem_cons_self)]
    exact ih fun d hd => hl d (List.mem_cons_of_mem c hd)

/-- Between two characters that stay, only what is before the one and after the other is trimmed. -/
theorem trimBy_around {a b : Char} (ha : p a = false) (hb : p b = false) (u m v : List Char) :
    trimBy p (u ++ a :: (m ++ b :: v)) = u.dropWhile p ++ a :: (m ++ b :: v.rdropWhile p) := by
  unfold trimBy
  rw [dropWhile_append_first ha]
  have hassoc : ∀ w : List Char, u.dropWhile p ++ a :: (m ++ b :: w) = (u.dropWhile p ++ a :: m) ++ b :: w := by
    intro w
    simp
  rw [hassoc, rdropWhile_append_last hb, hassoc]

theorem trimBy_append_end (hm : ∀ c ∈ m, p c = true) : trimBy p (l ++ m) = trimBy p l := by
  induction m using List.reverseRecOn with
  | nil => rw [List.append_nil]
  | append_singleton m c ih =>
    rw [← List.append_assoc, ← trimBy_rdropWhile, List.rdropWhile_concat_pos _ _ _ (hm c (by simp)), trimBy_rdropWhile]
    exact ih fun d hd => hm d (List.mem_append_left _ hd)

/-- What is trimmed anyway may be taken off the end before. -/
theorem trimBy_rdropWhile_of_imp (himp : ∀ c, q c = true → p c = true) (l : List Char) :
    trimBy p (l.rdropWhile q) = trimBy p l := by
  induction l using List.reverseRecOn with
  | nil => rw [List.rdropWhile_nil]
  | append_singleton l c ih =>
    by_cases hc : q c = true
    · rw [List.rdropWhile_concat_pos _ _ _ hc, ih, trimBy_append_end fun d hd => by rw [List.mem_singleton.mp hd]; exact himp c hc]
    · rw [List.rdropWhile_concat_neg _ _ _ hc]

theorem rdropWhile_congr (h : ∀ c ∈ l, p c = q c) : l.rdropWhile p = l.rdropWhile q := by
  induction l with
  | nil => rfl
  | cons c l ih =>
    rw [rdropWhile_cons, rdropWhile_cons, ih fun d hd => h d (List.mem_cons_of_mem c hd), h c List.mem_cons_self]

theorem dropWhile_congr (h : ∀ c ∈ l, p c = q c) : l.dropWhile p = l.dropWhile q := by
  induction l with
  | nil => rfl
  | cons c l ih =>
    rw [List.dropWhile_cons, List.dropWhile_cons, ih fun d hd => h d (List.mem_cons_of_mem c hd), h c List.mem_cons_self]

theorem trimBy_congr (h : ∀ c ∈ l, p c = q c) : trimBy p l = trimBy q l := by
  unfold trimBy
  rw [dropWhile_congr h]
  exact rdropWhile_congr fun c hc => h c ((List.dropWhile_suffix q).mem hc)

end Trimming

end Alexandria.Text
