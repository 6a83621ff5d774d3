import Alexandria.Markdown.Frontmatter
import Mathlib.Data.Nat.Digits.Lemmas
import Mathlib.Tactic.IntervalCases

/-! # Number lexemes

The renderer recognises numbers by two patterns, the native parser by splitting. They agree, and the text of an
integer is a lexeme that reads back to it.
-/

namespace Alexandria.Markdown
set_option autoImplicit false

open Native RegularExpression

/-! ## Patterns -/

theorem oneOf_cons (c : Char) (cs : List Char) : oneOf (c :: cs) = char c + oneOf cs := rfl

theorem rmatch_oneOf {cs x : List Char} : (oneOf cs).rmatch x ↔ ∃ c ∈ cs, x = [c] := by
  induction cs with
  | nil =>
    show (0 : RegularExpression Char).rmatch x = true ↔ _
    rw [zero_rmatch]
    simp
  | cons a cs ih =>
    rw [oneOf_cons, add_rmatch_iff, char_rmatch_iff, ih]
    simp

theorem rmatch_star_oneOf {cs x : List Char} : (star (oneOf cs)).rmatch x ↔ ∀ c ∈ x, c ∈ cs := by
  rw [star_rmatch_iff]
  constructor
  · rintro ⟨parts, rfl, hparts⟩ c hc
    obtain ⟨part, hpart, hmem⟩ := List.mem_flatten.mp hc
    obtain ⟨d, hd, rfl⟩ := rmatch_oneOf.mp (hparts part hpart).2
    rw [List.mem_singleton.mp hmem]
    exact hd
  · intro h
    refine ⟨x.map fun c => [c], ?_, ?_⟩
    · induction x with
      | nil => rfl
      | cons c x ih =>
        rw [List.map_cons, List.flatten_cons, ← ih fun d hd => h d (List.mem_cons_of_mem c hd)]
        rfl
    · intro part hpart
      obtain ⟨c, hc, rfl⟩ := List.mem_map.mp hpart
      exact ⟨List.cons_ne_nil c [], rmatch_oneOf.mpr ⟨c, h c hc, rfl⟩⟩

theorem rmatch_optionally {r : RegularExpression Char} {x : List Char} :
    (optionally r).rmatch x ↔ x = [] ∨ r.rmatch x := by
  unfold optionally
  rw [add_rmatch_iff, one_rmatch_iff]

theorem rmatch_oneOf_mul {cs x : List Char} {r : RegularExpression Char} :
    (oneOf cs * r).rmatch x ↔ ∃ c ∈ cs, ∃ y, x = c :: y ∧ r.rmatch y := by
  rw [mul_rmatch_iff]
  constructor
  · rintro ⟨t, u, rfl, ht, hu⟩
    obtain ⟨c, hc, rfl⟩ := rmatch_oneOf.mp ht
    exact ⟨c, hc, u, rfl, hu⟩
  · rintro ⟨c, hc, y, rfl, hy⟩
    exact ⟨[c], y, rfl, rmatch_oneOf.mpr ⟨c, hc, rfl⟩, hy⟩

theorem rmatch_char_mul {a : Char} {x : List Char} {r : RegularExpression Char} :
    (char a * r).rmatch x ↔ ∃ y, x = a :: y ∧ r.rmatch y := by
  rw [mul_rmatch_iff]
  constructor
  · rintro ⟨t, u, rfl, ht, hu⟩
    rw [char_rmatch_iff] at ht
    exact ⟨u, by rw [ht]; rfl, hu⟩
  · rintro ⟨y, rfl, hy⟩
    exact ⟨[a], y, rfl, (char_rmatch_iff a [a]).mpr rfl, hy⟩

/-! ## Digits -/

theorem isDigit_iff {c : Char} : c.isDigit = true ↔ c ∈ decimalDigits := by
  constructor
  · intro h
    have hlow : 48 ≤ c.toNat := by
      unfold Char.isDigit at h
      rw [Bool.and_eq_true, decide_eq_true_iff] at h
      exact h.1
    have hhigh : c.toNat ≤ 57 := by
      unfold Char.isDigit at h
      rw [Bool.and_eq_true, decide_eq_true_iff, decide_eq_true_iff] at h
      exact h.2
    rw [← Char.ofNat_toNat c]
    generalize c.toNat = n at hlow hhigh
    interval_cases n <;> decide
  · have hall : ∀ d ∈ decimalDigits, d.isDigit = true := Text.forall_mem_of_all (by decide)
    exact hall c

theorem nonzero_iff {c : Char} : ('1' ≤ c && c ≤ '9') = true ↔ c ∈ nonzeroDigits := by
  constructor
  · intro h
    rw [Bool.and_eq_true, decide_eq_true_iff, decide_eq_true_iff] at h
    have hlow : 49 ≤ c.toNat := h.1
    have hhigh : c.toNat ≤ 57 := h.2
    rw [← Char.ofNat_toNat c]
    generalize c.toNat = n at hlow hhigh
    interval_cases n <;> decide
  · have hall : ∀ d ∈ nonzeroDigits, ('1' ≤ d && d ≤ '9') = true :=
      Text.forall_mem_of_all (by decide)
    exact hall c

theorem all_isDigit_iff {x : List Char} : x.all Char.isDigit = true ↔ ∀ c ∈ x, c ∈ decimalDigits := by
  rw [List.all_eq_true]
  exact forall₂_congr fun c _ => isDigit_iff

theorem rmatch_digits {x : List Char} :
    (oneOrMore (oneOf decimalDigits)).rmatch x ↔ x ≠ [] ∧ x.all Char.isDigit = true := by
  unfold oneOrMore
  rw [rmatch_oneOf_mul, all_isDigit_iff]
  constructor
  · rintro ⟨c, hc, y, rfl, hy⟩
    refine ⟨List.cons_ne_nil c y, fun d hd => ?_⟩
    obtain rfl | hd := List.mem_cons.mp hd
    · exact hc
    · exact rmatch_star_oneOf.mp hy d hd
  · rintro ⟨hne, hall⟩
    cases x with
    | nil => exact absurd rfl hne
    | cons c y =>
      exact ⟨c, hall c List.mem_cons_self, y, rfl, rmatch_star_oneOf.mpr fun d hd => hall d (List.mem_cons_of_mem c hd)⟩

theorem canonicalUnsignedInteger_cons {first : Char} {rest : List Char} :
    canonicalUnsignedInteger (first :: rest) = true ↔
      first :: rest = ['0'] ∨ first ∈ nonzeroDigits ∧ ∀ c ∈ rest, c ∈ decimalDigits := by
  unfold canonicalUnsignedInteger
  rw [Bool.or_eq_true, decide_eq_true_iff]
  simp only
  rw [Bool.and_eq_true, nonzero_iff, all_isDigit_iff]

theorem rmatch_wholePattern {x : List Char} : wholePattern.rmatch x ↔ canonicalUnsignedInteger x = true := by
  unfold wholePattern
  rw [add_rmatch_iff, char_rmatch_iff, rmatch_oneOf_mul]
  cases x with
  | nil =>
    refine iff_of_false ?_ (by decide)
    rintro (h | ⟨c, -, y, h, -⟩)
    · simp at h
    · simp at h
  | cons first rest =>
    rw [canonicalUnsignedInteger_cons]
    refine or_congr Iff.rfl ?_
    constructor
    · rintro ⟨c, hc, y, heq, hy⟩
      cases heq
      exact ⟨hc, rmatch_star_oneOf.mp hy⟩
    · rintro ⟨hfirst, hrest⟩
      exact ⟨first, hfirst, rest, rfl, rmatch_star_oneOf.mpr hrest⟩

theorem canonical_digits {x : List Char} (h : canonicalUnsignedInteger x = true) : ∀ c ∈ x, c ∈ decimalDigits := by
  cases x with
  | nil => exact fun c hc => (nomatch hc)
  | cons first rest =>
    intro c hc
    obtain hzero | ⟨hfirst, hrest⟩ := canonicalUnsignedInteger_cons.mp h
    · rw [hzero] at hc
      rw [List.mem_singleton.mp hc]
      decide
    · obtain rfl | hc := List.mem_cons.mp hc
      · exact List.mem_cons_of_mem '0' hfirst
      · exact hrest c hc

/-! ## Signs -/

/-- A pattern that no signed text matches, behind an optional sign. -/
theorem rmatch_signed {r : RegularExpression Char} {x : List Char} (hr : ∀ c ∈ signs, ∀ y, ¬ r.rmatch (c :: y)) :
    (optionally (oneOf signs) * r).rmatch x ↔ r.rmatch (stripNumericSign x) := by
  have hsplit : (optionally (oneOf signs) * r).rmatch x ↔ r.rmatch x ∨ ∃ c ∈ signs, ∃ y, x = c :: y ∧ r.rmatch y := by
    rw [mul_rmatch_iff]
    constructor
    · rintro ⟨t, u, rfl, ht, hu⟩
      obtain rfl | ht := rmatch_optionally.mp ht
      · exact .inl hu
      · obtain ⟨c, hc, rfl⟩ := rmatch_oneOf.mp ht
        exact .inr ⟨c, hc, u, rfl, hu⟩
    · rintro (h | ⟨c, hc, y, rfl, hy⟩)
      · exact ⟨[], x, rfl, rmatch_optionally.mpr (.inl rfl), h⟩
      · exact ⟨[c], y, rfl, rmatch_optionally.mpr (.inr (rmatch_oneOf.mpr ⟨c, hc, rfl⟩)), hy⟩
  rw [hsplit]
  have hsigned : ∀ c ∈ signs, ∀ y, (r.rmatch (c :: y) ∨ ∃ d ∈ signs, ∃ z, c :: y = d :: z ∧ r.rmatch z) ↔ r.rmatch y := by
    intro c hc y
    constructor
    · rintro (h | ⟨d, -, z, heq, hz⟩)
      · exact absurd h (hr c hc y)
      · cases heq
        exact hz
    · intro h
      exact .inr ⟨c, hc, y, rfl, h⟩
  unfold stripNumericSign
  split
  · exact hsigned '+' (by decide) _
  · exact hsigned '-' (by decide) _
  · rename_i text hplus hminus
    refine or_iff_left ?_
    rintro ⟨c, hc, y, rfl, -⟩
    obtain rfl | hc := List.mem_cons.mp hc
    · exact hminus y rfl
    · rw [List.mem_singleton.mp hc] at hplus
      exact hplus y rfl

theorem sign_not_digit {c : Char} (hc : c ∈ signs) : c ∉ decimalDigits := by
  have hall : ∀ d ∈ signs, d ∉ decimalDigits := Text.forall_mem_of_all (by decide)
  exact hall c hc

theorem unsigned_canonical {c : Char} (hc : c ∈ signs) (y : List Char) : ¬ canonicalUnsignedInteger (c :: y) = true :=
  fun h => sign_not_digit hc (canonical_digits h c List.mem_cons_self)

theorem rmatch_integerScalar {x : List Char} : integerScalar.rmatch x ↔ isIntegerLexeme x = true := by
  unfold integerScalar
  rw [rmatch_signed, rmatch_wholePattern]
  · rfl
  · intro c hc y h
    exact unsigned_canonical hc y (rmatch_wholePattern.mp h)

/-! ## Floats -/

theorem takeWhile_append_cons {α : Type} {p : α → Bool} {a b : List α} {c : α} (ha : ∀ d ∈ a, p d = true)
    (hc : p c = false) : (a ++ c :: b).takeWhile p = a ∧ (a ++ c :: b).dropWhile p = c :: b := by
  rw [List.takeWhile_append_of_pos ha, List.dropWhile_append_of_pos ha]
  have hstop : ¬ p c = true := by rw [hc]; exact Bool.false_ne_true
  rw [List.takeWhile_cons_of_neg hstop, List.dropWhile_cons_of_neg hstop, List.append_nil]
  exact ⟨rfl, rfl⟩

theorem splitOnce_eq_some {sep : Char} {x a b : List Char} :
    splitOnce sep x = some (a, b) ↔ x = a ++ sep :: b ∧ sep ∉ a := by
  unfold splitOnce
  constructor
  · intro h
    split at h
    · rename_i hmem
      cases h
      have hkeep : ∀ c ∈ x.takeWhile (· ≠ sep), c ≠ sep := fun c hc => by simpa using List.mem_takeWhile_imp hc
      refine ⟨?_, fun hsep => hkeep sep hsep rfl⟩
      cases hdrop : x.dropWhile (· ≠ sep) with
      | nil =>
        have hall := List.dropWhile_eq_nil_iff.mp hdrop sep hmem
        simp at hall
      | cons c rest =>
        have hc : c = sep := by
          have hhead := List.head_dropWhile_not (fun c => decide (c ≠ sep)) (l := x) (by rw [hdrop]; exact List.cons_ne_nil c rest)
          simp only [hdrop, List.head_cons] at hhead
          simpa using hhead
        have happend := List.takeWhile_append_dropWhile (p := fun c => decide (c ≠ sep)) (l := x)
        rw [hdrop, hc] at happend
        exact happend.symm
    · simp at h
  · rintro ⟨rfl, ha⟩
    have hsplit := takeWhile_append_cons (p := fun c => decide (c ≠ sep)) (a := a) (b := b) (c := sep)
      (fun d hd => by simpa using fun heq : d = sep => ha (heq ▸ hd)) (by simp)
    rw [if_pos (List.mem_append_right a List.mem_cons_self), hsplit.1, hsplit.2]
    rfl

/-- A whole number and its fraction. -/
def HasFraction (x : List Char) : Prop :=
  ∃ w f, x = w ++ '.' :: f ∧ canonicalUnsignedInteger w = true ∧ f ≠ [] ∧ f.all Char.isDigit = true

/-- A whole number and its exponent. -/
def HasExponent (x : List Char) : Prop :=
  ∃ w e r, x = w ++ e :: r ∧ isExponentMark e = true ∧ canonicalUnsignedInteger w = true ∧
    stripNumericSign r ≠ [] ∧ (stripNumericSign r).all Char.isDigit = true

theorem exponentMark_iff {c : Char} : isExponentMark c = true ↔ c ∈ ['e', 'E'] := by
  unfold isExponentMark
  simp

theorem digit_plain {c : Char} (h : c ∈ decimalDigits) : c ≠ '.' ∧ isExponentMark c = false := by
  have hall : ∀ d ∈ decimalDigits, d ≠ '.' ∧ isExponentMark d = false := Text.forall_mem_of_all (by decide)
  exact hall c h

/-- A sign is the only other character of an exponent. -/
theorem exponent_plain {r : List Char} (h : (stripNumericSign r).all Char.isDigit = true) :
    ∀ c ∈ r, c ≠ '.' ∧ isExponentMark c = false := by
  intro c hc
  rw [all_isDigit_iff] at h
  unfold stripNumericSign at h
  split at h
  · obtain rfl | hc := List.mem_cons.mp hc
    · decide
    · exact digit_plain (h c hc)
  · obtain rfl | hc := List.mem_cons.mp hc
    · decide
    · exact digit_plain (h c hc)
  · exact digit_plain (h c hc)

theorem isFloatLexeme_iff {x : List Char} :
    isFloatLexeme x = true ↔ HasFraction (stripNumericSign x) ∨ HasExponent (stripNumericSign x) := by
  unfold isFloatLexeme
  simp only
  generalize stripNumericSign x = u
  constructor
  · intro h
    split at h
    · rename_i whole fraction hsplit
      obtain ⟨rfl, -⟩ := splitOnce_eq_some.mp hsplit
      simp only [Bool.and_eq_true, decide_eq_true_iff] at h
      exact .inl ⟨whole, fraction, rfl, h.1.2, h.1.1.1, h.2⟩
    · split at h
      · rename_i hmark
        split at h
        · simp at h
        · simp only [Bool.and_eq_true, decide_eq_true_iff] at h
          right
          obtain ⟨e, he, hmark⟩ := List.any_eq_true.mp hmark
          have happend := List.takeWhile_append_dropWhile (p := fun c => !isExponentMark c) (l := u)
          cases hdrop : u.dropWhile fun c => !isExponentMark c with
          | nil =>
            have hall := List.dropWhile_eq_nil_iff.mp hdrop e he
            rw [hmark] at hall
            simp at hall
          | cons c rest =>
            have hc : isExponentMark c = true := by
              have hhead := List.head_dropWhile_not (fun c => !isExponentMark c) (l := u)
                (by rw [hdrop]; exact List.cons_ne_nil c rest)
              simp only [hdrop, List.head_cons] at hhead
              simpa using hhead
            rw [hdrop] at happend h
            exact ⟨_, c, rest, happend.symm, hc, h.1.1, h.1.2, h.2⟩
      · simp at h
  · rintro (⟨w, f, rfl, hw, hf, hdigits⟩ | ⟨w, e, r, rfl, he, hw, hr, hdigits⟩)
    · have hdot : '.' ∉ w := fun hmem => (digit_plain (canonical_digits hw '.' hmem)).1 rfl
      rw [splitOnce_eq_some.mpr ⟨rfl, hdot⟩]
      have hplain : (f.any fun c => c == '.' || isExponentMark c) = false := by
        rw [List.any_eq_false]
        intro c hc
        obtain ⟨hne, hmark⟩ := digit_plain (all_isDigit_iff.mp hdigits c hc)
        rw [hmark]
        simpa using hne
      simp only [hplain, hw, hdigits]
      simpa using hf
    · have hnone : splitOnce '.' (w ++ e :: r) = none := by
        unfold splitOnce
        rw [if_neg]
        intro hmem
        obtain hmem | hmem := List.mem_append.mp hmem
        · exact (digit_plain (canonical_digits hw '.' hmem)).1 rfl
        · obtain heq | hmem := List.mem_cons.mp hmem
          · rw [← heq] at he
            exact absurd he (by decide)
          · exact (exponent_plain hdigits '.' hmem).1 rfl
      have hsplit := takeWhile_append_cons (p := fun c => !isExponentMark c) (a := w) (b := r) (c := e)
        (fun d hd => by rw [(digit_plain (canonical_digits hw d hd)).2]; rfl) (by rw [he]; rfl)
      have hmark : (w ++ e :: r).any isExponentMark = true :=
        List.any_eq_true.mpr ⟨e, List.mem_append_right w List.mem_cons_self, he⟩
      have hplain : r.any isExponentMark = false := by
        rw [List.any_eq_false]
        intro c hc
        rw [(exponent_plain hdigits c hc).2]
        exact Bool.false_ne_true
      rw [hnone]
      simp only [hmark, if_true, hsplit.1, hsplit.2, List.tail_cons, hplain, Bool.false_eq_true, if_false, hw, hdigits]
      simpa using hr

theorem rmatch_floatScalar {x : List Char} : floatScalar.rmatch x ↔ isFloatLexeme x = true := by
  have hfraction : ∀ y, (wholePattern * (char '.' * oneOrMore (oneOf decimalDigits))).rmatch y ↔ HasFraction y := by
    intro y
    rw [mul_rmatch_iff]
    constructor
    · rintro ⟨w, u, rfl, hw, hu⟩
      obtain ⟨f, rfl, hf⟩ := rmatch_char_mul.mp hu
      obtain ⟨hne, hdigits⟩ := rmatch_digits.mp hf
      exact ⟨w, f, rfl, rmatch_wholePattern.mp hw, hne, hdigits⟩
    · rintro ⟨w, f, rfl, hw, hne, hdigits⟩
      exact ⟨w, '.' :: f, rfl, rmatch_wholePattern.mpr hw, rmatch_char_mul.mpr ⟨f, rfl, rmatch_digits.mpr ⟨hne, hdigits⟩⟩⟩
  have hdigits : ∀ r : List Char, (optionally (oneOf signs) * oneOrMore (oneOf decimalDigits)).rmatch r ↔
      stripNumericSign r ≠ [] ∧ (stripNumericSign r).all Char.isDigit = true := by
    intro r
    rw [rmatch_signed, rmatch_digits]
    intro c hc y h
    exact sign_not_digit hc (all_isDigit_iff.mp (rmatch_digits.mp h).2 c List.mem_cons_self)
  have hexponent : ∀ y, (wholePattern * (oneOf ['e', 'E'] * (optionally (oneOf signs) *
      oneOrMore (oneOf decimalDigits)))).rmatch y ↔ HasExponent y := by
    intro y
    rw [mul_rmatch_iff]
    constructor
    · rintro ⟨w, u, rfl, hw, hu⟩
      obtain ⟨e, he, r, rfl, hr⟩ := rmatch_oneOf_mul.mp hu
      obtain ⟨hne, hall⟩ := (hdigits r).mp hr
      exact ⟨w, e, r, rfl, exponentMark_iff.mpr he, rmatch_wholePattern.mp hw, hne, hall⟩
    · rintro ⟨w, e, r, rfl, he, hw, hne, hall⟩
      exact ⟨w, e :: r, rfl, rmatch_wholePattern.mpr hw,
        rmatch_oneOf_mul.mpr ⟨e, exponentMark_iff.mp he, r, rfl, (hdigits r).mpr ⟨hne, hall⟩⟩⟩
  unfold floatScalar
  rw [rmatch_signed, add_rmatch_iff, hfraction, hexponent, isFloatLexeme_iff]
  intro c hc y h
  rw [add_rmatch_iff, hfraction, hexponent] at h
  have hfirst : ∀ w e r, c :: y = w ++ e :: r → canonicalUnsignedInteger w = true → False := by
    intro w e r heq hw
    cases w with
    | nil => exact absurd hw (by decide)
    | cons d w =>
      cases heq
      exact unsigned_canonical hc w hw
  obtain ⟨w, f, heq, hw, -⟩ | ⟨w, e, r, heq, -, hw, -⟩ := h
  · exact hfirst w '.' f heq hw
  · exact hfirst w e r heq hw

/-! ## The text of an integer -/

theorem digitOf_toNat {d : ℕ} (h : d < 10) : (digitOf d).toNat - '0'.toNat = d := by
  interval_cases d <;> rfl

theorem digitOf_mem {d : ℕ} (h : d < 10) : digitOf d ∈ decimalDigits := by
  interval_cases d <;> decide

theorem digitOf_nonzero {d : ℕ} (h : d < 10) (hd : d ≠ 0) : digitOf d ∈ nonzeroDigits := by
  interval_cases d
  · exact absurd rfl hd
  all_goals decide

theorem naturalOf_digits {ds : List ℕ} (h : ∀ d ∈ ds, d < 10) :
    naturalOf (ds.reverse.map digitOf) = Nat.ofDigits 10 ds := by
  unfold naturalOf
  induction ds with
  | nil => rfl
  | cons d ds ih =>
    rw [List.reverse_cons, List.map_append, List.foldl_append, ih fun e he => h e (List.mem_cons_of_mem d he),
      Nat.ofDigits_cons]
    show 10 * Nat.ofDigits 10 ds + ((digitOf d).toNat - '0'.toNat) = d + 10 * Nat.ofDigits 10 ds
    rw [digitOf_toNat (h d List.mem_cons_self)]
    exact Nat.add_comm _ _

theorem naturalOf_intText (n : ℕ) : naturalOf ((Nat.digits 10 n).reverse.map digitOf) = n := by
  rw [naturalOf_digits fun d hd => Nat.digits_lt_base (by decide) hd]
  exact Nat.ofDigits_digits 10 n

theorem canonical_intText (n : ℕ) : canonicalUnsignedInteger ((Nat.digits 10 (n + 1)).reverse.map digitOf) = true := by
  have hne : Nat.digits 10 (n + 1) ≠ [] := Nat.digits_ne_nil_iff_ne_zero.mpr (Nat.succ_ne_zero n)
  have hlast := Nat.getLast_digit_ne_zero 10 (Nat.succ_ne_zero n)
  have hdigits : ∀ d ∈ Nat.digits 10 (n + 1), d < 10 := fun d hd => Nat.digits_lt_base (by decide) hd
  rw [← List.dropLast_concat_getLast hne, List.reverse_concat, List.map_cons, canonicalUnsignedInteger_cons]
  right
  refine ⟨digitOf_nonzero (hdigits _ (List.getLast_mem hne)) hlast, ?_⟩
  intro c hc
  obtain ⟨d, hd, rfl⟩ := List.mem_map.mp hc
  exact digitOf_mem (hdigits d (List.mem_of_mem_dropLast (List.mem_reverse.mp hd)))

theorem intText_spec (n : ℤ) : isIntegerLexeme (intText n) = true ∧ intOf (intText n) = n ∧
    ∀ c ∈ intText n, c = '-' ∨ c ∈ decimalDigits := by
  have hunsigned : ∀ x : List Char, canonicalUnsignedInteger x = true →
      stripNumericSign x = x ∧ intOf x = naturalOf x := by
    intro x hx
    cases x with
    | nil => exact absurd hx (by decide)
    | cons c x =>
      have hsign : c ∉ signs := fun hc => unsigned_canonical hc x hx
      have hminus : c ≠ '-' := fun heq => hsign (heq ▸ by decide)
      have hplus : c ≠ '+' := fun heq => hsign (heq ▸ by decide)
      constructor
      · unfold stripNumericSign
        split
        · rename_i heq
          cases heq
          exact absurd rfl hplus
        · rename_i heq
          cases heq
          exact absurd rfl hminus
        · rfl
      · unfold intOf
        split
        · rename_i heq
          cases heq
          exact absurd rfl hminus
        · rename_i heq
          cases heq
          exact absurd rfl hplus
        · rfl
  match n with
  | .ofNat 0 => exact ⟨by decide, by decide, Text.forall_mem_of_all (by decide)⟩
  | .ofNat (m + 1) =>
    have hcanonical := canonical_intText m
    obtain ⟨hstrip, hint⟩ := hunsigned _ hcanonical
    refine ⟨?_, ?_, fun c hc => .inr (canonical_digits hcanonical c hc)⟩
    · unfold isIntegerLexeme intText
      rw [hstrip]
      exact hcanonical
    · unfold intText
      rw [hint, naturalOf_intText]
      rfl
  | .negSucc m =>
    have hcanonical := canonical_intText m
    refine ⟨hcanonical, ?_, ?_⟩
    · show -((naturalOf ((Nat.digits 10 (m + 1)).reverse.map digitOf) : ℕ) : ℤ) = Int.negSucc m
      rw [naturalOf_intText]
      rfl
    · intro c hc
      obtain rfl | hc := List.mem_cons.mp hc
      · exact .inl rfl
      · exact .inr (canonical_digits hcanonical c hc)

end Alexandria.Markdown
