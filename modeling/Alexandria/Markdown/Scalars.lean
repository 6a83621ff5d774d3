import Alexandria.Markdown.Lexemes
import Alexandria.Markdown.Lines

/-! # Reading rendered scalars back

A null, a boolean, an integer and a quoted text are always read back. A text that is rendered plain is read back
exactly if it has no blank at an end, since the parser trims what it reads.
-/

namespace Alexandria.Markdown
set_option autoImplicit false

open Native Text

/-- A scalar that is not a floating-point number. -/
def FrontmatterScalar.Exact {φ : Type} (value : FrontmatterScalar φ) : Prop := ∀ x, value ≠ .float x

/-- A text that is rendered plain has no blank at an end. -/
def Settled {φ : Type} (value : FrontmatterScalar φ) : Prop :=
  ∀ text, value = .str text → canRenderPlain text.toList = true → trimmed text.toList = text.toList

/-! ## Texts -/

theorem whitespace_blank : isWhitespace ' ' = true := by decide

theorem parseScalar_trimmed (raw : List Char) : parseScalar (trimmed raw) = parseScalar raw := by
  unfold parseScalar
  have h : trimmed (trimmed raw) = trimmed raw := trimBy_trimBy
  rw [h]

theorem undoubleQuotes_doubleQuotes (text : List Char) : undoubleQuotes (doubleQuotes text) = text := by
  induction text with
  | nil => rfl
  | cons c text ih =>
    unfold doubleQuotes at ih ⊢
    rw [List.flatMap_cons]
    by_cases hc : c = '\''
    · rw [if_pos hc, hc]
      exact congrArg ('\'' :: ·) ih
    · rw [if_neg hc, List.singleton_append, undoubleQuotes.eq_3]
      · rw [ih]
      · rintro rest rfl -
        exact hc rfl

/-- What `_can_render_plain` excludes. -/
theorem canRenderPlain_spec {text : List Char} (h : canRenderPlain text = true) :
    text ≠ [] ∧ text ≠ ['~'] ∧ text.map Char.toLower ∉ ["true".toList, "false".toList, "null".toList] ∧
      isIntegerLexeme text = false ∧ isFloatLexeme text = false ∧ ∀ c ∈ text, c ∉ blocked := by
  unfold canRenderPlain at h
  split_ifs at h with hnil hword hnumber hblocked
  rw [not_or] at hword
  rw [Bool.or_eq_true, not_or, rmatch_integerScalar, rmatch_floatScalar] at hnumber
  refine ⟨hnil, hword.1, hword.2, ?_, ?_, ?_⟩
  · exact Bool.eq_false_iff.mpr hnumber.1
  · exact Bool.eq_false_iff.mpr hnumber.2
  · intro c hc hmem
    exact hblocked (List.any_eq_true.mpr ⟨c, hc, by simpa using hmem⟩)

theorem quotedBy_none {quote : Char} {text : List Char} (h : quote ∉ text) : quotedBy quote text = none := by
  unfold quotedBy
  rw [if_neg]
  rintro ⟨-, hhead, -⟩
  exact h (List.mem_of_head? hhead)

theorem toLower_tilde {text : List Char} (h : text.map Char.toLower = ['~']) : text = ['~'] := by
  obtain ⟨c, rfl, hlower⟩ := List.map_eq_singleton_iff.mp h
  by_cases hupper : 'A'.toNat ≤ c.toNat ∧ c.toNat ≤ 'Z'.toNat
  · obtain ⟨hlow, hhigh⟩ := hupper
    rw [← Char.ofNat_toNat c] at hlower
    generalize c.toNat = n at hlow hhigh hlower
    have hletter : ∀ m, 65 ≤ m → m ≤ 90 → (Char.ofNat m).toLower ≠ '~' := by
      intro m hm hm'
      interval_cases m <;> decide
    exact absurd hlower (hletter n hlow hhigh)
  · have hsame : c.toLower = c := by
      unfold Char.toLower
      rw [dif_neg]
      exact hupper
    rw [← hsame, hlower]

/-- A plain text without blanks at its ends is read as it is. -/
theorem parseScalar_plain {text : List Char} (h : canRenderPlain text = true) (ht : trimmed text = text) :
    parseScalar text = .string (String.ofList text) := by
  obtain ⟨hnil, htilde, hword, hinteger, hfloat, hblocked⟩ := canRenderPlain_spec h
  have hsingle : '\'' ∉ text := fun hmem => hblocked '\'' hmem (by decide)
  have hdouble : '"' ∉ text := fun hmem => hblocked '"' hmem (by decide)
  rw [List.mem_cons, List.mem_cons, List.mem_singleton, not_or, not_or] at hword
  unfold parseScalar
  simp only
  rw [ht, quotedBy_none hsingle, quotedBy_none hdouble]
  simp only
  rw [if_neg, if_neg hword.1, if_neg hword.2.1, hinteger, hfloat]
  · rfl
  · rintro (h | h | h)
    · exact hnil h
    · exact hword.2.2 h
    · exact htilde (toLower_tilde h)

theorem trimmed_quoted (text : List Char) : trimmed ('\'' :: (text ++ ['\''])) = '\'' :: (text ++ ['\'']) :=
  trimBy_between (by decide) (by decide)

theorem parseScalar_quoted (text : List Char) :
    parseScalar ('\'' :: (doubleQuotes text ++ ['\''])) = .string (String.ofList text) := by
  have hquoted : quotedBy '\'' ('\'' :: (doubleQuotes text ++ ['\''])) = some (doubleQuotes text) := by
    unfold quotedBy
    rw [if_pos]
    · rw [List.tail_cons, List.dropLast_concat]
    · refine ⟨by simp, rfl, ?_⟩
      rw [← List.cons_append, List.getLast?_concat]
  unfold parseScalar
  simp only
  rw [trimmed_quoted, hquoted]
  simp only
  rw [undoubleQuotes_doubleQuotes]

/-- A plain text is never read with blanks at its ends. -/
theorem parseScalar_string {text : List Char} {result : String} (h : canRenderPlain text = true)
    (hread : parseScalar text = .string result) : result.toList = trimmed text := by
  obtain ⟨-, -, -, -, -, hblocked⟩ := canRenderPlain_spec h
  have hsingle : '\'' ∉ trimmed text := fun hmem => hblocked '\'' (mem_of_mem_trimBy hmem) (by decide)
  have hdouble : '"' ∉ trimmed text := fun hmem => hblocked '"' (mem_of_mem_trimBy hmem) (by decide)
  unfold parseScalar at hread
  simp only at hread
  rw [quotedBy_none hsingle, quotedBy_none hdouble] at hread
  simp only at hread
  split_ifs at hread
  cases hread
  rw [String.toList_ofList]

theorem intText_plain (n : ℤ) : intText n ≠ [] ∧ ∀ c ∈ intText n,
    isWhitespace c = false ∧ isLineBreak c = false ∧ c ≠ '\'' ∧ c ≠ '"' ∧ c ≠ '[' ∧ c ∉ "nulltrefas~".toList := by
  obtain ⟨hlexeme, -, hchars⟩ := intText_spec n
  have hall : ∀ d ∈ '-' :: decimalDigits, isWhitespace d = false ∧ isLineBreak d = false ∧ d ≠ '\'' ∧ d ≠ '"' ∧
      d ≠ '[' ∧ d ∉ "nulltrefas~".toList := forall_mem_of_all (by decide)
  refine ⟨?_, fun c hc => hall c (List.mem_cons.mpr (hchars c hc))⟩
  intro hnil
  rw [hnil] at hlexeme
  exact absurd hlexeme (by decide)

theorem parseScalar_intText (n : ℤ) : parseScalar (intText n) = .integer (String.ofList (intText n)) := by
  obtain ⟨hlexeme, -, hchars⟩ := intText_spec n
  obtain ⟨hnil, hplain⟩ := intText_plain n
  have htrim : trimmed (intText n) = intText n := trimBy_eq_self fun c hc => (hplain c hc).1
  have hlower : (intText n).map Char.toLower = intText n := by
    have hall : ∀ d ∈ '-' :: decimalDigits, d.toLower = d := forall_mem_of_all (by decide)
    calc (intText n).map Char.toLower = (intText n).map id :=
          List.map_congr_left fun c hc => hall c (List.mem_cons.mpr (hchars c hc))
      _ = intText n := List.map_id _
  obtain ⟨c, rest, hcons⟩ := List.exists_cons_of_ne_nil hnil
  have hfirst : c ∉ "nulltrefas~".toList := (hplain c (hcons ▸ List.mem_cons_self)).2.2.2.2.2
  have hword : ∀ word ∈ ["null".toList, "~".toList, "true".toList, "false".toList], intText n ≠ word := by
    have hletters : ∀ word ∈ ["null".toList, "~".toList, "true".toList, "false".toList],
        (word.all fun d => decide (d ∈ "nulltrefas~".toList)) = true := by decide
    intro word hmem heq
    apply hfirst
    apply forall_mem_of_all (hletters word hmem)
    rw [← heq, hcons]
    exact List.mem_cons_self
  unfold parseScalar
  simp only
  rw [htrim, quotedBy_none fun hmem => (hplain '\'' hmem).2.2.1 rfl,
    quotedBy_none fun hmem => (hplain '"' hmem).2.2.2.1 rfl]
  simp only
  rw [hlower, if_neg, if_neg (hword "true".toList (by decide)), if_neg (hword "false".toList (by decide)),
    if_pos hlexeme]
  rintro (h | h | h)
  · exact hnil h
  · exact hword "null".toList (by decide) h
  · exact hword "~".toList (by decide) h

/-! ## Scalars -/

section Floats
variable {φ : Type} {floats : Floats φ}

/-- A scalar is read back exactly if it is settled. -/
theorem scalarFromTag_iff {value : FrontmatterScalar φ} (h : value.Exact) :
    scalarFromTag floats (parseScalar (yamlScalar floats value)) = value ↔ Settled value := by
  cases value with
  | none =>
    refine iff_of_true ?_ fun text heq => (nomatch heq)
    have hread : parseScalar "null".toList = .null := by decide
    show scalarFromTag floats (parseScalar "null".toList) = _
    rw [hread]
    rfl
  | bool value =>
    refine iff_of_true ?_ fun text heq => (nomatch heq)
    have hread : parseScalar (if value then "true".toList else "false".toList) = .boolean value := by
      cases value <;> decide
    show scalarFromTag floats (parseScalar (if value then "true".toList else "false".toList)) = _
    rw [hread]
    rfl
  | int n =>
    refine iff_of_true ?_ fun text heq => (nomatch heq)
    show scalarFromTag floats (parseScalar (intText n)) = _
    rw [parseScalar_intText]
    show FrontmatterScalar.int (intOf (String.ofList (intText n)).toList) = _
    rw [String.toList_ofList, (intText_spec n).2.1]
  | float x => exact absurd rfl (h x)
  | str text =>
    show scalarFromTag floats (parseScalar (yamlText text.toList)) = _ ↔ _
    unfold yamlText
    split
    · rename_i hplain
      constructor
      · intro hread text' heq _
        cases heq
        cases hparse : parseScalar text.toList with
        | string result =>
          rw [hparse] at hread
          have hresult : result = text := by
            cases hread
            rfl
          have htrim := parseScalar_string hplain hparse
          rw [hresult] at htrim
          exact htrim.symm
        | integer lexeme => rw [hparse] at hread; cases hread
        | float lexeme => rw [hparse] at hread; cases hread
        | boolean b => rw [hparse] at hread; cases hread
        | null => rw [hparse] at hread; cases hread
      · intro hsettled
        rw [parseScalar_plain hplain (hsettled text rfl hplain)]
        show FrontmatterScalar.str (String.ofList text.toList) = _
        rw [String.ofList_toList]
    · rename_i hplain
      refine iff_of_true ?_ ?_
      · rw [parseScalar_quoted]
        show FrontmatterScalar.str (String.ofList text.toList) = _
        rw [String.ofList_toList]
      · intro text' heq hplain'
        cases heq
        exact absurd hplain' hplain

/-- No rendered scalar looks like an inline list. -/
theorem yamlScalar_head {value : FrontmatterScalar φ} (h : value.Exact) :
    (trimmed (yamlScalar floats value)).head? ≠ some '[' := by
  cases value with
  | none => exact (by decide : (trimmed "null".toList).head? ≠ some '[')
  | bool value =>
    cases value
    · exact (by decide : (trimmed "false".toList).head? ≠ some '[')
    · exact (by decide : (trimmed "true".toList).head? ≠ some '[')
  | int n =>
    intro hhead
    exact ((intText_plain n).2 '[' (mem_of_mem_trimBy (List.mem_of_head? hhead))).2.2.2.2.1 rfl
  | float x => exact absurd rfl (h x)
  | str text =>
    show (trimmed (yamlText text.toList)).head? ≠ some '['
    unfold yamlText
    split
    · rename_i hplain
      intro hhead
      have hmem := mem_of_mem_trimBy (List.mem_of_head? hhead)
      exact (canRenderPlain_spec hplain).2.2.2.2.2 '[' hmem (by decide)
    · rw [trimmed_quoted, List.head?_cons]
      decide

theorem yamlScalar_nonblank (floats : Floats φ) {value : FrontmatterScalar φ} (h : value.Exact)
    (hsettled : Settled value) :
    trimmed (yamlScalar floats value) ≠ [] := by
  cases value with
  | none => exact (by decide : trimmed "null".toList ≠ [])
  | bool value =>
    cases value
    · exact (by decide : trimmed "false".toList ≠ [])
    · exact (by decide : trimmed "true".toList ≠ [])
  | int n =>
    obtain ⟨hnil, hplain⟩ := intText_plain n
    show trimBy isWhitespace (intText n) ≠ []
    rw [trimBy_eq_self fun c hc => (hplain c hc).1]
    exact hnil
  | float x => exact absurd rfl (h x)
  | str text =>
    show trimmed (yamlText text.toList) ≠ []
    unfold yamlText
    split
    · rename_i hplain
      rw [hsettled text rfl hplain]
      exact (canRenderPlain_spec hplain).1
    · rw [trimmed_quoted]
      exact List.cons_ne_nil _ _

/-- The characters of rendered scalars that are not those of a text. -/
def scalarChars : List Char := "nulltrefas'-0123456789".toList

theorem yamlText_all {P : Char → Prop} (hquote : P '\'') {value : List Char} (h : ∀ c ∈ value, P c) :
    ∀ c ∈ yamlText value, P c := by
  unfold yamlText
  split
  · exact h
  · intro c hc
    obtain rfl | hc := List.mem_cons.mp hc
    · exact hquote
    · obtain hc | hc := List.mem_append.mp hc
      · obtain ⟨d, hd, hcd⟩ := List.mem_flatMap.mp hc
        split at hcd
        · obtain rfl | hcd := List.mem_cons.mp hcd
          · exact hquote
          · rw [List.mem_singleton.mp hcd]
            exact hquote
        · rw [List.mem_singleton.mp hcd]
          exact h d hd
      · rw [List.mem_singleton.mp hc]
        exact hquote

theorem yamlScalar_all {P : Char → Prop} (hmarks : ∀ c ∈ scalarChars, P c) {value : FrontmatterScalar φ} (h : value.Exact)
    (htext : ∀ text, value = .str text → ∀ c ∈ text.toList, P c) : ∀ c ∈ yamlScalar floats value, P c := by
  have hconstant : ∀ {text : List Char}, (∀ c ∈ text, c ∈ scalarChars) → ∀ c ∈ text, P c :=
    fun hsub c hc => hmarks c (hsub c hc)
  cases value with
  | none => exact hconstant (forall_mem_of_all (by decide) : ∀ c ∈ "null".toList, c ∈ scalarChars)
  | bool value =>
    cases value
    · exact hconstant (forall_mem_of_all (by decide) : ∀ c ∈ "false".toList, c ∈ scalarChars)
    · exact hconstant (forall_mem_of_all (by decide) : ∀ c ∈ "true".toList, c ∈ scalarChars)
  | int n =>
    have hdigits : ∀ d ∈ '-' :: decimalDigits, d ∈ scalarChars := forall_mem_of_all (by decide)
    exact fun c hc => hmarks c (hdigits c (List.mem_cons.mpr ((intText_spec n).2.2 c hc)))
  | float x => exact absurd rfl (h x)
  | str text => exact yamlText_all (hmarks '\'' (by decide)) (htext text rfl)

theorem yamlScalar_oneLine {value : FrontmatterScalar φ} (h : value.Exact)
    (htext : ∀ text, value = .str text → OneLine text.toList) : OneLine (yamlScalar floats value) :=
  yamlScalar_all (forall_mem_of_all (by decide)) h htext

end Floats

end Alexandria.Markdown
