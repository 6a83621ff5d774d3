import Alexandria.Markdown.Scalars

/-! # The numbers of the renderer and of the parser

The two patterns of the renderer and the two checks of the native parser accept the same texts. The parser trims a
scalar before it looks at it and the renderer does not, so a number between blanks is rendered plain and read as a
number.
-/

namespace Alexandria.Markdown
set_option autoImplicit false

open Native Text

/-- The patterns of `_can_render_plain` match the text in full. -/
def IsNumber (text : List Char) : Prop := integerScalar.rmatch text ∨ floatScalar.rmatch text

/-- `parse_scalar` makes a number of the text. -/
def ReadAsNumber (text : List Char) : Prop :=
  ∃ lexeme, parseScalar text = .integer lexeme ∨ parseScalar text = .float lexeme

/-- `_yaml_scalar` puts the text between quotes. -/
def Quoted (text : List Char) : Prop := yamlText text = '\'' :: (doubleQuotes text ++ ['\''])

/-- The two sides accept the same integers and the same floats, no text is both, and the renderer quotes exactly the
texts like a number that the parser makes a number of. -/
structure OneNotion (text : List Char) : Prop where
  integers : isIntegerLexeme text = true ↔ integerScalar.rmatch text
  floats : isFloatLexeme text = true ↔ floatScalar.rmatch text
  disjoint : ¬ (isIntegerLexeme text = true ∧ isFloatLexeme text = true)
  quoted : IsNumber text ∨ ReadAsNumber text → (Quoted text ↔ ReadAsNumber text)

/-! ## Characters of a number -/

def numberCharacters : List Char := signs ++ '.' :: 'e' :: 'E' :: decimalDigits

theorem mem_stripNumericSign {text : List Char} {c : Char} (h : c ∈ text) : c ∈ signs ∨ c ∈ stripNumericSign text := by
  unfold stripNumericSign
  split
  · obtain rfl | h := List.mem_cons.mp h
    · exact .inl (by decide)
    · exact .inr h
  · obtain rfl | h := List.mem_cons.mp h
    · exact .inl (by decide)
    · exact .inr h
  · exact .inr h

theorem digits_number {x : List Char} (h : ∀ c ∈ x, c ∈ decimalDigits) : ∀ c ∈ x, c ∈ numberCharacters := by
  have hall : ∀ d ∈ decimalDigits, d ∈ numberCharacters := forall_mem_of_all (by decide)
  exact fun c hc => hall c (h c hc)

theorem signs_number {c : Char} (h : c ∈ signs) : c ∈ numberCharacters := List.mem_append_left _ h

/-- What follows a sign decides what all the characters are. -/
theorem number_of_unsigned {x : List Char} (h : ∀ c ∈ stripNumericSign x, c ∈ numberCharacters) :
    ∀ c ∈ x, c ∈ numberCharacters := by
  intro c hc
  obtain hsign | hrest := mem_stripNumericSign hc
  · exact signs_number hsign
  · exact h c hrest

theorem integer_characters {text : List Char} (h : isIntegerLexeme text = true) : ∀ c ∈ text, c ∈ numberCharacters :=
  number_of_unsigned (digits_number (canonical_digits h))

theorem float_characters {text : List Char} (h : isFloatLexeme text = true) : ∀ c ∈ text, c ∈ numberCharacters := by
  apply number_of_unsigned
  obtain ⟨w, f, heq, hw, -, hf⟩ | ⟨w, e, r, heq, he, hw, -, hr⟩ := isFloatLexeme_iff.mp h
  · intro c hc
    rw [heq, List.mem_append, List.mem_cons] at hc
    obtain hc | rfl | hc := hc
    · exact digits_number (canonical_digits hw) c hc
    · decide
    · exact digits_number (all_isDigit_iff.mp hf) c hc
  · intro c hc
    rw [heq, List.mem_append, List.mem_cons] at hc
    obtain hc | rfl | hc := hc
    · exact digits_number (canonical_digits hw) c hc
    · have hmarks : ∀ d ∈ ['e', 'E'], d ∈ numberCharacters := forall_mem_of_all (by decide)
      exact hmarks c (exponentMark_iff.mp he)
    · exact number_of_unsigned (digits_number (all_isDigit_iff.mp hr)) c hc

theorem integer_not_float {text : List Char} : ¬ (isIntegerLexeme text = true ∧ isFloatLexeme text = true) := by
  rintro ⟨hinteger, hfloat⟩
  have hdigits := canonical_digits hinteger
  obtain ⟨w, f, heq, -⟩ | ⟨w, e, r, heq, he, -⟩ := isFloatLexeme_iff.mp hfloat
  · have hdot : '.' ∈ stripNumericSign text := heq ▸ List.mem_append_right w List.mem_cons_self
    exact (digit_plain (hdigits '.' hdot)).1 rfl
  · have hmark : e ∈ stripNumericSign text := heq ▸ List.mem_append_right w List.mem_cons_self
    have hplain := (digit_plain (hdigits e hmark)).2
    rw [he] at hplain
    cases hplain

theorem isNumber_iff {text : List Char} : IsNumber text ↔ isIntegerLexeme text = true ∨ isFloatLexeme text = true :=
  or_congr rmatch_integerScalar rmatch_floatScalar

theorem number_characters {text : List Char} (h : IsNumber text) : ∀ c ∈ text, c ∈ numberCharacters := by
  obtain hinteger | hfloat := isNumber_iff.mp h
  · exact integer_characters hinteger
  · exact float_characters hfloat

/-- Neither a blank nor a character that the renderer blocks, except a sign at the front, nor the start of a word. -/
theorem numberCharacters_plain : ∀ c ∈ numberCharacters, isWhitespace c = false ∧ c ∉ blocked ∧
    (c ∈ blockedFirst → c = '-') ∧ c.toLower ∉ "ntf~".toList :=
  forall_mem_of_all (by decide)

theorem number_trimmed {text : List Char} (h : IsNumber text) : trimmed text = text :=
  trimBy_eq_self fun c hc => (numberCharacters_plain c (number_characters h c hc)).1

/-! ## Reading a number -/

theorem word_start {text word : List Char} (h : text.map Char.toLower = word) {first : Char}
    (hfirst : first ∈ word) : ∃ c ∈ text, c.toLower = first := by
  rw [← h] at hfirst
  exact List.mem_map.mp hfirst

/-- A number is none of the words that the parser and the renderer know. -/
theorem number_not_word {text : List Char} (h : ∀ c ∈ text, c.toLower ∉ "ntf~".toList) (word : List Char)
    (hword : word ∈ ["null".toList, "~".toList, "true".toList, "false".toList]) : text.map Char.toLower ≠ word := by
  intro heq
  have hletter : ∃ first ∈ word, first ∈ "ntf~".toList := by
    simp only [List.mem_cons, List.not_mem_nil, or_false] at hword
    obtain rfl | rfl | rfl | rfl := hword
    · exact ⟨'n', by decide, by decide⟩
    · exact ⟨'~', by decide, by decide⟩
    · exact ⟨'t', by decide, by decide⟩
    · exact ⟨'f', by decide, by decide⟩
  obtain ⟨first, hmem, hstart⟩ := hletter
  obtain ⟨c, hc, hlower⟩ := word_start heq hmem
  exact h c hc (hlower ▸ hstart)

theorem number_ne_nil {text : List Char} (h : IsNumber text) : text ≠ [] := by
  rintro rfl
  obtain hinteger | hfloat := isNumber_iff.mp h
  · exact absurd hinteger (by decide)
  · exact absurd hfloat (by decide)

theorem parseScalar_number {text : List Char} (h : IsNumber (trimmed text)) :
    parseScalar text = if isIntegerLexeme (trimmed text) then .integer (String.ofList (trimmed text))
      else .float (String.ofList (trimmed text)) := by
  have hplain := fun c hc => numberCharacters_plain c (number_characters h c hc)
  have hword := number_not_word fun c hc => (hplain c hc).2.2.2
  have hsingle : '\'' ∉ trimmed text := fun hmem => (hplain '\'' hmem).2.1 (by decide)
  have hdouble : '"' ∉ trimmed text := fun hmem => (hplain '"' hmem).2.1 (by decide)
  unfold parseScalar
  simp only
  rw [quotedBy_none hsingle, quotedBy_none hdouble]
  simp only
  rw [if_neg, if_neg (hword _ (by decide)), if_neg (hword _ (by decide))]
  · split_ifs with hinteger hfloat
    · rfl
    · rfl
    · exact ((isNumber_iff.mp h).elim hinteger hfloat).elim
  · rintro (heq | heq | heq)
    · exact number_ne_nil h heq
    · exact hword _ (by decide) heq
    · exact hword _ (by decide) heq

/-- The parser makes a number of the text if what is between its blanks is one. -/
theorem readAsNumber_iff {text : List Char} : ReadAsNumber text ↔ IsNumber (trimmed text) := by
  constructor
  · rintro ⟨lexeme, hread⟩
    rw [isNumber_iff]
    unfold parseScalar at hread
    simp only at hread
    split at hread
    · obtain hread | hread := hread <;> cases hread
    · obtain hread | hread := hread <;> cases hread
    · split_ifs at hread with hnull htrue hfalse hinteger hfloat
      · obtain hread | hread := hread <;> cases hread
      · obtain hread | hread := hread <;> cases hread
      · obtain hread | hread := hread <;> cases hread
      · exact .inl hinteger
      · exact .inr hfloat
      · obtain hread | hread := hread <;> cases hread
  · intro h
    refine ⟨String.ofList (trimmed text), ?_⟩
    rw [parseScalar_number h]
    split
    · exact .inl rfl
    · exact .inr rfl

/-! ## Rendering a number -/

theorem quoted_iff {text : List Char} : Quoted text ↔ canRenderPlain text = false := by
  unfold Quoted yamlText
  constructor
  · intro h
    cases hplain : canRenderPlain text with
    | false => rfl
    | true =>
      rw [hplain, if_pos rfl] at h
      have hmem : '\'' ∈ text := h ▸ List.mem_cons_self
      exact absurd (by decide : '\'' ∈ blocked) ((canRenderPlain_spec hplain).2.2.2.2.2 '\'' hmem)
  · intro hplain
    rw [hplain, if_neg Bool.false_ne_true]

theorem number_quoted {text : List Char} (h : IsNumber text) : Quoted text := by
  rw [quoted_iff]
  cases hplain : canRenderPlain text with
  | false => rfl
  | true =>
    obtain ⟨-, -, -, hinteger, hfloat, -⟩ := canRenderPlain_spec hplain
    obtain h | h := isNumber_iff.mp h
    · rw [h] at hinteger
      cases hinteger
    · rw [h] at hfloat
      cases hfloat

theorem toLower_whitespace {c : Char} (h : isWhitespace c = true) : c.toLower = c := by
  unfold Char.toLower
  rw [dif_neg]
  rintro ⟨hlow, hhigh⟩
  have hlow : 65 ≤ c.toNat := hlow
  have hhigh : c.toNat ≤ 90 := hhigh
  rw [← Char.ofNat_toNat c] at h
  generalize c.toNat = n at hlow hhigh h
  have hletter : ∀ m, 65 ≤ m → m ≤ 90 → isWhitespace (Char.ofNat m) = false := by
    intro m hm hm'
    interval_cases m <;> decide
  rw [hletter n hlow hhigh] at h
  cases h

theorem whitespace_plain {c : Char} (h : isWhitespace c = true) :
    (c ∈ blocked → c = '\n') ∧ c ∉ blockedFirst ∧ c.toLower ∉ "ntf~".toList := by
  have hblocked : ∀ d ∈ blocked, isWhitespace d = true → d = '\n' := forall_mem_of_all (by decide)
  have hfirst : ∀ d ∈ blockedFirst, isWhitespace d = false := forall_mem_of_all (by decide)
  have hword : ∀ d ∈ "ntf~".toList, isWhitespace d = false := forall_mem_of_all (by decide)
  refine ⟨fun hmem => hblocked c hmem h, fun hmem => ?_, fun hmem => ?_⟩
  · rw [hfirst c hmem] at h
    cases h
  · rw [toLower_whitespace h] at hmem
    rw [hword c hmem] at h
    cases h

/-- A number between blanks is rendered plain, unless the renderer has another reason to quote it. -/
theorem spaced_quoted_iff {text : List Char} (h : IsNumber (trimmed text)) (hspaced : trimmed text ≠ text) :
    Quoted text ↔ '\n' ∈ text ∨ text.head? = some '-' := by
  have hchars : ∀ c ∈ text, isWhitespace c = true ∨ c ∈ numberCharacters := by
    intro c hc
    cases hblank : isWhitespace c with
    | true => exact .inl rfl
    | false => exact .inr (number_characters h c (mem_trimBy hc hblank))
  have hlower : ∀ c ∈ text, c.toLower ∉ "ntf~".toList := by
    intro c hc
    obtain hblank | hnumber := hchars c hc
    · exact (whitespace_plain hblank).2.2
    · exact (numberCharacters_plain c hnumber).2.2.2
  have hnil : text ≠ [] := fun heq => hspaced (heq ▸ rfl)
  have htilde : text ≠ ['~'] := fun heq => hlower '~' (heq ▸ List.mem_singleton_self _) (by decide)
  have hword : text.map Char.toLower ∉ ["true".toList, "false".toList, "null".toList] := by
    intro hmem
    refine number_not_word hlower (text.map Char.toLower) ?_ rfl
    simp only [List.mem_cons, List.not_mem_nil, or_false] at hmem ⊢
    obtain hmem | hmem | hmem := hmem
    · exact .inr (.inr (.inl hmem))
    · exact .inr (.inr (.inr hmem))
    · exact .inl hmem
  have hnumber : ¬ (integerScalar.rmatch text || floatScalar.rmatch text) = true := by
    rw [Bool.or_eq_true]
    exact fun hnumber => hspaced (number_trimmed hnumber)
  rw [quoted_iff]
  unfold canRenderPlain
  rw [if_neg hnil, if_neg (not_or.mpr ⟨htilde, hword⟩), if_neg hnumber]
  split_ifs with hblocked
  · refine iff_of_true rfl (.inl ?_)
    obtain ⟨c, hc, hmem⟩ := List.any_eq_true.mp hblocked
    have hmem : c ∈ blocked := of_decide_eq_true hmem
    obtain hblank | hnumber := hchars c hc
    · exact (whitespace_plain hblank).1 hmem ▸ hc
    · exact absurd hmem (numberCharacters_plain c hnumber).2.1
  · have hline : '\n' ∉ text := fun hmem => hblocked (List.any_eq_true.mpr ⟨'\n', hmem, by decide⟩)
    rw [or_iff_right hline]
    cases text with
    | nil => exact absurd rfl hnil
    | cons first rest =>
      simp only [List.head?_cons, decide_eq_false_iff_not, not_not, Option.some.injEq]
      constructor
      · intro hmem
        obtain hblank | hnumber := hchars first List.mem_cons_self
        · exact absurd hmem (whitespace_plain hblank).2.1
        · exact (numberCharacters_plain first hnumber).2.2.1 hmem
      · rintro rfl
        decide

/-! ## One notion -/

/-- The two sides have one notion of number on every text but a number with blanks around it that is rendered plain. -/
theorem oneNotion_iff (text : List Char) :
    OneNotion text ↔ ¬ (IsNumber (trimmed text) ∧ trimmed text ≠ text ∧ '\n' ∉ text ∧ text.head? ≠ some '-') := by
  constructor
  · rintro ⟨-, -, -, hquoted⟩ ⟨hnumber, hspaced, hline, hsign⟩
    have hread := readAsNumber_iff.mpr hnumber
    obtain h | h := (spaced_quoted_iff hnumber hspaced).mp ((hquoted (.inr hread)).mpr hread)
    · exact hline h
    · exact hsign h
  · intro hplain
    refine ⟨rmatch_integerScalar.symm, rmatch_floatScalar.symm, integer_not_float, ?_⟩
    have hexact : ReadAsNumber text → Quoted text := by
      intro hread
      have hnumber := readAsNumber_iff.mp hread
      by_cases hspaced : trimmed text = text
      · rw [hspaced] at hnumber
        exact number_quoted hnumber
      · rw [spaced_quoted_iff hnumber hspaced]
        by_contra hnone
        obtain ⟨hline, hsign⟩ := not_or.mp hnone
        exact hplain ⟨hnumber, hspaced, hline, hsign⟩
    rintro (hnumber | hread)
    · refine iff_of_true (number_quoted hnumber) (readAsNumber_iff.mpr ?_)
      rw [number_trimmed hnumber]
      exact hnumber
    · exact iff_of_true (hexact hread) hread

/-- The text ` 12` is rendered as it is and read as the integer 12. -/
theorem spaced_number_retyped : ¬ OneNotion " 12".toList ∧ yamlText " 12".toList = " 12".toList ∧
    parseScalar (yamlText " 12".toList) = .integer "12" := by
  have hplain : yamlText " 12".toList = " 12".toList := by decide
  have hread : parseScalar " 12".toList = .integer "12" := by decide
  refine ⟨?_, hplain, hplain.symm ▸ hread⟩
  rintro ⟨-, -, -, hquoted⟩
  have hretyped : ReadAsNumber " 12".toList := ⟨"12", .inl hread⟩
  have hmarks : yamlText " 12".toList = _ := (hquoted (.inr hretyped)).mpr hretyped
  rw [hplain] at hmarks
  cases hmarks

end Alexandria.Markdown
