import Alexandria.Foundations.Text

/-! # Lines of a text

`str.splitlines` of Python: a line ends at any of the Unicode line boundaries, a carriage return with a line feed after it
is one boundary, and a text that ends in one has no empty line after it.
-/

namespace Alexandria.Text
set_option autoImplicit false

/-- The boundaries that `splitlines` knows. -/
def isPythonLineBreak (c : Char) : Bool :=
  ('\n' ≤ c && c ≤ '\r') || ('\x1c' ≤ c && c ≤ '\x1e') || c == '\u0085' || c == '\u2028' || c == '\u2029'

def splitlines : List Char → List (List Char)
  | [] => []
  | '\r' :: '\n' :: rest => [] :: splitlines rest
  | c :: rest =>
    if isPythonLineBreak c then [] :: splitlines rest
    else
      match splitlines rest with
      | [] => [[c]]
      | line :: lines => (c :: line) :: lines

/-- A text without a line boundary in it. -/
def Unbroken (text : List Char) : Prop := ∀ c ∈ text, isPythonLineBreak c = false

instance (text : List Char) : Decidable (Unbroken text) :=
  List.decidableBAll (fun c => isPythonLineBreak c = false) text

@[simp] theorem unbroken_nil : Unbroken [] := by simp [Unbroken]

@[simp] theorem unbroken_cons {c : Char} {text : List Char} :
    Unbroken (c :: text) ↔ isPythonLineBreak c = false ∧ Unbroken text := by simp [Unbroken]

@[simp] theorem unbroken_append {text rest : List Char} : Unbroken (text ++ rest) ↔ Unbroken text ∧ Unbroken rest := by
  simp [Unbroken, or_imp, forall_and]

theorem Unbroken.mono {text part : List Char} (h : Unbroken text) (hpart : ∀ c ∈ part, c ∈ text) : Unbroken part :=
  fun c hc => h c (hpart c hc)

/-! ## The scan -/

attribute [local simp] splitlines

/-- A character that is no boundary goes to the first line of the rest. -/
theorem splitlines_cons {c : Char} (hc : isPythonLineBreak c = false) (rest : List Char) :
    splitlines (c :: rest) = (c :: (splitlines rest).headD []) :: (splitlines rest).tail := by
  have hcr : ∀ tail, c = '\r' → rest = '\n' :: tail → False := by
    rintro tail rfl -
    exact absurd hc (by decide)
  rw [splitlines.eq_3 _ _ hcr, if_neg (by simp [hc])]
  cases splitlines rest <;> rfl

theorem splitlines_break {c : Char} {rest : List Char} (hc : isPythonLineBreak c = true)
    (hcr : c = '\r' → rest.head? ≠ some '\n') : splitlines (c :: rest) = [] :: splitlines rest := by
  rw [splitlines, if_pos hc]
  rintro tail rfl rfl
  exact hcr rfl rfl

theorem splitlines_newline (rest : List Char) : splitlines ('\n' :: rest) = [] :: splitlines rest :=
  splitlines_break (by decide) fun h => absurd h (by decide)

/-- A text is scanned from its start: the two characters of one boundary, another boundary, or a character of a line. -/
@[elab_as_elim]
theorem splitlines_induction {motive : List Char → Prop} (text : List Char) (nil : motive [])
    (pair : ∀ rest, motive rest → motive ('\r' :: '\n' :: rest))
    (boundary : ∀ c rest, isPythonLineBreak c = true → (c = '\r' → rest.head? ≠ some '\n') → motive rest → motive (c :: rest))
    (plain : ∀ c rest, isPythonLineBreak c = false → motive rest → motive (c :: rest)) : motive text := by
  induction text using splitlines.induct with
  | case1 => exact nil
  | case2 rest ih => exact pair rest ih
  | case3 c rest hcr hbreak ih =>
    refine boundary c rest hbreak ?_ ih
    intro hc hhead
    cases rest with
    | nil => cases hhead
    | cons d rest =>
      cases hhead
      exact hcr rest hc rfl
  | case4 c rest hcr hbreak hnone ih => exact plain c rest (Bool.eq_false_iff.mpr hbreak) ih
  | case5 c rest hcr hbreak first lines hlines ih => exact plain c rest (Bool.eq_false_iff.mpr hbreak) ih

theorem splitlines_line {line : List Char} (h : Unbroken line) (rest : List Char) :
    splitlines (line ++ '\n' :: rest) = line :: splitlines rest := by
  induction line with
  | nil => exact splitlines_newline rest
  | cons c line ih =>
    obtain ⟨hc, hline⟩ := unbroken_cons.mp h
    rw [List.cons_append, splitlines_cons hc, ih hline]
    rfl

/-- Lines without a boundary, each ended by a line feed, are the lines of the text. -/
theorem splitlines_lines {lines : List (List Char)} (h : ∀ line ∈ lines, Unbroken line) (rest : List Char) :
    splitlines ((lines.flatMap fun line => line ++ ['\n']) ++ rest) = lines ++ splitlines rest := by
  induction lines with
  | nil => rfl
  | cons line lines ih =>
    have hlines := ih fun other hother => h other (List.mem_cons_of_mem line hother)
    rw [List.flatMap_cons, List.append_assoc, List.append_assoc, List.singleton_append,
      splitlines_line (h line List.mem_cons_self), hlines, List.cons_append]

theorem splitlines_ne_nil {text : List Char} (h : text ≠ []) : splitlines text ≠ [] := by
  induction text using splitlines_induction with
  | nil => exact absurd rfl h
  | pair rest ih => simp [splitlines]
  | boundary c rest hc hcr ih => simp [splitlines_break hc hcr]
  | plain c rest hc ih => simp [splitlines_cons hc]

/-- The lines of a text up to a line feed do not depend on what follows. -/
theorem splitlines_append_newline (text rest : List Char) :
    splitlines (text ++ '\n' :: rest) = splitlines (text ++ ['\n']) ++ splitlines rest := by
  induction text using splitlines_induction with
  | nil =>
    rw [List.nil_append, List.nil_append, splitlines_newline, splitlines_newline]
    rfl
  | pair tail ih => simp only [List.cons_append, splitlines, ih]
  | boundary c tail hc hcr ih =>
    by_cases hend : c = '\r' ∧ tail = []
    · obtain ⟨rfl, rfl⟩ := hend
      simp only [List.cons_append, List.nil_append, splitlines]
    · have hkeeps : ∀ rest : List Char, c = '\r' → (tail ++ '\n' :: rest).head? ≠ some '\n' := by
        intro rest hreturn hhead
        cases tail with
        | nil => exact hend ⟨hreturn, rfl⟩
        | cons d tail => exact hcr hreturn hhead
      rw [List.cons_append, List.cons_append, splitlines_break hc (hkeeps rest), splitlines_break hc (hkeeps []), ih,
        List.cons_append]
  | plain c tail hc ih =>
    have hne : splitlines (tail ++ ['\n']) ≠ [] := splitlines_ne_nil (by simp)
    obtain ⟨line, lines, hlines⟩ := List.exists_cons_of_ne_nil hne
    rw [List.cons_append, List.cons_append, splitlines_cons hc, splitlines_cons hc, ih, hlines]
    rfl

theorem splitlines_unbroken {text : List Char} (h : Unbroken text) (hne : text ≠ []) : splitlines text = [text] := by
  induction text with
  | nil => exact absurd rfl hne
  | cons c text ih =>
    obtain ⟨hc, htext⟩ := unbroken_cons.mp h
    rw [splitlines_cons hc]
    cases text with
    | nil => rfl
    | cons d text =>
      rw [ih htext (List.cons_ne_nil d text)]
      rfl

/-- The lines of a text whose boundaries are line feeds join to the text again. -/
theorem intercalate_splitlines {text : List Char} (h : ∀ c ∈ text, isPythonLineBreak c = true → c = '\n') :
    ['\n'].intercalate (splitlines (text ++ ['\n'])) = text := by
  induction text using splitlines_induction with
  | nil =>
    rw [List.nil_append, splitlines_newline]
    rfl
  | pair rest ih => exact absurd (h '\r' List.mem_cons_self (by decide)) (by decide)
  | boundary c rest hc hcr ih =>
    obtain rfl := h c List.mem_cons_self hc
    have hne : splitlines (rest ++ ['\n']) ≠ [] := splitlines_ne_nil (by simp)
    obtain ⟨line, lines, hlines⟩ := List.exists_cons_of_ne_nil hne
    have hrest := ih fun d hd => h d (List.mem_cons_of_mem '\n' hd)
    rw [hlines] at hrest
    rw [List.cons_append, splitlines_newline, hlines, List.intercalate_cons_cons, hrest]
    rfl
  | plain c rest hc ih =>
    have hne : splitlines (rest ++ ['\n']) ≠ [] := splitlines_ne_nil (by simp)
    obtain ⟨line, lines, hlines⟩ := List.exists_cons_of_ne_nil hne
    have hrest := ih fun d hd => h d (List.mem_cons_of_mem c hd)
    rw [hlines] at hrest
    rw [List.cons_append, splitlines_cons hc, hlines]
    cases lines with
    | nil =>
      rw [List.intercalate_singleton] at hrest
      simp [hrest]
    | cons next lines =>
      rw [List.intercalate_cons_cons] at hrest
      simp [List.intercalate_cons_cons, ← hrest]

/-- A line has characters of the text, and no boundary. -/
theorem mem_splitlines {text line : List Char} (hline : line ∈ splitlines text) :
    Unbroken line ∧ ∀ c ∈ line, c ∈ text := by
  induction text using splitlines_induction generalizing line with
  | nil => cases hline
  | pair rest ih =>
    rw [splitlines] at hline
    obtain rfl | hline := List.mem_cons.mp hline
    · simp
    · obtain ⟨hunbroken, hmem⟩ := ih hline
      exact ⟨hunbroken, fun c hc => by simp [hmem c hc]⟩
  | boundary c rest hc hcr ih =>
    rw [splitlines_break hc hcr] at hline
    obtain rfl | hline := List.mem_cons.mp hline
    · simp
    · obtain ⟨hunbroken, hmem⟩ := ih hline
      exact ⟨hunbroken, fun d hd => by simp [hmem d hd]⟩
  | plain c rest hc ih =>
    rw [splitlines_cons hc] at hline
    cases hlines : splitlines rest with
    | nil =>
      rw [hlines] at hline
      rw [List.mem_singleton.mp hline]
      simp [hc]
    | cons first lines =>
      rw [hlines] at hline
      obtain rfl | hline := List.mem_cons.mp hline
      · obtain ⟨hunbroken, hmem⟩ := @ih first (by simp [hlines])
        exact ⟨unbroken_cons.mpr ⟨hc, hunbroken⟩, fun d hd => by simpa using (List.mem_cons.mp hd).imp_right (hmem d)⟩
      · obtain ⟨hunbroken, hmem⟩ := @ih line (by simpa [hlines] using .inr hline)
        exact ⟨hunbroken, fun d hd => List.mem_cons_of_mem c (hmem d hd)⟩

/-! ## Line feeds only -/

/-- The text has no boundary but line feeds. -/
def LineFeeds (text : List Char) : Prop := ∀ c ∈ text, isPythonLineBreak c = true → c = '\n'

theorem lineFeeds_of_all {text : List Char} (h : (text.all fun c => !isPythonLineBreak c || c == '\n') = true) :
    LineFeeds text := by
  intro c hc hbreak
  simpa [hbreak] using List.all_eq_true.mp h c hc

theorem LineFeeds.append {text rest : List Char} (h : LineFeeds text) (hrest : LineFeeds rest) : LineFeeds (text ++ rest) := by
  intro c hc
  obtain hc | hc := List.mem_append.mp hc
  · exact h c hc
  · exact hrest c hc

theorem LineFeeds.mono {text part : List Char} (h : LineFeeds text) (hpart : ∀ c ∈ part, c ∈ text) : LineFeeds part :=
  fun c hc => h c (hpart c hc)

/-- Lines that are joined by line feeds have no other boundary. -/
theorem lineFeeds_intercalate {lines : List (List Char)} (h : ∀ line ∈ lines, Unbroken line) :
    LineFeeds (['\n'].intercalate lines) := by
  intro c hc hbreak
  induction lines with
  | nil => simp at hc
  | cons line lines ih =>
    have hline : c ∉ line := by
      intro hmem
      rw [h line List.mem_cons_self c hmem] at hbreak
      cases hbreak
    cases lines with
    | nil =>
      rw [List.intercalate_singleton] at hc
      exact absurd hc hline
    | cons next lines =>
      rw [List.intercalate_cons_cons, List.mem_append, List.mem_append] at hc
      obtain (hc | hc) | hc := hc
      · exact absurd hc hline
      · exact List.mem_singleton.mp hc
      · exact ih (fun other hother => h other (List.mem_cons_of_mem line hother)) hc

/-- What is joined by line feeds has no other boundary. -/
theorem intercalate_boundary {text : List Char} {c : Char} (hc : c ∈ ['\n'].intercalate (splitlines text))
    (hbreak : isPythonLineBreak c = true) : c = '\n' :=
  lineFeeds_intercalate (fun _ hline => (mem_splitlines hline).1) c hc hbreak

/-- A text that opens the first line. -/
theorem splitlines_append {start text : List Char} (h : Unbroken start) (hne : text ≠ []) :
    splitlines (start ++ text) = (start ++ (splitlines text).headD []) :: (splitlines text).tail := by
  induction start with
  | nil =>
    obtain ⟨line, lines, hlines⟩ := List.exists_cons_of_ne_nil (splitlines_ne_nil hne)
    rw [List.nil_append, hlines]
    rfl
  | cons c start ih =>
    obtain ⟨hc, hstart⟩ := unbroken_cons.mp h
    rw [List.cons_append, splitlines_cons hc, ih hstart]
    rfl

/-- The first line starts the text. -/
theorem head_splitlines_prefix (text : List Char) : (splitlines text).headD [] <+: text := by
  induction text using splitlines_induction with
  | nil => exact List.nil_prefix
  | pair rest ih => exact List.nil_prefix
  | boundary c rest hc hcr ih =>
    rw [splitlines_break hc hcr]
    exact List.nil_prefix
  | plain c rest hc ih =>
    rw [splitlines_cons hc]
    exact (List.prefix_cons_inj c).mpr ih

end Alexandria.Text
