import Alexandria.Markdown.LineActions
import Alexandria.Notes.Service

/-! # Updating scalars of a frontmatter block

The update edits the lines of Python, the native analysis reads the result. Where both see the same lines, the edited block is
read in step with the original one: the same keys, with the values that were given.
-/

namespace Alexandria.Notes
set_option autoImplicit false
open Text
open Markdown (ValidKey PlainKey startsWithDash yamlText canRenderPlain isKept lineKey)
open Markdown.Native (trimmed delimiter splitOnce OneLine isLineBreak splitFrom splitLogicalLines LogicalLine FrontmatterState
  FrontmatterEntry DocumentAnalysis parseLinesFrom parseValue LineAction lineAction analyzeDocument)

/-! ## Lines with their endings -/

abbrev PythonLine := List Char × List Char

def PythonLine.whole (line : PythonLine) : List Char := line.1 ++ line.2

attribute [local simp] pythonLinesFrom

theorem pythonLinesFrom_texts {s i : ℕ} (line text : List Char) :
    (pythonLinesFrom line text).map Prod.fst = (splitFrom s i line text).map LogicalLine.text := by
  fun_induction splitFrom s i line text with
  | case1 s i => simp [pythonLinesFrom]
  | case2 s i line hline => simp [pythonLinesFrom, hline]
  | case3 s i line rest ih => simp [pythonLinesFrom, ih]
  | case4 s i line c rest hpair hbreak ih => rw [pythonLinesFrom.eq_3 _ _ _ hpair, if_pos hbreak, List.map_cons, List.map_cons, ih]
  | case5 s i line c rest hpair hbreak ih => rw [pythonLinesFrom.eq_3 _ _ _ hpair, if_neg hbreak, ih]

/-- The lines are those of the native analysis. -/
theorem pythonLines_texts (text : List Char) :
    (pythonLines text).map Prod.fst = (splitLogicalLines text).map LogicalLine.text :=
  pythonLinesFrom_texts [] text

theorem pythonLinesFrom_whole (line text : List Char) : (pythonLinesFrom line text).flatMap PythonLine.whole = line ++ text := by
  fun_induction pythonLinesFrom line text with
  | case1 => rfl
  | case2 line hline => simp [PythonLine.whole]
  | case3 line rest ih => simp [PythonLine.whole, ih]
  | case4 line c rest hpair hbreak ih => simp [PythonLine.whole, ih]
  | case5 line c rest hpair hbreak ih => simp [ih]

theorem pythonLines_whole (text : List Char) : (pythonLines text).flatMap PythonLine.whole = text := pythonLinesFrom_whole [] text

/-- A line break; a return is not followed by a line feed. -/
structure Ends (ending rest : List Char) : Prop where
  ended : ending = ['\r', '\n'] ∨ ∃ c, isLineBreak c = true ∧ ending = [c]
  pair : ending = ['\r'] → rest.head? ≠ some '\n'

/-- Lines that are ended before the rest of a text. -/
def Broken : List PythonLine → List Char → Prop
  | [], _ => True
  | line :: lines, rest => OneLine line.1 ∧ Ends line.2 (lines.flatMap PythonLine.whole ++ rest) ∧ Broken lines rest

theorem pythonLinesFrom_line {start line : List Char} (hline : OneLine line) (rest : List Char) :
    pythonLinesFrom start (line ++ rest) = pythonLinesFrom (start ++ line) rest := by
  induction line generalizing start with
  | nil => simp
  | cons c line ih =>
    have hc : isLineBreak c = false := hline c List.mem_cons_self
    have hpair : ∀ tail, c = '\r' → line ++ rest = '\n' :: tail → False := by
      rintro tail rfl -
      exact absurd hc (by decide)
    rw [List.cons_append, pythonLinesFrom.eq_3 _ _ _ hpair, if_neg (by rw [hc]; exact Bool.false_ne_true),
      ih fun d hd => hline d (List.mem_cons_of_mem c hd), List.append_assoc]
    rfl

theorem pythonLinesFrom_ends {line ending rest : List Char} (h : Ends ending rest) :
    pythonLinesFrom line (ending ++ rest) = (line, ending) :: pythonLinesFrom [] rest := by
  obtain ⟨rfl | ⟨c, hc, rfl⟩, hpair⟩ := h
  · rfl
  · have hno : ∀ tail, c = '\r' → rest = '\n' :: tail → False := by
      rintro tail rfl rfl
      exact hpair rfl rfl
    rw [List.singleton_append, pythonLinesFrom.eq_3 _ _ _ hno, if_pos hc]

theorem pythonLines_broken {lines : List PythonLine} {rest : List Char} (h : Broken lines rest) :
    pythonLines (lines.flatMap PythonLine.whole ++ rest) = lines ++ pythonLines rest := by
  induction lines with
  | nil => rfl
  | cons line lines ih =>
    obtain ⟨hline, hends, hrest⟩ := h
    have hlater := ih hrest
    unfold pythonLines at hlater ⊢
    rw [List.flatMap_cons, PythonLine.whole, List.append_assoc, List.append_assoc, pythonLinesFrom_line hline,
      pythonLinesFrom_ends hends, hlater]
    rfl

theorem broken_of_pythonLinesFrom {start text : List Char} {lines more : List PythonLine} (hstart : OneLine start)
    (h : pythonLinesFrom start text = lines ++ more) (hmore : more ≠ []) : Broken lines (more.flatMap PythonLine.whole) := by
  have hrest : ∀ (text : List Char) (lines : List PythonLine), pythonLinesFrom [] text = lines ++ more →
      lines.flatMap PythonLine.whole ++ more.flatMap PythonLine.whole = text := by
    intro text lines hlines
    rw [← List.flatMap_append, ← hlines]
    exact pythonLinesFrom_whole [] text
  fun_induction pythonLinesFrom start text generalizing lines with
  | case1 =>
    cases lines with
    | nil => trivial
    | cons line lines => cases h
  | case2 start hne =>
    cases lines with
    | nil => trivial
    | cons line lines =>
      have hnil : lines ++ more = [] := (List.cons.inj h).2.symm
      exact absurd (List.append_eq_nil_iff.mp hnil).2 hmore
  | case3 start rest ih =>
    cases lines with
    | nil => trivial
    | cons line lines =>
      obtain ⟨rfl, htail⟩ := List.cons.inj h
      refine ⟨hstart, ⟨.inl rfl, ?_⟩, ih (fun c hc => absurd hc (by simp)) htail⟩
      intro hreturn
      cases hreturn
  | case4 start c rest hpair hbreak ih =>
    cases lines with
    | nil => trivial
    | cons line lines =>
      obtain ⟨rfl, htail⟩ := List.cons.inj h
      refine ⟨hstart, ⟨.inr ⟨c, hbreak, rfl⟩, ?_⟩, ih (fun c hc => absurd hc (by simp)) htail⟩
      intro hreturn hhead
      rw [hrest rest lines htail] at hhead
      obtain ⟨tail, htail⟩ := List.head?_eq_some_iff.mp hhead
      exact hpair tail (List.cons.inj hreturn).1 htail
  | case5 start c rest hpair hbreak ih =>
    refine ih ?_ h
    intro d hd
    obtain hd | hd := List.mem_append.mp hd
    · exact hstart d hd
    · rw [List.mem_singleton.mp hd]
      exact Bool.not_eq_true _ ▸ hbreak

theorem Ends.ne_nil {ending rest : List Char} (h : Ends ending rest) : ending ≠ [] := by
  obtain rfl | ⟨c, -, rfl⟩ := h.ended
  · simp
  · simp

/-- Other lines with the same endings, of which none starts with a line feed where there was none, before another rest. -/
theorem Broken.replace {lines : List PythonLine} {rest rest' : List Char} (h : Broken lines rest) (f : PythonLine → PythonLine)
    (hf : ∀ line ∈ lines, OneLine (f line).1 ∧ (f line).2 = line.2 ∧
      ((f line).whole.head? = some '\n' → line.whole.head? = some '\n'))
    (hrest : rest'.head? = some '\n' → rest.head? = some '\n') : Broken (lines.map f) rest' := by
  induction lines with
  | nil => trivial
  | cons line lines ih =>
    obtain ⟨-, hends, hlater⟩ := h
    obtain ⟨hline, hending, -⟩ := hf line List.mem_cons_self
    have hothers : ∀ other ∈ lines, OneLine (f other).1 ∧ (f other).2 = other.2 ∧
        ((f other).whole.head? = some '\n' → other.whole.head? = some '\n') := fun other hother =>
      hf other (List.mem_cons_of_mem line hother)
    refine ⟨hline, ⟨by rw [hending]; exact hends.ended, ?_⟩, ih hlater hothers⟩
    rw [hending]
    intro hreturn hhead
    apply hends.pair hreturn
    cases lines with
    | nil => exact hrest hhead
    | cons next lines =>
      obtain ⟨-, hsame, hnext⟩ := hothers next List.mem_cons_self
      obtain ⟨-, hends', -⟩ := hlater
      have hwhole : ∀ (line : PythonLine) (tail : List Char), line.2 ≠ [] → (line.whole ++ tail).head? = line.whole.head? := by
        intro line tail hne
        exact List.head?_append_of_ne_nil _ fun hnil => hne (List.append_eq_nil_iff.mp hnil).2
      rw [List.map_cons, List.flatMap_cons, List.append_assoc, hwhole _ _ (by rw [hsame]; exact hends'.ne_nil)] at hhead
      rw [List.flatMap_cons, List.append_assoc, hwhole _ _ hends'.ne_nil]
      exact hnext hhead

theorem Broken.append {lines more : List PythonLine} {rest : List Char} (h : Broken lines (more.flatMap PythonLine.whole ++ rest))
    (hmore : Broken more rest) : Broken (lines ++ more) rest := by
  induction lines with
  | nil => exact hmore
  | cons line lines ih =>
    obtain ⟨hline, hends, hlater⟩ := h
    refine ⟨hline, ?_, ih hlater⟩
    show Ends line.2 ((lines ++ more).flatMap PythonLine.whole ++ rest)
    rw [List.flatMap_append, List.append_assoc]
    exact hends

theorem pythonLinesFrom_line_mem {start text : List Char} (hstart : OneLine start) :
    ∀ line ∈ pythonLinesFrom start text, OneLine line.1 ∧
      (line.2 = [] ∨ line.2 = ['\r', '\n'] ∨ ∃ c, isLineBreak c = true ∧ line.2 = [c]) := by
  have hempty : OneLine [] := fun c hc => absurd hc (by simp)
  fun_induction pythonLinesFrom start text with
  | case1 => simp
  | case2 start hne =>
    intro line hline
    rw [List.mem_singleton.mp hline]
    exact ⟨hstart, .inl rfl⟩
  | case3 start rest ih =>
    intro line hline
    obtain rfl | hline := List.mem_cons.mp hline
    · exact ⟨hstart, .inr (.inl rfl)⟩
    · exact ih hempty line hline
  | case4 start c rest hpair hbreak ih =>
    intro line hline
    obtain rfl | hline := List.mem_cons.mp hline
    · exact ⟨hstart, .inr (.inr ⟨c, hbreak, rfl⟩)⟩
    · exact ih hempty line hline
  | case5 start c rest hpair hbreak ih =>
    refine ih ?_
    intro d hd
    obtain hd | hd := List.mem_append.mp hd
    · exact hstart d hd
    · rw [List.mem_singleton.mp hd]
      exact Bool.not_eq_true _ ▸ hbreak

/-! ## What Python sees of a line -/

theorem newline_break {c : Char} (h : isNewlineChar c = true) : isLineBreak c = true := by
  unfold isNewlineChar at h
  simp only [Bool.or_eq_true, decide_eq_true_eq] at h
  obtain rfl | rfl := h <;> decide

theorem break_whitespace {c : Char} (h : isLineBreak c = true) : isPythonWhitespace c = true := by
  unfold isLineBreak at h
  simp only [Bool.or_eq_true, beq_iff_eq] at h
  obtain ((((((((rfl | rfl) | rfl) | rfl) | rfl) | rfl) | rfl) | rfl) | rfl) | rfl := h <;> decide

/-- Python strips what the native analysis trims, and the unit separator. -/
theorem whitespace_eq {c : Char} (hbreak : isLineBreak c = false) (hunit : c ≠ '\x1f') : isPythonWhitespace c = isWhitespace c := by
  unfold isPythonWhitespace
  cases hrange : ('\x1c' ≤ c && c ≤ '\x1f') with
  | false => rw [Bool.or_false]
  | true =>
    have hseparator : isLineBreak c = true ∨ c = '\x1f' := by
      refine Markdown.Native.of_between (P := fun c => isLineBreak c = true ∨ c = '\x1f') hrange ?_
      intro n hlow hhigh
      simp only [Char.reduceToNat] at hlow hhigh
      interval_cases n <;> decide
    obtain h | h := hseparator
    · rw [hbreak] at h
      cases h
    · exact absurd h hunit

/-- Only carriage returns and line feeds are taken off a line. -/
theorem rawLine_cases {line : PythonLine} (hline : OneLine line.1)
    (hending : line.2 = [] ∨ line.2 = ['\r', '\n'] ∨ ∃ c, isLineBreak c = true ∧ line.2 = [c]) :
    (rawLine line = line ∧ ∀ c ∈ line.2, isNewlineChar c = true) ∨
      ∃ c, isLineBreak c = true ∧ isNewlineChar c = false ∧ line.2 = [c] ∧ rawLine line = (line.1 ++ [c], []) := by
  obtain ⟨text, ending⟩ := line
  simp only at hline hending
  have hkept : text.rdropWhile isNewlineChar = text := by
    rw [rdropWhile_congr (q := fun _ => false) ?_]
    · exact List.rdropWhile_eq_self_iff.mpr fun _ => Bool.false_ne_true
    · intro c hc
      rw [Bool.eq_false_iff]
      intro hnewline
      exact Bool.false_ne_true ((hline c hc).symm.trans (newline_break hnewline))
  have hraw : ∀ newlines : List Char, (∀ c ∈ newlines, isNewlineChar c = true) → rawLine (text, newlines) = (text, newlines) := by
    intro newlines hnewlines
    have hdropped : (text ++ newlines).rdropWhile isNewlineChar = text := by
      induction newlines using List.reverseRecOn with
      | nil => rw [List.append_nil, hkept]
      | append_singleton newlines c ih =>
        rw [← List.append_assoc, List.rdropWhile_concat_pos _ _ _ (hnewlines c (by simp))]
        exact ih fun d hd => hnewlines d (List.mem_append_left _ hd)
    unfold rawLine
    simp only [hdropped, List.drop_left]
  obtain rfl | rfl | ⟨c, hbreak, rfl⟩ := hending
  · exact .inl ⟨hraw [] (by simp), by simp⟩
  · have hpair : ∀ c ∈ ['\r', '\n'], isNewlineChar c = true := forall_mem_of_all (by decide)
    exact .inl ⟨hraw _ hpair, hpair⟩
  · cases hnewline : isNewlineChar c with
    | true => exact .inl ⟨hraw [c] (by simp [hnewline]), by simp [hnewline]⟩
    | false =>
      refine .inr ⟨c, hbreak, hnewline, rfl, ?_⟩
      have hwhole : (text ++ [c]).rdropWhile isNewlineChar = text ++ [c] :=
        List.rdropWhile_concat_neg _ _ _ (by rw [hnewline]; exact Bool.false_ne_true)
      unfold rawLine
      simp only [hwhole, List.drop_length]

section Seen
variable {line : PythonLine}

/-- A line is a delimiter for both. -/
theorem isDelimiterLine_iff (hline : OneLine line.1)
    (hending : line.2 = [] ∨ line.2 = ['\r', '\n'] ∨ ∃ c, isLineBreak c = true ∧ line.2 = [c]) (hunit : '\x1f' ∉ line.1) :
    isDelimiterLine line = true ↔ trimmed line.1 = delimiter := by
  have hsame : trimBy isPythonWhitespace line.1 = trimmed line.1 := by
    apply trimBy_congr
    intro c hc
    exact whitespace_eq (hline c hc) fun heq => hunit (heq ▸ hc)
  unfold isDelimiterLine
  rw [decide_eq_true_eq]
  obtain ⟨hraw, -⟩ | ⟨c, hbreak, -, -, hraw⟩ := rawLine_cases hline hending
  · rw [hraw, hsame]
  · rw [hraw]
    simp only
    rw [trimBy_append_end fun d hd => by rw [List.mem_singleton.mp hd]; exact break_whitespace hbreak, hsame]

/-- A delimiter has no unit separator. -/
theorem delimiter_no_unit {text : List Char} (h : trimmed text = delimiter) : '\x1f' ∉ text := by
  intro hmem
  have hkept : '\x1f' ∈ trimmed text := mem_trimBy hmem (by decide)
  rw [h] at hkept
  exact absurd hkept (by decide)

/-- The ending of a line does not change its key. -/
theorem marginKey_rawLine (hline : OneLine line.1)
    (hending : line.2 = [] ∨ line.2 = ['\r', '\n'] ∨ ∃ c, isLineBreak c = true ∧ line.2 = [c]) :
    marginKey (rawLine line).1 = marginKey line.1 := by
  obtain ⟨hraw, -⟩ | ⟨c, hbreak, -, -, hraw⟩ := rawLine_cases hline hending
  · rw [hraw]
  · rw [hraw]
    simp only
    have hspace := break_whitespace hbreak
    have hcolon : c ≠ ':' := by
      rintro rfl
      exact absurd hbreak (by decide)
    cases htext : line.1 with
    | nil =>
      unfold marginKey
      rw [List.nil_append, List.dropWhile_cons_of_pos hspace]
      simp
    | cons d text =>
      unfold marginKey
      cases hd : isPythonWhitespace d with
      | true =>
        have hindented : ∀ tail : List Char, d :: tail ≠ (d :: tail).dropWhile isPythonWhitespace := by
          intro tail heq
          rw [List.dropWhile_cons_of_pos hd] at heq
          have hlength := congrArg List.length heq
          have hle := (List.dropWhile_suffix (l := tail) isPythonWhitespace).length_le
          rw [List.length_cons] at hlength
          omega
        rw [List.cons_append, if_pos (hindented _), if_pos (hindented _)]
      | false =>
        have hmargin : ∀ tail : List Char, ¬ d :: tail ≠ (d :: tail).dropWhile isPythonWhitespace := by
          intro tail hne
          exact hne (List.dropWhile_cons_of_neg (by rw [hd]; exact Bool.false_ne_true)).symm
        rw [List.cons_append, if_neg (hmargin _), if_neg (hmargin _), ← List.cons_append]
        by_cases hmem : ':' ∈ d :: text
        · rw [if_neg (not_not.mpr (List.mem_append_left _ hmem)), if_neg (not_not.mpr hmem)]
          obtain ⟨before, after, hsplit, hbefore⟩ : ∃ before after, d :: text = before ++ ':' :: after ∧ ':' ∉ before :=
            ⟨_, _, Markdown.splitOnce_eq_some.mp (if_pos hmem)⟩
          have hkept : ∀ e ∈ before, decide (e ≠ ':') = true := by
            intro e he
            apply decide_eq_true
            rintro rfl
            exact hbefore he
          rw [hsplit, List.append_assoc, List.cons_append, (Markdown.takeWhile_append_cons hkept (by decide)).1,
            (Markdown.takeWhile_append_cons hkept (by decide)).1]
        · have hconcat : ':' ∉ d :: text ++ [c] := by
            intro hcolon'
            obtain hcolon' | hcolon' := List.mem_append.mp hcolon'
            · exact hmem hcolon'
            · exact hcolon (List.mem_singleton.mp hcolon').symm
          rw [if_pos hconcat, if_pos hmem]

theorem marginKey_eq {text : List Char} (hline : OneLine text) (hunit : '\x1f' ∉ text) :
    marginKey text = if text ≠ text.dropWhile isWhitespace then none
      else (splitOnce ':' text).map fun parts => String.ofList (trimmed parts.1) := by
  have hsame : ∀ c ∈ text, isPythonWhitespace c = isWhitespace c := fun c hc =>
    whitespace_eq (hline c hc) fun heq => hunit (heq ▸ hc)
  unfold marginKey
  rw [dropWhile_congr hsame]
  split
  · rfl
  · unfold splitOnce
    by_cases hmem : ':' ∈ text
    · rw [if_neg (not_not.mpr hmem), if_pos hmem, Option.map_some]
      simp only
      rw [trimBy_congr fun c hc => hsame c ((List.takeWhile_prefix _).mem hc)]
      rfl
    · rw [if_pos hmem, if_neg hmem]
      rfl

/-- A plain key that Python finds is one for the native analysis. -/
theorem lineKey_of_marginKey {text : List Char} {key : String} (hline : OneLine text) (hunit : '\x1f' ∉ text)
    (hkey : PlainKey key) (h : marginKey text = some key) (listOpen : Bool) :
    isKept listOpen text = false ∧ lineKey text = some key := by
  rw [marginKey_eq hline hunit] at h
  split at h
  · cases h
  · rename_i hmargin
    obtain ⟨⟨before, after⟩, hsplit, hname⟩ := Option.map_eq_some_iff.mp h
    obtain ⟨htext, hcolon⟩ := Markdown.splitOnce_eq_some.mp hsplit
    have hlist : trimmed before = key.toList := by rw [← hname, String.toList_ofList]
    refine ⟨?_, ?_⟩
    · obtain ⟨c, rest, hcons, -, hcomment⟩ := hkey.first
      have hdash : c ≠ '-' := by
        rintro rfl
        have hfree := hkey.dash
        unfold startsWithDash at hfree
        rw [hcons] at hfree
        exact absurd hfree (by simp)
      cases hbefore : before with
      | nil =>
        rw [hbefore, hcons] at hlist
        cases hlist
      | cons d tail =>
        have hd : isWhitespace d = false := by
          rw [Bool.eq_false_iff]
          intro hspace
          rw [not_not, htext, hbefore, List.cons_append, List.dropWhile_cons_of_pos hspace] at hmargin
          have hlength := congrArg List.length hmargin
          have hle := (List.dropWhile_suffix (l := tail ++ ':' :: after) isWhitespace).length_le
          rw [List.length_cons] at hlength
          omega
        have hfirst : d = c := by
          rw [hbefore, hcons, show trimmed (d :: tail) = _ from trimBy_cons_neg hd] at hlist
          exact (List.cons.inj hlist).1
        have hstripped : trimmed text = c :: (tail ++ ':' :: after).rdropWhile isWhitespace := by
          rw [htext, hbefore, List.cons_append, ← hfirst]
          exact trimBy_cons_neg hd
        unfold isKept
        rw [decide_eq_false_iff_not, not_or, not_or, not_or, hstripped, List.head?_cons]
        refine ⟨List.cons_ne_nil _ _, ?_, ?_, hmargin⟩
        · exact fun heq => hcomment (Option.some.inj heq)
        · exact fun hitem => hdash (Option.some.inj hitem.2)
    · unfold lineKey
      rw [hsplit, Option.bind_some, hlist, String.ofList_toList]
      simp [hkey.nonempty]

theorem marginKey_of_lineKey {text : List Char} {key : String} {listOpen : Bool} (hline : OneLine text) (hunit : '\x1f' ∉ text)
    (hkept : isKept listOpen text = false) (h : lineKey text = some key) : marginKey text = some key := by
  rw [marginKey_eq hline hunit]
  unfold isKept at hkept
  simp only [decide_eq_false_iff_not, not_or] at hkept
  rw [if_neg hkept.2.2.2]
  unfold lineKey at h
  obtain ⟨parts, hsplit, hname⟩ := Option.bind_eq_some_iff.mp h
  rw [hsplit, Option.map_some]
  exact (Option.filter_eq_some_iff.mp hname).1

end Seen

/-! ## Replacements -/

/-- Values for keys that a line can start with. -/
structure Replacements where
  items : List (String × String)
  keys : ∀ item ∈ items, PlainKey item.1
  distinct : (items.map Prod.fst).Nodup

namespace Replacements
variable (replacements : Replacements)

def value (key : String) : Option String := (Keyed.lookup Prod.fst key replacements.items).map Prod.snd

/-- The entry with its new value. -/
def override (e : FrontmatterEntry) : FrontmatterEntry :=
  match replacements.value e.key with
  | some value => { e with value := .scalar (.string value) }
  | none => e

/-- The line with the new value of its key. -/
def line (text : List Char) : List Char :=
  match marginKey text with
  | none => text
  | some key =>
    match replacements.value key with
    | none => text
    | some value => scalarLine key value

variable {replacements}

theorem mem_of_value {key value : String} (h : replacements.value key = some value) : (key, value) ∈ replacements.items := by
  obtain ⟨⟨name, text⟩, hlookup, rfl⟩ := Option.map_eq_some_iff.mp h
  obtain ⟨hmem, rfl⟩ := Keyed.lookup_mem hlookup
  exact hmem

theorem value_of_mem {key value : String} (h : (key, value) ∈ replacements.items) : replacements.value key = some value := by
  unfold Replacements.value
  rw [(Keyed.lookup_eq_some replacements.distinct).mpr ⟨h, rfl⟩]
  rfl

theorem plain_of_value {key value : String} (h : replacements.value key = some value) : PlainKey key :=
  replacements.keys _ (mem_of_value h)

theorem line_of_none {text : List Char} (h : ∀ key, marginKey text = some key → replacements.value key = none) :
    replacements.line text = text := by
  unfold Replacements.line
  cases hkey : marginKey text with
  | none => rfl
  | some key =>
    simp only
    rw [h key hkey]

theorem line_of_value {text : List Char} {key value : String} (hkey : marginKey text = some key)
    (hvalue : replacements.value key = some value) : replacements.line text = scalarLine key value := by
  unfold Replacements.line
  rw [hkey]
  simp only
  rw [hvalue]

theorem override_push (item : Markdown.Native.FrontmatterScalar) (e : FrontmatterEntry) :
    replacements.override (e.push item) = (replacements.override e).push item := by
  unfold override FrontmatterEntry.push
  cases hvalue : e.value with
  | scalar value =>
    simp only
    cases hreplaced : replacements.value e.key with
    | none => simp [hvalue]
    | some text => rfl
  | sequence items =>
    simp only
    cases hreplaced : replacements.value e.key with
    | none => simp [hvalue]
    | some text => rfl

theorem push_override {item : Markdown.Native.FrontmatterScalar} {e : FrontmatterEntry} {value : String}
    (h : replacements.value e.key = some value) : (replacements.override e).push item = replacements.override e := by
  unfold override
  rw [h]
  rfl

end Replacements

theorem scalarLine_eq (key value : String) : scalarLine key value = key.toList ++ ':' :: ' ' :: yamlText value.toList := rfl

/-- A value that is not rendered plain with blanks at an end is read back. -/
theorem parseValue_yamlText_iff (value : String) :
    parseValue (trimmed (' ' :: yamlText value.toList)) = .scalar (.string value) ↔
      (canRenderPlain value.toList = true → trimmed value.toList = value.toList) := by
  have hexact : (Markdown.FrontmatterScalar.str value : Markdown.FrontmatterScalar String).Exact := fun x h => by cases h
  have htrim : trimmed (' ' :: yamlText value.toList) = trimmed (yamlText value.toList) := trimBy_cons_pos Markdown.whitespace_blank
  have hsettled : Markdown.scalarFromTag Markdown.lexemeFloats
      (Markdown.Native.parseScalar (Markdown.yamlScalar Markdown.lexemeFloats (.str value))) = .str value ↔ _ :=
    Markdown.scalarFromTag_iff hexact
  have hdef : Markdown.Settled (Markdown.FrontmatterScalar.str value : Markdown.FrontmatterScalar String) ↔
      (canRenderPlain value.toList = true → trimmed value.toList = value.toList) := by
    constructor
    · exact fun h => h value rfl
    · rintro h text heq
      cases heq
      exact h
  rw [← hdef, htrim]
  have hread : Markdown.Native.parseScalar (yamlText value.toList) = .string value ↔
      Markdown.scalarFromTag Markdown.lexemeFloats (Markdown.Native.parseScalar (yamlText value.toList)) = .str value := by
    cases Markdown.Native.parseScalar (yamlText value.toList) <;> simp [Markdown.scalarFromTag]
  constructor
  · intro hvalue
    apply hsettled.mp
    apply hread.mp
    rw [← Markdown.parseScalar_trimmed]
    unfold parseValue at hvalue
    split at hvalue
    · cases hvalue
    · split at hvalue
      · cases hvalue
      · exact Markdown.Native.FrontmatterValue.scalar.inj hvalue
  · intro h
    have hblank := Markdown.yamlScalar_nonblank Markdown.lexemeFloats hexact h
    have hscalar := Markdown.parseValue_scalar hexact hblank
    have htext := hread.mpr (hsettled.mpr h)
    exact hscalar.trans (congrArg Markdown.Native.FrontmatterValue.scalar htext)

/-! ## The edited block in step with the original one -/

section Run
variable {replacements : Replacements}

/-- No item at the margin of a replaced list has a key. -/
def ItemsKeyless (replacements : Replacements) : Bool → Bool → List (List Char) → Prop
  | _, _, [] => True
  | listOpen, owned, line :: lines =>
    match lineAction listOpen line with
    | .skip => ItemsKeyless replacements listOpen owned lines
    | .item _ => (owned = true → isKept false line = true ∨ lineKey line = none) ∧ ItemsKeyless replacements listOpen owned lines
    | .close => ItemsKeyless replacements false false lines
    | .add key _ opens => ItemsKeyless replacements opens (replacements.value key).isSome lines

/-- The same keys and the values that were given; `owned` says that the open list has a new value. -/
structure InStep (replacements : Replacements) (owned : Bool) (s s' : FrontmatterState) : Prop where
  keys : s'.keys = s.keys
  entries : s'.entries = s.entries.map replacements.override
  active : s'.activeListIndex = if owned then none else s.activeListIndex
  owner : owned = true → ∀ index, s.activeListIndex = some index →
    ∃ e value, s.entries[index]? = some e ∧ replacements.value e.key = some value

theorem line_unless {line : List Char} (listOpen : Bool) (hline : OneLine line) (hunit : '\x1f' ∉ line)
    (h : ∀ key value opens, lineAction listOpen line = .add key value opens → replacements.value key = none) :
    replacements.line line = line := by
  apply Replacements.line_of_none
  intro key hkey
  cases hvalue : replacements.value key with
  | none => rfl
  | some value =>
    obtain ⟨hkept, hname⟩ := lineKey_of_marginKey hline hunit (Replacements.plain_of_value hvalue) hkey listOpen
    obtain ⟨w, opens, haction⟩ := Markdown.Native.lineAction_of_key hkept hname
    exact hvalue.symm.trans (h key w opens haction)

/-- A line that is no item does not depend on the open list. -/
theorem lineAction_le {line : List Char} {listOpen listOpen' : Bool} (hopen : listOpen' = true → listOpen = true)
    (hitem : ∀ value, lineAction listOpen line ≠ .item value) : lineAction listOpen' line = lineAction listOpen line := by
  cases listOpen with
  | true =>
    cases listOpen' with
    | true => rfl
    | false => exact (Markdown.Native.lineAction_closed hitem).symm
  | false =>
    cases listOpen' with
    | true => exact absurd (hopen rfl) Bool.false_ne_true
    | false => rfl

theorem InStep.opens {owned : Bool} {s s' : FrontmatterState} (h : InStep replacements owned s s')
    (hopen : s'.activeListIndex.isSome = true) : s.activeListIndex.isSome = true := by
  rw [h.active] at hopen
  cases owned with
  | true => cases hopen
  | false => exact hopen

theorem map_modify_of_comm {α : Type} {f g : α → α} (h : ∀ a, f (g a) = g (f a)) (l : List α) (index : ℕ) :
    (l.modify index g).map f = (l.map f).modify index g := by
  induction l generalizing index with
  | nil => simp
  | cons a l ih =>
    cases index with
    | zero => simp [h]
    | succ index => simp [ih]

theorem map_modify_of_same {α : Type} {f g : α → α} {l : List α} {index : ℕ} {a : α} (ha : l[index]? = some a)
    (h : f (g a) = f a) : (l.modify index g).map f = l.map f := by
  induction l generalizing index with
  | nil => simp
  | cons b l ih =>
    cases index with
    | zero =>
      cases ha
      simp [h]
    | succ index =>
      rw [List.getElem?_cons_succ] at ha
      simp [ih ha]

/-- An item of a replaced list does nothing without the list. -/
theorem keyless_line {s : FrontmatterState} {line : List Char} (hclosed : s.activeListIndex = none)
    (h : isKept false line = true ∨ lineKey line = none) : s.line line = .ok s := by
  have hsame : (⟨s.entries, s.keys, none⟩ : FrontmatterState) = s := by rw [← hclosed]
  cases hkept : isKept false line with
  | true =>
    have hkept' : isKept s.activeListIndex.isSome line = true := by
      rw [hclosed]
      exact hkept
    obtain ⟨entries, hline, rfl | ⟨index, item, hactive, -⟩⟩ := Markdown.line_kept hkept'
    · exact hline
    · cases hclosed.symm.trans hactive
  | false =>
    obtain h | h := h
    · rw [hkept] at h
      cases h
    · rw [Markdown.line_margin (by rw [hclosed]; exact hkept), Markdown.entry_keyless h]
      exact congrArg Except.ok hsame

theorem line_scalarLine {s : FrontmatterState} {key value : String} (hkey : PlainKey key) (hnew : key ∉ s.keys)
    (hvalue : canRenderPlain value.toList = true → trimmed value.toList = value.toList) :
    s.line (scalarLine key value) = .ok ⟨s.entries ++ [⟨key, .scalar (.string value)⟩], key :: s.keys, none⟩ := by
  have hread := (parseValue_yamlText_iff value).mpr hvalue
  have hblank : trimmed (' ' :: yamlText value.toList) ≠ [] := by
    intro hnil
    rw [hnil] at hread
    cases hread
  rw [scalarLine_eq, Markdown.line_key hkey.toValidKey hnew fun _ => hkey.dash, hread, if_neg hblank]

theorem InStep.next {owned : Bool} {s s' next : FrontmatterState} (h : InStep replacements owned s s') {line : List Char}
    (hline : OneLine line) (hunit : '\x1f' ∉ line)
    (hvalues : ∀ item ∈ replacements.items, canRenderPlain item.2.toList = true → trimmed item.2.toList = item.2.toList)
    (hitems : ItemsKeyless replacements s.activeListIndex.isSome owned [line]) (hnext : s.line line = .ok next) :
    ∃ next' owned', s'.line (replacements.line line) = .ok next' ∧ InStep replacements owned' next next' ∧
      ∀ lines, ItemsKeyless replacements s.activeListIndex.isSome owned (line :: lines) ↔
        ItemsKeyless replacements next.activeListIndex.isSome owned' lines := by
  rw [Markdown.Native.line_eq] at hnext
  simp only [ItemsKeyless] at hitems ⊢
  cases haction : lineAction s.activeListIndex.isSome line with
  | skip =>
    rw [haction] at hnext hitems
    cases hnext
    have hsame := lineAction_le (fun hopen => h.opens hopen) (by simp [haction] : ∀ value, lineAction s.activeListIndex.isSome line ≠ .item value)
    refine ⟨s', owned, ?_, h, fun lines => Iff.rfl⟩
    rw [line_unless s.activeListIndex.isSome hline hunit (by simp [haction]), Markdown.Native.line_eq, hsame, haction]
    rfl
  | close =>
    rw [haction] at hnext hitems
    cases hnext
    have hsame := lineAction_le (fun hopen => h.opens hopen) (by simp [haction] : ∀ value, lineAction s.activeListIndex.isSome line ≠ .item value)
    refine ⟨{ s' with activeListIndex := none }, false, ?_, ⟨h.keys, h.entries, rfl, fun hfalse => by cases hfalse⟩,
      fun lines => Iff.rfl⟩
    rw [line_unless s.activeListIndex.isSome hline hunit (by simp [haction]), Markdown.Native.line_eq, hsame, haction]
    rfl
  | item value =>
    rw [haction] at hnext hitems
    obtain ⟨hopen, -⟩ := Markdown.Native.lineAction_item haction
    obtain ⟨index, hactive⟩ := Option.isSome_iff_exists.mp hopen
    rw [LineAction.apply, hactive] at hnext
    cases hnext
    have hunchanged : replacements.line line = line :=
      line_unless s.activeListIndex.isSome hline hunit (by simp [haction])
    rw [hunchanged]
    cases owned with
    | true =>
      obtain ⟨e, text, he, htext⟩ := h.owner rfl index hactive
      refine ⟨s', true, keyless_line h.active (hitems.1 rfl), ⟨h.keys, ?_, h.active, ?_⟩, ?_⟩
      · rw [h.entries]
        refine (map_modify_of_same he ?_).symm
        rw [Replacements.override_push, Replacements.push_override htext]
      · intro _ other hother
        cases hother
        refine ⟨e.push value, text, ?_, ?_⟩
        · simp [he]
        · unfold FrontmatterEntry.push
          cases e.value <;> exact htext
      · intro lines
        rw [hactive]
        exact and_iff_right hitems.1
    | false =>
      have hactive' : s'.activeListIndex = some index := by rw [h.active, ← hactive]; rfl
      refine ⟨{ s' with entries := s'.entries.modify index (FrontmatterEntry.push value) }, false, ?_,
        ⟨h.keys, ?_, ?_, fun hfalse => by cases hfalse⟩, ?_⟩
      · rw [hactive] at haction
        rw [Markdown.Native.line_eq, hactive', haction, LineAction.apply, hactive']
        rfl
      · simp only [h.entries]
        exact (map_modify_of_comm (Replacements.override_push value) s.entries index).symm
      · exact hactive'
      · intro lines
        rw [hactive]
        exact and_iff_right hitems.1
  | add key value opens =>
    rw [haction] at hnext hitems
    simp only at hitems
    have hsame := lineAction_le (fun hopen => h.opens hopen) (by simp [haction] : ∀ value, lineAction s.activeListIndex.isSome line ≠ .item value)
    rw [LineAction.apply] at hnext
    split at hnext
    · cases hnext
    · rename_i hnew
      cases hnext
      have hopens : (if opens = true then some s.entries.length else none).isSome = opens := by cases opens <;> rfl
      have hnew' : key ∉ s'.keys := by rw [h.keys]; exact hnew
      obtain ⟨hkept, hname⟩ := Markdown.Native.lineAction_add.mp ⟨value, opens, haction⟩
      cases hreplaced : replacements.value key with
      | none =>
        refine ⟨⟨s'.entries ++ [⟨key, value⟩], key :: s'.keys, if opens then some s'.entries.length else none⟩, false, ?_,
          ⟨congrArg (key :: ·) h.keys, ?_, ?_, fun hfalse => by cases hfalse⟩, fun lines => by simp only [hopens, hreplaced, Option.isSome_none]⟩
        · have hkeep : ∀ other w o, lineAction s.activeListIndex.isSome line = .add other w o →
              replacements.value other = none := by
            intro other w o hadd
            rw [haction] at hadd
            cases hadd
            exact hreplaced
          rw [line_unless s.activeListIndex.isSome hline hunit hkeep, Markdown.Native.line_eq, hsame, haction, LineAction.apply,
            if_neg hnew']
        · rw [h.entries, List.map_append]
          simp [Replacements.override, hreplaced]
        · simp only [h.entries, List.length_map]
          rfl
      | some text =>
        have hplain := Replacements.plain_of_value hreplaced
        refine ⟨⟨s'.entries ++ [⟨key, .scalar (.string text)⟩], key :: s'.keys, none⟩, true, ?_,
          ⟨congrArg (key :: ·) h.keys, ?_, rfl, ?_⟩, fun lines => by simp only [hopens, hreplaced, Option.isSome_some]⟩
        · rw [Replacements.line_of_value (marginKey_of_lineKey hline hunit hkept hname) hreplaced]
          exact line_scalarLine hplain hnew' (hvalues _ (Replacements.mem_of_value hreplaced))
        · rw [h.entries, List.map_append]
          simp [Replacements.override, hreplaced]
        · intro _ index hindex
          refine ⟨⟨key, value⟩, text, ?_, hreplaced⟩
          cases opens with
          | false => cases hindex
          | true =>
            cases hindex
            simp

theorem ItemsKeyless.head {listOpen owned : Bool} {line : List Char} {lines : List (List Char)}
    (h : ItemsKeyless replacements listOpen owned (line :: lines)) : ItemsKeyless replacements listOpen owned [line] := by
  simp only [ItemsKeyless] at h ⊢
  cases haction : lineAction listOpen line with
  | skip => trivial
  | item value =>
    rw [haction] at h
    exact ⟨h.1, trivial⟩
  | close => trivial
  | add key value opens => trivial

theorem InStep.run {owned : Bool} {s s' last : FrontmatterState} (h : InStep replacements owned s s') {lines : List (List Char)}
    (hlines : ∀ line ∈ lines, OneLine line ∧ '\x1f' ∉ line)
    (hvalues : ∀ item ∈ replacements.items, canRenderPlain item.2.toList = true → trimmed item.2.toList = item.2.toList)
    (hitems : ItemsKeyless replacements s.activeListIndex.isSome owned lines) (hrun : parseLinesFrom s lines = .ok last) :
    ∃ last' owned', parseLinesFrom s' (lines.map replacements.line) = .ok last' ∧ InStep replacements owned' last last' := by
  induction lines generalizing s s' owned with
  | nil =>
    cases hrun
    exact ⟨s', owned, rfl, h⟩
  | cons line lines ih =>
    obtain ⟨next, hnext, hrest⟩ := Markdown.Native.parseLinesFrom_cons hrun
    obtain ⟨hline, hunit⟩ := hlines line List.mem_cons_self
    obtain ⟨next', owned', hnext', hstep, hitems'⟩ := h.next hline hunit hvalues hitems.head hnext
    obtain ⟨last', owned'', hrun', hlast⟩ :=
      ih hstep (fun other hother => hlines other (List.mem_cons_of_mem line hother)) ((hitems' lines).mp hitems) hrest
    refine ⟨last', owned'', ?_, hlast⟩
    rw [List.map_cons, parseLinesFrom, hnext']
    exact hrun'

/-! ## What a run tells about its lines -/

theorem parseLinesFrom_append_ok {s last : FrontmatterState} {lines more : List (List Char)}
    (h : parseLinesFrom s (lines ++ more) = .ok last) :
    ∃ middle, parseLinesFrom s lines = .ok middle ∧ parseLinesFrom middle more = .ok last := by
  induction lines generalizing s with
  | nil => exact ⟨s, rfl, h⟩
  | cons line lines ih =>
    obtain ⟨next, hnext, hrest⟩ := Markdown.Native.parseLinesFrom_cons h
    obtain ⟨middle, hmiddle, hmore⟩ := ih hrest
    refine ⟨middle, ?_, hmore⟩
    rw [parseLinesFrom, hnext]
    exact hmiddle

theorem parseLinesFrom_nodup {s last : FrontmatterState} {lines : List (List Char)} (h : parseLinesFrom s lines = .ok last)
    (hs : s.keys.Nodup) : last.keys.Nodup := by
  induction lines generalizing s with
  | nil =>
    cases h
    exact hs
  | cons line lines ih =>
    obtain ⟨next, hnext, hrest⟩ := Markdown.Native.parseLinesFrom_cons h
    refine ih hrest ?_
    obtain ⟨-, hkeys, -⟩ | ⟨key, -, -, hnew, hkeys, -⟩ := Markdown.line_cases hnext
    · rw [hkeys]
      exact hs
    · rw [hkeys]
      exact List.nodup_cons.mpr ⟨hnew, hs⟩

/-- A key of the run is that of a line, in the eyes of Python too. -/
theorem marginKey_of_run {s last : FrontmatterState} {lines : List (List Char)}
    (hlines : ∀ line ∈ lines, OneLine line ∧ '\x1f' ∉ line) (h : parseLinesFrom s lines = .ok last) {key : String}
    (hkey : key ∈ last.keys) : key ∈ s.keys ∨ ∃ line ∈ lines, marginKey line = some key := by
  induction lines generalizing s with
  | nil =>
    cases h
    exact .inl hkey
  | cons line lines ih =>
    obtain ⟨next, hnext, hrest⟩ := Markdown.Native.parseLinesFrom_cons h
    obtain hold | ⟨other, hother, hname⟩ := ih (fun other hother => hlines other (List.mem_cons_of_mem line hother)) hrest
    · obtain ⟨-, hkeys, -⟩ | ⟨added, hkept, hname, -, hkeys, -⟩ := Markdown.line_cases hnext
      · rw [hkeys] at hold
        exact .inl hold
      · rw [hkeys] at hold
        obtain rfl | hold := List.mem_cons.mp hold
        · obtain ⟨hline, hunit⟩ := hlines line List.mem_cons_self
          exact .inr ⟨line, List.mem_cons_self, marginKey_of_lineKey hline hunit hkept hname⟩
        · exact .inl hold
    · exact .inr ⟨other, List.mem_cons_of_mem line hother, hname⟩

/-- A plain key that Python sees on a line is one of the run. -/
theorem mem_keys_of_marginKey {s last : FrontmatterState} {lines : List (List Char)}
    (hlines : ∀ line ∈ lines, OneLine line ∧ '\x1f' ∉ line) (h : parseLinesFrom s lines = .ok last) {key : String}
    (hplain : PlainKey key) {line : List Char} (hmem : line ∈ lines) (hkey : marginKey line = some key) : key ∈ last.keys := by
  induction lines generalizing s with
  | nil => cases hmem
  | cons first lines ih =>
    obtain ⟨next, hnext, hrest⟩ := Markdown.Native.parseLinesFrom_cons h
    obtain rfl | hmem := List.mem_cons.mp hmem
    · obtain ⟨hline, hunit⟩ := hlines line List.mem_cons_self
      obtain ⟨hkept, hname⟩ := lineKey_of_marginKey hline hunit hplain hkey s.activeListIndex.isSome
      apply Markdown.parseLinesFrom_seen hrest
      obtain ⟨hquiet | hquiet, -⟩ | ⟨added, -, hadded, -, hkeys, -⟩ := Markdown.line_cases hnext
      · rw [hkept] at hquiet
        cases hquiet
      · rw [hname] at hquiet
        cases hquiet
      · rw [hname] at hadded
        cases hadded
        rw [hkeys]
        exact List.mem_cons_self
    · exact ih (fun other hother => hlines other (List.mem_cons_of_mem first hother)) hrest hmem

/-- The value of a key in the entries. -/
def valueOf (entries : List FrontmatterEntry) (key : String) : Option Markdown.Native.FrontmatterValue :=
  (Keyed.lookup FrontmatterEntry.key key entries).map FrontmatterEntry.value

theorem valueOf_isSome {entries : List FrontmatterEntry} {key : String} :
    (valueOf entries key).isSome = true ↔ key ∈ entries.map FrontmatterEntry.key := by
  unfold valueOf
  rw [Option.isSome_map, ← not_iff_not, Bool.not_eq_true, Option.isSome_eq_false_iff, Option.isNone_iff_eq_none,
    Keyed.lookup_eq_none, List.mem_map]
  simp

/-- What a line with a new value is read as, before any items. -/
theorem valueOf_scalarLine {last : FrontmatterState} {lines : List (List Char)} (h : parseLinesFrom ⟨[], [], none⟩ lines = .ok last)
    {key value : String} (hkey : PlainKey key) (hmem : scalarLine key value ∈ lines) {found : Markdown.Native.FrontmatterValue}
    (hfound : valueOf last.entries key = some found) : (parseValue (trimmed (' ' :: yamlText value.toList))).Extends found := by
  obtain ⟨before, after, rfl⟩ := List.append_of_mem hmem
  obtain ⟨middle, -, hrest⟩ := parseLinesFrom_append_ok h
  obtain ⟨next, hnext, hlater⟩ := Markdown.Native.parseLinesFrom_cons hrest
  have hnew : key ∉ middle.keys := by
    rw [scalarLine_eq, Markdown.line_margin (hkey.margin _ _)] at hnext
    exact (Markdown.entry_forged (Markdown.lineKey_key hkey.toValidKey _) hnext).1
  rw [scalarLine_eq, Markdown.line_key hkey.toValidKey hnew fun _ => hkey.dash] at hnext
  cases hnext
  obtain ⟨early, e, late, hentries, -, hextends⟩ := (Markdown.Native.parseLinesFrom_extends hlater).last
  have hnodup : (last.entries.map FrontmatterEntry.key).Nodup := by
    rw [← Markdown.parseLinesFrom_keys h rfl]
    exact List.nodup_reverse.mpr (parseLinesFrom_nodup h List.nodup_nil)
  have hlookup : Keyed.lookup FrontmatterEntry.key key last.entries = some e := by
    rw [Keyed.lookup_eq_some hnodup]
    refine ⟨?_, hextends.1.symm⟩
    rw [hentries]
    simp
  unfold valueOf at hfound
  rw [hlookup] at hfound
  cases hfound
  exact hextends.2

/-! ## Two runs -/

theorem isKept_le {line : List Char} {listOpen listOpen' : Bool} (hopen : listOpen' = true → listOpen = true)
    (h : isKept listOpen line = false) : isKept listOpen' line = false := by
  unfold isKept at h ⊢
  rw [decide_eq_false_iff_not] at h ⊢
  intro hkept
  apply h
  obtain hkept | hkept | ⟨hlist, hdash⟩ | hkept := hkept
  · exact .inl hkept
  · exact .inr (.inl hkept)
  · exact .inr (.inr (.inl ⟨hopen hlist, hdash⟩))
  · exact .inr (.inr (.inr hkept))

theorem opens_next {s s' next next' : FrontmatterState} {line : List Char} (hline : OneLine line) (hunit : '\x1f' ∉ line)
    (hvalues : ∀ item ∈ replacements.items, canRenderPlain item.2.toList = true → trimmed item.2.toList = item.2.toList)
    (hopen : s'.activeListIndex.isSome = true → s.activeListIndex.isSome = true) (hnext : s.line line = .ok next)
    (hnext' : s'.line (replacements.line line) = .ok next') :
    next'.activeListIndex.isSome = true → next.activeListIndex.isSome = true := by
  rw [Markdown.Native.line_eq] at hnext
  have hunchanged : (∀ value, lineAction s.activeListIndex.isSome line ≠ .item value) → replacements.line line = line →
      (lineAction s.activeListIndex.isSome line).apply s' = .ok next' := by
    intro hitem hsame
    rw [hsame, Markdown.Native.line_eq, lineAction_le hopen hitem] at hnext'
    exact hnext'
  cases haction : lineAction s.activeListIndex.isSome line with
  | skip =>
    have hsame := hunchanged (by simp [haction]) (line_unless s.activeListIndex.isSome hline hunit (by simp [haction]))
    rw [haction] at hnext hsame
    cases hnext
    cases hsame
    exact hopen
  | close =>
    have hsame := hunchanged (by simp [haction]) (line_unless s.activeListIndex.isSome hline hunit (by simp [haction]))
    rw [haction] at hsame
    cases hsame
    exact fun h => by cases h
  | item value =>
    obtain ⟨hlist, -⟩ := Markdown.Native.lineAction_item haction
    rw [haction] at hnext
    cases hnext
    exact fun _ => hlist
  | add key value opens =>
    obtain ⟨hkept, hname⟩ := Markdown.Native.lineAction_add.mp ⟨value, opens, haction⟩
    cases hreplaced : replacements.value key with
    | some text =>
      have hplain := Replacements.plain_of_value hreplaced
      rw [Replacements.line_of_value (marginKey_of_lineKey hline hunit hkept hname) hreplaced] at hnext'
      have hnew : key ∉ s'.keys := by
        rw [scalarLine_eq, Markdown.line_margin (hplain.margin _ _)] at hnext'
        exact (Markdown.entry_forged (Markdown.lineKey_key hplain.toValidKey _) hnext').1
      rw [line_scalarLine hplain hnew (hvalues _ (Replacements.mem_of_value hreplaced))] at hnext'
      cases hnext'
      exact fun h => by cases h
    | none =>
      have hkeep : ∀ other w o, lineAction s.activeListIndex.isSome line = .add other w o →
          replacements.value other = none := by
        intro other w o hadd
        rw [haction] at hadd
        cases hadd
        exact hreplaced
      have hsame := hunchanged (by simp [haction]) (line_unless s.activeListIndex.isSome hline hunit hkeep)
      rw [haction] at hnext hsame
      unfold LineAction.apply at hnext hsame
      simp only at hnext hsame
      split at hnext
      · cases hnext
      · split at hsame
        · cases hsame
        · cases hnext
          cases hsame
          cases opens with
          | false => exact fun h => by cases h
          | true => exact fun _ => rfl

/-- A key that the original run still has to add is not there in the edited run. -/
theorem keys_clash {s s' last last' : FrontmatterState} {lines : List (List Char)}
    (hlines : ∀ line ∈ lines, OneLine line ∧ '\x1f' ∉ line)
    (hvalues : ∀ item ∈ replacements.items, canRenderPlain item.2.toList = true → trimmed item.2.toList = item.2.toList)
    (hopen : s'.activeListIndex.isSome = true → s.activeListIndex.isSome = true) (hrun : parseLinesFrom s lines = .ok last)
    (hrun' : parseLinesFrom s' (lines.map replacements.line) = .ok last') {key : String} (hfresh : key ∉ s.keys)
    (hadded : key ∈ last.keys) (hkeep : replacements.value key = none) : key ∉ s'.keys := by
  induction lines generalizing s s' with
  | nil =>
    cases hrun
    exact absurd hadded hfresh
  | cons line lines ih =>
    obtain ⟨next, hnext, hrest⟩ := Markdown.Native.parseLinesFrom_cons hrun
    obtain ⟨next', hnext', hrest'⟩ := Markdown.Native.parseLinesFrom_cons hrun'
    obtain ⟨hline, hunit⟩ := hlines line List.mem_cons_self
    by_cases hhere : key ∈ next.keys
    · obtain ⟨-, hkeys, -⟩ | ⟨other, hkept, hname, -, hkeys, -⟩ := Markdown.line_cases hnext
      · rw [hkeys] at hhere
        exact absurd hhere hfresh
      · rw [hkeys] at hhere
        obtain rfl | hhere := List.mem_cons.mp hhere
        · have hsame : replacements.line line = line := by
            apply Replacements.line_of_none
            intro found hfound
            rw [marginKey_of_lineKey hline hunit hkept hname] at hfound
            cases hfound
            exact hkeep
          rw [hsame, Markdown.line_margin (isKept_le hopen hkept)] at hnext'
          exact (Markdown.entry_forged hname hnext').1
        · exact absurd hhere hfresh
    · have hopen' := opens_next hline hunit hvalues hopen hnext hnext'
      have hlater := ih (fun other hother => hlines other (List.mem_cons_of_mem line hother)) hopen' hrest hrest' hhere
      intro hmem
      apply hlater
      obtain ⟨-, hkeys, -⟩ | ⟨other, -, -, -, hkeys, -⟩ := Markdown.line_cases hnext'
      · rw [hkeys]
        exact hmem
      · rw [hkeys]
        exact List.mem_cons_of_mem other hmem

/-- Where the edited block adds no key, its replaced lists have no items with keys at the margin. -/
theorem InStep.itemsKeyless {owned : Bool} {s s' last last' : FrontmatterState} (h : InStep replacements owned s s')
    {lines : List (List Char)} (hlines : ∀ line ∈ lines, OneLine line ∧ '\x1f' ∉ line)
    (hvalues : ∀ item ∈ replacements.items, canRenderPlain item.2.toList = true → trimmed item.2.toList = item.2.toList)
    (hrun : parseLinesFrom s lines = .ok last) (hrun' : parseLinesFrom s' (lines.map replacements.line) = .ok last')
    (hkeys : ∀ key ∈ last'.keys, replacements.value key = none → key ∈ last.keys) :
    ItemsKeyless replacements s.activeListIndex.isSome owned lines := by
  induction lines generalizing s s' owned with
  | nil => trivial
  | cons line lines ih =>
    obtain ⟨next, hnext, hrest⟩ := Markdown.Native.parseLinesFrom_cons hrun
    obtain ⟨next', hnext', hrest'⟩ := Markdown.Native.parseLinesFrom_cons hrun'
    obtain ⟨hline, hunit⟩ := hlines line List.mem_cons_self
    have hlater : ∀ other ∈ lines, OneLine other ∧ '\x1f' ∉ other := fun other hother =>
      hlines other (List.mem_cons_of_mem line hother)
    have hhead : ItemsKeyless replacements s.activeListIndex.isSome owned [line] := by
      simp only [ItemsKeyless]
      cases haction : lineAction s.activeListIndex.isSome line with
      | skip => trivial
      | close => trivial
      | add key value opens => trivial
      | item value =>
        refine ⟨?_, trivial⟩
        rintro rfl
        by_contra hboth
        obtain ⟨hkept, hname⟩ := not_or.mp hboth
        obtain ⟨key, hkey⟩ := Option.ne_none_iff_exists'.mp hname
        have hclosed : s'.activeListIndex = none := h.active
        have hunchanged := line_unless s.activeListIndex.isSome hline hunit
          (by simp [haction] : ∀ key value opens, lineAction s.activeListIndex.isSome line = .add key value opens →
            replacements.value key = none)
        have hkeep : replacements.value key = none := by
          cases hvalue : replacements.value key with
          | none => rfl
          | some text =>
            have hmargin := marginKey_of_lineKey hline hunit (Bool.eq_false_iff.mpr hkept) hkey
            obtain ⟨hkept', hname'⟩ := lineKey_of_marginKey hline hunit (Replacements.plain_of_value hvalue) hmargin
              s.activeListIndex.isSome
            obtain ⟨w, o, hadd⟩ := Markdown.Native.lineAction_of_key hkept' hname'
            rw [haction] at hadd
            cases hadd
        rw [hunchanged, Markdown.line_margin (by rw [hclosed]; exact Bool.eq_false_iff.mpr hkept)] at hnext'
        obtain ⟨hnew, hkeys', -⟩ := Markdown.entry_forged hkey hnext'
        have hlist : next.activeListIndex.isSome = true ∧ next.keys = s.keys := by
          obtain ⟨hlist, -⟩ := Markdown.Native.lineAction_item haction
          rw [Markdown.Native.line_eq, haction] at hnext
          cases hnext
          exact ⟨hlist, rfl⟩
        have hmem : key ∈ last'.keys := Markdown.parseLinesFrom_seen hrest' (by rw [hkeys']; exact List.mem_cons_self)
        refine keys_clash hlater hvalues (fun _ => hlist.1) hrest hrest' ?_ (hkeys key hmem hkeep) hkeep ?_
        · rw [hlist.2, ← h.keys]
          exact hnew
        · rw [hkeys']
          exact List.mem_cons_self
    obtain ⟨found, owned', hfound, hstep, hitems⟩ := h.next hline hunit hvalues hhead hnext
    rw [hnext'] at hfound
    cases hfound
    exact (hitems lines).mpr (ih hstep hlater hrest hrest')

end Run

/-! ## Edited documents -/

section Documents
variable {replacements : Replacements}

/-- The lines between the delimiters, as the native analysis finds them. -/
def contentLines (text : List Char) : List PythonLine :=
  match pythonLines text with
  | [] => []
  | _ :: lines => lines.takeWhile fun line => trimmed line.1 ≠ delimiter

/-- Python reads the block as the native analysis does: it has no unit separator, and a line whose key is replaced ends with a
carriage return or line feed. -/
structure ReadAlike (text : List Char) (replacements : Replacements) : Prop where
  separators : ∀ line ∈ contentLines text, '\x1f' ∉ line.1
  endings : ∀ line ∈ contentLines text, ∀ key value, marginKey line.1 = some key → replacements.value key = some value →
    ∀ c ∈ line.2, isNewlineChar c = true

/-- The frontmatter with the new values, and the body as it was. -/
structure UpdatedAs (replacements : Replacements) (before after : DocumentAnalysis) : Prop where
  block : after.hasFrontmatter = true
  values : ∀ key, valueOf after.frontmatter key =
    ((replacements.value key).map fun value => .scalar (.string value)).or (valueOf before.frontmatter key)
  body : after.body = before.body

def ScalarsUpdated (replacements : Replacements) (text : List Char) (before : DocumentAnalysis) : Prop :=
  ∃ updated after, updateFrontmatterScalars text replacements.items = .ok updated ∧ analyzeDocument updated = .ok after ∧
    UpdatedAs replacements before after

/-- What the update needs of the values and of the lists that they replace. -/
structure Replaceable (replacements : Replacements) (text : List Char) : Prop where
  texts : ∀ item ∈ replacements.items, OneLine item.2.toList
  plain : ∀ item ∈ replacements.items, canRenderPlain item.2.toList = true → trimmed item.2.toList = item.2.toList
  items : ItemsKeyless replacements false false ((contentLines text).map Prod.fst)

/-- A line of the block after the update. -/
def editedLine (replacements : Replacements) (line : PythonLine) : PythonLine := (replacements.line line.1, line.2)

/-- The lines that are added for keys without a line. -/
def addedLines (replacements : Replacements) (opening : PythonLine) (content : List PythonLine) : List PythonLine :=
  (replacements.items.filter fun entry => entry.1 ∉ content.filterMap fun line => marginKey line.1).map fun entry =>
    (scalarLine entry.1 entry.2, if opening.2 = ['\r', '\n'] then ['\r', '\n'] else ['\n'])

/-- The lines of a document with a block. -/
structure Document (text : List Char) (opening : PythonLine) (content : List PythonLine) (closing : PythonLine)
    (after : List PythonLine) : Prop where
  lines : pythonLines text = opening :: (content ++ closing :: after)
  opens : trimmed opening.1 = delimiter
  closes : trimmed closing.1 = delimiter
  inside : ∀ line ∈ content, trimmed line.1 ≠ delimiter

variable {text : List Char} {opening closing : PythonLine} {content after : List PythonLine}

theorem document_of_analyze {before : DocumentAnalysis} (h : analyzeDocument text = .ok before) (hblock : before.hasFrontmatter = true) :
    ∃ opening content closing after, Document text opening content closing after := by
  obtain ⟨first, lines, last, more, hdocument⟩ := Markdown.Native.block_of_analyze h hblock
  have htexts := (pythonLines_texts text).trans hdocument.texts
  obtain ⟨opening, rest, hlines, rfl, hrest⟩ := List.map_eq_cons_iff.mp htexts
  obtain ⟨content, stop, rfl, rfl, hstop⟩ := List.map_eq_append_iff.mp hrest
  obtain ⟨closing, after, rfl, rfl, rfl⟩ := List.map_eq_cons_iff.mp hstop
  exact ⟨opening, content, closing, after, hlines, hdocument.opens, hdocument.closes, fun line hline =>
    hdocument.inside line.1 (List.mem_map_of_mem hline)⟩

theorem Document.block (h : Document text opening content closing after) :
    Markdown.Native.Block text opening.1 (content.map Prod.fst) closing.1 (after.map Prod.fst) where
  texts := by
    rw [← pythonLines_texts, h.lines]
    simp
  opens := h.opens
  closes := h.closes
  inside := by
    intro line hline
    obtain ⟨found, hfound, rfl⟩ := List.mem_map.mp hline
    exact h.inside found hfound

theorem Document.contentLines (h : Document text opening content closing after) : contentLines text = content := by
  unfold Notes.contentLines
  rw [h.lines]
  simp only
  exact (Markdown.takeWhile_append_cons (fun line hline => decide_eq_true (h.inside line hline))
    (decide_eq_false (not_not.mpr h.closes))).1

theorem Document.mem (h : Document text opening content closing after) {line : PythonLine}
    (hline : line ∈ opening :: (content ++ closing :: after)) : OneLine line.1 ∧
      (line.2 = [] ∨ line.2 = ['\r', '\n'] ∨ ∃ c, isLineBreak c = true ∧ line.2 = [c]) := by
  rw [← h.lines] at hline
  exact pythonLinesFrom_line_mem (fun c hc => absurd hc (by simp)) line hline

/-- The update edits the lines of the block and adds the others before its end. -/
theorem Document.update (h : Document text opening content closing after) (hread : ReadAlike text replacements) :
    updateFrontmatterScalars text replacements.items =
      .ok ((opening :: (content.map (editedLine replacements) ++ addedLines replacements opening content)).flatMap PythonLine.whole ++
        (closing :: after).flatMap PythonLine.whole) := by
  have hopening := h.mem (List.mem_cons_self)
  have hlast : closing ∈ opening :: (content ++ closing :: after) := by simp
  have hclosing := h.mem hlast
  have hcontent : ∀ line ∈ content, line ∈ opening :: (content ++ closing :: after) := by
    intro line hline
    simp [hline]
  have hunit : ∀ line ∈ content, '\x1f' ∉ line.1 := by
    intro line hline
    apply hread.separators
    rw [h.contentLines]
    exact hline
  have hopens : isDelimiterLine opening = true :=
    (isDelimiterLine_iff hopening.1 hopening.2 (delimiter_no_unit h.opens)).mpr h.opens
  have hcloses : (!isDelimiterLine closing) = false := by
    rw [(isDelimiterLine_iff hclosing.1 hclosing.2 (delimiter_no_unit h.closes)).mpr h.closes]
    rfl
  have hbetween : ∀ line ∈ content, (!isDelimiterLine line) = true := by
    intro line hline
    obtain ⟨honeline, hending⟩ := h.mem (hcontent line hline)
    have hne := h.inside line hline
    rw [Ne, ← isDelimiterLine_iff honeline hending (hunit line hline)] at hne
    simpa using hne
  have hkeys : (content.filterMap fun line => marginKey (rawLine line).1) = content.filterMap fun line => marginKey line.1 := by
    apply List.filterMap_congr
    intro line hline
    obtain ⟨honeline, hending⟩ := h.mem (hcontent line hline)
    exact marginKey_rawLine honeline hending
  have hpatched : content.flatMap (patchedLine replacements.items) =
      (content.map (editedLine replacements)).flatMap PythonLine.whole := by
    rw [List.flatMap_map]
    apply List.flatMap_congr
    intro line hline
    obtain ⟨honeline, hending⟩ := h.mem (hcontent line hline)
    unfold patchedLine editedLine Replacements.line
    rw [marginKey_rawLine honeline hending]
    cases hkey : marginKey line.1 with
    | none => rfl
    | some key =>
      simp only
      have hvalue : (Keyed.lookup Prod.fst key replacements.items).map Prod.snd = replacements.value key := rfl
      rw [hvalue]
      cases hreplaced : replacements.value key with
      | none => rfl
      | some value =>
        simp only
        have hnewline : ∀ c ∈ line.2, isNewlineChar c = true :=
          hread.endings line (by rw [h.contentLines]; exact hline) key value hkey hreplaced
        obtain ⟨hraw, -⟩ | ⟨c, -, hother, hc, -⟩ := rawLine_cases honeline hending
        · rw [hraw]
          rfl
        · rw [hnewline c (by rw [hc]; exact List.mem_singleton.mpr rfl)] at hother
          cases hother
  have hwhile := Markdown.takeWhile_append_cons (b := after) hbetween hcloses
  unfold updateFrontmatterScalars
  rw [h.lines]
  simp only
  rw [hopens, hwhile.1, hwhile.2]
  simp only
  rw [hpatched, hkeys]
  have hjoined : (opening :: (content.map (editedLine replacements) ++ addedLines replacements opening content)).flatMap
      PythonLine.whole = opening.1 ++ opening.2 ++ (content.map (editedLine replacements)).flatMap PythonLine.whole ++
        (replacements.items.filter fun entry => entry.1 ∉ content.filterMap fun line => marginKey line.1).flatMap fun entry =>
          scalarLine entry.1 entry.2 ++ if opening.2 = ['\r', '\n'] then ['\r', '\n'] else ['\n'] := by
    unfold addedLines
    simp [PythonLine.whole, List.flatMap_map]
  rw [hjoined]
  rfl

theorem scalarLine_oneLine {key value : String} (hkey : OneLine key.toList) (hvalue : OneLine value.toList) :
    OneLine (scalarLine key value) := by
  have hrendered : OneLine (Markdown.yamlScalar Markdown.lexemeFloats (.str value)) :=
    Markdown.yamlScalar_oneLine (fun x h => by cases h) fun text h => by cases h; exact hvalue
  intro c hc
  obtain hc | hc := List.mem_append.mp hc
  · exact hkey c hc
  · obtain hc | hc := List.mem_append.mp hc
    · exact Markdown.Native.oneLine_of_all (by decide) c hc
    · exact hrendered c hc

theorem scalarLine_inside (key value : String) : trimmed (scalarLine key value) ≠ delimiter := by
  intro heq
  have hmem : ':' ∈ trimmed (scalarLine key value) :=
    mem_trimBy (by rw [scalarLine_eq]; exact List.mem_append_right _ List.mem_cons_self) (by decide)
  rw [heq] at hmem
  exact absurd hmem (by decide)

/-- A line is kept, or it is the new line of its key. -/
theorem Replacements.line_cases (replacements : Replacements) (text : List Char) : replacements.line text = text ∨
    ∃ key value, marginKey text = some key ∧ replacements.value key = some value ∧ replacements.line text = scalarLine key value := by
  cases hkey : marginKey text with
  | none => exact .inl (line_of_none fun key h => by rw [hkey] at h; cases h)
  | some key =>
    cases hvalue : replacements.value key with
    | none => exact .inl (line_of_none fun other h => by rw [hkey] at h; cases h; exact hvalue)
    | some value => exact .inr ⟨key, value, rfl, hvalue, line_of_value hkey hvalue⟩

theorem scalarLine_head {key value : String} (hkey : PlainKey key) (ending : List Char) :
    (scalarLine key value ++ ending).head? ≠ some '\n' := by
  obtain ⟨c, rest, hcons, hc, -⟩ := hkey.first
  rw [scalarLine_eq, hcons]
  intro hhead
  cases hhead
  exact absurd hc (by decide)

theorem broken_scalarLines {entries : List (String × String)} {ending : List Char}
    (hending : ending = ['\r', '\n'] ∨ ending = ['\n']) (hentries : ∀ entry ∈ entries, PlainKey entry.1 ∧ OneLine entry.2.toList)
    (rest : List Char) : Broken (entries.map fun entry => (scalarLine entry.1 entry.2, ending)) rest := by
  have hends : ∀ tail : List Char, Ends ending tail := by
    intro tail
    refine ⟨?_, ?_⟩
    · obtain rfl | rfl := hending
      · exact .inl rfl
      · exact .inr ⟨'\n', by decide, rfl⟩
    · intro hreturn
      obtain rfl | rfl := hending <;> cases hreturn
  induction entries with
  | nil => trivial
  | cons entry entries ih =>
    obtain ⟨hkey, hvalue⟩ := hentries entry List.mem_cons_self
    exact ⟨scalarLine_oneLine hkey.oneLine hvalue, hends _, ih fun other hother => hentries other (List.mem_cons_of_mem entry hother)⟩

/-- The edited document has the edited block and the same body. -/
theorem Document.edited (h : Document text opening content closing after)
    (htexts : ∀ item ∈ replacements.items, OneLine item.2.toList) :
    Document ((opening :: (content.map (editedLine replacements) ++ addedLines replacements opening content)).flatMap
      PythonLine.whole ++ (closing :: after).flatMap PythonLine.whole) opening
      (content.map (editedLine replacements) ++ addedLines replacements opening content) closing after := by
  set rest := (closing :: after).flatMap PythonLine.whole with hrest
  have hsplit : pythonLines text = (opening :: content) ++ (closing :: after) := h.lines
  have hbroken : Broken (opening :: content) rest :=
    broken_of_pythonLinesFrom (fun c hc => absurd hc (by simp)) hsplit (List.cons_ne_nil _ _)
  have htail : pythonLines rest = closing :: after := by
    have hwhole : text = (opening :: content).flatMap PythonLine.whole ++ rest := by
      rw [hrest, ← List.flatMap_append, ← hsplit, pythonLines_whole]
    have hlines := pythonLines_broken hbroken
    rw [← hwhole, hsplit] at hlines
    exact (List.append_cancel_left hlines).symm
  have hclosing : ∀ tail : List Char, (closing.whole ++ tail).head? ≠ some '\n' := by
    intro tail hhead
    have hne : closing.1 ≠ [] := by
      intro hnil
      have hcloses := h.closes
      rw [hnil] at hcloses
      exact absurd hcloses (by decide)
    obtain ⟨c, line, hcons⟩ := List.exists_cons_of_ne_nil hne
    rw [PythonLine.whole, hcons] at hhead
    cases hhead
    have hmem : closing ∈ opening :: (content ++ closing :: after) := by simp
    have honeline := (h.mem hmem).1
    rw [hcons] at honeline
    exact absurd (honeline '\n' List.mem_cons_self) (by decide)
  have hadded : Broken (addedLines replacements opening content) rest := by
    refine broken_scalarLines ?_ ?_ rest
    · split
      · exact .inl rfl
      · exact .inr rfl
    · intro entry hentry
      have hmem := (List.mem_filter.mp hentry).1
      exact ⟨replacements.keys entry hmem, htexts entry hmem⟩
  have hopening : editedLine replacements opening = opening := by
    obtain hsame | ⟨key, value, hkey, -⟩ := replacements.line_cases opening.1
    · exact Prod.ext hsame rfl
    · have hcolon : ':' ∉ opening.1 := by
        intro hmem
        have hkept : ':' ∈ trimmed opening.1 := mem_trimBy hmem (by decide)
        rw [h.opens] at hkept
        exact absurd hkept (by decide)
      unfold marginKey at hkey
      rw [if_pos hcolon] at hkey
      split at hkey <;> cases hkey
  have hedited : Broken (opening :: content.map (editedLine replacements))
      ((addedLines replacements opening content).flatMap PythonLine.whole ++ rest) := by
    rw [← hopening, ← List.map_cons, hopening]
    refine hbroken.replace (editedLine replacements) ?_ ?_
    · intro line hline
      have hmem : line ∈ opening :: (content ++ closing :: after) := by
        obtain rfl | hline := List.mem_cons.mp hline
        · exact List.mem_cons_self
        · simp [hline]
      obtain hsame | ⟨key, value, -, hvalue, hnew⟩ := replacements.line_cases line.1
      · have hline : editedLine replacements line = line := Prod.ext hsame rfl
        rw [hline]
        exact ⟨(h.mem hmem).1, rfl, id⟩
      · have hplain := Replacements.plain_of_value hvalue
        refine ⟨?_, rfl, ?_⟩
        · show OneLine (replacements.line line.1)
          rw [hnew]
          exact scalarLine_oneLine hplain.oneLine (htexts _ (Replacements.mem_of_value hvalue))
        · intro hhead
          rw [show (editedLine replacements line).whole = scalarLine key value ++ line.2 by rw [← hnew]; rfl] at hhead
          exact absurd hhead (scalarLine_head hplain _)
    · intro hhead
      unfold addedLines at hhead
      cases hentries : replacements.items.filter fun entry => entry.1 ∉ content.filterMap fun line => marginKey line.1 with
      | nil =>
        rw [hentries] at hhead
        exact hhead
      | cons entry entries =>
        rw [hentries, List.map_cons, List.flatMap_cons, List.append_assoc, PythonLine.whole, List.append_assoc] at hhead
        have hmem : entry ∈ replacements.items :=
          (List.mem_filter.mp (by rw [hentries]; exact List.mem_cons_self)).1
        exact absurd hhead (scalarLine_head (replacements.keys entry hmem) _)
  refine ⟨?_, h.opens, h.closes, ?_⟩
  · have hlines := pythonLines_broken (hedited.append hadded)
    rw [htail] at hlines
    rw [List.cons_append] at hlines
    rw [hlines]
    simp
  · intro line hline
    obtain hline | hline := List.mem_append.mp hline
    · obtain ⟨found, hfound, rfl⟩ := List.mem_map.mp hline
      obtain hsame | ⟨key, value, -, -, hnew⟩ := replacements.line_cases found.1
      · show trimmed (replacements.line found.1) ≠ delimiter
        rw [hsame]
        exact h.inside found hfound
      · show trimmed (replacements.line found.1) ≠ delimiter
        rw [hnew]
        exact scalarLine_inside key value
    · obtain ⟨entry, -, rfl⟩ := List.mem_map.mp hline
      exact scalarLine_inside entry.1 entry.2

theorem editedTexts (replacements : Replacements) (opening : PythonLine) (content : List PythonLine) :
    (content.map (editedLine replacements) ++ addedLines replacements opening content).map Prod.fst =
      (content.map Prod.fst).map replacements.line ++ (addedLines replacements opening content).map Prod.fst := by
  rw [List.map_append, List.map_map, List.map_map]
  rfl

/-- Each key has its new line, in the place of the old one or at the end. -/
theorem scalarLine_mem {entry : String × String} (hentry : entry ∈ replacements.items) (opening : PythonLine)
    (content : List PythonLine) : scalarLine entry.1 entry.2 ∈
      (content.map Prod.fst).map replacements.line ++ (addedLines replacements opening content).map Prod.fst := by
  by_cases hmatched : entry.1 ∈ content.filterMap fun line => marginKey line.1
  · obtain ⟨line, hline, hkey⟩ := List.mem_filterMap.mp hmatched
    apply List.mem_append_left
    rw [← Replacements.line_of_value hkey (Replacements.value_of_mem hentry)]
    exact List.mem_map_of_mem (List.mem_map_of_mem hline)
  · apply List.mem_append_right
    unfold addedLines
    rw [List.map_map]
    refine List.mem_map.mpr ⟨entry, ?_, rfl⟩
    exact List.mem_filter.mpr ⟨hentry, decide_eq_true hmatched⟩

/-- Lines with new values for keys that are not there add their entries. -/
theorem parseLinesFrom_scalarLines {s : FrontmatterState} {entries : List (String × String)}
    (hkeys : ∀ entry ∈ entries, PlainKey entry.1 ∧ entry.1 ∉ s.keys) (hdistinct : (entries.map Prod.fst).Nodup)
    (hvalues : ∀ entry ∈ entries, canRenderPlain entry.2.toList = true → trimmed entry.2.toList = entry.2.toList) :
    ∃ last, parseLinesFrom s (entries.map fun entry => scalarLine entry.1 entry.2) = .ok last ∧
      last.entries = s.entries ++ entries.map fun entry => ⟨entry.1, .scalar (.string entry.2)⟩ := by
  induction entries generalizing s with
  | nil => exact ⟨s, rfl, by simp⟩
  | cons entry entries ih =>
    obtain ⟨hplain, hnew⟩ := hkeys entry List.mem_cons_self
    obtain ⟨hother, hrest⟩ := List.nodup_cons.mp hdistinct
    have hline := line_scalarLine hplain hnew (hvalues entry List.mem_cons_self)
    obtain ⟨last, hrun, hentries⟩ := ih (s := ⟨s.entries ++ [⟨entry.1, .scalar (.string entry.2)⟩], entry.1 :: s.keys, none⟩)
      (fun next hnext => ⟨(hkeys next (List.mem_cons_of_mem entry hnext)).1, fun hmem => by
        obtain heq | hmem := List.mem_cons.mp hmem
        · exact hother (heq ▸ List.mem_map_of_mem hnext)
        · exact (hkeys next (List.mem_cons_of_mem entry hnext)).2 hmem⟩)
      hrest fun next hnext => hvalues next (List.mem_cons_of_mem entry hnext)
    refine ⟨last, ?_, ?_⟩
    · rw [List.map_cons, parseLinesFrom, hline]
      exact hrun
    · rw [hentries]
      simp

theorem valueOf_append (entries more : List FrontmatterEntry) (key : String) :
    valueOf (entries ++ more) key = (valueOf entries key).or (valueOf more key) := by
  unfold valueOf
  rw [Keyed.lookup_append]
  cases Keyed.lookup FrontmatterEntry.key key entries <;> rfl

theorem valueOf_override (entries : List FrontmatterEntry) (key : String) :
    valueOf (entries.map replacements.override) key =
      (valueOf entries key).map fun old => ((replacements.value key).map fun value => .scalar (.string value)).getD old := by
  have hkey : ∀ e, (replacements.override e).key = e.key := by
    intro e
    unfold Replacements.override
    cases replacements.value e.key <;> rfl
  unfold valueOf Keyed.lookup
  induction entries with
  | nil => rfl
  | cons e entries ih =>
    rw [List.map_cons]
    by_cases he : e.key = key
    · rw [List.find?_cons_of_pos (by simpa [hkey] using he), List.find?_cons_of_pos (by simpa using he)]
      unfold Replacements.override
      rw [he]
      cases replacements.value key <;> rfl
    · rw [List.find?_cons_of_neg (by simpa [hkey] using he), List.find?_cons_of_neg (by simpa using he)]
      exact ih

theorem valueOf_scalars (entries : List (String × String)) (key : String) :
    valueOf (entries.map fun entry => ⟨entry.1, .scalar (.string entry.2)⟩) key =
      ((Keyed.lookup Prod.fst key entries).map Prod.snd).map fun value => .scalar (.string value) := by
  unfold valueOf Keyed.lookup
  rw [List.find?_map, Option.map_map, Option.map_map]
  rfl

theorem bodyOf_suffix {rest before before' : List Char} {lines : List (List Char)} (hrest : rest ≠ []) :
    Markdown.Native.bodyOf (before ++ rest) lines = Markdown.Native.bodyOf (before' ++ rest) lines := by
  unfold Markdown.Native.bodyOf
  rw [List.getLast?_append_of_ne_nil _ hrest, List.getLast?_append_of_ne_nil _ hrest]

theorem oneLine_of_valueOf {document : List Char} {analysis : DocumentAnalysis} (h : analyzeDocument document = .ok analysis)
    {key value : String} (hvalue : valueOf analysis.frontmatter key = some (.scalar (.string value))) : OneLine value.toList := by
  unfold valueOf at hvalue
  obtain ⟨e, hlookup, hscalar⟩ := Option.map_eq_some_iff.mp hvalue
  have hchars := Markdown.analyzeDocument_oneLine h e (Keyed.lookup_mem hlookup).1 (.string value)
    (by rw [hscalar]; exact List.mem_singleton.mpr rfl)
  exact hchars

theorem Document.ended (h : Document text opening content closing after) :
    text = (opening :: content).flatMap PythonLine.whole ++ (closing :: after).flatMap PythonLine.whole ∧
      (closing :: after).flatMap PythonLine.whole ≠ [] := by
  refine ⟨?_, ?_⟩
  · rw [← List.flatMap_append, List.cons_append, ← h.lines, pythonLines_whole]
  · intro hnil
    rw [List.flatMap_cons, PythonLine.whole, List.append_eq_nil_iff, List.append_eq_nil_iff] at hnil
    have hcloses := h.closes
    rw [hnil.1.1] at hcloses
    exact absurd hcloses (by decide)

/-- What a document reads as depends on the lines of its block and its body. -/
theorem Document.analyzed (h : Document text opening content closing after) {analysis : DocumentAnalysis}
    (hanalysis : analyzeDocument text = .ok analysis) :
    ∃ s, parseLinesFrom ⟨[], [], none⟩ (content.map Prod.fst) = .ok s ∧ analysis.hasFrontmatter = true ∧
      analysis.frontmatter = s.entries ∧ analysis.body = Markdown.Native.bodyOf text (after.map Prod.fst) := by
  have hblock := h.block.analyze
  rw [hanalysis] at hblock
  cases hparse : parseLinesFrom ⟨[], [], none⟩ (content.map Prod.fst) with
  | error e =>
    rw [hparse] at hblock
    cases hblock
  | ok s =>
    rw [hparse] at hblock
    have hsame := Except.ok.inj hblock
    exact ⟨s, rfl, congrArg Prod.fst hsame, congrArg (fun read => read.2.1) hsame, congrArg (fun read => read.2.2) hsame⟩

theorem Document.analyze_of (h : Document text opening content closing after) {s : FrontmatterState}
    (hparse : parseLinesFrom ⟨[], [], none⟩ (content.map Prod.fst) = .ok s) : ∃ analysis, analyzeDocument text = .ok analysis := by
  have hblock := h.block.analyze
  rw [hparse] at hblock
  cases hanalysis : analyzeDocument text with
  | error e =>
    rw [hanalysis] at hblock
    cases hblock
  | ok analysis => exact ⟨analysis, rfl⟩

end Documents

/-! ## A status and a list -/

def statusNote : List Char := "---\nstatus: active\n---\n\nbody\n".toList

def archivedStatus : Replacements where
  items := [("status", "archived")]
  keys := by
    intro item hitem
    rw [List.mem_singleton.mp hitem]
    exact ⟨⟨by decide, by decide, by decide, Markdown.Native.oneLine_of_all (by decide), by decide⟩, by decide⟩
  distinct := by decide

def listedNote : List Char := "---\nid: note_plan\nrefs:\n- doc: a\n---\n\nbody\n".toList

def noRefs : Replacements where
  items := [("refs", "none")]
  keys := by
    intro item hitem
    rw [List.mem_singleton.mp hitem]
    exact ⟨⟨by decide, by decide, by decide, Markdown.Native.oneLine_of_all (by decide), by decide⟩, by decide⟩
  distinct := by decide

end Alexandria.Notes
