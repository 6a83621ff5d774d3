import Alexandria.Foundations.SplitLines
import Alexandria.Markdown.RoundTrip

/-! # Logical lines are the lines of Python

The native analysis and `str.splitlines` split a text at the same places, so that the lines of a block of joined lines are the
lines of its parts. The positions of the native lines are those of the text.
-/

namespace Alexandria.Markdown.Native
set_option autoImplicit false
open Text

/-- A character between two others is one of those between them. -/
theorem of_between {P : Char → Prop} {a b c : Char} (h : (a ≤ c && c ≤ b) = true)
    (hall : ∀ n, a.toNat ≤ n → n ≤ b.toNat → P (Char.ofNat n)) : P c := by
  obtain ⟨hlow, hhigh⟩ := Bool.and_eq_true_iff.mp h
  rw [← Char.ofNat_toNat c]
  exact hall c.toNat (of_decide_eq_true hlow) (of_decide_eq_true hhigh)

theorem isLineBreak_eq (c : Char) : isLineBreak c = isPythonLineBreak c := by
  have hbreaks : ∀ d ∈ ['\n', '\r', '\x0b', '\x0c', '\x1c', '\x1d', '\x1e', '\u0085', '\u2028', '\u2029'],
      isPythonLineBreak d = true := forall_mem_of_all (by decide)
  rw [Bool.eq_iff_iff]
  constructor
  · intro h
    apply hbreaks
    simpa [isLineBreak, or_assoc] using h
  · intro h
    simp only [isPythonLineBreak, Bool.or_eq_true] at h
    obtain (((h | h) | h) | h) | h := h
    · refine of_between (P := fun c => isLineBreak c = true) h ?_
      intro n hlow hhigh
      simp only [Char.reduceToNat] at hlow hhigh
      interval_cases n <;> decide
    · refine of_between (P := fun c => isLineBreak c = true) h ?_
      intro n hlow hhigh
      simp only [Char.reduceToNat] at hlow hhigh
      interval_cases n <;> decide
    · rw [beq_iff_eq.mp h]
      decide
    · rw [beq_iff_eq.mp h]
      decide
    · rw [beq_iff_eq.mp h]
      decide

theorem oneLine_iff {text : List Char} : OneLine text ↔ Unbroken text := by
  simp only [OneLine, Unbroken, isLineBreak_eq]

/-! ## The texts of the lines -/

theorem splitFrom_texts {s i : ℕ} {line : List Char} (hline : Unbroken line) (text : List Char) :
    (splitFrom s i line text).map LogicalLine.text = splitlines (line ++ text) := by
  induction text using splitlines_induction generalizing s i line with
  | nil =>
    rw [List.append_nil, splitFrom]
    split
    · rename_i hnil
      rw [hnil]
      rfl
    · rename_i hne
      rw [splitlines_unbroken hline hne]
      rfl
  | pair rest ih =>
    have hrest := ih (s := i + 2) (i := i + 2) unbroken_nil
    rw [splitFrom, List.map_cons, hrest, splitlines_append hline (by simp), splitlines]
    simp
  | boundary c rest hc hcr ih =>
    have hrest := ih (s := i + c.utf8Size) (i := i + c.utf8Size) unbroken_nil
    rw [splitFrom.eq_3, if_pos (by rw [isLineBreak_eq]; exact hc), List.map_cons, hrest, splitlines_append hline (by simp),
      splitlines_break hc hcr]
    · simp
    · rintro rest' hreturn rfl
      exact hcr hreturn rfl
  | plain c rest hc ih =>
    have hrest := @ih s (i + c.utf8Size) (line ++ [c]) (by simp [hline, hc])
    rw [splitFrom_cons (by rw [isLineBreak_eq]; exact hc), hrest, List.append_assoc]
    rfl

/-- The native lines of a text are its lines. -/
theorem splitLogicalLines_texts (text : List Char) : (splitLogicalLines text).map LogicalLine.text = splitlines text :=
  splitFrom_texts unbroken_nil text

/-! ## The positions of the lines -/

theorem byteLength_append (a b : List Char) : byteLength (a ++ b) = byteLength a + byteLength b := by
  simp [byteLength]

/-- A line feed ends a line; what follows is split by itself. -/
theorem splitFrom_append_newline {s i : ℕ} {line : List Char} (text rest : List Char) :
    splitFrom s i line (text ++ '\n' :: rest) =
      splitFrom s i line (text ++ ['\n']) ++ splitFrom (i + byteLength text + 1) (i + byteLength text + 1) [] rest := by
  induction text using splitlines_induction generalizing s i line with
  | nil =>
    rw [List.nil_append, List.nil_append, splitFrom_newline, splitFrom_newline]
    rfl
  | pair tail ih =>
    have htail := @ih (i + 2) (i + 2) []
    have hlength : i + byteLength ('\r' :: '\n' :: tail) + 1 = i + 2 + byteLength tail + 1 := by
      rw [byteLength_cons, byteLength_cons, show '\r'.utf8Size = 1 from rfl, show '\n'.utf8Size = 1 from rfl]
      omega
    rw [List.cons_append, List.cons_append, List.cons_append, List.cons_append, splitFrom, splitFrom, htail, hlength,
      List.cons_append]
  | boundary c tail hc hcr ih =>
    have htail := @ih (i + c.utf8Size) (i + c.utf8Size) []
    have hbreak : isLineBreak c = true := by rw [isLineBreak_eq]; exact hc
    by_cases hend : c = '\r' ∧ tail = []
    · obtain ⟨rfl, rfl⟩ := hend
      simp only [List.cons_append, List.nil_append, splitFrom]
      rfl
    · have hkeeps : ∀ (after rest' : List Char), c = '\r' → tail ++ '\n' :: after = '\n' :: rest' → False := by
        intro after rest' hreturn heq
        cases tail with
        | nil => exact hend ⟨hreturn, rfl⟩
        | cons d tail => exact hcr hreturn (congrArg List.head? heq)
      rw [List.cons_append, List.cons_append, splitFrom.eq_3 _ _ _ _ _ (hkeeps rest), splitFrom.eq_3 _ _ _ _ _ (hkeeps []),
        if_pos hbreak, if_pos hbreak, htail, byteLength_cons, List.cons_append, Nat.add_assoc i]
  | plain c tail hc ih =>
    have hplain : isLineBreak c = false := by rw [isLineBreak_eq]; exact hc
    rw [List.cons_append, List.cons_append, splitFrom_cons hplain, splitFrom_cons hplain, ih, byteLength_cons, Nat.add_assoc i]

/-- No line ends after the text. -/
theorem splitFrom_endingEnd {s i : ℕ} {line text : List Char} :
    ∀ l ∈ splitFrom s i line text, l.endingEnd ≤ i + byteLength text := by
  induction text using splitlines_induction generalizing s i line with
  | nil =>
    intro l hl
    rw [splitFrom] at hl
    split at hl
    · cases hl
    · rw [List.mem_singleton.mp hl]
      exact Nat.le_add_right i _
  | pair rest ih =>
    intro l hl
    rw [splitFrom] at hl
    rw [byteLength_cons, byteLength_cons, show '\r'.utf8Size = 1 from rfl, show '\n'.utf8Size = 1 from rfl]
    obtain rfl | hl := List.mem_cons.mp hl
    · simp only
      omega
    · have := ih l hl
      omega
  | boundary c rest hc hcr ih =>
    intro l hl
    rw [splitFrom.eq_3, if_pos (by rw [isLineBreak_eq]; exact hc)] at hl
    · rw [byteLength_cons]
      obtain rfl | hl := List.mem_cons.mp hl
      · simp only
        omega
      · have := ih l hl
        omega
    · rintro rest' hreturn rfl
      exact hcr hreturn rfl
  | plain c rest hc ih =>
    intro l hl
    rw [splitFrom_cons (by rw [isLineBreak_eq]; exact hc)] at hl
    have := ih l hl
    rw [byteLength_cons]
    omega

/-! ## Blocks of joined lines -/

/-- The lines that are joined, each with the lines that it has. -/
theorem splitFrom_block (ls : List (List Char)) (i : ℕ) (rest : List Char) :
    ∃ lines, lines.map LogicalLine.text = ls.flatMap (fun l => splitlines (l ++ ['\n'])) ∧
      (∀ l ∈ lines, l.endingEnd ≤ i + byteLength (ls.flatMap fun l => l ++ ['\n'])) ∧
      splitFrom i i [] ((ls.flatMap fun l => l ++ ['\n']) ++ rest) =
        lines ++ splitFrom (i + byteLength (ls.flatMap fun l => l ++ ['\n'])) (i + byteLength (ls.flatMap fun l => l ++ ['\n'])) []
          rest := by
  induction ls generalizing i with
  | nil => exact ⟨[], rfl, by simp, rfl⟩
  | cons l ls ih =>
    obtain ⟨lines, htexts, hends, hsplit⟩ := ih (i + byteLength l + 1)
    have hlength : byteLength ((l :: ls).flatMap fun l => l ++ ['\n']) =
        byteLength l + 1 + byteLength (ls.flatMap fun l => l ++ ['\n']) := by
      rw [List.flatMap_cons, byteLength_append, byteLength_append]
      rfl
    refine ⟨splitFrom i i [] (l ++ ['\n']) ++ lines, ?_, ?_, ?_⟩
    · rw [List.map_append, splitFrom_texts unbroken_nil, htexts, List.nil_append, List.flatMap_cons]
    · intro line hline
      rw [hlength]
      obtain hline | hline := List.mem_append.mp hline
      · have hend := splitFrom_endingEnd line hline
        rw [byteLength_append, show byteLength ['\n'] = 1 from rfl] at hend
        omega
      · have hend := hends line hline
        omega
    · have hposition : i + byteLength ((l :: ls).flatMap fun l => l ++ ['\n']) =
          i + byteLength l + 1 + byteLength (ls.flatMap fun l => l ++ ['\n']) := by
        rw [hlength]
        omega
      rw [hposition, List.append_assoc, ← hsplit, List.flatMap_cons, List.append_assoc, List.append_assoc, List.singleton_append,
        splitFrom_append_newline]

/-! ## Documents by the texts of their lines -/

def bodyOf (text : List Char) (lines : List (List Char)) : List Char :=
  let body := ['\n'].intercalate lines
  if text.getLast? = some '\n' ∧ body ≠ [] then body ++ ['\n'] else body

/-- A document whose first line opens a block that a later one closes. -/
structure Block (text opening : List Char) (content : List (List Char)) (closing : List Char) (after : List (List Char)) : Prop where
  texts : (splitLogicalLines text).map LogicalLine.text = opening :: (content ++ closing :: after)
  opens : trimmed opening = delimiter
  closes : trimmed closing = delimiter
  inside : ∀ line ∈ content, trimmed line ≠ delimiter

theorem Block.analyze {text opening closing : List Char} {content after : List (List Char)}
    (h : Block text opening content closing after) :
    (analyzeDocument text).map (fun analysis => (analysis.hasFrontmatter, analysis.frontmatter, analysis.body)) =
      (parseLinesFrom ⟨[], [], none⟩ content).map fun s => (true, s.entries, bodyOf text after) := by
  obtain ⟨first, rest, hsplit, rfl, hrest⟩ := List.map_eq_cons_iff.mp h.texts
  obtain ⟨lines, last, rfl, rfl, hlast⟩ := List.map_eq_append_iff.mp hrest
  obtain ⟨stop, more, rfl, rfl, rfl⟩ := List.map_eq_cons_iff.mp hlast
  have hopens : isDelimiter first = true := decide_eq_true h.opens
  have hcloses : (!isDelimiter stop) = false := by
    unfold isDelimiter
    rw [decide_eq_true h.closes]
    rfl
  have hbetween : ∀ line ∈ lines, (!isDelimiter line) = true := by
    intro line hline
    have hne := h.inside line.text (List.mem_map_of_mem hline)
    unfold isDelimiter
    simpa using hne
  have hwhile := takeWhile_append_cons (b := more) hbetween hcloses
  unfold analyzeDocument
  rw [hsplit]
  simp only
  rw [if_pos hopens, hwhile.1, hwhile.2]
  simp only
  unfold parseFrontmatterLines
  cases parseLinesFrom ⟨[], [], none⟩ (lines.map LogicalLine.text) with
  | error e => rfl
  | ok s => rfl

/-- The block of a document that is read with one. -/
theorem block_of_analyze {text : List Char} {analysis : DocumentAnalysis} (h : analyzeDocument text = .ok analysis)
    (hblock : analysis.hasFrontmatter = true) : ∃ opening content closing after, Block text opening content closing after := by
  unfold analyzeDocument at h
  split at h
  · cases h
    cases hblock
  · rename_i opening rest hlines
    split at h
    · rename_i hopens
      simp only at h
      cases hdrop : rest.dropWhile fun line => !isDelimiter line with
      | nil =>
        rw [hdrop] at h
        cases h
      | cons closing after =>
        have hwhole := List.takeWhile_append_dropWhile (p := fun line => !isDelimiter line) (l := rest)
        rw [hdrop] at hwhole
        have hcloses : isDelimiter closing = true := by
          have hhead := List.head?_dropWhile_not (fun line => !isDelimiter line) rest
          rw [hdrop] at hhead
          simpa using hhead
        refine ⟨opening.text, (rest.takeWhile fun line => !isDelimiter line).map LogicalLine.text, closing.text,
          after.map LogicalLine.text, ?_, of_decide_eq_true hopens, of_decide_eq_true hcloses, ?_⟩
        · rw [hlines, List.map_cons]
          congr 1
          calc rest.map LogicalLine.text
              = ((rest.takeWhile fun line => !isDelimiter line) ++ closing :: after).map LogicalLine.text := by rw [hwhole]
            _ = _ := by rw [List.map_append, List.map_cons]
        · intro text htext
          obtain ⟨line, hline, rfl⟩ := List.mem_map.mp htext
          have hno := List.mem_takeWhile_imp hline
          unfold isDelimiter at hno
          simpa using hno
    · cases h
      cases hblock

end Alexandria.Markdown.Native
