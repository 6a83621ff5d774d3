import Alexandria.Markdown.Analysis
import Alexandria.References.Extraction

/-! # The lines of a body

The analysis of a document and the extraction of references split a text into lines each for itself: the first keeps the
texts of the lines, the second their byte offsets with the ends. Both are read off one list of lines with their ends.
-/

namespace Alexandria.References
set_option autoImplicit false

/-- A line and the line break that ends it, if one does. -/
structure EndedLine where
  text : List Char
  ending : List Char
  breaks : ∀ c ∈ ending, isLineEnding c = true

def EndedLine.full (line : EndedLine) : List Char := line.text ++ line.ending

theorem returnFeed_ending : ∀ c ∈ ['\r', '\n'], isLineEnding c = true := by
  simp [isLineEnding]

/-- The lines of what is left, the first of which has begun. -/
def endedFrom (begun : List Char) : List Char → List EndedLine
  | [] => if begun = [] then [] else [⟨begun, [], by simp⟩]
  | '\r' :: '\n' :: rest => ⟨begun, ['\r', '\n'], returnFeed_ending⟩ :: endedFrom [] rest
  | c :: rest =>
    if h : isLineEnding c = true then ⟨begun, [c], by simpa using h⟩ :: endedFrom [] rest else endedFrom (begun ++ [c]) rest

def endedLines (text : List Char) : List EndedLine := endedFrom [] text

theorem isLineBreak_eq_isLineEnding (c : Char) : Markdown.Native.isLineBreak c = isLineEnding c := by
  unfold Markdown.Native.isLineBreak isLineEnding
  rw [Bool.or_comm (c == '\n') (c == '\r')]

attribute [local simp] endedFrom logicalLinesFrom

/-- The lines of the analysis. -/
theorem splitFrom_ended (s i : ℕ) (begun text : List Char) :
    (Markdown.Native.splitFrom s i begun text).map (·.text) = (endedFrom begun text).map (·.text) := by
  induction begun, text using endedFrom.induct generalizing s i with
  | case1 => rfl
  | case2 begun hbegun => simp [Markdown.Native.splitFrom, endedFrom, hbegun]
  | case3 begun rest ih =>
    rw [Markdown.Native.splitFrom, endedFrom, List.map_cons, List.map_cons, ih]
  | case4 begun c rest hpair hbreak ih =>
    rw [Markdown.Native.splitFrom.eq_3 _ _ _ _ _ hpair, endedFrom.eq_3 _ _ _ hpair, isLineBreak_eq_isLineEnding,
      if_pos hbreak, dif_pos hbreak, List.map_cons, List.map_cons, ih]
  | case5 begun c rest hpair hplain ih =>
    rw [Markdown.Native.splitFrom.eq_3 _ _ _ _ _ hpair, endedFrom.eq_3 _ _ _ hpair, isLineBreak_eq_isLineEnding,
      if_neg hplain, dif_neg hplain, ih]

theorem splitLogicalLines_ended (text : List Char) :
    (Markdown.Native.splitLogicalLines text).map (·.text) = (endedLines text).map (·.text) := splitFrom_ended 0 0 [] text

/-- Lines that follow each other from a byte on. -/
def spans (start : ℕ) : List EndedLine → List LogicalLine
  | [] => []
  | line :: rest => ⟨start, start + Utf8.size line.full⟩ :: spans (start + Utf8.size line.full) rest

/-- The lines of the extraction. -/
theorem logicalLinesFrom_ended (s : ℕ) (begun text : List Char) :
    logicalLinesFrom s (s + Utf8.size begun) text = spans s (endedFrom begun text) := by
  induction begun, text using endedFrom.induct generalizing s with
  | case1 => simp [logicalLinesFrom, endedFrom, spans, Utf8.size]
  | case2 begun hbegun =>
    have hpos : 0 < Utf8.size begun :=
      Nat.lt_of_lt_of_le (List.length_pos_of_ne_nil hbegun) (Utf8.length_le_size begun)
    simp [logicalLinesFrom, endedFrom, spans, hbegun, EndedLine.full, hpos]
  | case3 begun rest ih =>
    have hsize : s + Utf8.size begun + 2 = s + Utf8.size (begun ++ ['\r', '\n']) := by
      rw [Utf8.size_append]
      rfl
    have hrest := ih (s + Utf8.size (begun ++ ['\r', '\n']))
    rw [show Utf8.size [] = 0 from rfl, Nat.add_zero] at hrest
    rw [logicalLinesFrom, endedFrom, spans, EndedLine.full, hsize, hrest]
  | case4 begun c rest hpair hbreak ih =>
    have hsize : s + Utf8.size begun + c.utf8Size = s + Utf8.size (begun ++ [c]) := by
      rw [Utf8.size_append, Utf8.size_cons, Nat.add_assoc]
      rfl
    have hrest := ih (s + Utf8.size (begun ++ [c]))
    rw [show Utf8.size [] = 0 from rfl, Nat.add_zero] at hrest
    rw [logicalLinesFrom.eq_3 _ _ _ _ hpair, endedFrom.eq_3 _ _ _ hpair, if_pos hbreak, dif_pos hbreak, spans,
      EndedLine.full, hsize, hrest]
  | case5 begun c rest hpair hplain ih =>
    have hsize : s + Utf8.size begun + c.utf8Size = s + Utf8.size (begun ++ [c]) := by
      rw [Utf8.size_append, Utf8.size_cons, Nat.add_assoc]
      rfl
    rw [logicalLinesFrom.eq_3 _ _ _ _ hpair, endedFrom.eq_3 _ _ _ hpair, if_neg hplain, dif_neg hplain, hsize, ih]

theorem logicalLines_ended (text : List Char) : logicalLines text = spans 0 (endedLines text) :=
  logicalLinesFrom_ended 0 [] text

/-- The lines make up the text. -/
theorem endedFrom_full (begun text : List Char) : (endedFrom begun text).flatMap EndedLine.full = begun ++ text := by
  induction begun, text using endedFrom.induct with
  | case1 => rfl
  | case2 begun hbegun => simp [endedFrom, hbegun, EndedLine.full]
  | case3 begun rest ih => simp [endedFrom, ih, EndedLine.full]
  | case4 begun c rest hpair hbreak ih =>
    rw [endedFrom.eq_3 _ _ _ hpair, dif_pos hbreak, List.flatMap_cons, ih, EndedLine.full, List.append_assoc]
    rfl
  | case5 begun c rest hpair hplain ih =>
    rw [endedFrom.eq_3 _ _ _ hpair, dif_neg hplain, ih, List.append_assoc]
    rfl

theorem endedLines_full (text : List Char) : (endedLines text).flatMap EndedLine.full = text := endedFrom_full [] text

theorem spans_slice (before : List Char) (lines : List EndedLine) (after : List Char) :
    (spans (Utf8.size before) lines).map (fun line =>
      Utf8.slice (before ++ lines.flatMap EndedLine.full ++ after) line.start line.endWithEnding) =
        lines.map EndedLine.full := by
  induction lines generalizing before with
  | nil => rfl
  | cons line rest ih =>
    have hrest := ih (before ++ line.full)
    rw [Utf8.size_append] at hrest
    have htext : before ++ (line :: rest).flatMap EndedLine.full ++ after =
        before ++ line.full ++ (rest.flatMap EndedLine.full ++ after) := by
      rw [List.flatMap_cons]
      simp only [List.append_assoc]
    rw [spans, List.map_cons, List.map_cons, htext, Utf8.slice_middle, ← List.append_assoc, hrest]

/-- The texts of the extraction's lines. -/
theorem logicalLines_texts (text : List Char) :
    (logicalLines text).map (fun line => Utf8.slice text line.start line.endWithEnding) =
      (endedLines text).map EndedLine.full := by
  have hspans := spans_slice [] (endedLines text) []
  rwa [List.nil_append, List.append_nil, endedLines_full, show Utf8.size [] = 0 from rfl, ← logicalLines_ended] at hspans

end Alexandria.References
