import Alexandria.Foundations.BlockScan
import Alexandria.References.Lines

/-! # Code fences

Headings and links are both taken from outside the fenced code blocks, found by a scanner each. The scanner of the links
takes a fence behind tabs as well, ends one behind any indent, and takes for the rest of that line what Python takes for
whitespace. So it opens and closes blocks wherever the scanner of the headings does.
-/

namespace Alexandria.References
set_option autoImplicit false

open Text BlockScan

/-! ## The two scanners -/

def linkScanner : Scanner (List Char) LinkFence := ⟨openingFence, fun fence line => closesFence line fence⟩

def headingScanner : Scanner (List Char) Markdown.Native.Fence :=
  ⟨Markdown.Native.openingFence, fun fence line => Markdown.Native.closesFence line fence⟩

def lineText (body : List Char) (line : LogicalLine) : List Char := Utf8.slice body line.start line.endWithEnding

/-- What the lines of a body are to the fences of the link extraction. -/
def linkRoles (body : List Char) : List Role := linkScanner.roles none ((logicalLines body).map (lineText body))

/-- What they are to the fences of the heading extraction. -/
def headingRoles (body : List Char) : List Role :=
  headingScanner.roles none ((Markdown.Native.splitLogicalLines body).map (·.text))

/-- The heading of a line outside the fences. -/
def headingOf (lineNumber : ℕ) (line : Markdown.Native.LogicalLine) : Role → Option Markdown.Native.HeadingEvent
  | .outside => (Markdown.Native.parseAtxHeading line.text).map fun found =>
      ⟨found.1, String.ofList found.2, lineNumber, ⟨line.start, line.stop⟩⟩
  | _ => none

def headingsOf (lineNumber : ℕ) : List (Markdown.Native.LogicalLine × Role) → List Markdown.Native.HeadingEvent
  | [] => []
  | (line, role) :: rest => (headingOf lineNumber line role).toList ++ headingsOf (lineNumber + 1) rest

/-- The headings are those of the lines outside. -/
theorem extractHeadings_roles (lineNumber : ℕ) (fence : Option Markdown.Native.Fence)
    (lines : List Markdown.Native.LogicalLine) :
    Markdown.Native.extractHeadings lineNumber fence lines =
      headingsOf lineNumber (lines.zip (headingScanner.roles fence (lines.map (·.text)))) := by
  induction lines generalizing lineNumber fence with
  | nil => cases fence <;> rfl
  | cons line rest ih =>
    rw [List.map_cons, Scanner.roles, List.zip_cons_cons, headingsOf]
    cases fence with
    | some active =>
      rw [Markdown.Native.extractHeadings, ih]
      have hnone : headingOf lineNumber line (headingScanner.role (some active) line.text) = none := by
        unfold Scanner.role
        dsimp only
        split <;> rfl
      rw [hnone]
      rfl
    | none =>
      rw [Markdown.Native.extractHeadings]
      have hopens : headingScanner.opens line.text = Markdown.Native.openingFence line.text := rfl
      cases hopen : Markdown.Native.openingFence line.text with
      | some opened =>
        simp only [Scanner.role, Scanner.next, hopens, hopen, ih]
        rfl
      | none =>
        cases hheading : Markdown.Native.parseAtxHeading line.text with
        | none =>
          simp only [Scanner.role, Scanner.next, hopens, hopen, ih]
          simp [headingOf, hheading]
        | some found =>
          simp only [Scanner.role, Scanner.next, hopens, hopen, ih]
          simp [headingOf, hheading]

/-- A line in a fence or indented as code is hidden. -/
def isHidden (body : List Char) (line : LogicalLine) (role : Role) : Bool :=
  role.covered || isIndentedCode (lineText body line)

def appendLine (body : List Char) (visible : MappedText) (line : LogicalLine × Role) : MappedText :=
  if isHidden body line.1 line.2 then appendHiddenLine visible body line.1
  else visible.appendOriginalRange body line.1.start line.1.endWithEnding

/-- The visible text is made of the lines outside. -/
theorem linkScan_roles (body : List Char) (scan : LinkScan) (lines : List LogicalLine) :
    (lines.foldl (LinkScan.line body) scan).visible =
      (lines.zip (linkScanner.roles scan.fence (lines.map (lineText body)))).foldl (appendLine body) scan.visible := by
  induction lines generalizing scan with
  | nil => rfl
  | cons line rest ih =>
    have hstep : scan.line body line = ⟨appendLine body scan.visible (line, linkScanner.role scan.fence (lineText body line)),
        linkScanner.next scan.fence (lineText body line)⟩ := by
      have htext : Utf8.slice body line.start line.endWithEnding = lineText body line := rfl
      obtain ⟨visible, fence⟩ := scan
      cases fence with
      | some active =>
        cases hcloses : closesFence (lineText body line) active <;>
          simp [LinkScan.line, appendLine, isHidden, Scanner.role, Scanner.next, linkScanner, htext, hcloses, Role.covered]
      | none =>
        cases hopens : openingFence (lineText body line) with
        | some opened =>
          simp [LinkScan.line, appendLine, isHidden, Scanner.role, Scanner.next, linkScanner, htext, hopens, Role.covered]
        | none =>
          cases hindented : isIndentedCode (lineText body line) <;>
            simp [LinkScan.line, appendLine, isHidden, Scanner.role, Scanner.next, linkScanner, htext, hopens, hindented,
              Role.covered]
    rw [List.foldl_cons, ih, hstep, List.map_cons, Scanner.roles, List.zip_cons_cons, List.foldl_cons]

/-! ## What opens and closes a fence -/

section Shapes
variable {marker : Char}

theorem takeWhile_run {count : ℕ} {rest : List Char} (hrest : rest.head? ≠ some marker) :
    (List.replicate count marker ++ rest).takeWhile (· = marker) = List.replicate count marker := by
  induction count with
  | zero =>
    cases rest with
    | nil => rfl
    | cons c rest =>
      have hc : ¬ c = marker := fun h => hrest (by rw [h]; rfl)
      simp [hc]
  | succ count ih =>
    rw [List.replicate_succ, List.cons_append, List.takeWhile_cons_of_pos (by simp), ih]

/-- A text begins with as many markers as `takeWhile` says, and goes on with something else. -/
theorem run_split (marker : Char) (text : List Char) :
    ∃ rest, text = List.replicate (text.takeWhile (· = marker)).length marker ++ rest ∧
      text.dropWhile (· = marker) = rest ∧ rest.head? ≠ some marker := by
  refine ⟨text.dropWhile (· = marker), ?_, rfl, fun hhead => ?_⟩
  · have hrun : text.takeWhile (· = marker) = List.replicate (text.takeWhile (· = marker)).length marker :=
      List.eq_replicate_of_mem fun c hc => by simpa using List.mem_takeWhile_imp hc
    rw [← hrun, List.takeWhile_append_dropWhile]
  · have hstop := List.head?_dropWhile_not (fun c => decide (c = marker)) text
    rw [hhead] at hstop
    simp at hstop

/-- Behind at most three spaces. -/
theorem stripUpToThreeSpaces_some {line content : List Char}
    (h : Markdown.Native.stripUpToThreeSpaces line = some content) :
    ∃ count ≤ 3, line = List.replicate count ' ' ++ content ∧ content.head? ≠ some ' ' := by
  unfold Markdown.Native.stripUpToThreeSpaces at h
  split at h
  · cases h
  · rename_i hcount
    obtain ⟨rest, hline, hdrop, hhead⟩ := run_split ' ' line
    cases h
    exact ⟨_, Nat.le_of_not_lt hcount, by rw [hdrop]; exact hline, by rw [hdrop]; exact hhead⟩

/-- A fence that has been opened. -/
def IsFence (fence : Markdown.Native.Fence) : Prop :=
  (fence.marker = '\x60' ∨ fence.marker = '~') ∧ 3 ≤ fence.minimumLength

def toLinkFence (fence : Markdown.Native.Fence) : LinkFence := ⟨fence.marker, fence.minimumLength⟩

theorem heading_opens {line : List Char} {fence : Markdown.Native.Fence}
    (h : Markdown.Native.openingFence line = some fence) :
    IsFence fence ∧ ∃ count ≤ 3, ∃ rest, rest.head? ≠ some fence.marker ∧
      line = List.replicate count ' ' ++ (List.replicate fence.minimumLength fence.marker ++ rest) := by
  unfold Markdown.Native.openingFence at h
  split at h
  · cases h
  · cases h
  · rename_i marker content hstrip
    dsimp only at h
    split at h
    · rename_i hfence
      cases h
      obtain ⟨count, hcount, hline, -⟩ := stripUpToThreeSpaces_some hstrip
      obtain ⟨rest, hcontent, -, hhead⟩ := run_split marker (marker :: content)
      exact ⟨hfence, count, hcount, rest, hhead, by rw [hline]; exact congrArg _ hcontent⟩
    · cases h

theorem heading_closes {line : List Char} {fence : Markdown.Native.Fence}
    (h : Markdown.Native.closesFence line fence = true) :
    ∃ count ≤ 3, ∃ length ≥ fence.minimumLength, ∃ rest, (∀ c ∈ rest, isWhitespace c = true) ∧
      line = List.replicate count ' ' ++ (List.replicate length fence.marker ++ rest) := by
  unfold Markdown.Native.closesFence at h
  split at h
  · cases h
  · rename_i content hstrip
    obtain ⟨count, hcount, hline, -⟩ := stripUpToThreeSpaces_some hstrip
    obtain ⟨rest, hcontent, hdrop, -⟩ := run_split fence.marker content
    rw [Bool.and_eq_true, decide_eq_true_eq, hdrop] at h
    exact ⟨count, hcount, _, h.1, rest, List.all_eq_true.mp h.2, by rw [hline, ← hcontent]⟩

end Shapes

theorem ending_ne_marker {ending : List Char} (hbreaks : ∀ c ∈ ending, isLineEnding c = true) {marker : Char}
    (hmarker : marker = '\x60' ∨ marker = '~') : ∀ c ∈ ending, c ≠ marker := by
  intro c hc hcm
  have hbreak := hbreaks c hc
  rw [hcm] at hbreak
  obtain rfl | rfl := hmarker <;> exact absurd hbreak (by decide)

theorem isIndent_space : isIndent ' ' = true := rfl

theorem dropWhile_indent {c : Char} (hc : isIndent c = false) (count : ℕ) (rest : List Char) :
    (List.replicate count ' ' ++ c :: rest).dropWhile isIndent = c :: rest := by
  induction count with
  | zero => simp [hc]
  | succ count ih =>
    rw [List.replicate_succ, List.cons_append, List.dropWhile_cons_of_pos isIndent_space, ih]

/-- What opens a fence for the headings opens it for the links. -/
theorem link_opens {line : EndedLine} {fence : Markdown.Native.Fence}
    (h : Markdown.Native.openingFence line.text = some fence) : openingFence line.full = some (toLinkFence fence) := by
  obtain ⟨⟨hmarker, hlength⟩, count, hcount, rest, hrest, htext⟩ := heading_opens h
  have hnotIndent : isIndent fence.marker = false := by
    obtain hmarker | hmarker := hmarker <;> rw [hmarker] <;> decide
  obtain ⟨length, hsucc⟩ : ∃ length, fence.minimumLength = length + 1 := ⟨fence.minimumLength - 1, by omega⟩
  have hrest' : (rest ++ line.ending).head? ≠ some fence.marker := by
    cases rest with
    | nil =>
      intro hhead
      exact ending_ne_marker line.breaks hmarker _ (List.mem_of_mem_head? hhead) rfl
    | cons c rest => exact hrest
  have hfull : line.full =
      List.replicate count ' ' ++ (List.replicate fence.minimumLength fence.marker ++ (rest ++ line.ending)) := by
    rw [EndedLine.full, htext]
    simp only [List.append_assoc]
  -- The indent ends at the first marker.
  have hindent : (line.full.take 3).takeWhile isIndent = List.replicate count ' ' := by
    rw [hfull, hsucc]
    obtain rfl | rfl | rfl | rfl : count = 0 ∨ count = 1 ∨ count = 2 ∨ count = 3 := by omega
    · simp [List.replicate_succ, hnotIndent]
    · simp [List.replicate_succ, List.takeWhile_cons, hnotIndent, isIndent_space]
    · simp [List.replicate_succ, List.takeWhile_cons, hnotIndent, isIndent_space]
    · simp [List.replicate_succ, isIndent_space]
  have hcontent : line.full.drop ((line.full.take 3).takeWhile isIndent).length =
      fence.marker :: (List.replicate length fence.marker ++ (rest ++ line.ending)) := by
    rw [hindent, List.length_replicate, hfull, hsucc, List.replicate_succ]
    exact List.drop_left' (List.length_replicate ..)
  have hrun : ((fence.marker :: (List.replicate length fence.marker ++ (rest ++ line.ending))).takeWhile
      (· = fence.marker)).length = fence.minimumLength := by
    rw [← List.cons_append, ← List.replicate_succ, ← hsucc, takeWhile_run hrest', List.length_replicate]
  unfold openingFence
  rw [hcontent]
  dsimp only
  rw [hrun, if_pos ⟨hmarker, hlength⟩]
  rfl

/-- What closes a fence for the headings closes it for the links. -/
theorem link_closes {line : EndedLine} {fence : Markdown.Native.Fence} (hfence : IsFence fence)
    (h : Markdown.Native.closesFence line.text fence = true) : closesFence line.full (toLinkFence fence) = true := by
  obtain ⟨count, -, length, hlength, rest, hrest, htext⟩ := heading_closes h
  obtain ⟨hmarker, hminimum⟩ := hfence
  have hnotIndent : isIndent fence.marker = false := by
    obtain hmarker | hmarker := hmarker <;> rw [hmarker] <;> decide
  have hnotBlank : isPythonWhitespace fence.marker = false := by
    obtain hmarker | hmarker := hmarker <;> rw [hmarker] <;> decide
  obtain ⟨tail, hsucc⟩ : ∃ tail, length = tail + 1 := ⟨length - 1, by omega⟩
  have hblank : ∀ c ∈ rest ++ line.ending, isPythonWhitespace c = true := by
    intro c hc
    obtain hc | hc := List.mem_append.mp hc
    · rw [isPythonWhitespace, hrest c hc]
      rfl
    · have hbreaks : ∀ d, isLineEnding d = true → isPythonWhitespace d = true := by
        intro d hd
        simp only [isLineEnding, Bool.or_eq_true, beq_iff_eq] at hd
        obtain ((((((((rfl | rfl) | rfl) | rfl) | rfl) | rfl) | rfl) | rfl) | rfl) | rfl := hd <;> decide
      exact hbreaks c (line.breaks c hc)
  have hstripped : line.full.dropWhile isIndent = List.replicate length fence.marker ++ (rest ++ line.ending) := by
    rw [EndedLine.full, htext, List.append_assoc, List.append_assoc, hsucc, List.replicate_succ, List.cons_append]
    exact dropWhile_indent hnotIndent count _
  have hclosing : trimBy isPythonWhitespace
      ((line.full.dropWhile isIndent).rdropWhile fun c => c == '\r' || c == '\n') =
        List.replicate length fence.marker := by
    rw [trimBy_rdropWhile_of_imp, hstripped, trimBy_append_end hblank]
    · refine trimBy_eq_self fun c hc => ?_
      rw [List.eq_of_mem_replicate hc]
      exact hnotBlank
    · intro c hc
      obtain rfl | rfl : c = '\r' ∨ c = '\n' := by simpa using hc
      · decide
      · decide
  unfold closesFence
  dsimp only
  rw [hclosing, hsucc, List.replicate_succ]
  simp [toLinkFence]
  omega

theorem link_follows : Follows (headingScanner.comap EndedLine.text) (linkScanner.comap EndedLine.full) IsFence toLinkFence where
  opened _ _ h := (heading_opens h).1
  opens _ _ h := link_opens h
  closes _ _ hfence h := link_closes hfence h

/-! ## Where the scanners agree -/

/-- No line outside the fences of the headings opens one for the links alone, and none inside closes one for the links alone. -/
def FencesInStep (body : List Char) : Prop :=
  InStep (headingScanner.comap EndedLine.text) (linkScanner.comap EndedLine.full) toLinkFence none (endedLines body)

theorem linkRoles_ended (body : List Char) :
    linkRoles body = (linkScanner.comap EndedLine.full).roles none (endedLines body) := by
  rw [Scanner.roles_comap, linkRoles]
  exact congrArg _ (logicalLines_texts body)

theorem headingRoles_ended (body : List Char) :
    headingRoles body = (headingScanner.comap EndedLine.text).roles none (endedLines body) := by
  rw [Scanner.roles_comap, headingRoles]
  exact congrArg _ (splitLogicalLines_ended body)

theorem valid_none : ∀ active ∈ (none : Option Markdown.Native.Fence), IsFence active := by simp

/-- The lines are the same to the fences of both extractions just where the links' scanner never acts alone; then the same
lines are fenced. -/
theorem fences_alike (body : List Char) : (linkRoles body = headingRoles body ↔ FencesInStep body) ∧
    (FencesInStep body → (linkRoles body).map Role.covered = (headingRoles body).map Role.covered) := by
  have hroles : linkRoles body = headingRoles body ↔ FencesInStep body := by
    rw [linkRoles_ended, headingRoles_ended]
    exact link_follows.roles_eq_iff valid_none (endedLines body)
  exact ⟨hroles, fun hstep => congrArg _ (hroles.mpr hstep)⟩

/-! ## A fence behind a tab -/

def tabbedBody : List Char := "\t\x60\x60\x60\n# A\n[[B]]\n".toList

/-- Only the links are hidden, so the text has a heading and no link. -/
theorem tabbedBody_fences :
    (linkRoles tabbedBody).map Role.covered ≠ (headingRoles tabbedBody).map Role.covered := by decide

end Alexandria.References
