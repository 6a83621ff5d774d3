import Alexandria.Chunking.Chunker

/-! # The windows of the split loop

Trimmed ranges, the end that a window prefers and the start of the next window, and the source that was selected. Each
definition of the chunker has one lemma that says where its result lies.
-/

namespace Alexandria.Chunking
set_option autoImplicit false

open Text

/-! ## Positions -/

/-- There is a character other than whitespace at this position. -/
def Inked (characters : List Char) (i : ℕ) : Prop := i < characters.length ∧ blankAt characters i = false

/-- Nothing but whitespace between two positions. -/
def BlankBetween (characters : List Char) (start stop : ℕ) : Prop :=
  ∀ i, start ≤ i → i < stop → ¬ Inked characters i

theorem Inked.not_blank {characters : List Char} {i : ℕ} (h : Inked characters i) : ¬ blankAt characters i = true := by
  rw [h.2]
  simp

theorem not_inked_of_blank {characters : List Char} {i : ℕ} (h : blankAt characters i = true) :
    ¬ Inked characters i := fun hi => hi.not_blank h

theorem BlankBetween.trans {characters : List Char} {a b c : ℕ} (h : BlankBetween characters a b)
    (h' : BlankBetween characters b c) : BlankBetween characters a c := by
  intro i ha hc
  by_cases hb : i < b
  · exact h i ha hb
  · exact h' i (Nat.le_of_not_lt hb) hc

theorem length_slice {text : List Char} {base count : ℕ} (h : base + count ≤ text.length) :
    ((text.drop base).take count).length = count := by
  rw [List.length_take, List.length_drop]
  omega

/-- A slice of a text has at each position the character of the text. -/
theorem getElem?_slice (characters : List Char) (start count i : ℕ) (h : i < count) :
    ((characters.drop start).take count)[i]? = characters[start + i]? := by
  rw [List.getElem?_take_of_lt h, List.getElem?_drop]

theorem blankAt_slice (characters : List Char) (start count i : ℕ) (h : i < count) :
    blankAt ((characters.drop start).take count) i = blankAt characters (start + i) := by
  unfold blankAt
  rw [getElem?_slice _ _ _ _ h]

theorem inked_slice (characters : List Char) (start count i : ℕ) (h : i < count) (hc : start + count ≤ characters.length) :
    Inked ((characters.drop start).take count) i ↔ Inked characters (start + i) := by
  unfold Inked
  rw [blankAt_slice _ _ _ _ h, length_slice hc]
  constructor
  · intro hi
    exact ⟨by omega, hi.2⟩
  · intro hi
    exact ⟨h, hi.2⟩

/-! ## Trimming -/

theorem trimFront_spec (characters : List Char) (n i : ℕ) :
    i ≤ trimFront characters n i ∧ trimFront characters n i ≤ i + n ∧
      (∀ j, i ≤ j → j < trimFront characters n i → blankAt characters j = true) ∧
      (trimFront characters n i < i + n → blankAt characters (trimFront characters n i) = false) := by
  induction n generalizing i with
  | zero =>
    refine ⟨Nat.le_refl i, Nat.le_refl i, ?_, ?_⟩
    · intro j hij hj
      simp only [trimFront] at hj
      omega
    · intro h
      simp only [trimFront] at h
      omega
  | succ n ih =>
    obtain ⟨hlow, hhigh, hblank, hstop⟩ := ih (i + 1)
    unfold trimFront
    split
    · rename_i hi
      refine ⟨by omega, by omega, ?_, ?_⟩
      · intro j hij hj
        by_cases hji : j = i
        · subst hji
          exact hi
        · exact hblank j (by omega) hj
      · intro h
        exact hstop (by omega)
    · rename_i hi
      refine ⟨Nat.le_refl i, by omega, ?_, ?_⟩
      · intro j hij hj
        omega
      · intro _
        simpa using hi

theorem trimBack_spec (characters : List Char) (n i : ℕ) (h : n ≤ i) :
    i - n ≤ trimBack characters n i ∧ trimBack characters n i ≤ i ∧
      (∀ j, trimBack characters n i ≤ j → j < i → blankAt characters j = true) ∧
      (i - n < trimBack characters n i → blankAt characters (trimBack characters n i - 1) = false) := by
  induction n generalizing i with
  | zero =>
    refine ⟨Nat.le_refl i, Nat.le_refl i, ?_, ?_⟩
    · intro j hij hj
      simp only [trimBack] at hij
      omega
    · intro hlt
      simp only [trimBack] at hlt
      omega
  | succ n ih =>
    obtain ⟨hlow, hhigh, hblank, hstop⟩ := ih (i - 1) (by omega)
    unfold trimBack
    split
    · rename_i hi
      refine ⟨by omega, by omega, ?_, ?_⟩
      · intro j hij hj
        by_cases hji : j = i - 1
        · subst hji
          exact hi
        · exact hblank j hij (by omega)
      · intro hlt
        exact hstop (by omega)
    · rename_i hi
      refine ⟨by omega, Nat.le_refl i, ?_, ?_⟩
      · intro j hij hj
        omega
      · intro _
        simpa using hi

/-- What trimming a range returns: blank margins, and ends that are not whitespace unless nothing is left. -/
structure Trimmed (characters : List Char) (start stop : ℕ) (bounds : ℕ × ℕ) : Prop where
  low : start ≤ bounds.1
  ordered : bounds.1 ≤ bounds.2
  high : bounds.2 ≤ stop
  before : BlankBetween characters start bounds.1
  after : BlankBetween characters bounds.2 stop
  first : bounds.1 < bounds.2 → blankAt characters bounds.1 = false
  last : bounds.1 < bounds.2 → blankAt characters (bounds.2 - 1) = false

theorem trimmedBounds_trimmed (characters : List Char) (start stop : ℕ) (h : start ≤ stop) :
    Trimmed characters start stop (trimmedBounds characters start stop) := by
  obtain ⟨flow, fhigh, fblank, fstop⟩ := trimFront_spec characters (stop - start) start
  unfold trimmedBounds
  generalize trimFront characters (stop - start) start = front at flow fhigh fblank fstop ⊢
  obtain ⟨blow, bhigh, bblank, bstop⟩ := trimBack_spec characters (stop - front) stop (Nat.sub_le _ _)
  simp only
  generalize trimBack characters (stop - front) stop = back at blow bhigh bblank bstop ⊢
  refine ⟨flow, by show front ≤ back; omega, bhigh, ?_, ?_, ?_, ?_⟩
  · intro i hi hlt
    exact not_inked_of_blank (fblank i hi hlt)
  · intro i hi hlt
    exact not_inked_of_blank (bblank i hi hlt)
  · intro hlt
    have hfront : front < back := hlt
    exact fstop (by omega)
  · intro hlt
    have hback : front < back := hlt
    exact bstop (by omega)

theorem Trimmed.inside {characters : List Char} {start stop i : ℕ} {bounds : ℕ × ℕ}
    (h : Trimmed characters start stop bounds) (low : start ≤ i) (high : i < stop) (hi : Inked characters i) :
    bounds.1 ≤ i ∧ i < bounds.2 := by
  constructor
  · by_contra hlt
    exact h.before i low (Nat.lt_of_not_le hlt) hi
  · by_contra hge
    exact h.after i (Nat.le_of_not_lt hge) high hi

/-- Trimming a range of a slice trims that range of the text. -/
theorem Trimmed.shift {text : List Char} {base count start stop : ℕ} {bounds : ℕ × ℕ}
    (h : Trimmed ((text.drop base).take count) start stop bounds) (hstop : stop ≤ count)
    (hcount : base + count ≤ text.length) :
    Trimmed text (base + start) (base + stop) (base + bounds.1, base + bounds.2) := by
  have hlow := h.low
  have hord := h.ordered
  have hhigh := h.high
  have blank : ∀ a b, b ≤ count → BlankBetween ((text.drop base).take count) a b →
      BlankBetween text (base + a) (base + b) := by
    intro a b hb hblank i hi hlt hink
    have hi' : base + (i - base) = i := by omega
    refine hblank (i - base) (by omega) (by omega) ?_
    rw [inked_slice text base count (i - base) (by omega) hcount, hi']
    exact hink
  refine ⟨by simp only; omega, by simp only; omega, by simp only; omega, ?_, ?_, ?_, ?_⟩
  · exact blank start bounds.1 (by omega) h.before
  · exact blank bounds.2 stop hstop h.after
  · intro hlt
    have hlt' : bounds.1 < bounds.2 := by simp only at hlt; omega
    rw [← blankAt_slice text base count bounds.1 (by omega)]
    exact h.first hlt'
  · intro hlt
    have hlt' : bounds.1 < bounds.2 := by simp only at hlt; omega
    have hpred : base + bounds.2 - 1 = base + (bounds.2 - 1) := by omega
    simp only
    rw [hpred, ← blankAt_slice text base count (bounds.2 - 1) (by omega)]
    exact h.last hlt'

/-! ## The windows of the loop -/

section Windows
variable (characters : List Char) (policy : ChunkPolicy) {start : ℕ}

theorem rfindSeparator_bounds {separator : List Char} {minimum stop boundary : ℕ}
    (h : rfindSeparator characters separator minimum stop = some boundary) :
    minimum ≤ boundary ∧ boundary + separator.length ≤ stop := by
  unfold rfindSeparator at h
  split at h
  · simp at h
  · rename_i hlen
    simp only at h
    split at h
    · simp at h
    · rename_i hmin
      have hmem := List.mem_of_find?_eq_some h
      simp only [List.mem_reverse, List.mem_range'_1] at hmem
      simp only [Bool.or_eq_true, decide_eq_true_eq, not_or, Nat.not_lt] at hlen
      omega

theorem separators_adjust : ∀ separator ∈ separators, 0 < separator.2 ∧ separator.2 ≤ separator.1.length := by
  decide

theorem preferredChunkEnd_bounds {stop : ℕ} (hstop : start < stop) (hlen : stop ≤ characters.length) :
    start < preferredChunkEnd characters start stop ∧ preferredChunkEnd characters start stop ≤ stop := by
  unfold preferredChunkEnd
  split
  · rename_i hge
    omega
  · simp only
    cases hfound : separators.findSome? fun separator =>
        (rfindSeparator characters separator.1 (start + (stop - start) / 2) stop).map (· + separator.2) with
    | none =>
      rw [Option.getD_none]
      omega
    | some boundary =>
      obtain ⟨separator, hmem, hsome⟩ := List.exists_of_findSome?_eq_some hfound
      obtain ⟨position, hposition, rfl⟩ := Option.map_eq_some_iff.mp hsome
      obtain ⟨hlow, hhigh⟩ := rfindSeparator_bounds characters hposition
      obtain ⟨hpos, hadjust⟩ := separators_adjust separator hmem
      rw [Option.getD_some]
      omega

theorem hardEnd_bounds (hstart : start < characters.length) (hlen : characters.length ≤ usizeMax) :
    start < hardEnd policy characters start ∧ hardEnd policy characters start ≤ characters.length ∧
      hardEnd policy characters start ≤ start + policy.maxChars := by
  have hpos := policy.positive
  unfold hardEnd checkedAdd
  split
  · rename_i hnone
    split at hnone
    · simp at hnone
    · omega
  · rename_i candidate hsome
    split at hsome
    · obtain rfl := Option.some.inj hsome
      omega
    · simp at hsome

theorem saturatingAdd_one {i : ℕ} (h : i < usizeMax) : saturatingAdd i 1 = i + 1 := Nat.min_eq_left h

theorem wordStart_bounds (n next : ℕ) (h : next + n ≤ usizeMax) :
    next ≤ wordStart characters n next ∧ wordStart characters n next ≤ next + n := by
  induction n generalizing next with
  | zero =>
    simp only [wordStart]
    omega
  | succ n ih =>
    unfold wordStart
    split
    · omega
    · rw [saturatingAdd_one (by omega)]
      have hstep := ih (next + 1) (by omega)
      omega

/-- The next window starts behind this start and not behind its end. -/
theorem nextStart_bounds {stop : ℕ} (hstop : start < stop) (hlen : stop ≤ usizeMax) :
    start < nextStart characters policy start stop ∧ nextStart characters policy start stop ≤ stop := by
  unfold nextStart
  rw [saturatingAdd_one (by omega)]
  have hword := wordStart_bounds characters (stop - max (start + 1) (stop - policy.overlapChars))
    (max (start + 1) (stop - policy.overlapChars)) (by omega)
  simp only
  omega

end Windows

/-! ## Texts with their offsets -/

theorem byteOffset_new (text : List Char) (i : ℕ) (h : i ≤ text.length) :
    (IndexedText.new text).byteOffset i = Utf8.size (text.take i) := by
  unfold IndexedText.byteOffset IndexedText.new
  rw [List.getD_eq_getElem?_getD, Utf8.offsets_getElem? 0 text i h, Option.getD_some, Nat.zero_add]

theorem slice_new (text : List Char) (i j : ℕ) (hij : i ≤ j) (hj : j ≤ text.length) :
    (IndexedText.new text).slice i j = (text.drop i).take (j - i) := by
  unfold IndexedText.slice
  rw [byteOffset_new text i (Nat.le_trans hij hj), byteOffset_new text j hj]
  exact Utf8.slice_offsets text i j hij

theorem byteToChar_new (text : List Char) (i : ℕ) (h : i ≤ text.length) :
    (IndexedText.new text).byteToChar (Utf8.size (text.take i)) = .ok i := by
  have hidx := Utf8.offsets_idxOf? 0 text i h
  rw [Nat.zero_add] at hidx
  unfold IndexedText.byteToChar IndexedText.new
  rw [hidx]

/-- The source that was selected from a text: its range without the blank margins. -/
structure Selected (text : List Char) (source : SelectedSource) : Prop where
  original : source.original = IndexedText.new text
  range : Trimmed text 0 text.length (source.normalizedCharStart, source.normalizedCharEnd)
  small : text.length ≤ maxDocumentBytes

theorem Selected.normalizedText {text : List Char} {source : SelectedSource} (h : Selected text source) :
    source.normalizedText =
      (text.drop source.normalizedCharStart).take (source.normalizedCharEnd - source.normalizedCharStart) := by
  unfold SelectedSource.normalizedText
  rw [h.original, slice_new text _ _ h.range.ordered h.range.high]

theorem Selected.length_normalizedText {text : List Char} {source : SelectedSource} (h : Selected text source) :
    source.normalizedText.length = source.normalizedCharEnd - source.normalizedCharStart := by
  have hhigh : source.normalizedCharEnd ≤ text.length := h.range.high
  rw [h.normalizedText, List.length_take, List.length_drop]
  omega

/-- The text that `select` takes: the content unless it is blank. -/
def selectedText (document : ChunkDocumentInput) : List Char :=
  let bounds := trimmedBounds document.content 0 document.content.length
  if bounds.1 < bounds.2 then document.content else document.title

theorem select_selected (document : ChunkDocumentInput) :
    Selected (selectedText document) (SelectedSource.select document.title document.content) := by
  have hsizes := document.bounded
  have hcontent := Utf8.length_le_size document.content
  have htitle := Utf8.length_le_size document.title
  by_cases hblank : (trimmedBounds document.content 0 document.content.length).1 <
      (trimmedBounds document.content 0 document.content.length).2
  · have htext : selectedText document = document.content := if_pos hblank
    have hselect : SelectedSource.select document.title document.content =
        ⟨.content, IndexedText.new document.content, (trimmedBounds document.content 0 document.content.length).1,
          (trimmedBounds document.content 0 document.content.length).2⟩ := if_pos hblank
    rw [htext, hselect]
    exact ⟨rfl, trimmedBounds_trimmed _ _ _ (Nat.zero_le _), by omega⟩
  · have htext : selectedText document = document.title := if_neg hblank
    have hselect : SelectedSource.select document.title document.content =
        ⟨.titleFallback, IndexedText.new document.title, (trimmedBounds document.title 0 document.title.length).1,
          (trimmedBounds document.title 0 document.title.length).2⟩ := if_neg hblank
    rw [htext, hselect]
    exact ⟨rfl, trimmedBounds_trimmed _ _ _ (Nat.zero_le _), by omega⟩

end Alexandria.Chunking
