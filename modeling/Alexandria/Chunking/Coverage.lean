import Alexandria.Chunking.Windows
import Mathlib.Data.List.Range

/-! # What the chunks cover

Every window of the split loop is passed by one invariant, `Covered`: up to a position of the source, the chunks so far
hold every character that is not whitespace. The loop moves the position forward, never past the end of the window it
has just emitted; blank gaps between the sections move it for free.
-/

namespace Alexandria.Chunking
set_option autoImplicit false

open Text

/-! ## Chunks -/

/-- One chunk against the text it was cut from. -/
structure ChunkSound (text : List Char) (policy : ChunkPolicy) (chunk : ChunkRecord) : Prop where
  ordered : chunk.sourceRange.charStart < chunk.sourceRange.charEnd
  within : chunk.sourceRange.charEnd ≤ text.length
  chars : chunk.content =
    (text.drop chunk.sourceRange.charStart).take (chunk.sourceRange.charEnd - chunk.sourceRange.charStart)
  byteStart : chunk.sourceRange.byteStart = Utf8.size (text.take chunk.sourceRange.charStart)
  byteEnd : chunk.sourceRange.byteEnd = Utf8.size (text.take chunk.sourceRange.charEnd)
  first : blankAt text chunk.sourceRange.charStart = false
  last : blankAt text (chunk.sourceRange.charEnd - 1) = false
  short : chunk.sourceRange.charEnd - chunk.sourceRange.charStart ≤ policy.maxChars

/-- The chunks so far, against the text up to position `p`. -/
structure Covered (text : List Char) (policy : ChunkPolicy) (p : ℕ) (chunks : List ChunkRecord) : Prop where
  sound : ∀ chunk ∈ chunks, ChunkSound text policy chunk
  indexes : chunks.map (·.chunkIndex) = List.range chunks.length
  sorted : (chunks.map (·.sourceRange.charStart)).Pairwise (· ≤ ·)
  /-- No chunk starts behind a character that is still to come. -/
  ahead : ∀ chunk ∈ chunks, ∀ i, p ≤ i → Inked text i → chunk.sourceRange.charStart ≤ i
  covers : ∀ i < p, Inked text i →
    ∃ chunk ∈ chunks, chunk.sourceRange.charStart ≤ i ∧ i < chunk.sourceRange.charEnd

section Progress
variable {text : List Char} {policy : ChunkPolicy} {p q : ℕ} {chunks : List ChunkRecord}

theorem Covered.nil : Covered text policy 0 [] :=
  ⟨by simp, rfl, List.Pairwise.nil, by simp, by simp⟩

/-- Whitespace is passed without a chunk. -/
theorem Covered.skip (h : Covered text policy p chunks) (hpq : p ≤ q) (blank : BlankBetween text p q) :
    Covered text policy q chunks := by
  refine ⟨h.sound, h.indexes, h.sorted, ?_, ?_⟩
  · intro chunk hc i hi hink
    exact h.ahead chunk hc i (Nat.le_trans hpq hi) hink
  · intro i hi hink
    by_cases hp : i < p
    · exact h.covers i hp hink
    · exact absurd hink (blank i (Nat.le_of_not_lt hp) hi)

/-- The chunk of the window from `p` to `stop` lets the position move anywhere inside the window. -/
theorem Covered.push {stop : ℕ} {chunk : ChunkRecord} (h : Covered text policy p chunks)
    (sound : ChunkSound text policy chunk) (index : chunk.chunkIndex = chunks.length)
    (trimmed : Trimmed text p stop (chunk.sourceRange.charStart, chunk.sourceRange.charEnd)) (hpq : p ≤ q)
    (hq : q ≤ stop) : Covered text policy q (chunks ++ [chunk]) := by
  have hstart : Inked text chunk.sourceRange.charStart :=
    ⟨Nat.lt_of_lt_of_le sound.ordered sound.within, sound.first⟩
  refine ⟨?_, ?_, ?_, ?_, ?_⟩
  · intro c hc
    obtain hc | hc := List.mem_append.mp hc
    · exact h.sound c hc
    · rw [List.mem_singleton.mp hc]
      exact sound
  · rw [List.map_append, h.indexes, List.length_append, List.map_singleton, index]
    exact List.range_succ.symm
  · rw [List.map_append, List.pairwise_append]
    refine ⟨h.sorted, by simp, ?_⟩
    intro a ha b hb
    obtain ⟨c, hc, rfl⟩ := List.mem_map.mp ha
    rw [List.map_singleton, List.mem_singleton] at hb
    rw [hb]
    exact h.ahead c hc _ trimmed.low hstart
  · intro c hc i hi hink
    obtain hc | hc := List.mem_append.mp hc
    · exact h.ahead c hc i (Nat.le_trans hpq hi) hink
    · rw [List.mem_singleton.mp hc]
      by_contra hlt
      exact trimmed.before i (Nat.le_trans hpq hi) (Nat.lt_of_not_le hlt) hink
  · intro i hi hink
    by_cases hp : i < p
    · obtain ⟨c, hc, hrange⟩ := h.covers i hp hink
      exact ⟨c, List.mem_append_left _ hc, hrange⟩
    · have hin := trimmed.inside (Nat.le_of_not_lt hp) (Nat.lt_of_lt_of_le hi hq) hink
      exact ⟨chunk, by simp, hin⟩

end Progress

/-! ## One section -/

section OneSection
variable {text : List Char} {source : SelectedSource} {sec : Section} {policy : ChunkPolicy} {chunks : List ChunkRecord}

/-- A section of the selected range. -/
structure Placed (source : SelectedSource) (sec : Section) : Prop where
  ordered : sec.charStart ≤ sec.charEnd
  inside : source.normalizedCharStart + sec.charEnd ≤ source.normalizedCharEnd

theorem checkedAdd_eq {a b : ℕ} (h : a + b ≤ usizeMax) : checkedAdd a b = some (a + b) := if_pos h

theorem maxDocumentBytes_le : maxDocumentBytes ≤ usizeMax := by decide

/-- The characters of a section, as they stand in the text. -/
theorem section_characters (hsource : Selected text source) (hsec : Placed source sec) :
    (source.normalizedText.drop sec.charStart).take (sec.charEnd - sec.charStart) =
      (text.drop (source.normalizedCharStart + sec.charStart)).take (sec.charEnd - sec.charStart) := by
  have hord := hsec.ordered
  have hin := hsec.inside
  rw [hsource.normalizedText, List.drop_take, List.drop_drop, List.take_take]
  congr 1
  omega

theorem chunkAt_sound (hsource : Selected text source) (hsec : Placed source sec) (index : ℕ) {ts te : ℕ} (hlt : ts < te)
    (hte : sec.charStart + te ≤ sec.charEnd) (hshort : te - ts ≤ policy.maxChars)
    (first : blankAt text (source.normalizedCharStart + sec.charStart + ts) = false)
    (last : blankAt text (source.normalizedCharStart + sec.charStart + te - 1) = false) :
    ∃ chunk, chunkAt source (IndexedText.new source.normalizedText) sec index ts te = .ok chunk ∧
      ChunkSound text policy chunk ∧ chunk.chunkIndex = index ∧
      chunk.sourceRange.charStart = source.normalizedCharStart + sec.charStart + ts ∧
      chunk.sourceRange.charEnd = source.normalizedCharStart + sec.charStart + te := by
  have hin := hsec.inside
  have hhigh : source.normalizedCharEnd ≤ text.length := hsource.range.high
  have hmax := Nat.le_trans hsource.small maxDocumentBytes_le
  have hnorm := hsource.length_normalizedText
  have hslice : (IndexedText.new source.normalizedText).slice (sec.charStart + ts) (sec.charStart + te) =
      (text.drop (source.normalizedCharStart + sec.charStart + ts)).take (te - ts) := by
    rw [slice_new _ _ _ (by omega) (by omega), hsource.normalizedText, List.drop_take, List.drop_drop, List.take_take,
      Nat.add_assoc]
    congr 1
    omega
  have hbytes : ∀ i, i ≤ te → source.original.byteOffset (source.normalizedCharStart + (sec.charStart + i)) =
      Utf8.size (text.take (source.normalizedCharStart + (sec.charStart + i))) := by
    intro i hi
    rw [hsource.original, byteOffset_new text _ (by omega)]
  unfold chunkAt
  rw [checkedAdd_eq (by omega), checkedAdd_eq (by omega)]
  simp only
  rw [checkedAdd_eq (by omega), checkedAdd_eq (by omega)]
  refine ⟨_, rfl, ⟨?_, ?_, ?_, hbytes ts (Nat.le_of_lt hlt), hbytes te (Nat.le_refl te), ?_, ?_, ?_⟩, rfl, ?_, ?_⟩
  · simp only
    omega
  · simp only
    omega
  · simp only
    rw [hslice, Nat.add_assoc]
    congr 1
    omega
  · rw [Nat.add_assoc] at first
    exact first
  · rw [Nat.add_assoc] at last
    exact last
  · simp only
    omega
  · exact (Nat.add_assoc _ _ _).symm
  · exact (Nat.add_assoc _ _ _).symm

/-- One round: the position may move anywhere inside the window, or the output is full. -/
theorem emit_covered (hsource : Selected text source) (hsec : Placed source sec) {start stop : ℕ} (hstart : start ≤ stop)
    (hstop : sec.charStart + stop ≤ sec.charEnd) (hshort : stop - start ≤ policy.maxChars)
    (h : Covered text policy (source.normalizedCharStart + sec.charStart + start) chunks) :
    (∃ chunks', emit source (IndexedText.new source.normalizedText) sec
        ((text.drop (source.normalizedCharStart + sec.charStart)).take (sec.charEnd - sec.charStart)) start stop
        chunks = .ok chunks' ∧ ∀ next, start ≤ next → next ≤ stop →
          Covered text policy (source.normalizedCharStart + sec.charStart + next) chunks') ∨
      (emit source (IndexedText.new source.normalizedText) sec
        ((text.drop (source.normalizedCharStart + sec.charStart)).take (sec.charEnd - sec.charStart)) start stop
        chunks = .error capacityFailure ∧ maxChunksPerDocument ≤ chunks.length) := by
  have hin := hsec.inside
  have hhigh : source.normalizedCharEnd ≤ text.length := hsource.range.high
  have htrim := trimmedBounds_trimmed
    ((text.drop (source.normalizedCharStart + sec.charStart)).take (sec.charEnd - sec.charStart)) start stop hstart
  have htext := htrim.shift (by omega) (by omega)
  unfold emit
  simp only
  split
  · rename_i hlt
    split
    · rename_i hfull
      exact .inr ⟨rfl, hfull⟩
    · have hlow := htrim.low
      have hend := htrim.high
      have hwidth := Nat.le_trans (Nat.sub_le_sub_left hlow _) (Nat.le_trans (Nat.sub_le_sub_right hend start) hshort)
      obtain ⟨chunk, hchunk, hsound, hindex, hcs, hce⟩ := chunkAt_sound hsource hsec chunks.length hlt (by omega) hwidth
        (htext.first (by simp only; omega)) (htext.last (by simp only; omega))
      rw [hchunk]
      refine .inl ⟨_, rfl, ?_⟩
      intro next hnext hle
      rw [← hcs, ← hce] at htext
      exact h.push hsound hindex htext (by omega) (by omega)
  · rename_i hblank
    refine .inl ⟨chunks, rfl, ?_⟩
    intro next hnext hle
    have hempty : BlankBetween text (source.normalizedCharStart + sec.charStart + start)
        (source.normalizedCharStart + sec.charStart + stop) := by
      have hord := htext.ordered
      refine htext.before.trans ?_
      intro i hi hlt
      exact htext.after i (by simp only at hi hord ⊢; omega) hlt
    refine h.skip (by omega) ?_
    intro i hi hlt
    exact hempty i hi (by omega)

/-- What a split returns: chunks that cover the text up to `p`, or the report that the output is full. -/
def SplitTo (text : List Char) (policy : ChunkPolicy) (p : ℕ)
    (result : Option (Except ChunkingFailure (List ChunkRecord))) : Prop :=
  (∃ chunks, result = some (.ok chunks) ∧ Covered text policy p chunks) ∨
    (result = some (.error capacityFailure) ∧
      ∃ q full, Covered text policy q full ∧ maxChunksPerDocument ≤ full.length)

/-- The loop, by induction on its fuel: the next start is behind this one, so the fuel lasts. -/
theorem splitLoop_splitTo (hsource : Selected text source) (hsec : Placed source sec) (fuel start : ℕ)
    (chunks : List ChunkRecord) (hfuel : sec.charEnd - sec.charStart < fuel + start)
    (hstart : start ≤ sec.charEnd - sec.charStart)
    (h : Covered text policy (source.normalizedCharStart + sec.charStart + start) chunks) :
    SplitTo text policy (source.normalizedCharStart + sec.charEnd)
      (splitLoop source (IndexedText.new source.normalizedText) sec policy
        ((text.drop (source.normalizedCharStart + sec.charStart)).take (sec.charEnd - sec.charStart)) fuel start
        chunks) := by
  have hord := hsec.ordered
  have hin := hsec.inside
  have hhigh : source.normalizedCharEnd ≤ text.length := hsource.range.high
  have hmax := Nat.le_trans hsource.small maxDocumentBytes_le
  have hlen : ((text.drop (source.normalizedCharStart + sec.charStart)).take (sec.charEnd - sec.charStart)).length =
      sec.charEnd - sec.charStart := length_slice (by omega)
  have hend : source.normalizedCharStart + sec.charStart + (sec.charEnd - sec.charStart) =
      source.normalizedCharStart + sec.charEnd := by omega
  induction fuel generalizing start chunks with
  | zero => omega
  | succ fuel ih =>
    unfold splitLoop
    split
    · rename_i hlt
      obtain ⟨hhard, hhardLen, hhardMax⟩ := hardEnd_bounds _ policy hlt (by omega)
      obtain ⟨hstop, hstopHard⟩ := preferredChunkEnd_bounds _ hhard hhardLen
      simp only
      generalize preferredChunkEnd _ start (hardEnd policy _ start) = stop at hstop hstopHard ⊢
      obtain ⟨chunks', hemit, hcov⟩ | ⟨hemit, hfull⟩ := emit_covered hsource hsec (Nat.le_of_lt hstop) (by omega)
        (by omega) h
      · rw [hemit]
        simp only
        split
        · rename_i hge
          refine .inl ⟨chunks', rfl, ?_⟩
          rw [← hend]
          exact hcov _ (by omega) (by omega)
        · rename_i hmore
          obtain ⟨hnext, hnextStop⟩ := nextStart_bounds
            ((text.drop (source.normalizedCharStart + sec.charStart)).take (sec.charEnd - sec.charStart)) policy hstop
            (by omega)
          exact ih _ chunks' (by omega) (by omega) (hcov _ (by omega) hnextStop)
      · rw [hemit]
        exact .inr ⟨rfl, _, _, h, hfull⟩
    · rename_i hge
      have hall : start = sec.charEnd - sec.charStart := by omega
      rw [hall, hend] at h
      exact .inl ⟨chunks, rfl, h⟩

theorem splitSection_splitTo (hsource : Selected text source) (hsec : Placed source sec)
    (h : Covered text policy (source.normalizedCharStart + sec.charStart) chunks) :
    SplitTo text policy (source.normalizedCharStart + sec.charEnd)
      (splitSection source (IndexedText.new source.normalizedText) sec policy chunks) := by
  have hord := hsec.ordered
  unfold splitSection
  split
  · rename_i hge
    have hend : sec.charEnd = sec.charStart := by omega
    rw [hend]
    exact .inl ⟨chunks, rfl, h⟩
  · have hin := hsec.inside
    have hhigh : source.normalizedCharEnd ≤ text.length := hsource.range.high
    have hchars : ((IndexedText.new source.normalizedText).characters.drop sec.charStart).take
        (sec.charEnd - sec.charStart) =
        (text.drop (source.normalizedCharStart + sec.charStart)).take (sec.charEnd - sec.charStart) :=
      section_characters hsource hsec
    simp only
    rw [hchars, length_slice (by omega)]
    exact splitLoop_splitTo hsource hsec _ 0 chunks (by omega) (by omega) h

end OneSection

/-! ## All sections -/

/-- The sections follow each other from `p` to the end of the text, with nothing but whitespace between them. -/
def Spans (normalized : List Char) : ℕ → List Section → Prop
  | p, [] => p ≤ normalized.length ∧ BlankBetween normalized p normalized.length
  | p, sec :: rest =>
    (p ≤ sec.charStart ∧ sec.charStart ≤ sec.charEnd ∧ BlankBetween normalized p sec.charStart) ∧
      Spans normalized sec.charEnd rest

theorem Spans.le_length {normalized : List Char} {p : ℕ} {sections : List Section}
    (h : Spans normalized p sections) : p ≤ normalized.length := by
  induction sections generalizing p with
  | nil => exact h.1
  | cons sec rest ih =>
    obtain ⟨⟨hlow, hord, -⟩, hrest⟩ := h
    have hend := ih hrest
    omega

/-- A section may start earlier when only whitespace is added in front of it. -/
theorem Spans.earlier {normalized : List Char} {p q : ℕ} {sections : List Section}
    (h : Spans normalized q sections) (hpq : p ≤ q) (blank : BlankBetween normalized p q) :
    Spans normalized p sections := by
  cases sections with
  | nil => exact ⟨Nat.le_trans hpq h.1, blank.trans h.2⟩
  | cons sec rest =>
    obtain ⟨⟨hlow, hord, hblank⟩, hrest⟩ := h
    exact ⟨⟨Nat.le_trans hpq hlow, hord, blank.trans hblank⟩, hrest⟩

theorem spans_trimmed {normalized : List Char} {p q : ℕ} {heading : Option (List Char)} {path : List (List Char)}
    {rest : List Section} (hpq : p ≤ q) (h : Spans normalized q rest) :
    Spans normalized p (⟨heading, path, (trimmedBounds normalized p q).1, (trimmedBounds normalized p q).2⟩ :: rest) := by
  have htrim := trimmedBounds_trimmed normalized p q hpq
  exact ⟨⟨htrim.low, htrim.ordered, htrim.before⟩, h.earlier htrim.high htrim.after⟩

/-- The matches of the headings, from left to right. -/
def Ascending (normalized : List Char) (found : List HeadingMatch) : Prop :=
  (found.map (·.startChar)).Pairwise (· < ·) ∧ ∀ heading ∈ found, heading.startChar < normalized.length

theorem headingMatches_ascending (text : List Char) (captures : List HeadingCapture)
    (increasing : (captures.map (·.start)).Pairwise (· < ·))
    (boundaries : ∀ found ∈ captures, ∃ i < text.length, found.start = Utf8.size (text.take i)) :
    ∃ found, headingMatches (IndexedText.new text) captures = .ok found ∧ Ascending text found ∧
      captures.map (·.start) = found.map fun heading => Utf8.size (text.take heading.startChar) := by
  induction captures with
  | nil => exact ⟨[], rfl, ⟨List.Pairwise.nil, by simp⟩, rfl⟩
  | cons capture rest ih =>
    rw [List.map_cons, List.pairwise_cons] at increasing
    obtain ⟨found, hfound, ⟨hsorted, hwithin⟩, hstarts⟩ :=
      ih increasing.2 fun c hc => boundaries c (List.mem_cons_of_mem _ hc)
    obtain ⟨i, hi, hstart⟩ := boundaries capture (List.mem_cons_self ..)
    unfold headingMatches
    rw [hstart, byteToChar_new text i (Nat.le_of_lt hi), hfound]
    refine ⟨_, rfl, ⟨?_, ?_⟩, ?_⟩
    · rw [List.map_cons, List.pairwise_cons]
      refine ⟨?_, hsorted⟩
      intro j hj
      obtain ⟨heading, hheading, rfl⟩ := List.mem_map.mp hj
      have hbytes : capture.start < Utf8.size (text.take heading.startChar) := by
        apply increasing.1
        rw [hstarts]
        exact List.mem_map_of_mem hheading
      by_contra hle
      have hmono : Utf8.size (text.take heading.startChar) ≤ Utf8.size (text.take i) :=
        Utf8.size_take_le text (Nat.le_of_not_lt hle)
      omega
    · intro heading hheading
      obtain rfl | hheading := List.mem_cons.mp hheading
      · exact hi
      · exact hwithin heading hheading
    · rw [List.map_cons, List.map_cons, hstart, hstarts]

theorem headingSections_spans (text : List Char) (hierarchy : List (List Char)) (first : HeadingMatch)
    (rest : List HeadingMatch) (h : Ascending text (first :: rest)) :
    Spans text first.startChar (headingSections (IndexedText.new text) hierarchy (first :: rest)) := by
  induction rest generalizing hierarchy first with
  | nil =>
    have hlt := h.2 first (List.mem_cons_self ..)
    refine spans_trimmed (Nat.le_of_lt hlt) ⟨Nat.le_refl _, ?_⟩
    intro i hi hlen
    exact absurd hlen (Nat.not_lt_of_le hi)
  | cons next rest ih =>
    have hsorted := List.pairwise_cons.mp h.1
    have hlt : first.startChar < next.startChar := hsorted.1 _ (List.mem_cons_self ..)
    refine spans_trimmed (Nat.le_of_lt hlt) (ih _ next ⟨hsorted.2, ?_⟩)
    intro heading hheading
    exact h.2 heading (List.mem_cons_of_mem _ hheading)

theorem sectionsForText_spans (text title : List Char) (pattern : HeadingPattern) :
    ∃ sections, sectionsForText (IndexedText.new text) title pattern = .ok sections ∧ Spans text 0 sections := by
  obtain ⟨found, hfound, hasc, -⟩ := headingMatches_ascending text (pattern.capturesIter text)
    (pattern.increasing text) (pattern.boundaries text)
  have hmatches : headingMatches (IndexedText.new text) (pattern.capturesIter (IndexedText.new text).text) = .ok found :=
    hfound
  unfold sectionsForText
  rw [hmatches]
  cases found with
  | nil =>
    refine ⟨_, rfl, ⟨Nat.le_refl 0, Nat.zero_le _, ?_⟩, Nat.le_refl _, ?_⟩
    · intro i hi hlt
      exact absurd hlt (Nat.not_lt_of_le hi)
    · intro i hi hlt
      exact absurd hlt (Nat.not_lt_of_le hi)
  | cons first rest =>
    have hspans := headingSections_spans text [] first rest hasc
    refine ⟨_, rfl, ?_⟩
    by_cases hzero : first.startChar > 0
    · simp only [if_pos hzero, List.singleton_append]
      exact spans_trimmed (Nat.le_of_lt hzero) hspans
    · have hstart : first.startChar = 0 := by omega
      simp only [if_neg hzero, List.nil_append]
      rw [hstart] at hspans
      exact hspans

/-- Blank between two positions of the selected range is blank in the text. -/
theorem BlankBetween.ofNormalized {text : List Char} {source : SelectedSource} (hsource : Selected text source) {a b : ℕ}
    (h : BlankBetween source.normalizedText a b) (hb : b ≤ source.normalizedText.length) :
    BlankBetween text (source.normalizedCharStart + a) (source.normalizedCharStart + b) := by
  have hlen := hsource.length_normalizedText
  have hhigh : source.normalizedCharEnd ≤ text.length := hsource.range.high
  have hord : source.normalizedCharStart ≤ source.normalizedCharEnd := hsource.range.ordered
  intro i hi hlt hink
  have hi' : source.normalizedCharStart + (i - source.normalizedCharStart) = i := by omega
  refine h (i - source.normalizedCharStart) (by omega) (by omega) ?_
  rw [hsource.normalizedText, inked_slice text _ _ _ (by omega) (by omega), hi']
  exact hink

theorem splitSections_splitTo {text : List Char} {source : SelectedSource} {policy : ChunkPolicy}
    (hsource : Selected text source) (sections : List Section) (p : ℕ) (chunks : List ChunkRecord)
    (hspans : Spans source.normalizedText p sections)
    (h : Covered text policy (source.normalizedCharStart + p) chunks) :
    SplitTo text policy text.length
      (splitSections source (IndexedText.new source.normalizedText) policy sections chunks) := by
  have hlen := hsource.length_normalizedText
  have hhigh : source.normalizedCharEnd ≤ text.length := hsource.range.high
  have hrange : source.normalizedCharStart ≤ source.normalizedCharEnd := hsource.range.ordered
  induction sections generalizing p chunks with
  | nil =>
    obtain ⟨hp, hblank⟩ := hspans
    have hend : source.normalizedCharStart + source.normalizedText.length = source.normalizedCharEnd := by omega
    have hrest := hblank.ofNormalized hsource (Nat.le_refl _)
    rw [hend] at hrest
    exact .inl ⟨chunks, rfl, h.skip (by omega) (hrest.trans hsource.range.after)⟩
  | cons sec rest ih =>
    obtain ⟨⟨hlow, hord, hblank⟩, hrest⟩ := hspans
    have hend := hrest.le_length
    have hplaced : Placed source sec := ⟨hord, by omega⟩
    have hstart : Covered text policy (source.normalizedCharStart + sec.charStart) chunks :=
      h.skip (by omega) (hblank.ofNormalized hsource (by omega))
    unfold splitSections
    obtain ⟨chunks', hsplit, hcov⟩ | ⟨hsplit, hfull⟩ := splitSection_splitTo hsource hplaced hstart
    · rw [hsplit]
      exact ih sec.charEnd chunks' hrest hcov
    · rw [hsplit]
      exact .inr ⟨rfl, hfull⟩

theorem splitSelectedSource_splitTo {text : List Char} {source : SelectedSource} (policy : ChunkPolicy)
    (hsource : Selected text source) (title : List Char) (pattern : HeadingPattern) :
    SplitTo text policy text.length (splitSelectedSource source title policy pattern) := by
  obtain ⟨sections, hsections, hspans⟩ := sectionsForText_spans source.normalizedText title pattern
  unfold splitSelectedSource
  simp only
  rw [hsections]
  have hstart : Covered text policy (source.normalizedCharStart + 0) [] :=
    Covered.nil.skip (Nat.zero_le _) hsource.range.before
  exact splitSections_splitTo hsource sections 0 [] hspans hstart

/-! ## The chunks of a document -/

section Content
variable {text : List Char} {policy : ChunkPolicy} {chunk : ChunkRecord}

theorem ChunkSound.bytes (h : ChunkSound text policy chunk) :
    chunk.content = Utf8.slice text chunk.sourceRange.byteStart chunk.sourceRange.byteEnd := by
  rw [h.byteStart, h.byteEnd, Utf8.slice_offsets text _ _ (Nat.le_of_lt h.ordered)]
  exact h.chars

theorem ChunkSound.length (h : ChunkSound text policy chunk) :
    chunk.content.length = chunk.sourceRange.charEnd - chunk.sourceRange.charStart := by
  have hord := h.ordered
  have hwithin := h.within
  rw [h.chars, length_slice (by omega)]

theorem isPythonWhitespace_of_blankAt {i : ℕ} {c : Char} (h : blankAt text i = false) (hc : text[i]? = some c) :
    isPythonWhitespace c = false := by
  unfold blankAt at h
  rw [hc] at h
  exact h

/-- Both ends of a chunk are characters other than whitespace, so trimming it changes nothing. -/
theorem ChunkSound.trimmed (h : ChunkSound text policy chunk) :
    trimBy isPythonWhitespace chunk.content = chunk.content := by
  have hord := h.ordered
  have hlength := h.length
  have hget : ∀ i, i < chunk.sourceRange.charEnd - chunk.sourceRange.charStart →
      chunk.content[i]? = text[chunk.sourceRange.charStart + i]? := by
    intro i hi
    rw [h.chars, getElem?_slice _ _ _ _ hi]
  refine trimBy_of_ends ?_ ?_
  · intro c hc
    rw [List.head?_eq_getElem?, hget 0 (by omega)] at hc
    exact isPythonWhitespace_of_blankAt h.first hc
  · intro c hc
    rw [List.getLast?_eq_getElem?, hlength, hget _ (by omega)] at hc
    have hlast : chunk.sourceRange.charStart + (chunk.sourceRange.charEnd - chunk.sourceRange.charStart - 1) =
        chunk.sourceRange.charEnd - 1 := by omega
    rw [hlast] at hc
    exact isPythonWhitespace_of_blankAt h.last hc

end Content

/-- Every document is chunked: the chunks are exact, trimmed and bounded slices of the selected text, numbered in order,
their starts never go back and together they hold every character other than whitespace. The one other outcome is the
report that a million chunks were not enough. -/
theorem chunkDocument_covers (document : ChunkDocumentInput) (policy : ChunkPolicy) (pattern : HeadingPattern) :
    (∃ chunks, chunkDocument document policy pattern =
        some (.success document.documentId document.relativePath chunks) ∧
      (∀ chunk ∈ chunks,
        chunk.sourceRange.charEnd ≤ (selectedText document).length ∧
        chunk.content = ((selectedText document).drop chunk.sourceRange.charStart).take
          (chunk.sourceRange.charEnd - chunk.sourceRange.charStart) ∧
        chunk.sourceRange.byteStart = Utf8.size ((selectedText document).take chunk.sourceRange.charStart) ∧
        chunk.sourceRange.byteEnd = Utf8.size ((selectedText document).take chunk.sourceRange.charEnd) ∧
        chunk.content = Utf8.slice (selectedText document) chunk.sourceRange.byteStart chunk.sourceRange.byteEnd ∧
        chunk.content ≠ [] ∧ trimBy isPythonWhitespace chunk.content = chunk.content ∧
        chunk.content.length ≤ policy.maxChars) ∧
      chunks.map (·.chunkIndex) = List.range chunks.length ∧
      (chunks.map (·.sourceRange.charStart)).Pairwise (· ≤ ·) ∧
      ∀ i c, (selectedText document)[i]? = some c → isPythonWhitespace c = false →
        ∃ chunk ∈ chunks, chunk.sourceRange.charStart ≤ i ∧ i < chunk.sourceRange.charEnd) ∨
    (chunkDocument document policy pattern =
        some (.error document.documentId document.relativePath capacityFailure) ∧
      ∃ p chunks, Covered (selectedText document) policy p chunks ∧ maxChunksPerDocument ≤ chunks.length) := by
  have hselected := select_selected document
  unfold chunkDocument
  obtain ⟨chunks, hsplit, hcov⟩ | ⟨hsplit, hfull⟩ :=
    splitSelectedSource_splitTo policy hselected document.title pattern
  · simp only
    rw [hsplit]
    refine .inl ⟨chunks, rfl, ?_, hcov.indexes, hcov.sorted, ?_⟩
    · intro chunk hc
      have hsound := hcov.sound chunk hc
      refine ⟨hsound.within, hsound.chars, hsound.byteStart, hsound.byteEnd, hsound.bytes, ?_, hsound.trimmed, ?_⟩
      · intro hnil
        have hlength := hsound.length
        have hord := hsound.ordered
        rw [hnil, List.length_nil] at hlength
        omega
      · rw [hsound.length]
        exact hsound.short
    · intro i c hi hc
      have hlt : i < (selectedText document).length := (List.getElem?_eq_some_iff.mp hi).1
      have hblank : blankAt (selectedText document) i = false := by
        unfold blankAt
        rw [hi]
        exact hc
      exact hcov.covers i hlt ⟨hlt, hblank⟩
  · simp only
    rw [hsplit]
    exact .inr ⟨rfl, hfull⟩

/-- The heading regex on texts without a heading. -/
def plainPattern : HeadingPattern := ⟨fun _ => [], fun _ => List.Pairwise.nil, fun _ _ h => absurd h (List.not_mem_nil)⟩

/-- Two blanks, so that a window can start on the second one. -/
def gapDocument : ChunkDocumentInput :=
  ⟨"case", "Contexts/Case.md", "Case".toList, "ab  cdefgh".toList, by decide⟩

def gapPolicy : ChunkPolicy := ⟨4, 3, by decide, by decide⟩

/-- Starts need not increase: a window that starts on a blank is trimmed to where the next one starts. -/
theorem chunkDocument_repeats_start :
    ¬ ∀ (document : ChunkDocumentInput) (policy : ChunkPolicy) (pattern : HeadingPattern) (chunks : List ChunkRecord),
      policy.overlapChars < policy.maxChars →
      chunkDocument document policy pattern = some (.success document.documentId document.relativePath chunks) →
      (chunks.map (·.sourceRange.charStart)).Pairwise (· < ·) := by
  intro h
  have hpairs := h gapDocument gapPolicy plainPattern
    [⟨0, some "Case".toList, ["Case".toList], "ab".toList, .content, ⟨0, 2, 0, 2⟩⟩,
      ⟨1, some "Case".toList, ["Case".toList], "cde".toList, .content, ⟨4, 7, 4, 7⟩⟩,
      ⟨2, some "Case".toList, ["Case".toList], "cdef".toList, .content, ⟨4, 8, 4, 8⟩⟩,
      ⟨3, some "Case".toList, ["Case".toList], "gh".toList, .content, ⟨8, 10, 8, 10⟩⟩] (by decide) (by decide)
  exact absurd hpairs (by decide)

end Alexandria.Chunking
