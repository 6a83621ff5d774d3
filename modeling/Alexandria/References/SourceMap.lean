import Alexandria.References.Fences

/-! # The way back to the source

The visible text is the original without some of its characters: those of hidden lines, then of comments, then of inline
code. A line break that stands for a hidden line is that line's own. So the visible text is known by the positions that are
kept, and the origin of each of its bytes follows from them.
-/

namespace Alexandria.References
set_option autoImplicit false

open BlockScan

/-! ## Kept positions -/

def charAt (body : List Char) (position : ℕ) : Char := body[position]?.getD '\n'

/-- The byte offset of a position. -/
def byteAt (body : List Char) (position : ℕ) : ℕ := Utf8.size (body.take position)

def keptText (body : List Char) (kept : List ℕ) : List Char := kept.map (charAt body)

/-- Where a position stands in the kept text. -/
def keptOffset (body : List Char) (kept : List ℕ) (position : ℕ) : ℕ :=
  Utf8.size (keptText body (kept.filter (· < position)))

def inRanges (ranges : List (ℕ × ℕ)) (offset : ℕ) : Bool := ranges.any fun range => range.1 ≤ offset && offset < range.2

/-- The positions that stand in none of these ranges of the kept text. -/
def outsideRanges (body : List Char) (kept : List ℕ) (ranges : List (ℕ × ℕ)) : List ℕ :=
  kept.filter fun position => !inRanges ranges (keptOffset body kept position)

/-- The positions in the lines from `start` on that are left once code is hidden: all of a line, or its line feed. -/
def shownFrom (start : ℕ) : List (List Char × Role) → List ℕ
  | [] => []
  | (line, role) :: rest =>
    (if role.covered || isIndentedCode line then
      if line.getLast? = some '\n' then [start + line.length - 1] else []
    else List.range' start line.length) ++ shownFrom (start + line.length) rest

def shownLines (body : List Char) : List ℕ :=
  shownFrom 0 (((logicalLines body).map (lineText body)).zip (linkRoles body))

/-- The positions that are left once code blocks, comments and inline code are hidden. -/
def visiblePositions (body : List Char) (patterns : ExtractionPatterns) : Except String (List ℕ) :=
  let lines := shownLines body
  let uncommented := outsideRanges body lines (patterns.htmlComment (keptText body lines))
  let visible := outsideRanges body uncommented (patterns.obsidianComment (keptText body uncommented))
  (patterns.inlineCode (keptText body visible)).map (outsideRanges body visible)

section Positions
variable {body : List Char} {p q i j : ℕ} {kept : List ℕ}

theorem charAt_eq (hp : p < body.length) : body[p]? = some (charAt body p) := by
  rw [charAt, List.getElem?_eq_getElem hp, Option.getD_some]

theorem byteAt_succ (hp : p < body.length) : byteAt body (p + 1) = byteAt body p + (charAt body p).utf8Size := by
  rw [byteAt, List.take_add_one, charAt_eq hp, Utf8.size_append]
  rfl

theorem byteAt_mono (h : p ≤ q) : byteAt body p ≤ byteAt body q := Utf8.size_take_le body h

theorem byteAt_lt (h : p < q) (hp : p < body.length) : byteAt body p < byteAt body q := by
  have hstep := byteAt_succ hp
  have hpos := (charAt body p).utf8Size_pos
  have hle : byteAt body (p + 1) ≤ byteAt body q := byteAt_mono h
  omega

theorem byteAt_length : byteAt body body.length = Utf8.size body := by rw [byteAt, List.take_length]

/-- The characters between two positions. -/
theorem keptText_range (hj : j ≤ body.length) (hij : i ≤ j) :
    keptText body (List.range' i (j - i)) = Utf8.slice body (byteAt body i) (byteAt body j) := by
  rw [byteAt, byteAt, Utf8.slice_offsets body i j hij]
  apply List.ext_getElem?
  intro k
  rw [keptText, List.getElem?_map, List.getElem?_take, List.getElem?_drop]
  by_cases hk : k < j - i
  · rw [List.getElem?_range' hk, if_pos hk, charAt_eq (by omega), Nat.one_mul]
    rfl
  · rw [List.getElem?_eq_none (by simpa using hk), if_neg hk]
    rfl

/-- The bytes between two positions, position by position. -/
theorem range'_bytes (c : ℕ) (hj : i + p ≤ body.length) :
    List.range' (byteAt body i + c) (byteAt body (i + p) - byteAt body i) =
      (List.range' i p).flatMap fun q => List.range' (byteAt body q + c) (charAt body q).utf8Size := by
  induction p generalizing i with
  | zero => simp
  | succ p ih =>
    have hstep : byteAt body (i + 1) = byteAt body i + (charAt body i).utf8Size := byteAt_succ (by omega)
    have hle : byteAt body (i + 1) ≤ byteAt body (i + 1 + p) := byteAt_mono (Nat.le_add_right _ _)
    have hrest := ih (i := i + 1) (by omega)
    have hlength : byteAt body (i + (p + 1)) - byteAt body i =
        (charAt body i).utf8Size + (byteAt body (i + 1 + p) - byteAt body (i + 1)) := by
      rw [show i + (p + 1) = i + 1 + p by omega]
      omega
    rw [List.range'_succ, List.flatMap_cons, ← hrest, hlength, hstep, ← List.range'_append_1]
    congr 2
    omega

end Positions

/-! ## Mapped texts -/

section Mapped
variable {body : List Char} {kept kept' : List ℕ} {mapped source : MappedText} {i j k p : ℕ}

/-- The mapped text holds the kept positions of the body, and each byte its origin. -/
structure Maps (body : List Char) (kept : List ℕ) (mapped : MappedText) : Prop where
  inside : ∀ p ∈ kept, p < body.length
  text : mapped.text = keptText body kept
  starts : mapped.originStarts = kept.flatMap fun p => List.range' (byteAt body p) (charAt body p).utf8Size
  ends : mapped.originEnds = kept.flatMap fun p => List.range' (byteAt body p + 1) (charAt body p).utf8Size

theorem maps_empty : Maps body [] .empty := ⟨by simp, rfl, rfl, rfl⟩

theorem Maps.appendOriginalRange (h : Maps body kept mapped) (hij : i ≤ j) (hj : j ≤ body.length) :
    Maps body (kept ++ List.range' i (j - i)) (mapped.appendOriginalRange body (byteAt body i) (byteAt body j)) := by
  have hwithin : i + (j - i) ≤ body.length := by omega
  have hstarts := range'_bytes 0 hwithin
  have hends := range'_bytes 1 hwithin
  simp only [Nat.add_sub_cancel' hij, Nat.add_zero] at hstarts hends
  refine ⟨fun p hp => ?_, ?_, ?_, ?_⟩
  · obtain hp | hp := List.mem_append.mp hp
    · exact h.inside p hp
    · have hp := List.mem_range'_1.mp hp
      omega
  · rw [MappedText.appendOriginalRange, h.text, ← keptText_range hj hij, keptText, keptText, keptText, List.map_append]
  · rw [MappedText.appendOriginalRange, h.starts, List.flatMap_append, ← hstarts]
  · rw [MappedText.appendOriginalRange, h.ends, List.flatMap_append, ← hends]

theorem Maps.appendSyntheticNewline (h : Maps body kept mapped) (hp : body[p]? = some '\n') :
    Maps body (kept ++ [p]) (mapped.appendSyntheticNewline (byteAt body p)) := by
  have hlt := (List.getElem?_eq_some_iff.mp hp).1
  have hchar : charAt body p = '\n' := by rw [charAt, hp, Option.getD_some]
  have hsize : (charAt body p).utf8Size = 1 := by rw [hchar]; rfl
  refine ⟨fun q hq => ?_, ?_, ?_, ?_⟩
  · obtain hq | hq := List.mem_append.mp hq
    · exact h.inside q hq
    · rw [List.mem_singleton.mp hq]
      exact hlt
  · rw [MappedText.appendSyntheticNewline, h.text, keptText, keptText, List.map_append, List.map_singleton, hchar]
  · rw [MappedText.appendSyntheticNewline, h.starts, List.flatMap_append, List.flatMap_singleton, hsize]
    rfl
  · rw [MappedText.appendSyntheticNewline, h.ends, List.flatMap_append, List.flatMap_singleton, hsize]
    rfl

/-- As many entries as the first positions have bytes. -/
theorem drop_flatMap (f : ℕ → List ℕ) (hf : ∀ p, (f p).length = (charAt body p).utf8Size) (kept : List ℕ) (i : ℕ) :
    (kept.flatMap f).drop (byteAt (keptText body kept) i) = (kept.drop i).flatMap f := by
  induction kept generalizing i with
  | nil => simp [keptText, byteAt]
  | cons p kept ih =>
    cases i with
    | zero => rfl
    | succ i =>
      rw [byteAt, keptText, List.map_cons, List.take_succ_cons, Utf8.size_cons, List.flatMap_cons, List.drop_succ_cons, ← ih,
        ← hf p, List.drop_append, List.drop_eq_nil_of_le (Nat.le_add_right _ _), Nat.add_sub_cancel_left]
      rfl

theorem length_flatMap (f : ℕ → List ℕ) (hf : ∀ p, (f p).length = (charAt body p).utf8Size) (kept : List ℕ) :
    (kept.flatMap f).length = Utf8.size (keptText body kept) := by
  induction kept with
  | nil => rfl
  | cons p kept ih =>
    rw [List.flatMap_cons, List.length_append, ih, hf]
    rfl

theorem slice_flatMap (f : ℕ → List ℕ) (hf : ∀ p, (f p).length = (charAt body p).utf8Size) (kept : List ℕ) (hij : i ≤ j) :
    ((kept.flatMap f).drop (byteAt (keptText body kept) i)).take
        (byteAt (keptText body kept) j - byteAt (keptText body kept) i) = ((kept.drop i).take (j - i)).flatMap f := by
  have hsize : byteAt (keptText body kept) j - byteAt (keptText body kept) i =
      (((kept.drop i).take (j - i)).flatMap f).length := by
    have hsplit : (keptText body kept).take j =
        (keptText body kept).take i ++ keptText body ((kept.drop i).take (j - i)) := by
      rw [keptText, keptText, List.map_take, List.map_drop, List.take_drop, Nat.add_sub_cancel' hij]
      conv_lhs => rw [← List.take_append_drop i ((kept.map (charAt body)).take j)]
      rw [List.take_take, Nat.min_eq_left hij]
    rw [length_flatMap f hf, byteAt, byteAt, hsplit, Utf8.size_append, Nat.add_sub_cancel_left]
  have hparts : (kept.drop i).flatMap f =
      ((kept.drop i).take (j - i)).flatMap f ++ ((kept.drop i).drop (j - i)).flatMap f := by
    rw [← List.flatMap_append, List.take_append_drop]
  rw [drop_flatMap f hf, hsize, hparts, List.take_left]

/-- What is appended from a mapped text keeps the origins. -/
theorem Maps.appendMappedRange (h : Maps body kept mapped) (hsource : Maps body kept' source) (hij : i ≤ j)
    (hj : j ≤ kept'.length) :
    Maps body (kept ++ (kept'.drop i).take (j - i))
      (mapped.appendMappedRange source (byteAt (keptText body kept') i) (byteAt (keptText body kept') j)) := by
  unfold MappedText.appendMappedRange
  split
  · rename_i hempty
    -- Only an empty range has no bytes.
    have hsame : i = j := by
      by_contra hne
      have hlt : byteAt (keptText body kept') i < byteAt (keptText body kept') j :=
        byteAt_lt (lt_of_le_of_ne hij hne) (by rw [keptText, List.length_map]; omega)
      omega
    rw [hsame, Nat.sub_self, List.take_zero, List.append_nil]
    exact h
  · have hstarts := slice_flatMap (fun p => List.range' (byteAt body p) (charAt body p).utf8Size)
      (fun p => List.length_range') kept' hij
    have hends := slice_flatMap (fun p => List.range' (byteAt body p + 1) (charAt body p).utf8Size)
      (fun p => List.length_range') kept' hij
    refine ⟨fun p hp => ?_, ?_, ?_, ?_⟩
    · obtain hp | hp := List.mem_append.mp hp
      · exact h.inside p hp
      · exact hsource.inside p (List.mem_of_mem_drop (List.mem_of_mem_take hp))
    · dsimp only
      rw [h.text, hsource.text, byteAt, byteAt, Utf8.slice_offsets _ i j hij, keptText, keptText, keptText, List.map_append,
        List.map_take, List.map_drop]
    · dsimp only
      rw [h.starts, hsource.starts, hstarts, List.flatMap_append]
    · dsimp only
      rw [h.ends, hsource.ends, hends, List.flatMap_append]

end Mapped

/-! ## Parts of a sorted list -/

section Sorted
variable {kept : List ℕ} {off : ℕ → ℕ} {bound : ℕ → ℕ}

theorem pairwise_getElem? {R : ℕ → ℕ → Prop} (h : kept.Pairwise R) {j k p q : ℕ} (hjk : j < k) (hp : kept[j]? = some p)
    (hq : kept[k]? = some q) : R p q := by
  obtain ⟨hj, rfl⟩ := List.getElem?_eq_some_iff.mp hp
  obtain ⟨hk, rfl⟩ := List.getElem?_eq_some_iff.mp hq
  exact List.pairwise_iff_getElem.mp h j k hj hk hjk

/-- The entries of a list lie between bounds: the one at index `k` at the bound `k`. -/
structure Bounded (off bound : ℕ → ℕ) (kept : List ℕ) : Prop where
  at_index : ∀ k p, kept[k]? = some p → off p = bound k
  grows : ∀ j k, j < k → k ≤ kept.length → bound j < bound k

theorem Bounded.mono (h : Bounded off bound kept) {j k : ℕ} (hjk : j ≤ k) (hk : k ≤ kept.length) : bound j ≤ bound k := by
  obtain hlt | rfl := Nat.lt_or_eq_of_le hjk
  · exact (h.grows j k hlt hk).le
  · exact le_rfl

theorem Bounded.of_mem_take (h : Bounded off bound kept) {k p : ℕ} (hk : k ≤ kept.length) (hp : p ∈ kept.take k) :
    off p < bound k := by
  obtain ⟨j, hj⟩ := List.mem_iff_getElem?.mp hp
  rw [List.getElem?_take] at hj
  split at hj
  · rename_i hjk
    rw [h.at_index j p hj]
    exact h.grows j k hjk hk
  · cases hj

theorem Bounded.of_mem_drop (h : Bounded off bound kept) {k p : ℕ} (hp : p ∈ kept.drop k) : bound k ≤ off p := by
  obtain ⟨j, hj⟩ := List.mem_iff_getElem?.mp hp
  rw [List.getElem?_drop] at hj
  rw [h.at_index (k + j) p hj]
  exact h.mono (Nat.le_add_right k j) (List.getElem?_eq_some_iff.mp hj).1.le

/-- A part of the list holds the entries between its bounds. -/
theorem Bounded.slice_eq_filter (h : Bounded off bound kept) {i j : ℕ} (hij : i ≤ j) (hj : j ≤ kept.length) :
    (kept.drop i).take (j - i) = kept.filter fun p => bound i ≤ off p && off p < bound j := by
  have hsplit : kept = kept.take i ++ ((kept.drop i).take (j - i) ++ kept.drop j) := by
    have hrest : (kept.drop i).drop (j - i) = kept.drop j := by rw [List.drop_drop, Nat.add_sub_cancel' hij]
    rw [← hrest, List.take_append_drop, List.take_append_drop]
  have hfront : (kept.take i).filter (fun p => bound i ≤ off p && off p < bound j) = [] := by
    refine List.filter_eq_nil_iff.mpr fun p hp => ?_
    have hlt := h.of_mem_take (hij.trans hj) hp
    simp only [Bool.and_eq_true, decide_eq_true_eq]
    omega
  have hmiddle : ((kept.drop i).take (j - i)).filter (fun p => bound i ≤ off p && off p < bound j) =
      (kept.drop i).take (j - i) := by
    refine List.filter_eq_self.mpr fun p hp => ?_
    have hle := h.of_mem_drop (List.mem_of_mem_take hp)
    have hlt : off p < bound j := by
      refine h.of_mem_take hj ?_
      rw [List.take_drop, Nat.add_sub_cancel' hij] at hp
      exact List.mem_of_mem_drop hp
    simp only [Bool.and_eq_true, decide_eq_true_eq]
    exact ⟨hle, hlt⟩
  have hback : (kept.drop j).filter (fun p => bound i ≤ off p && off p < bound j) = [] := by
    refine List.filter_eq_nil_iff.mpr fun p hp => ?_
    have hle := h.of_mem_drop hp
    simp only [Bool.and_eq_true, decide_eq_true_eq]
    omega
  conv_rhs => rw [hsplit]
  rw [List.filter_append, List.filter_append, hfront, hmiddle, hback, List.nil_append, List.append_nil]

/-- What lies in no range: the part up to the first range, and what lies behind it in none of the others. -/
theorem Bounded.filter_outside (h : Bounded off bound kept) {c i j : ℕ} {rest : List (ℕ × ℕ)} (hci : c ≤ i) (hij : i ≤ j)
    (hi : i ≤ kept.length) (hj : j ≤ kept.length) (hrest : ∀ range ∈ rest, bound j ≤ range.1) :
    kept.filter (fun p => bound c ≤ off p && !inRanges ((bound i, bound j) :: rest) (off p)) =
      kept.filter (fun p => bound c ≤ off p && off p < bound i) ++
        kept.filter (fun p => bound j ≤ off p && !inRanges rest (off p)) := by
  have hci' := h.mono hci hi
  have hij' := h.mono hij hj
  have hsplit := List.take_append_drop i kept
  -- Before the first range none of the others begins.
  have hbefore : ∀ p ∈ kept.take i, inRanges rest (off p) = false := by
    intro p hp
    have hlt := h.of_mem_take hi hp
    refine List.any_eq_false.mpr fun range hrange => ?_
    have hle := hrest range hrange
    simp only [Bool.and_eq_true, decide_eq_true_eq]
    omega
  have hfront : (kept.take i).filter (fun p => bound c ≤ off p && !inRanges ((bound i, bound j) :: rest) (off p)) =
      (kept.take i).filter fun p => bound c ≤ off p && off p < bound i := by
    refine List.filter_congr fun p hp => ?_
    have hlt := h.of_mem_take hi hp
    have hnot : ¬ bound i ≤ off p := by omega
    have hcons : inRanges ((bound i, bound j) :: rest) (off p) = false := by
      rw [inRanges, List.any_cons, ← inRanges, hbefore p hp]
      simp [hnot]
    rw [hcons]
    simp [hlt]
  have hfront' : (kept.take i).filter (fun p => bound j ≤ off p && !inRanges rest (off p)) = [] := by
    refine List.filter_eq_nil_iff.mpr fun p hp => ?_
    have hlt := h.of_mem_take hi hp
    have hnot : ¬ bound j ≤ off p := by omega
    simp [hnot]
  have hback : (kept.drop i).filter (fun p => bound c ≤ off p && !inRanges ((bound i, bound j) :: rest) (off p)) =
      (kept.drop i).filter fun p => bound j ≤ off p && !inRanges rest (off p) := by
    refine List.filter_congr fun p hp => ?_
    have hle := h.of_mem_drop hp
    have hcle : bound c ≤ off p := by omega
    rw [inRanges, List.any_cons, ← inRanges]
    by_cases hin : off p < bound j
    · have hnot : ¬ bound j ≤ off p := by omega
      simp [hle, hin, hnot]
    · have hin' : bound j ≤ off p := by omega
      simp [hle, hin, hin', hcle]
  have hback' : (kept.drop i).filter (fun p => bound c ≤ off p && off p < bound i) = [] := by
    refine List.filter_eq_nil_iff.mpr fun p hp => ?_
    have hle := h.of_mem_drop hp
    have hnot : ¬ off p < bound i := by omega
    simp [hnot]
  conv_lhs => rw [← hsplit]
  conv_rhs => rw [← hsplit]
  rw [List.filter_append, List.filter_append, List.filter_append, hfront, hfront', hback, hback', List.append_nil,
    List.nil_append]

end Sorted

/-! ## Ranges that are deleted -/

section Deletion
variable {body : List Char} {kept kept' : List ℕ} {mapped source : MappedText}

/-- In a sorted list a position's offset is the size of the text before it. -/
theorem bounded_offset (hsorted : kept.Pairwise (· < ·)) :
    Bounded (keptOffset body kept) (byteAt (keptText body kept)) kept := by
  refine ⟨fun k p hp => ?_, fun j k hjk hk => byteAt_lt hjk (by rw [keptText, List.length_map]; omega)⟩
  have hbefore : kept.filter (· < p) = kept.take k := by
    have hsplit := List.take_append_drop k kept
    have hfront : (kept.take k).filter (fun q => decide (q < p)) = kept.take k := by
      refine List.filter_eq_self.mpr fun q hq => ?_
      obtain ⟨j, hj⟩ := List.mem_iff_getElem?.mp hq
      rw [List.getElem?_take] at hj
      split at hj
      · rename_i hjk
        exact decide_eq_true (pairwise_getElem? hsorted hjk hj hp)
      · cases hj
    have hback : (kept.drop k).filter (fun q => decide (q < p)) = [] := by
      refine List.filter_eq_nil_iff.mpr fun q hq => ?_
      obtain ⟨j, hj⟩ := List.mem_iff_getElem?.mp hq
      rw [List.getElem?_drop] at hj
      have hle : p ≤ q := by
        cases j with
        | zero =>
          rw [Nat.add_zero, hp] at hj
          cases hj
          exact le_rfl
        | succ j => exact (pairwise_getElem? hsorted (by omega) hp hj).le
      simpa using hle
    conv_lhs => rw [← hsplit]
    rw [List.filter_append, hfront, hback, List.append_nil]
  rw [keptOffset, hbefore, keptText, keptText, List.map_take, byteAt]

/-- The loop of `without_ranges` from a cursor on. -/
theorem Maps.withoutFrom (h : Maps body kept mapped) (hsource : Maps body kept' source)
    (hsorted : kept'.Pairwise (· < ·)) {ranges : List (ℕ × ℕ)} (hmatches : Matches source.text ranges) {c : ℕ}
    (hc : c ≤ kept'.length) (hbehind : ∀ range ∈ ranges, byteAt (keptText body kept') c ≤ range.1) :
    Maps body (kept ++ kept'.filter fun p =>
        byteAt (keptText body kept') c ≤ keptOffset body kept' p && !inRanges ranges (keptOffset body kept' p))
      (source.withoutFrom (byteAt (keptText body kept') c) mapped ranges) := by
  have hbounded : Bounded (keptOffset body kept') (byteAt (keptText body kept')) kept' := bounded_offset hsorted
  have hlength : (keptText body kept').length = kept'.length := by rw [keptText, List.length_map]
  induction ranges generalizing kept mapped c with
  | nil =>
    have hpiece := h.appendMappedRange hsource hc le_rfl
    rw [hbounded.slice_eq_filter hc le_rfl] at hpiece
    have hall : kept'.filter (fun p => byteAt (keptText body kept') c ≤ keptOffset body kept' p &&
          keptOffset body kept' p < byteAt (keptText body kept') kept'.length) =
        kept'.filter fun p => byteAt (keptText body kept') c ≤ keptOffset body kept' p &&
          !inRanges [] (keptOffset body kept' p) := by
      refine List.filter_congr fun p hp => ?_
      have hlt : keptOffset body kept' p < byteAt (keptText body kept') kept'.length :=
        hbounded.of_mem_take le_rfl (by rwa [List.take_length])
      simp [hlt, inRanges]
    rw [hall] at hpiece
    unfold MappedText.withoutFrom
    rw [hsource.text, ← byteAt_length, hlength]
    exact hpiece
  | cons range rest ih =>
    obtain ⟨i, j, hij, hj, hrange⟩ := hmatches.boundaries range List.mem_cons_self
    rw [hsource.text] at hj hrange
    rw [hlength] at hj
    have hrange' : range = (byteAt (keptText body kept') i, byteAt (keptText body kept') j) := hrange
    have hci : c ≤ i := by
      by_contra hlt
      have hback := hbounded.grows i c (by omega) hc
      have hcle := hbehind range List.mem_cons_self
      rw [hrange'] at hcle
      dsimp only at hcle
      omega
    have hrest : ∀ other ∈ rest, byteAt (keptText body kept') j ≤ other.1 := by
      intro other hother
      have hle := List.rel_of_pairwise_cons hmatches.ordered hother
      rwa [hrange'] at hle
    have hpiece := h.appendMappedRange hsource hci (hij.trans hj)
    rw [hbounded.slice_eq_filter hci (hij.trans hj)] at hpiece
    have hnext := ih hpiece
      ⟨hmatches.ordered.tail, fun other hother => hmatches.boundaries other (List.mem_cons_of_mem _ hother)⟩ hj hrest
    rw [List.append_assoc, ← hbounded.filter_outside hci hij (hij.trans hj) hj hrest] at hnext
    unfold MappedText.withoutFrom
    rw [hrange']
    exact hnext

theorem Maps.withoutRanges (h : Maps body kept mapped) (hsorted : kept.Pairwise (· < ·)) {ranges : List (ℕ × ℕ)}
    (hmatches : Matches mapped.text ranges) : Maps body (outsideRanges body kept ranges) (mapped.withoutRanges ranges) := by
  have hwhole := maps_empty.withoutFrom h hsorted hmatches (Nat.zero_le _) fun range _ => Nat.zero_le _
  rw [List.nil_append] at hwhole
  have hall : kept.filter (fun p => byteAt (keptText body kept) 0 ≤ keptOffset body kept p &&
      !inRanges ranges (keptOffset body kept p)) = outsideRanges body kept ranges := by
    refine List.filter_congr fun p _ => ?_
    simp [byteAt, Utf8.size]
  rwa [hall] at hwhole

theorem outsideRanges_sorted (body : List Char) (hsorted : kept.Pairwise (· < ·)) (ranges : List (ℕ × ℕ)) :
    (outsideRanges body kept ranges).Pairwise (· < ·) := hsorted.filter _

end Deletion

/-! ## The lines that are shown -/

section Lines
variable {body : List Char} {kept : List ℕ} {visible : MappedText}

theorem lineText_middle {before after : List Char} {line : EndedLine} (hbody : before ++ line.full ++ after = body) :
    lineText body ⟨Utf8.size before, Utf8.size before + Utf8.size line.full⟩ = line.full := by
  rw [lineText, ← hbody]
  exact Utf8.slice_middle before line.full after

theorem byteAt_before {before after : List Char} (hbody : before ++ after = body) :
    byteAt body before.length = Utf8.size before := by
  rw [byteAt, ← hbody, List.take_left]

/-- A line of the body is shown whole, or by its line feed. -/
theorem Maps.appendLine (h : Maps body kept visible) {before after : List Char} {line : EndedLine} (role : Role)
    (hbody : before ++ line.full ++ after = body) :
    Maps body (kept ++ (if role.covered || isIndentedCode line.full then
        if line.full.getLast? = some '\n' then [before.length + line.full.length - 1] else []
      else List.range' before.length line.full.length))
      (appendLine body visible (⟨Utf8.size before, Utf8.size before + Utf8.size line.full⟩, role)) := by
  have htext := lineText_middle hbody
  have hend : byteAt body (before.length + line.full.length) = Utf8.size before + Utf8.size line.full := by
    rw [← List.length_append, byteAt_before hbody, Utf8.size_append]
  unfold References.appendLine isHidden
  dsimp only
  rw [htext]
  split
  · unfold appendHiddenLine
    rw [← lineText, htext]
    split
    · rename_i hlast
      obtain ⟨front, hfront⟩ := List.getLast?_eq_some_iff.mp hlast
      have hposition : before.length + line.full.length - 1 = (before ++ front).length := by
        rw [hfront, List.length_append, List.length_append, List.length_singleton]
        omega
      have hbody' : before ++ front ++ ('\n' :: after) = body := by
        rw [← hbody, hfront]
        simp only [List.append_assoc, List.singleton_append]
      have hbyte : Utf8.size before + Utf8.size line.full - 1 = byteAt body (before.length + line.full.length - 1) := by
        rw [hposition, byteAt_before hbody', hfront, Utf8.size_append, Utf8.size_append, show Utf8.size ['\n'] = 1 from rfl]
        omega
      have hnewline : body[before.length + line.full.length - 1]? = some '\n' := by
        rw [hposition, ← hbody', List.getElem?_append_right le_rfl, Nat.sub_self]
        rfl
      rw [hbyte]
      exact h.appendSyntheticNewline hnewline
    · rw [List.append_nil]
      exact h
  · have hj : before.length + line.full.length ≤ body.length := by
      rw [← hbody, List.length_append, List.length_append]
      exact Nat.le_add_right _ _
    have hrange := h.appendOriginalRange (Nat.le_add_right before.length line.full.length) hj
    rw [Nat.add_sub_cancel_left, byteAt_before ((List.append_assoc _ _ _).symm.trans hbody),
      hend] at hrange
    exact hrange

theorem Maps.appendLines {lines : List EndedLine} {before : List Char} (h : Maps body kept visible) (roles : List Role)
    (hbody : before ++ lines.flatMap EndedLine.full = body) :
    Maps body (kept ++ shownFrom before.length ((lines.map EndedLine.full).zip roles))
      (((spans (Utf8.size before) lines).zip roles).foldl (References.appendLine body) visible) := by
  induction lines generalizing before roles kept visible with
  | nil =>
    rw [List.map_nil, List.zip_nil_left, shownFrom, List.append_nil]
    exact h
  | cons line rest ih =>
    cases roles with
    | nil =>
      rw [List.zip_nil_right, List.zip_nil_right, shownFrom, List.append_nil]
      exact h
    | cons role roles =>
      rw [List.flatMap_cons, ← List.append_assoc] at hbody
      have hrest := ih (h.appendLine role hbody) roles hbody
      rw [Utf8.size_append, List.length_append, List.append_assoc] at hrest
      exact hrest

/-- The visible lines hold the positions that are shown. -/
theorem maps_visibleLines (body : List Char) : Maps body (shownLines body) (visibleLines body) := by
  have hempty : Maps body [] .empty := maps_empty
  have hbody : [] ++ (endedLines body).flatMap EndedLine.full = body := endedLines_full body
  have hlines := hempty.appendLines (linkRoles body) hbody
  have htexts : (logicalLines body).map (lineText body) = (endedLines body).map EndedLine.full := logicalLines_texts body
  rw [List.nil_append, ← htexts, show Utf8.size [] = 0 from rfl, ← logicalLines_ended] at hlines
  rw [visibleLines, linkScan_roles]
  exact hlines

/-- The lines follow each other. -/
theorem shownFrom_sorted (start : ℕ) (lines : List (List Char × Role)) :
    (shownFrom start lines).Pairwise (· < ·) ∧ ∀ p ∈ shownFrom start lines, start ≤ p := by
  induction lines generalizing start with
  | nil => exact ⟨.nil, by simp [shownFrom]⟩
  | cons entry rest ih =>
    obtain ⟨line, role⟩ := entry
    obtain ⟨hrest, hbehind⟩ := ih (start + line.length)
    have hline : ∀ part, (part = List.range' start line.length ∨ part = [] ∨
          (line ≠ [] ∧ part = [start + line.length - 1])) →
        part.Pairwise (· < ·) ∧ ∀ p ∈ part, start ≤ p ∧ p < start + line.length := by
      rintro part (rfl | rfl | ⟨hline, rfl⟩)
      · exact ⟨List.pairwise_lt_range', fun p hp => List.mem_range'_1.mp hp⟩
      · exact ⟨.nil, by simp⟩
      · have hpos := List.length_pos_of_ne_nil hline
        refine ⟨List.pairwise_singleton _ _, fun p hp => ?_⟩
        rw [List.mem_singleton.mp hp]
        omega
    rw [shownFrom]
    obtain ⟨hsorted, hwithin⟩ := hline (if role.covered || isIndentedCode line then
        if line.getLast? = some '\n' then [start + line.length - 1] else []
      else List.range' start line.length) (by
        split
        · split
          · rename_i hlast
            refine .inr (.inr ⟨?_, rfl⟩)
            rintro rfl
            cases hlast
          · exact .inr (.inl rfl)
        · exact .inl rfl)
    refine ⟨List.pairwise_append.mpr ⟨hsorted, hrest, fun p hp q hq => ?_⟩, fun p hp => ?_⟩
    · exact (hwithin p hp).2.trans_le (hbehind q hq)
    · obtain hp | hp := List.mem_append.mp hp
      · exact (hwithin p hp).1
      · exact (Nat.le_add_right _ _).trans (hbehind p hp)

/-- The linkable text holds the visible positions. -/
theorem maps_linkable (body : List Char) (patterns : ExtractionPatterns) :
    (∀ error, linkableMarkdown body patterns = .error error → ¬ error.IsMapping) ∧
      ∀ linkable, linkableMarkdown body patterns = .ok linkable → ∃ kept, visiblePositions body patterns = .ok kept ∧
        kept.Pairwise (· < ·) ∧ Maps body kept linkable := by
  have hlines := maps_visibleLines body
  have hsorted : (shownLines body).Pairwise (· < ·) := (shownFrom_sorted 0 _).1
  have huncommented := hlines.withoutRanges hsorted (patterns.htmlComment_matches _)
  have hsorted' := outsideRanges_sorted body hsorted (patterns.htmlComment (visibleLines body).text)
  have hvisible := huncommented.withoutRanges hsorted' (patterns.obsidianComment_matches _)
  have hsorted'' := outsideRanges_sorted body hsorted'
    (patterns.obsidianComment ((visibleLines body).withoutRanges (patterns.htmlComment (visibleLines body).text)).text)
  unfold linkableMarkdown visiblePositions
  dsimp only
  rw [← hlines.text, ← huncommented.text, ← hvisible.text]
  cases hcode : patterns.inlineCode (((visibleLines body).withoutRanges
      (patterns.htmlComment (visibleLines body).text)).withoutRanges (patterns.obsidianComment
        ((visibleLines body).withoutRanges (patterns.htmlComment (visibleLines body).text)).text)).text with
  | error error =>
    refine ⟨fun error' herror => ?_, fun linkable hlinkable => ?_⟩
    · cases herror
      exact id
    · cases hlinkable
  | ok ranges =>
    refine ⟨fun error' herror => ?_, fun linkable hlinkable => ?_⟩
    · cases herror
    · cases hlinkable
      exact ⟨_, rfl, outsideRanges_sorted body hsorted'' ranges,
        hvisible.withoutRanges hsorted'' (patterns.inlineCode_matches _ ranges hcode)⟩

end Lines

end Alexandria.References
