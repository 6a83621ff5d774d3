import Alexandria.References.SourceMap

/-! # References at their places

Each match of a wikilink in the visible text comes from a part of the original that begins and ends with characters of the
match. What else stands in that part has been hidden.
-/

namespace Alexandria.References
set_option autoImplicit false

/-! ## One reference -/

section Reference
variable {body : List Char} {kept : List ℕ} {linkable : MappedText} {s j p q : ℕ}

theorem Maps.originStart (h : Maps body kept linkable) (hp : kept[s]? = some p) :
    linkable.originStarts[byteAt (keptText body kept) s]? = some (byteAt body p) := by
  have hdrop := drop_flatMap (fun p => List.range' (byteAt body p) (charAt body p).utf8Size)
    (fun p => List.length_range') kept s
  have hcons : kept.drop s = p :: kept.drop (s + 1) := by
    obtain ⟨hs, rfl⟩ := List.getElem?_eq_some_iff.mp hp
    exact List.drop_eq_getElem_cons hs
  obtain ⟨width, hwidth⟩ : ∃ width, (charAt body p).utf8Size = width + 1 :=
    ⟨(charAt body p).utf8Size - 1, by have := (charAt body p).utf8Size_pos; omega⟩
  rw [← List.head?_drop, h.starts, hdrop, hcons, List.flatMap_cons, hwidth, List.range'_succ]
  rfl

theorem Maps.originEnd (h : Maps body kept linkable) (hj : 0 < j) (hq : kept[j - 1]? = some q) :
    linkable.originEnds[byteAt (keptText body kept) j - 1]? = some (byteAt body (q + 1)) := by
  obtain ⟨hlt, hget⟩ := List.getElem?_eq_some_iff.mp hq
  have hinside : q < body.length := h.inside q (hget ▸ List.getElem_mem hlt)
  have htake := slice_flatMap (fun p => List.range' (byteAt body p + 1) (charAt body p).utf8Size)
    (fun p => List.length_range') kept (Nat.zero_le j)
  have hzero : byteAt (keptText body kept) 0 = 0 := rfl
  rw [hzero, List.drop_zero, Nat.sub_zero, Nat.sub_zero, List.drop_zero, ← h.ends] at htake
  have hsplit : kept.take j = kept.take (j - 1) ++ [q] := by
    obtain ⟨k, rfl⟩ : ∃ k, j = k + 1 := ⟨j - 1, by omega⟩
    rw [Nat.add_sub_cancel] at hq ⊢
    rw [List.take_add_one, hq]
    rfl
  have hpos := (charAt body q).utf8Size_pos
  have hlast : (linkable.originEnds.take (byteAt (keptText body kept) j)).getLast? = some (byteAt body (q + 1)) := by
    rw [htake, hsplit, List.flatMap_append, List.flatMap_singleton, List.getLast?_append, List.getLast?_range',
      if_neg (by omega), byteAt_succ hinside]
    simp only [Option.some_or, Option.some_inj]
    omega
  have hbytes : byteAt (keptText body kept) j ≠ 0 := by
    have hlt' : byteAt (keptText body kept) 0 < byteAt (keptText body kept) j :=
      byteAt_lt hj (by rw [keptText, List.length_map]; omega)
    omega
  rw [List.getLast?_take, if_neg hbytes] at hlast
  obtain ⟨end', hend⟩ : ∃ end', linkable.originEnds[byteAt (keptText body kept) j - 1]? = some end' := by
    refine ⟨_, List.getElem?_eq_getElem ?_⟩
    rw [h.ends, length_flatMap _ (fun p => List.length_range')]
    have hle : byteAt (keptText body kept) j ≤ byteAt (keptText body kept) (keptText body kept).length :=
      byteAt_mono (by rw [keptText, List.length_map]; omega)
    rw [byteAt_length] at hle
    omega
  rw [hend, Option.some_or] at hlast
  rw [hend, hlast]

theorem byteToChar_byteAt (hp : p ≤ body.length) : (OriginalTextIndex.new body).byteToChar (byteAt body p) = .ok p := by
  have hindex := Utf8.offsets_idxOf? 0 body p hp
  rw [Nat.zero_add] at hindex
  unfold OriginalTextIndex.byteToChar OriginalTextIndex.new
  rw [byteAt, hindex]

/-- A part of the visible text comes from its first character to its last. -/
theorem Maps.sourceRange (h : Maps body kept linkable) (hsj : s < j) (hp : kept[s]? = some p) (hq : kept[j - 1]? = some q) :
    linkable.sourceRange (byteAt (keptText body kept) s) (byteAt (keptText body kept) j) (.new body) =
      .ok ⟨p, q + 1, byteAt body p, byteAt body (q + 1)⟩ := by
  obtain ⟨hlt, hget⟩ := List.getElem?_eq_some_iff.mp hq
  have hinside : q < body.length := h.inside q (hget ▸ List.getElem_mem hlt)
  obtain ⟨hlt', hget'⟩ := List.getElem?_eq_some_iff.mp hp
  have hinside' : p < body.length := h.inside p (hget' ▸ List.getElem_mem hlt')
  have hlength : (keptText body kept).length = kept.length := by rw [keptText, List.length_map]
  have hbytes : byteAt (keptText body kept) s < byteAt (keptText body kept) j := byteAt_lt hsj (by omega)
  have hend : byteAt (keptText body kept) j ≤ byteAt (keptText body kept) (keptText body kept).length :=
    byteAt_mono (by omega)
  rw [byteAt_length] at hend
  unfold MappedText.sourceRange
  rw [if_neg (by rw [h.text]; omega), h.originStart hp, h.originEnd (by omega) hq]
  dsimp only
  rw [byteToChar_byteAt hinside'.le, byteToChar_byteAt (Nat.succ_le_of_lt hinside)]
  rfl

end Reference

/-! ## The references of a body -/

section Body
variable {body : List Char} {kept : List ℕ} {linkable : MappedText}

/-- The reference of a match lies from the visible place `s` up to `j`. -/
structure Placed (body : List Char) (kept : List ℕ) (capture : LinkCapture) (reference : ReferenceCandidate) (s j : ℕ) :
    Prop where
  nonempty : s < j
  within : j ≤ kept.length
  start : capture.complete.1 = byteAt (keptText body kept) s ∨
    capture.complete.1 = byteAt (keptText body kept) (s + 1) ∧ (keptText body kept)[s]? = some '!'
  stop : capture.complete.2 = byteAt (keptText body kept) j
  range : ∃ p q, kept[s]? = some p ∧ kept[j - 1]? = some q ∧
    reference.sourceRange = ⟨p, q + 1, byteAt body p, byteAt body (q + 1)⟩
  rawSyntax : reference.rawSyntax = ((keptText body kept).drop s).take (j - s)
  brackets : ∃ inner, reference.rawSyntax =
    (if reference.kind = .embed then ['!'] else []) ++ (['[', '['] ++ inner ++ [']', ']'])

theorem referenceCandidate_placed (h : Maps body kept linkable) (normalizedRoot : List Char) (referenceIndex : ℕ)
    {capture : LinkCapture} {i j : ℕ} (hij : i ≤ j) (hj : j ≤ kept.length)
    (hcomplete : capture.complete = (byteAt (keptText body kept) i, byteAt (keptText body kept) j)) {inner : List Char}
    (hinner : Utf8.slice linkable.text capture.complete.1 capture.complete.2 = ['[', '['] ++ inner ++ [']', ']']) :
    ∃ reference, referenceCandidate linkable (.new body) normalizedRoot referenceIndex capture = .ok reference ∧
      ∃ s j, Placed body kept capture reference s j := by
  have hlength : (keptText body kept).length = kept.length := by rw [keptText, List.length_map]
  rw [hcomplete] at hinner
  have hslice := Utf8.slice_offsets (keptText body kept) i j hij
  rw [h.text] at hinner
  rw [byteAt, byteAt, hslice] at hinner
  have hsize := congrArg List.length hinner
  simp only [List.length_take, List.length_drop, List.length_append, List.length_cons, List.length_nil, hlength] at hsize
  -- The place where the reference begins: at the mark of an embed, if there is one.
  have hbefore : isEmbed linkable.text capture.complete.1 = true → 0 < i ∧ (keptText body kept)[i - 1]? = some '!' := by
    intro hembed
    rw [isEmbed, hcomplete, h.text, byteAt, Utf8.takeBytes_size_take, Bool.and_eq_true, decide_eq_true_eq, beq_iff_eq] at hembed
    obtain ⟨hpos, hlast⟩ := hembed
    have hi : 0 < i := by
      by_contra hzero
      rw [Nat.eq_zero_of_not_pos hzero] at hpos
      exact absurd hpos (lt_irrefl 0)
    rw [List.getLast?_take, if_neg (by omega)] at hlast
    rw [List.getElem?_eq_getElem (by omega), Option.some_or] at hlast
    rw [List.getElem?_eq_getElem (by omega), hlast]
    exact ⟨hi, rfl⟩
  obtain ⟨s, hsi, hvisible, hstart, hshape⟩ : ∃ s ≤ i, capture.complete.1 - (if isEmbed linkable.text capture.complete.1 then 1 else 0) =
        byteAt (keptText body kept) s ∧
      (capture.complete.1 = byteAt (keptText body kept) s ∨
        capture.complete.1 = byteAt (keptText body kept) (s + 1) ∧ (keptText body kept)[s]? = some '!') ∧
      ((keptText body kept).drop s).take (j - s) =
        (if isEmbed linkable.text capture.complete.1 then ['!'] else []) ++ (['[', '['] ++ inner ++ [']', ']']) := by
    cases hembed : isEmbed linkable.text capture.complete.1 with
    | false =>
      refine ⟨i, le_rfl, by rw [hcomplete]; rfl, .inl (by rw [hcomplete]), ?_⟩
      rw [hinner]
      rfl
    | true =>
      obtain ⟨hi, hmark⟩ := hbefore hembed
      obtain ⟨s, rfl⟩ : ∃ s, i = s + 1 := ⟨i - 1, by omega⟩
      rw [Nat.add_sub_cancel] at hmark
      have hs : s < (keptText body kept).length := by omega
      have hchar : charAt (keptText body kept) s = '!' := by rw [charAt, hmark, Option.getD_some]
      have hstep := byteAt_succ hs
      rw [hchar, show '!'.utf8Size = 1 from rfl] at hstep
      refine ⟨s, Nat.le_succ s, by rw [hcomplete, hstep]; rfl, .inr ⟨by rw [hcomplete], hmark⟩, ?_⟩
      have hcons : (keptText body kept).drop s = '!' :: (keptText body kept).drop (s + 1) := by
        rw [List.drop_eq_getElem_cons hs]
        congr 1
        exact Option.some.inj ((List.getElem?_eq_getElem hs).symm.trans hmark)
      rw [hcons, show j - s = j - (s + 1) + 1 by omega, List.take_succ_cons, hinner]
      rfl
  have hp := List.getElem?_eq_getElem (l := kept) (i := s) (by omega)
  have hq := List.getElem?_eq_getElem (l := kept) (i := j - 1) (by omega)
  have hrange := h.sourceRange (s := s) (j := j) (by omega) hp hq
  have hraw : Utf8.slice linkable.text (byteAt (keptText body kept) s) (byteAt (keptText body kept) j) =
      ((keptText body kept).drop s).take (j - s) := by
    rw [h.text, byteAt, byteAt, Utf8.slice_offsets _ s j (by omega)]
  have hstop : capture.complete.2 = byteAt (keptText body kept) j := by rw [hcomplete]
  unfold referenceCandidate
  dsimp only
  rw [hvisible, hstop, hrange]
  refine ⟨_, rfl, s, j, by omega, hj, hstart, hstop, ⟨_, _, hp, hq, rfl⟩, hraw, ?_⟩
  dsimp only
  rw [hraw, hshape]
  refine ⟨inner, ?_⟩
  cases isEmbed linkable.text capture.complete.1 <;> rfl

/-- Of two matches, the reference of the later one begins behind that of the earlier one. The mark of an embed is not the
bracket that closes the reference before it. -/
theorem Placed.before {capture capture' : LinkCapture} {reference reference' : ReferenceCandidate} {s j s' j' : ℕ}
    (h : Placed body kept capture reference s j) (h' : Placed body kept capture' reference' s' j')
    (horder : capture.complete.2 ≤ capture'.complete.1) : j ≤ s' := by
  have hlength : (keptText body kept).length = kept.length := by rw [keptText, List.length_map]
  have hj := h.within
  have hj' := h'.within
  have hs' := h'.nonempty
  rw [h.stop] at horder
  obtain hstart | ⟨hstart, hmark⟩ := h'.start
  · by_contra hlt
    have hbytes : byteAt (keptText body kept) s' < byteAt (keptText body kept) j := byteAt_lt (by omega) (by omega)
    omega
  · by_contra hlt
    have hsame : j = s' + 1 := by
      by_contra hne
      have hbytes : byteAt (keptText body kept) (s' + 1) < byteAt (keptText body kept) j :=
        byteAt_lt (by omega) (by omega)
      omega
    -- The last character of the earlier reference closes it.
    obtain ⟨inner, hbrackets⟩ := h.brackets
    have hlast : reference.rawSyntax.getLast? = some ']' := by
      rw [hbrackets, List.getLast?_append, List.getLast?_append]
      rfl
    have hsj := h.nonempty
    rw [h.rawSyntax, List.getLast?_take, if_neg (by omega), List.getElem?_drop, show s + (j - s - 1) = s' by omega, hmark,
      Option.some_or] at hlast
    exact absurd hlast (by decide)

theorem Maps.filter_part (h : Maps body kept linkable) (hsorted : kept.Pairwise (· < ·)) {s j p q : ℕ} (hsj : s < j)
    (hj : j ≤ kept.length) (hp : kept[s]? = some p) (hq : kept[j - 1]? = some q) :
    (kept.drop s).take (j - s) = kept.filter fun x => p ≤ x && x < q + 1 := by
  have hbounded : Bounded id (fun k => kept[k]?.getD (body.length + k)) kept := by
    refine ⟨fun k x hx => by rw [hx]; rfl, fun a b hab hb => ?_⟩
    have ha := List.getElem?_eq_getElem (l := kept) (i := a) (by omega)
    rw [ha, Option.getD_some]
    cases hb' : kept[b]? with
    | none =>
      have hlt := h.inside _ (List.getElem_mem (l := kept) (n := a) (by omega))
      rw [Option.getD_none]
      omega
    | some y =>
      rw [Option.getD_some]
      exact pairwise_getElem? hsorted hab ha hb'
  rw [hbounded.slice_eq_filter hsj.le hj, hp]
  refine List.filter_congr fun x hx => ?_
  obtain ⟨m, hm⟩ := List.mem_iff_getElem?.mp hx
  have hiff : id x < kept[j]?.getD (body.length + j) ↔ x < q + 1 := by
    obtain hmj | hmj := Nat.lt_or_ge m j
    · have hxq : x ≤ q := by
        obtain hlt | rfl := Nat.lt_or_eq_of_le (show m ≤ j - 1 by omega)
        · exact (pairwise_getElem? hsorted hlt hm hq).le
        · exact (Option.some.inj (hm.symm.trans hq)).le
      have hbound := hbounded.grows (j - 1) j (by omega) hj
      rw [hq, Option.getD_some] at hbound
      exact iff_of_true (hxq.trans_lt hbound) (by omega)
    · have hqx : q < x := pairwise_getElem? hsorted (show j - 1 < m by omega) hq hm
      have hbound := hbounded.mono hmj (List.getElem?_eq_some_iff.mp hm).1.le
      rw [hm, Option.getD_some] at hbound
      exact iff_of_false (by simpa using hbound) (by omega)
  simp only [id] at hiff
  simp only [id, Option.getD_some, hiff]

/-- The range of a reference in the original, by characters and by bytes, from the mark of an embed or an opening bracket
to a closing bracket. What is not hidden in it is the syntax of the reference. -/
structure Located (body : List Char) (kept : List ℕ) (reference : ReferenceCandidate) : Prop where
  nonempty : reference.sourceRange.charStart < reference.sourceRange.charEnd
  within : reference.sourceRange.charEnd ≤ body.length
  byteStart : reference.sourceRange.byteStart = Utf8.size (body.take reference.sourceRange.charStart)
  byteEnd : reference.sourceRange.byteEnd = Utf8.size (body.take reference.sourceRange.charEnd)
  opens : body[reference.sourceRange.charStart]? = some (if reference.kind = .embed then '!' else '[')
  closes : body[reference.sourceRange.charEnd - 1]? = some ']'
  rawSyntax : reference.rawSyntax = (kept.filter fun position =>
    reference.sourceRange.charStart ≤ position && position < reference.sourceRange.charEnd).filterMap (body[·]?)
  brackets : ∃ inner, reference.rawSyntax =
    (if reference.kind = .embed then ['!'] else []) ++ (['[', '['] ++ inner ++ [']', ']'])

theorem Placed.located (h : Maps body kept linkable) (hsorted : kept.Pairwise (· < ·)) {capture : LinkCapture}
    {reference : ReferenceCandidate} {s j : ℕ} (hplaced : Placed body kept capture reference s j) :
    Located body kept reference := by
  obtain ⟨p, q, hp, hq, hrange⟩ := hplaced.range
  obtain ⟨inner, hbrackets⟩ := hplaced.brackets
  have hsj := hplaced.nonempty
  have hj := hplaced.within
  have hqmem : q ∈ kept := List.mem_of_getElem? hq
  have hpmem : p ∈ kept := List.mem_of_getElem? hp
  have hpq : p ≤ q := by
    obtain hlt | hsame := Nat.lt_or_eq_of_le (show s ≤ j - 1 by omega)
    · exact (pairwise_getElem? hsorted hlt hp hq).le
    · exact (Option.some.inj (hp.symm.trans (hsame ▸ hq))).le
  -- The first and the last character of the syntax are those at `p` and `q`.
  have hfirst : reference.rawSyntax.head? = some (charAt body p) := by
    rw [hplaced.rawSyntax, List.head?_take, if_neg (by omega), List.head?_drop, keptText, List.getElem?_map, hp]
    rfl
  have hlast : reference.rawSyntax.getLast? = some (charAt body q) := by
    rw [hplaced.rawSyntax, List.getLast?_take, if_neg (by omega), List.getElem?_drop, show s + (j - s - 1) = j - 1 by omega,
      keptText, List.getElem?_map, hq]
    rfl
  refine ⟨?_, ?_, ?_, ?_, ?_, ?_, ?_, ⟨inner, hbrackets⟩⟩
  · rw [hrange]
    exact Nat.lt_succ_of_le hpq
  · rw [hrange]
    exact h.inside q hqmem
  · rw [hrange]
    rfl
  · rw [hrange]
    rfl
  · rw [hrange, charAt_eq (h.inside p hpmem), ← hfirst, hbrackets]
    split <;> rfl
  · rw [hrange, Nat.add_sub_cancel, charAt_eq (h.inside q hqmem), ← hlast, hbrackets, List.getLast?_append,
      List.getLast?_append]
    rfl
  · rw [hplaced.rawSyntax, hrange, ← h.filter_part hsorted hsj hj hp hq, keptText, ← List.map_drop, ← List.map_take]
    have hinside : ∀ x ∈ (kept.drop s).take (j - s), x < body.length := fun x hx =>
      h.inside x (List.mem_of_mem_drop (List.mem_of_mem_take hx))
    generalize (kept.drop s).take (j - s) = part at hinside
    induction part with
    | nil => rfl
    | cons x part ih =>
      rw [List.map_cons, List.filterMap_cons_some (charAt_eq (hinside x List.mem_cons_self)),
        ih fun y hy => hinside y (List.mem_cons_of_mem x hy)]

/-- The loop over the matches places each of them, unless there are too many. -/
theorem extractFrom_placed (h : Maps body kept linkable) (sha256 : String → String) {captures : List LinkCapture}
    (hmatches : Matches linkable.text (captures.map (·.complete)))
    (hbrackets : ∀ capture ∈ captures, ∃ inner,
      Utf8.slice linkable.text capture.complete.1 capture.complete.2 = ['[', '['] ++ inner ++ [']', ']'])
    (state : EdgePlanState) (references : List ReferenceCandidate) :
    (∀ error, state.extractFrom sha256 linkable (.new body) references captures = .error error → ¬ error.IsMapping) ∧
      ∀ outcome, state.extractFrom sha256 linkable (.new body) references captures = .ok outcome →
        ∃ added, outcome.2 = references ++ added ∧
          List.Forall₂ (fun capture reference => ∃ s j, Placed body kept capture reference s j) captures added := by
  induction captures generalizing state references with
  | nil =>
    refine ⟨fun error herror => ?_, fun outcome houtcome => ?_⟩
    · cases herror
    · cases houtcome
      exact ⟨[], (List.append_nil _).symm, .nil⟩
  | cons capture rest ih =>
    obtain ⟨i, j, hij, hj, hcomplete⟩ := hmatches.boundaries capture.complete List.mem_cons_self
    obtain ⟨inner, hinner⟩ := hbrackets capture List.mem_cons_self
    rw [h.text] at hj hcomplete
    rw [keptText, List.length_map] at hj
    obtain ⟨reference, hreference, hplaced⟩ :=
      referenceCandidate_placed h state.normalizedRoot references.length hij hj hcomplete hinner
    have hrest := ih ⟨hmatches.ordered.tail, fun range hrange => hmatches.boundaries range (List.mem_cons_of_mem _ hrange)⟩
      (fun other hother => hbrackets other (List.mem_cons_of_mem _ hother))
      (state.appendBodyEdge sha256 reference.normalizedTargetPath reference.sourceRange references.length)
      (references ++ [reference])
    unfold EdgePlanState.extractFrom
    split
    · refine ⟨fun error herror => ?_, fun outcome houtcome => ?_⟩
      · cases herror
        exact id
      · cases houtcome
    · rw [hreference]
      refine ⟨hrest.1, fun outcome houtcome => ?_⟩
      obtain ⟨added, hadded, hall⟩ := hrest.2 outcome houtcome
      exact ⟨reference :: added, by rw [hadded, List.append_assoc]; rfl, .cons hplaced hall⟩

/-- One reference ends where the other has not begun. -/
def EndsBefore (a b : ReferenceCandidate) : Prop :=
  a.sourceRange.charEnd ≤ b.sourceRange.charStart ∧ a.sourceRange.byteEnd ≤ b.sourceRange.byteStart

theorem placed_pairwise (hsorted : kept.Pairwise (· < ·)) {captures : List LinkCapture} {references : List ReferenceCandidate}
    (hordered : (captures.map (·.complete)).Pairwise fun a b => a.2 ≤ b.1)
    (hplaced : List.Forall₂ (fun capture reference => ∃ s j, Placed body kept capture reference s j) captures references) :
    references.Pairwise EndsBefore := by
  induction hplaced with
  | nil => exact .nil
  | cons hfirst hrest ih =>
    rw [List.map_cons, List.pairwise_cons] at hordered
    refine List.pairwise_cons.mpr ⟨fun other hother => ?_, ih hordered.2⟩
    obtain ⟨s, j, hfirst⟩ := hfirst
    obtain ⟨capture', hcapture, s', j', hother⟩ : ∃ capture' ∈ _, ∃ s' j', Placed body kept capture' other s' j' :=
      (List.forall₂_iff_get.mp hrest) |> fun hget => by
        obtain ⟨k, hk, rfl⟩ := List.mem_iff_getElem.mp hother
        exact ⟨_, List.getElem_mem (by omega), hget.2 k (by omega) hk⟩
    have hjs := hfirst.before hother (hordered.1 _ (List.mem_map_of_mem hcapture))
    obtain ⟨p, q, hp, hq, hrange⟩ := hfirst.range
    obtain ⟨p', q', hp', hq', hrange'⟩ := hother.range
    have hqp : q < p' := pairwise_getElem? hsorted (by have := hfirst.nonempty; omega) hq hp'
    rw [EndsBefore, hrange, hrange']
    exact ⟨hqp, byteAt_mono (Nat.succ_le_of_lt hqp)⟩

end Body

/-- References map back to their source: no run fails over the map, and the references of a run lie one behind the other at
their places in the body. -/
theorem references_located (sha256 : String → String) (document : ReferenceDocumentInput) (patterns : ExtractionPatterns) :
    (∀ error, extractDocument sha256 document patterns = .error error → ¬ error.IsMapping) ∧
      ∀ result, extractDocument sha256 document patterns = .ok result →
        ∃ kept, visiblePositions document.body patterns = .ok kept ∧
          (∀ reference ∈ result.references, Located document.body kept reference) ∧ result.references.Pairwise EndsBefore := by
  obtain ⟨hfails, hlinkable⟩ := maps_linkable document.body patterns
  unfold extractDocument EdgePlanState.extractBody
  dsimp only
  cases hrun : linkableMarkdown document.body patterns with
  | error error =>
    refine ⟨fun error' herror => ?_, fun result hresult => ?_⟩
    · cases herror
      exact hfails error hrun
    · cases hresult
  | ok linkable =>
    obtain ⟨kept, hkept, hsorted, hmaps⟩ := hlinkable linkable hrun
    obtain ⟨herrors, hok⟩ := extractFrom_placed hmaps sha256 (patterns.wikilink_matches linkable.text)
      (patterns.wikilink_brackets linkable.text)
      ((EdgePlanState.new document.noteId document.relativePath (normalizeRoot document.alexandriaRoot)).appendFrontmatter
        sha256 document.frontmatterEdges) []
    dsimp only
    split
    · rename_i error herror
      refine ⟨fun error' herror' => ?_, fun result hresult => ?_⟩
      · cases herror'
        exact herrors error herror
      · cases hresult
    · rename_i state references hreferences
      refine ⟨fun error herror => ?_, fun result hresult => ?_⟩
      · cases herror
      · cases hresult
        obtain ⟨added, hadded, hplaced⟩ := hok _ hreferences
        rw [List.nil_append] at hadded
        have hsame : references = added := hadded
        subst hsame
        refine ⟨kept, hkept, fun reference hreference => ?_,
          placed_pairwise hsorted (patterns.wikilink_matches linkable.text).ordered hplaced⟩
        obtain ⟨k, hk, rfl⟩ := List.mem_iff_getElem.mp hreference
        have hget := List.forall₂_iff_get.mp hplaced
        have hk' : k < references.length := hk
        obtain ⟨s, j, hat⟩ := hget.2 k (by omega) hk'
        exact hat.located hmaps hsorted

end Alexandria.References
