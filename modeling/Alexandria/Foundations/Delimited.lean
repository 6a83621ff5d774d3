import Mathlib.Data.List.Basic
import Mathlib.Data.List.Infix

/-! # Blocks between two markers

The first occurrence of a marker cuts a text in two. A block runs from the first start marker to the first stop marker
after it, which is what a lazy search for the two finds. A marker is sharp when its first symbol does not come again in
it: then no occurrence overlaps another, and a text put together around the markers is cut where it was put together.
-/

namespace Alexandria.Delimited
set_option autoImplicit false

universe u
variable {α : Type u}

/-- The first symbol of the marker does not come again in it. -/
def Sharp (marker : List α) : Prop := ∃ first rest, marker = first :: rest ∧ first ∉ rest

theorem Sharp.ne_nil {marker : List α} (h : Sharp marker) : marker ≠ [] := by
  obtain ⟨first, rest, rfl, -⟩ := h
  exact List.cons_ne_nil first rest

theorem infix_append_cons {m u v : List α} {c : α} (hc : c ∉ m) : m <:+: u ++ c :: v ↔ m <:+: u ∨ m <:+: v := by
  constructor
  · intro h
    induction u with
    | nil =>
      rw [List.nil_append, List.infix_cons_iff] at h
      obtain h | h := h
      · cases m with
        | nil => exact .inl List.nil_infix
        | cons a m => exact absurd (List.mem_cons.mpr (.inl (List.cons_prefix_cons.mp h).1.symm)) hc
      · exact .inr h
    | cons a u ih =>
      rw [List.cons_append, List.infix_cons_iff] at h
      obtain h | h := h
      · have hlen : m.length ≤ (a :: u).length := by
          by_contra hlong
          have htake := List.prefix_iff_eq_take.mp h
          refine hc ?_
          rw [htake, ← List.cons_append, List.take_append, List.mem_append]
          right
          obtain ⟨k, hk⟩ : ∃ k, m.length - (a :: u).length = k + 1 := ⟨m.length - (a :: u).length - 1, by omega⟩
          rw [hk, List.take_succ_cons]
          exact List.mem_cons_self
        have hprefix : m <+: a :: u := by
          refine List.prefix_of_prefix_length_le h ?_ hlen
          rw [← List.cons_append]
          exact List.prefix_append _ _
        exact .inl hprefix.isInfix
      · obtain h | h := ih h
        · exact .inl (h.trans (List.suffix_cons a u).isInfix)
        · exact .inr h
  · intro h
    obtain h | h := h
    · exact h.trans (List.prefix_append u (c :: v)).isInfix
    · exact h.trans ((List.suffix_cons c v).trans (List.suffix_append u (c :: v))).isInfix

/-- A text without the separator stands in a joined text exactly when it stands in one of the parts. -/
theorem infix_intercalate {m : List α} {c : α} (hc : c ∉ m) (hm : m ≠ []) (parts : List (List α)) :
    m <:+: [c].intercalate parts ↔ ∃ part ∈ parts, m <:+: part := by
  induction parts with
  | nil => simpa using hm
  | cons part parts ih =>
    cases parts with
    | nil => simp
    | cons next parts =>
      rw [List.intercalate_cons_cons, List.append_assoc, List.singleton_append, infix_append_cons hc, ih]
      simp only [List.mem_cons, exists_eq_or_imp]

variable [DecidableEq α]

/-- What stands before the first occurrence of the marker, and what follows it. -/
def cutAt (marker : List α) : List α → Option (List α × List α)
  | [] => if marker = [] then some ([], []) else none
  | c :: rest =>
    if marker.isPrefixOf (c :: rest) then some ([], (c :: rest).drop marker.length)
    else (cutAt marker rest).map fun cut => (c :: cut.1, cut.2)

section Cut
variable {marker text before after : List α}
attribute [local simp] cutAt

theorem cutAt_sound (h : cutAt marker text = some (before, after)) : text = before ++ (marker ++ after) := by
  induction text generalizing before with
  | nil =>
    rw [cutAt] at h
    split at h
    · rename_i hnil
      cases h
      rw [hnil]
      rfl
    · cases h
  | cons c text ih =>
    rw [cutAt] at h
    split at h
    · rename_i hprefix
      cases h
      obtain ⟨tail, htail⟩ := List.isPrefixOf_iff_prefix.mp hprefix
      rw [← htail, List.drop_left]
      rfl
    · obtain ⟨cut, hcut, heq⟩ := Option.map_eq_some_iff.mp h
      cases heq
      have hrest : text = cut.1 ++ (marker ++ cut.2) := ih hcut
      rw [List.cons_append, ← hrest]

theorem cutAt_before (h : cutAt marker text = some (before, after)) (hmarker : marker ≠ []) : ¬ marker <:+: before := by
  induction text generalizing before with
  | nil =>
    rw [cutAt, if_neg hmarker] at h
    cases h
  | cons c text ih =>
    have hsound := cutAt_sound h
    rw [cutAt] at h
    split at h
    · cases h
      simpa using hmarker
    · rename_i hprefix
      obtain ⟨cut, hcut, heq⟩ := Option.map_eq_some_iff.mp h
      cases heq
      intro hin
      obtain hin | hin := List.infix_cons_iff.mp hin
      · refine hprefix (List.isPrefixOf_iff_prefix.mpr ?_)
        rw [hsound]
        exact hin.trans (List.prefix_append _ _)
      · exact ih hcut hin

theorem cutAt_eq_none (hmarker : marker ≠ []) : cutAt marker text = none ↔ ¬ marker <:+: text := by
  induction text with
  | nil =>
    rw [cutAt, if_neg hmarker]
    simpa using hmarker
  | cons c text ih =>
    rw [cutAt, List.infix_cons_iff, not_or]
    split
    · rename_i hprefix
      have := List.isPrefixOf_iff_prefix.mp hprefix
      simp [this]
    · rename_i hprefix
      rw [List.isPrefixOf_iff_prefix] at hprefix
      rw [Option.map_eq_none_iff, ih]
      simp [ hprefix]

/-- A text is cut where it was put together. -/
theorem cutAt_append (hsharp : Sharp marker) (hbefore : ¬ marker <:+: before) (after : List α) :
    cutAt marker (before ++ (marker ++ after)) = some (before, after) := by
  induction before with
  | nil =>
    obtain ⟨first, rest, rfl, -⟩ := hsharp
    rw [List.nil_append, List.cons_append, cutAt, if_pos, List.length_cons, List.drop_succ_cons, List.drop_left]
    exact List.isPrefixOf_iff_prefix.mpr (List.prefix_append (first :: rest) after)
  | cons c before ih =>
    have hrest : ¬ marker <:+: before := fun h => hbefore (h.trans (List.suffix_cons c before).isInfix)
    rw [List.cons_append, cutAt, if_neg, ih hrest]
    · rfl
    · intro hprefix
      rw [List.isPrefixOf_iff_prefix] at hprefix
      obtain hshort | hlong := Nat.lt_or_ge (c :: before).length marker.length
      · -- the marker would begin again inside itself
        obtain ⟨first, rest, rfl, hfirst⟩ := hsharp
        rw [List.cons_prefix_cons] at hprefix
        have htake := List.prefix_iff_eq_take.mp hprefix.2
        refine hfirst ?_
        rw [htake, List.take_append, List.mem_append]
        right
        rw [List.length_cons, List.length_cons] at hshort
        obtain ⟨k, hk⟩ : ∃ k, rest.length - before.length = k + 1 := ⟨rest.length - before.length - 1, by omega⟩
        rw [hk, List.cons_append, List.take_succ_cons]
        exact List.mem_cons_self
      · refine hbefore (List.IsPrefix.isInfix ?_)
        refine List.prefix_of_prefix_length_le hprefix ?_ hlong
        rw [← List.cons_append]
        exact List.prefix_append _ _

/-- Wherever the marker stands, the text after it is still there after the cut. -/
theorem cutAt_of_eq (hmarker : marker ≠ []) (before after : List α) (h : text = before ++ (marker ++ after)) :
    ∃ cut, cutAt marker text = some cut ∧ after <:+ cut.2 := by
  induction before generalizing text with
  | nil =>
    cases marker with
    | nil => exact absurd rfl hmarker
    | cons first rest =>
      rw [h, List.nil_append, List.cons_append, cutAt, if_pos]
      · refine ⟨_, rfl, ?_⟩
        rw [List.length_cons, List.drop_succ_cons, List.drop_left]
      · exact List.isPrefixOf_iff_prefix.mpr (List.prefix_append (first :: rest) after)
  | cons c before ih =>
    rw [h, List.cons_append, cutAt]
    split
    · refine ⟨_, rfl, ?_⟩
      have hafter : after <:+ c :: (before ++ (marker ++ after)) :=
        ((List.suffix_append marker after).trans (List.suffix_append before _)).trans (List.suffix_cons c _)
      refine List.suffix_of_suffix_length_le hafter (List.drop_suffix _ _) ?_
      simp only [List.length_drop, List.length_cons, List.length_append]
      omega
    · obtain ⟨cut, hcut, hafter⟩ := ih rfl
      rw [hcut]
      exact ⟨_, rfl, hafter⟩

end Cut

/-! ## Blocks -/

structure Markers (α : Type u) where
  start : List α
  stop : List α
  startSharp : Sharp start
  stopSharp : Sharp stop

/-- A text around its first block. -/
structure Block (α : Type u) where
  before : List α
  inner : List α
  after : List α

namespace Markers
variable (markers : Markers α)

/-- The block with its markers. -/
def enclose (inner : List α) : List α := markers.start ++ (inner ++ markers.stop)

/-- The first block: lazy, from the first start marker. -/
def find (text : List α) : Option (Block α) := do
  let (before, rest) ← cutAt markers.start text
  let (inner, after) ← cutAt markers.stop rest
  return ⟨before, inner, after⟩

variable {markers} {text : List α} {block : Block α}

theorem find_cases (h : markers.find text = some block) :
    ∃ rest, cutAt markers.start text = some (block.before, rest) ∧ cutAt markers.stop rest = some (block.inner, block.after) := by
  obtain ⟨cut, hcut, hrest⟩ := Option.bind_eq_some_iff.mp h
  obtain ⟨inner, hinner, heq⟩ := Option.bind_eq_some_iff.mp hrest
  cases heq
  exact ⟨cut.2, hcut, hinner⟩

theorem find_sound (h : markers.find text = some block) :
    text = block.before ++ (markers.enclose block.inner ++ block.after) := by
  obtain ⟨rest, hstart, hstop⟩ := find_cases h
  rw [cutAt_sound hstart, cutAt_sound hstop, enclose]
  simp only [List.append_assoc]

theorem find_before (h : markers.find text = some block) : ¬ markers.start <:+: block.before := by
  obtain ⟨rest, hstart, -⟩ := find_cases h
  exact cutAt_before hstart markers.startSharp.ne_nil

theorem find_inner (h : markers.find text = some block) : ¬ markers.stop <:+: block.inner := by
  obtain ⟨rest, -, hstop⟩ := find_cases h
  exact cutAt_before hstop markers.stopSharp.ne_nil

theorem find_append {before inner : List α} (hbefore : ¬ markers.start <:+: before) (hinner : ¬ markers.stop <:+: inner)
    (after : List α) : markers.find (before ++ (markers.enclose inner ++ after)) = some ⟨before, inner, after⟩ := by
  unfold find enclose
  have hstart := cutAt_append markers.startSharp hbefore (inner ++ markers.stop ++ after)
  have hstop := cutAt_append markers.stopSharp hinner after
  rw [List.append_assoc] at hstart
  rw [List.append_assoc, List.append_assoc, hstart]
  simp only [bind, Option.bind, hstop]
  rfl

/-- There is a block as soon as the two markers stand in the text one after the other. -/
theorem find_isSome_of (before inner after : List α) (h : text = before ++ (markers.enclose inner ++ after)) :
    (markers.find text).isSome = true := by
  obtain ⟨cut, hcut, hafter⟩ := cutAt_of_eq markers.startSharp.ne_nil before (inner ++ (markers.stop ++ after))
    (h.trans (by simp [enclose]))
  have hstop : markers.stop <:+: cut.2 := by
    obtain ⟨front, hfront⟩ := hafter
    exact ⟨front ++ inner, after, by rw [← hfront]; simp⟩
  cases hfound : cutAt markers.stop cut.2 with
  | none => exact absurd hstop ((cutAt_eq_none markers.stopSharp.ne_nil).mp hfound)
  | some found =>
    unfold find
    simp only [bind, Option.bind, hcut, hfound]
    rfl

/-- A part of a text without a block has no block. -/
theorem find_none_of_infix {part : List α} (h : markers.find text = none) (hpart : part <:+: text) :
    markers.find part = none := by
  cases hfound : markers.find part with
  | none => rfl
  | some block =>
    obtain ⟨front, tail, htext⟩ := hpart
    rw [find_sound hfound] at htext
    have hsome : (markers.find text).isSome = true :=
      find_isSome_of (front ++ block.before) block.inner (block.after ++ tail) (by
        rw [← htext]
        simp)
    rw [h] at hsome
    cases hsome

/-- A character that opens no start marker belongs to the text before the block. -/
theorem find_cons {c : α} (hc : markers.start.head? ≠ some c) (text : List α) :
    markers.find (c :: text) = (markers.find text).map fun block => { block with before := c :: block.before } := by
  have hopens : markers.start.isPrefixOf (c :: text) = false := by
    rw [Bool.eq_false_iff, Ne, List.isPrefixOf_iff_prefix]
    intro hprefix
    cases hstart : markers.start with
    | nil => exact markers.startSharp.ne_nil hstart
    | cons first rest =>
      rw [hstart] at hprefix hc
      exact hc (congrArg some (List.cons_prefix_cons.mp hprefix).1)
  unfold find
  rw [cutAt, if_neg (by rw [hopens]; exact Bool.false_ne_true)]
  cases cutAt markers.start text with
  | none => rfl
  | some cut =>
    simp only [Option.map_some, bind, Option.bind]
    cases cutAt markers.stop cut.2 <;> rfl

theorem find_length (h : markers.find text = some block) : block.after.length < text.length := by
  have hpos : 0 < markers.start.length := List.length_pos_iff.mpr markers.startSharp.ne_nil
  rw [find_sound h, enclose]
  simp only [List.length_append]
  omega

/-! ## Replacing every block -/

/-- Without the lead at the end, if it is there. -/
def chop (lead : α) (before : List α) : List α := if before.getLast? = some lead then before.dropLast else before

/-- What a search that takes one lead before the block matches. -/
def matched (markers : Markers α) (lead : α) (block : Block α) : List α :=
  (if block.before.getLast? = some lead then [lead] else []) ++ markers.enclose block.inner

/-- Replace the blocks one after another, each with the lead before it. -/
def replaceAll (markers : Markers α) (lead : α) (replace : List α → List α) (text : List α) : List α :=
  match _h : markers.find text with
  | none => text
  | some block =>
    chop lead block.before ++ (replace (markers.matched lead block) ++ replaceAll markers lead replace block.after)
termination_by text.length
decreasing_by exact find_length _h

variable {lead : α} {replace : List α → List α}

theorem replaceAll_none (h : markers.find text = none) : markers.replaceAll lead replace text = text := by
  rw [replaceAll]
  split
  · rfl
  · rename_i block hblock
    rw [h] at hblock
    cases hblock

theorem replaceAll_some (h : markers.find text = some block) : markers.replaceAll lead replace text =
    chop lead block.before ++ (replace (markers.matched lead block) ++ markers.replaceAll lead replace block.after) := by
  rw [replaceAll]
  split
  · rename_i hnone
    rw [h] at hnone
    cases hnone
  · rename_i found hfound
    cases h.symm.trans hfound
    rfl

theorem chop_append_lead (before : List α) : chop lead (before ++ [lead]) = before := by
  simp [chop]

theorem chop_prefix (before : List α) : chop lead before <+: before := by
  unfold chop
  split
  · exact List.dropLast_prefix before
  · exact List.prefix_refl before

end Markers
end Alexandria.Delimited
