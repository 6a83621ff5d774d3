import Alexandria.Graph.LinkRenderer

/-! # The links section as a fixed point

A second application finds the block of the first, takes one line break before it and puts two there. So the section
settles only where nothing but blanks stands before the block; and it is what was rendered only where the replacement
template stands for itself and the stop marker does not come early.
-/

namespace Alexandria.Graph
set_option autoImplicit false
open Text
open Delimited
open ReplacementTemplate (isInert parse expand Piece)
open Notes (JsonValue JsonObject)

variable {φ : Type}

/-! ## Trimming around text that stays -/

section Trimming
variable {p : Char → Bool} {v : List Char}

theorem length_rdropWhile_append (hv : v.rdropWhile p = v) (u : List Char) :
    v.length ≤ ((u ++ v).rdropWhile p).length := by
  cases v using List.reverseRecOn with
  | nil => exact Nat.zero_le _
  | append_singleton v d =>
    have hd : p d = false := by
      by_contra hblank
      rw [List.rdropWhile_concat_pos _ _ _ (by simpa using hblank)] at hv
      have hlen := (List.rdropWhile_prefix p v).length_le
      rw [hv, List.length_append, List.length_singleton] at hlen
      omega
    rw [← List.append_assoc, List.rdropWhile_concat_neg _ _ _ (by rw [hd]; exact Bool.false_ne_true)]
    simp only [List.length_append, List.length_singleton]
    omega

end Trimming

/-! ## The markers -/

theorem start_ends : ∃ m, linksStart = '<' :: (m ++ ['>']) := ⟨"!-- ALEXANDRIA-LINKS:START --".toList, by decide⟩

theorem end_ends : ∃ m, linksEnd = '<' :: (m ++ ['>']) := ⟨"!-- ALEXANDRIA-LINKS:END --".toList, by decide⟩

theorem newline_notMem_start : '\n' ∉ linksStart := by decide

theorem newline_notMem_end : '\n' ∉ linksEnd := by decide

/-- The text between the markers. -/
def inner (rendered : List Char) : List Char := '\n' :: (rendered ++ ['\n'])

theorem linksBlock_eq (rendered : List Char) : linksBlock rendered = linksStart ++ (inner rendered ++ linksEnd) := rfl

theorem end_infix_inner {rendered : List Char} : linksEnd <:+: inner rendered ↔ linksEnd <:+: rendered := by
  unfold inner
  have hnil : ¬ linksEnd <:+: [] := by decide
  have hfirst := infix_append_cons (u := []) (v := rendered ++ ['\n']) newline_notMem_end
  have hlast := infix_append_cons (u := rendered) (v := []) newline_notMem_end
  rw [List.nil_append] at hfirst
  rw [hfirst, hlast]
  simp [hnil]

theorem linksBlock_ends (rendered : List Char) : ∃ m, linksBlock rendered = '<' :: (m ++ ['>']) := by
  obtain ⟨s, hs⟩ := start_ends
  obtain ⟨e, he⟩ := end_ends
  refine ⟨s ++ ['>'] ++ (inner rendered ++ '<' :: e), ?_⟩
  rw [linksBlock_eq, hs, he]
  simp

/-- The replacement, as it is handed to the substitution. -/
def template (rendered : List Char) : List Char := '\n' :: '\n' :: linksBlock rendered

theorem isInert_template (rendered : List Char) : isInert (template rendered) = isInert (rendered ++ ['\n']) := by
  have hsplit : template rendered = ('\n' :: '\n' :: (linksStart ++ ['\n'])) ++ (rendered ++ '\n' :: linksEnd) := by
    simp [template, linksBlock_eq, inner]
  have hstart : '\\' ∉ '\n' :: '\n' :: (linksStart ++ ['\n']) := by decide
  have hend : isInert linksEnd = true := by decide
  rw [hsplit, ReplacementTemplate.isInert_append hstart, ReplacementTemplate.isInert_append_cons (by decide), hend,
    Bool.and_true]

theorem find_concat {text : List Char} (h : alexandriaLinks.find text = none) :
    alexandriaLinks.find (text ++ ['\n']) = none := by
  cases hfound : alexandriaLinks.find (text ++ ['\n']) with
  | none => rfl
  | some block =>
    have hsound := Markers.find_sound hfound
    cases hafter : block.after using List.reverseRecOn with
    | nil =>
      obtain ⟨m, hm⟩ := end_ends
      have hlast := congrArg List.getLast? hsound
      have hstop : alexandriaLinks.stop = '<' :: (m ++ ['>']) := hm
      have hend : ('<' :: (m ++ ['>'])).getLast? = some '>' := by
        rw [← List.cons_append, List.getLast?_concat]
      rw [hafter, Markers.enclose, hstop] at hlast
      simp [hend] at hlast
    | append_singleton after c =>
      rw [hafter] at hsound
      have hinit : text = block.before ++ (alexandriaLinks.enclose block.inner ++ after) := by
        have := congrArg List.dropLast hsound
        simpa [← List.append_assoc] using this
      have hsome := Markers.find_isSome_of _ _ _ hinit
      rw [h] at hsome
      cases hsome

/-! ## One application -/

section Update
variable {rendered body out : List Char} {block : Block Char}

/-- The text without its blocks, and without the line break before each. -/
def outside (text : List Char) : List Char := alexandriaLinks.replaceAll '\n' (fun _ => []) text

theorem updateSection_found (hrendered : rendered ≠ []) (hfind : alexandriaLinks.find body = some block)
    (hinert : isInert (rendered ++ ['\n']) = true) :
    updateSection rendered body = some (trimBy isPythonWhitespace (Markers.chop '\n' block.before ++ (template rendered ++
      alexandriaLinks.replaceAll '\n' (fun _ => template rendered) block.after)) ++ ['\n']) := by
  have hparse := ReplacementTemplate.parse_inert ((isInert_template rendered).trans hinert)
  have hexpand : expand ((template rendered).map Piece.char) = fun _ => template rendered := by
    funext whole
    exact ReplacementTemplate.expand_char _ whole
  unfold updateSection
  rw [if_neg hrendered, hfind]
  simp only
  show (parse (template rendered) >>= _) = _
  rw [hparse]
  simp only [bind, Option.bind]
  rw [hexpand, Markers.replaceAll_some hfind]
  rfl

/-- Only blanks before the block and no second one after it: the block comes to the front, and the text after it stays. -/
theorem updateSection_settled (hrendered : rendered ≠ []) (hfind : alexandriaLinks.find body = some block)
    (hinert : isInert (rendered ++ ['\n']) = true) (hbefore : ∀ c ∈ block.before, isPythonWhitespace c = true)
    (hafter : alexandriaLinks.find block.after = none) :
    updateSection rendered body =
      some (linksBlock rendered ++ (block.after.rdropWhile isPythonWhitespace ++ ['\n'])) := by
  obtain ⟨m, hm⟩ := linksBlock_ends rendered
  have hblank : ∀ c ∈ Markers.chop '\n' block.before ++ ['\n', '\n'], isPythonWhitespace c = true := by
    intro c hc
    obtain hc | hc := List.mem_append.mp hc
    · exact hbefore c ((Markers.chop_prefix block.before).mem hc)
    · have hnewline : isPythonWhitespace '\n' = true := by decide
      simp only [List.mem_cons, List.not_mem_nil, or_false, or_self] at hc
      exact hc ▸ hnewline
  have hshape : ∀ after : List Char, linksBlock rendered ++ after = '<' :: (m ++ '>' :: after) := by
    intro after
    rw [hm]
    simp
  rw [updateSection_found hrendered hfind hinert, Markers.replaceAll_none hafter]
  have hsplit : Markers.chop '\n' block.before ++ (template rendered ++ block.after) =
      (Markers.chop '\n' block.before ++ ['\n', '\n']) ++ (linksBlock rendered ++ block.after) := by
    simp [template]
  rw [hsplit, trimBy_append_blank hblank, hshape]
  have htrim := trimBy_around (p := isPythonWhitespace) (a := '<') (b := '>') (by decide) (by decide) [] m block.after
  rw [List.nil_append] at htrim
  rw [htrim, List.dropWhile_nil, List.nil_append, ← hshape, List.append_assoc]

theorem find_blank (hbody : trimBy isPythonWhitespace body = []) : alexandriaLinks.find body = none := by
  cases hfound : alexandriaLinks.find body with
  | none => rfl
  | some block =>
    have hmem : '<' ∈ body := by
      obtain ⟨s, hs⟩ := start_ends
      have hstart : alexandriaLinks.start = '<' :: (s ++ ['>']) := hs
      rw [Markers.find_sound hfound, Markers.enclose, hstart]
      simp
    exact absurd (trimBy_eq_nil_iff.mp hbody '<' hmem) (by decide)

/-- An application that finds nothing but blanks in the body. -/
theorem updateSection_blank (hrendered : rendered ≠ []) (hbody : trimBy isPythonWhitespace body = []) :
    updateSection rendered body = some (linksBlock rendered ++ ['\n']) := by
  have hfind := find_blank hbody
  unfold updateSection
  rw [if_neg hrendered, hfind]
  exact if_neg (not_not_intro hbody)

/-! ## What an application is held to -/

/-- The only block of the text is the rendered section, and there is none when nothing was rendered. -/
def ShowsSection (rendered text : List Char) : Prop :=
  if rendered = [] then alexandriaLinks.find text = none
  else ∃ before after, alexandriaLinks.find text = some ⟨before, inner rendered, after⟩ ∧ alexandriaLinks.find after = none

/-- The application returns a text that shows the section, has the other text of the body up to blanks around it, and is
returned again by a second application. -/
def FixedPoint (rendered body : List Char) : Prop :=
  ∃ out, updateSection rendered body = some out ∧ ShowsSection rendered out ∧
    trimBy isPythonWhitespace (outside out) = trimBy isPythonWhitespace (outside body) ∧
    updateSection rendered out = some out

/-- Nothing is rendered and no block is there; or the section is taken literally by the substitution and ends where it
ends, and there is nothing before it: the body is blank, or blanks stand before its only block. -/
def Settles (rendered body : List Char) : Prop :=
  (rendered = [] ∧ alexandriaLinks.find body = none) ∨
    (rendered ≠ [] ∧ ¬ linksEnd <:+: rendered ∧ isInert (rendered ++ ['\n']) = true ∧
      (trimBy isPythonWhitespace body = [] ∨
        ∃ block, alexandriaLinks.find body = some block ∧ trimBy isPythonWhitespace block.before = [] ∧
          alexandriaLinks.find block.after = none))

theorem find_block (hend : ¬ linksEnd <:+: rendered) (after : List Char) :
    alexandriaLinks.find (linksBlock rendered ++ after) = some ⟨[], inner rendered, after⟩ := by
  have hstart : ¬ alexandriaLinks.start <:+: [] := by decide
  have hinner : ¬ alexandriaLinks.stop <:+: inner rendered := fun h => hend (end_infix_inner.mp h)
  exact Markers.find_append hstart hinner after

theorem find_trimmed {after : List Char} (h : alexandriaLinks.find after = none) :
    alexandriaLinks.find (after.rdropWhile isPythonWhitespace ++ ['\n']) = none :=
  find_concat (Markers.find_none_of_infix h (List.rdropWhile_prefix _ after).isInfix)

theorem outside_none {text : List Char} (h : alexandriaLinks.find text = none) : outside text = text :=
  Markers.replaceAll_none h

theorem outside_some {text : List Char} (h : alexandriaLinks.find text = some block)
    (hafter : alexandriaLinks.find block.after = none) : outside text = Markers.chop '\n' block.before ++ block.after := by
  unfold outside
  rw [Markers.replaceAll_some h, Markers.replaceAll_none hafter, List.nil_append]

theorem trimBy_rdropWhile_newline (after : List Char) :
    trimBy isPythonWhitespace (after.rdropWhile isPythonWhitespace ++ ['\n']) = trimBy isPythonWhitespace after := by
  have hnewline : isPythonWhitespace '\n' = true := by decide
  rw [← trimBy_rdropWhile, List.rdropWhile_concat_pos _ _ _ hnewline, List.rdropWhile_idempotent, trimBy_rdropWhile]

/-- The text both good cases lead to. -/
theorem fixedPoint_of_out (after : List Char) (hrendered : rendered ≠ []) (hend : ¬ linksEnd <:+: rendered)
    (hinert : isInert (rendered ++ ['\n']) = true) (hafter : alexandriaLinks.find after = none)
    (hupdate : updateSection rendered body =
      some (linksBlock rendered ++ (after.rdropWhile isPythonWhitespace ++ ['\n'])))
    (houtside : trimBy isPythonWhitespace after = trimBy isPythonWhitespace (outside body)) : FixedPoint rendered body := by
  have hfind := find_block hend (after.rdropWhile isPythonWhitespace ++ ['\n'])
  have hrest := find_trimmed hafter
  refine ⟨_, hupdate, ?_, ?_, ?_⟩
  · unfold ShowsSection
    rw [if_neg hrendered]
    exact ⟨[], _, hfind, hrest⟩
  · rw [outside_some hfind hrest]
    show trimBy _ (after.rdropWhile isPythonWhitespace ++ ['\n']) = _
    rw [trimBy_rdropWhile_newline, houtside]
  · have hnewline : isPythonWhitespace '\n' = true := by decide
    rw [updateSection_settled hrendered hfind hinert (fun c hc => absurd hc List.not_mem_nil) hrest,
      List.rdropWhile_concat_pos _ _ _ hnewline, List.rdropWhile_idempotent]

theorem fixedPoint_of_settles (h : Settles rendered body) : FixedPoint rendered body := by
  obtain ⟨rfl, hnone⟩ | ⟨hrendered, hend, hinert, hblank | ⟨block, hfind, hbefore, hafter⟩⟩ := h
  · exact ⟨body, rfl, by rw [ShowsSection, if_pos rfl]; exact hnone, rfl, rfl⟩
  · have hnil : alexandriaLinks.find [] = none := by decide
    refine fixedPoint_of_out [] hrendered hend hinert hnil (updateSection_blank hrendered hblank) ?_
    rw [outside_none (find_blank hblank), hblank]
    rfl
  · have hblank := trimBy_eq_nil_iff.mp hbefore
    refine fixedPoint_of_out block.after hrendered hend hinert hafter
      (updateSection_settled hrendered hfind hinert hblank hafter) ?_
    rw [outside_some hfind hafter]
    exact (trimBy_append_blank (fun c hc => hblank c ((Markers.chop_prefix block.before).mem hc)) block.after).symm

/-! ## What a second application tells -/

theorem find_start {before after : List Char} (h : alexandriaLinks.find out = some ⟨before, inner rendered, after⟩) :
    cutAt linksStart out = some (before, inner rendered ++ (linksEnd ++ after)) := by
  obtain ⟨rest, hstart, hstop⟩ := Markers.find_cases h
  rw [cutAt_sound hstop] at hstart
  exact hstart

/-- Where the start marker stands in a trimmed text. -/
theorem cutAt_trimmed {before : List Char} (hbefore : ¬ linksStart <:+: before) (rest : List Char) :
    cutAt linksStart (trimBy isPythonWhitespace (before ++ (linksStart ++ rest)) ++ ['\n']) =
      some (before.dropWhile isPythonWhitespace, rest.rdropWhile isPythonWhitespace ++ ['\n']) := by
  obtain ⟨m, hm⟩ := start_ends
  have hfront : ¬ linksStart <:+: before.dropWhile isPythonWhitespace := fun h =>
    hbefore (h.trans (List.dropWhile_suffix _).isInfix)
  have htrim := trimBy_around (p := isPythonWhitespace) (a := '<') (b := '>') (by decide) (by decide) before m rest
  have hshape : ∀ u v : List Char, u ++ (linksStart ++ v) = u ++ '<' :: (m ++ '>' :: v) := by
    intro u v
    rw [hm]
    simp
  rw [hshape, htrim, ← hshape, List.append_assoc, List.append_assoc]
  exact cutAt_append alexandriaLinks.startSharp hfront _

/-- What stands before the block cannot be what stood there before and one line break more. -/
theorem before_eq_nil {before : List Char}
    (h : (Markers.chop '\n' before ++ ['\n', '\n']).dropWhile isPythonWhitespace = before) : before = [] := by
  by_contra hne
  have hnewline : isPythonWhitespace '\n' = true := by decide
  have hblank : ∀ l : List Char, (∀ c ∈ l, isPythonWhitespace c = true) → l.dropWhile isPythonWhitespace = [] :=
    fun l hl => List.dropWhile_eq_nil_iff.mpr hl
  have hhead : ∀ c, before.head? = some c → isPythonWhitespace c = false := by
    intro c hc
    have hkept := List.head?_dropWhile_not isPythonWhitespace (Markers.chop '\n' before ++ ['\n', '\n'])
    rw [h, hc] at hkept
    simpa using hkept
  cases hchop : Markers.chop '\n' before with
  | nil =>
    rw [hchop] at h
    have hnil := hblank ([] ++ ['\n', '\n']) (by simp [hnewline])
    exact hne (h.symm.trans hnil)
  | cons c rest =>
    obtain ⟨tail, htail⟩ : Markers.chop '\n' before <+: before := Markers.chop_prefix before
    have hc : isPythonWhitespace c = false := hhead c (by rw [← htail, hchop]; rfl)
    rw [hchop, List.cons_append, List.dropWhile_cons_of_neg (by rw [hc]; exact Bool.false_ne_true)] at h
    have hlen := congrArg List.length h
    have hle : before.length ≤ (c :: rest).length + 1 := by
      rw [← hchop]
      unfold Markers.chop
      split
      · rw [List.length_dropLast]
        omega
      · omega
    simp only [List.length_cons, List.length_append, List.length_nil] at hlen hle
    omega

theorem start_notMem_padded {before : List Char} (h : ¬ linksStart <:+: before) :
    ¬ linksStart <:+: Markers.chop '\n' before ++ ['\n', '\n'] := by
  rw [infix_append_cons newline_notMem_start]
  have hlast : ¬ linksStart <:+: ['\n'] := by decide
  rintro (hin | hin)
  · exact h (hin.trans (Markers.chop_prefix before).isInfix)
  · exact hlast hin

/-- The end of a template that gives itself in place of a match that is longer: it refers to nothing and escapes nothing. -/
theorem inert_of_again {tail start after : List Char} {pieces : List Piece} (hparse : parse tail = some pieces)
    (hstart : start ≠ []) (htail : ∃ m, tail = m ++ ['>'])
    (h : (expand pieces (start ++ tail) ++ after).rdropWhile isPythonWhitespace ++ ['\n'] = tail ++ after) :
    isInert tail = true := by
  obtain ⟨m, hm⟩ := htail
  have hkept : isPythonWhitespace '>' = false := by decide
  have hnewline : isPythonWhitespace '\n' = true := by decide
  obtain ⟨rest, hrest⟩ : ∃ rest, after = rest ++ ['\n'] := by
    cases after using List.reverseRecOn with
    | nil =>
      have hlast := congrArg List.getLast? h
      rw [List.append_nil, List.append_nil, hm, List.getLast?_concat, List.getLast?_concat] at hlast
      exact absurd hlast (by decide)
    | append_singleton rest d =>
      have hlast := congrArg List.getLast? h
      rw [← List.append_assoc tail, List.getLast?_concat, List.getLast?_concat] at hlast
      exact ⟨rest, by rw [Option.some.inj hlast]⟩
  rw [hrest, ← List.append_assoc, ← List.append_assoc, List.rdropWhile_concat_pos _ _ _ hnewline] at h
  have hsame := List.append_cancel_right h
  have hlength := congrArg List.length hsame
  rw [List.length_append] at hlength
  by_cases hwhole : Piece.whole ∈ pieces
  · -- the match alone is longer than the tail
    exfalso
    have hsettled : rest.rdropWhile isPythonWhitespace = rest := by
      have hidem := congrArg (List.rdropWhile isPythonWhitespace) hsame
      rw [List.rdropWhile_idempotent, hsame, hm, List.append_assoc, List.singleton_append,
        rdropWhile_append_last hkept] at hidem
      exact ((List.cons.inj (List.append_cancel_left hidem)).2).symm
    obtain ⟨front, back, hexpand⟩ := ReplacementTemplate.expand_whole hwhole (start ++ tail)
    have hshape : front ++ (start ++ tail ++ back) ++ rest = (front ++ (start ++ m)) ++ '>' :: (back ++ rest) := by
      rw [hm]
      simp
    rw [hexpand, hshape, rdropWhile_append_last hkept] at hlength
    have hback := length_rdropWhile_append hsettled back
    have hpos := List.length_pos_iff.mpr hstart
    rw [hm] at hlength
    simp only [List.length_append, List.length_cons, List.length_nil] at hlength hback hpos
    omega
  · obtain ⟨hle, hinert⟩ := ReplacementTemplate.parse_shrinks hparse hwhole
    refine hinert ?_
    have hdrop := (List.rdropWhile_prefix isPythonWhitespace (expand pieces (start ++ tail) ++ rest)).length_le
    rw [List.length_append, ReplacementTemplate.expand_length hwhole] at hdrop
    omega

/-- The block of a fixed point stands at its front, and the replacement was taken literally. -/
theorem fixed_front {before after : List Char} (hrendered : rendered ≠ [])
    (hfind : alexandriaLinks.find out = some ⟨before, inner rendered, after⟩) (hafter : alexandriaLinks.find after = none)
    (hagain : updateSection rendered out = some out) : before = [] ∧ isInert (rendered ++ ['\n']) = true := by
  unfold updateSection at hagain
  rw [if_neg hrendered, hfind] at hagain
  simp only at hagain
  obtain ⟨pieces, hparse, hout⟩ := Option.bind_eq_some_iff.mp hagain
  have hfront : '\\' ∉ '\n' :: '\n' :: linksStart := by decide
  have hsplit : '\n' :: '\n' :: linksBlock rendered = ('\n' :: '\n' :: linksStart) ++ (inner rendered ++ linksEnd) := by
    rw [linksBlock_eq]
    rfl
  rw [hsplit, ReplacementTemplate.parse_append hfront] at hparse
  obtain ⟨tail, htail, rfl⟩ := Option.map_eq_some_iff.mp hparse
  rw [Markers.replaceAll_some hfind, Markers.replaceAll_none hafter, ReplacementTemplate.expand_append,
    ReplacementTemplate.expand_char] at hout
  have htrimmed := Option.some.inj hout
  have hcut := cutAt_trimmed (start_notMem_padded (Markers.find_before hfind))
    (expand tail (alexandriaLinks.matched '\n' ⟨before, inner rendered, after⟩) ++ after)
  have hassoc : ∀ x y w : List Char, x ++ ['\n', '\n'] ++ (linksStart ++ (y ++ w)) =
      x ++ (('\n' :: '\n' :: linksStart) ++ y ++ w) := by
    intro x y w
    simp
  rw [hassoc, htrimmed, find_start hfind] at hcut
  obtain ⟨hbefore, hrest⟩ := Prod.mk.inj (Option.some.inj hcut)
  obtain rfl := before_eq_nil hbefore.symm
  refine ⟨rfl, ?_⟩
  have hmatched : alexandriaLinks.matched '\n' ⟨[], inner rendered, after⟩ = linksStart ++ (inner rendered ++ linksEnd) := rfl
  rw [hmatched, ← List.append_assoc] at hrest
  obtain ⟨e, he⟩ := end_ends
  have hinert := inert_of_again htail (List.cons_ne_nil '<' _) ⟨inner rendered ++ '<' :: e, by rw [he]; simp⟩ hrest.symm
  have hend : isInert linksEnd = true := by decide
  have hinner : inner rendered ++ linksEnd = ['\n'] ++ (rendered ++ '\n' :: linksEnd) := by simp [inner]
  rw [hinner, ReplacementTemplate.isInert_append (by decide), ReplacementTemplate.isInert_append_cons (by decide), hend,
    Bool.and_true] at hinert
  exact hinert

/-- A body that is not blank and has no block gets one after it, which is then not at the front. -/
theorem not_front_of_appended {after : List Char} (hfind : alexandriaLinks.find body = none)
    (hbody : trimBy isPythonWhitespace body ≠ []) (hend : ¬ linksEnd <:+: rendered) :
    alexandriaLinks.find (body.rdropWhile isPythonWhitespace ++ ('\n' :: '\n' :: (linksBlock rendered ++ ['\n']))) ≠
      some ⟨[], inner rendered, after⟩ := by
  intro hfound
  have hsound := Markers.find_sound hfound
  have hnonempty : body.rdropWhile isPythonWhitespace ≠ [] := by
    intro hnil
    rw [← trimBy_rdropWhile, hnil] at hbody
    exact hbody rfl
  -- the front of the text is a start marker of the body
  have hprefix : linksStart <+: body.rdropWhile isPythonWhitespace := by
    have hall : linksStart <+: body.rdropWhile isPythonWhitespace ++ ('\n' :: '\n' :: (linksBlock rendered ++ ['\n'])) := by
      rw [hsound]
      exact ⟨inner rendered ++ linksEnd ++ after, by simp [Markers.enclose, alexandriaLinks]⟩
    refine List.prefix_of_prefix_length_le hall (List.prefix_append _ _) ?_
    by_contra hlong
    have htake := List.prefix_iff_eq_take.mp hall
    refine newline_notMem_start ?_
    rw [htake, List.take_append, List.mem_append]
    right
    obtain ⟨k, hk⟩ : ∃ k, linksStart.length - (body.rdropWhile isPythonWhitespace).length = k + 1 :=
      ⟨linksStart.length - (body.rdropWhile isPythonWhitespace).length - 1, by omega⟩
    rw [hk, List.take_succ_cons]
    exact List.mem_cons_self
  obtain ⟨rest, hrest⟩ := hprefix
  have hopen : ¬ linksEnd <:+: rest := by
    intro hin
    obtain ⟨u, v, huv⟩ := hin
    obtain ⟨tail, htail⟩ := List.rdropWhile_prefix isPythonWhitespace body
    have hsome : (alexandriaLinks.find body).isSome = true :=
      Markers.find_isSome_of [] u (v ++ tail) (by
        rw [← htail, ← hrest, ← huv]
        simp [Markers.enclose, alexandriaLinks])
    rw [hfind] at hsome
    cases hsome
  -- so the first stop marker after it is the one of the appended block
  have hlong : ¬ linksEnd <:+: rest ++ '\n' :: ([] ++ '\n' :: (linksStart ++ inner rendered)) := by
    have hnil : ¬ linksEnd <:+: [] := by decide
    have hstart : ¬ linksEnd <:+: linksStart := by decide
    have hinner : linksStart ++ inner rendered = linksStart ++ '\n' :: (rendered ++ ['\n']) := rfl
    rw [infix_append_cons newline_notMem_end, infix_append_cons newline_notMem_end, hinner,
      infix_append_cons newline_notMem_end, infix_append_cons newline_notMem_end]
    simp [hnil, hstart, hopen, hend]
  have hnone : ¬ alexandriaLinks.start <:+: [] := by decide
  have hfound' := Markers.find_append hnone hlong ['\n']
  have hshape : body.rdropWhile isPythonWhitespace ++ ('\n' :: '\n' :: (linksBlock rendered ++ ['\n'])) =
      [] ++ (alexandriaLinks.enclose (rest ++ '\n' :: ([] ++ '\n' :: (linksStart ++ inner rendered))) ++ ['\n']) := by
    rw [← hrest, linksBlock_eq]
    simp [Markers.enclose, alexandriaLinks]
  rw [hshape, hfound', Option.some.injEq, Block.mk.injEq] at hfound
  have hlength := congrArg List.length hfound.2.1
  simp only [List.length_append, List.length_cons] at hlength
  omega

/-- A body with a block: the section comes to the front only if blanks stood before that block, and is alone only if no
other followed it. -/
theorem settled_of_found {after : List Char} (hrendered : rendered ≠ []) (hfind : alexandriaLinks.find body = some block)
    (hinert : isInert (rendered ++ ['\n']) = true) (hupdate : updateSection rendered body = some out)
    (hout : alexandriaLinks.find out = some ⟨[], inner rendered, after⟩) (hafter : alexandriaLinks.find after = none) :
    trimBy isPythonWhitespace block.before = [] ∧ alexandriaLinks.find block.after = none := by
  rw [updateSection_found hrendered hfind hinert] at hupdate
  have htrimmed := Option.some.inj hupdate
  set others := alexandriaLinks.replaceAll '\n' (fun _ => template rendered) block.after with hothers
  have hcut := cutAt_trimmed (start_notMem_padded (Markers.find_before hfind)) ((inner rendered ++ linksEnd) ++ others)
  have hshape : Markers.chop '\n' block.before ++ ['\n', '\n'] ++ (linksStart ++ ((inner rendered ++ linksEnd) ++ others)) =
      Markers.chop '\n' block.before ++ (template rendered ++ others) := by
    simp [template, linksBlock_eq]
  rw [hshape, htrimmed, find_start hout] at hcut
  obtain ⟨hbefore, hrest⟩ := Prod.mk.inj (Option.some.inj hcut)
  constructor
  · rw [trimBy_eq_nil_iff]
    have hblank := List.dropWhile_eq_nil_iff.mp hbefore.symm
    have hnewline : isPythonWhitespace '\n' = true := by decide
    intro c hc
    by_cases hlead : block.before.getLast? = some '\n'
    · obtain ⟨front, hfront⟩ : ∃ front, block.before = front ++ ['\n'] := List.getLast?_eq_some_iff.mp hlead
      rw [hfront, Markers.chop_append_lead] at hblank
      rw [hfront] at hc
      obtain hc | hc := List.mem_append.mp hc
      · exact hblank c (List.mem_append_left _ hc)
      · rw [List.mem_singleton.mp hc]
        exact hnewline
    · unfold Markers.chop at hblank
      rw [if_neg hlead] at hblank
      exact hblank c (List.mem_append_left _ hc)
  · obtain ⟨e, he⟩ := end_ends
    have hkept : isPythonWhitespace '>' = false := by decide
    have hend : ∀ w : List Char, (inner rendered ++ linksEnd) ++ w = (inner rendered ++ '<' :: e) ++ '>' :: w := by
      intro w
      rw [he]
      simp
    rw [hend, rdropWhile_append_last hkept, ← hend] at hrest
    have hothersAfter : after = others.rdropWhile isPythonWhitespace ++ ['\n'] := by
      simpa only [List.append_assoc, List.append_cancel_left_eq] using hrest
    cases hnext : alexandriaLinks.find block.after with
    | none => rfl
    | some next =>
      -- the rendered section would stand in the rest of the text once more
      exfalso
      obtain ⟨m, hm⟩ := linksBlock_ends rendered
      have hmore : ∀ w : List Char, Markers.chop '\n' next.before ++ (template rendered ++ w) =
          (Markers.chop '\n' next.before ++ '\n' :: '\n' :: '<' :: m) ++ '>' :: w := by
        intro w
        simp [template, hm]
      rw [hothers, Markers.replaceAll_some hnext, hmore, rdropWhile_append_last hkept, ← hmore] at hothersAfter
      have hsome : (alexandriaLinks.find after).isSome = true := by
        refine Markers.find_isSome_of (Markers.chop '\n' next.before ++ ['\n', '\n']) (inner rendered)
          ((alexandriaLinks.replaceAll '\n' (fun _ => template rendered) next.after).rdropWhile isPythonWhitespace ++ ['\n'])
          ?_
        rw [hothersAfter]
        simp [template, linksBlock_eq, Markers.enclose, alexandriaLinks]
      rw [hafter] at hsome
      cases hsome

/-- When the section settles. -/
theorem fixedPoint_iff : FixedPoint rendered body ↔ Settles rendered body := by
  refine ⟨?_, fixedPoint_of_settles⟩
  rintro ⟨out, hupdate, hshows, -, hagain⟩
  by_cases hrendered : rendered = []
  · subst hrendered
    rw [ShowsSection, if_pos rfl] at hshows
    cases hupdate
    exact .inl ⟨rfl, hshows⟩
  · rw [ShowsSection, if_neg hrendered] at hshows
    obtain ⟨before, after, hfind, hafter⟩ := hshows
    have hend : ¬ linksEnd <:+: rendered := fun h => Markers.find_inner hfind (end_infix_inner.mpr h)
    obtain ⟨rfl, hinert⟩ := fixed_front hrendered hfind hafter hagain
    refine .inr ⟨hrendered, hend, hinert, ?_⟩
    cases hbody : alexandriaLinks.find body with
    | none =>
      left
      by_contra hblank
      unfold updateSection at hupdate
      rw [if_neg hrendered, hbody] at hupdate
      simp only at hupdate
      rw [if_pos hblank] at hupdate
      cases hupdate
      exact not_front_of_appended hbody hblank hend hfind
    | some block =>
      right
      obtain ⟨hbefore, hnone⟩ := settled_of_found hrendered hbody hinert hupdate hfind hafter
      exact ⟨block, rfl, hbefore, hnone⟩

end Update

/-! ## The links of a frontmatter -/

section Links
variable (structured : StructuredText φ) (frontmatter : JsonObject φ)

/-- The targets with a path, in the order of the fields. -/
def allTargets : List (List Char × ObsidianRelationType) :=
  frontmatterRelations.flatMap (pathTargets structured frontmatter)

def sectionLines : List (List Char) := frontmatterRelations.flatMap (fieldLines structured frontmatter)

def isLinkLine (line : List Char) : Bool := "- [[".toList.isPrefixOf line

variable {structured frontmatter}

theorem fieldLines_cons {field : String × ObsidianRelationType} (h : pathTargets structured frontmatter field ≠ []) :
    fieldLines structured frontmatter field = [] :: ("### ".toList ++ (relationHeading field.2).toList) ::
      (pathTargets structured frontmatter field).map fun target => linkLine target.1 target.2 := by
  unfold fieldLines
  cases htargets : pathTargets structured frontmatter field with
  | nil => exact absurd htargets h
  | cons target targets => rfl

theorem fieldLines_nil {field : String × ObsidianRelationType} (h : pathTargets structured frontmatter field = []) :
    fieldLines structured frontmatter field = [] := by
  unfold fieldLines
  rw [h]

theorem isLinkLine_heading (relation : ObsidianRelationType) :
    isLinkLine ("### ".toList ++ (relationHeading relation).toList) = false := by
  cases relation <;> decide

theorem isLinkLine_linkLine (link : List Char) (relation : ObsidianRelationType) :
    isLinkLine (linkLine link relation) = true := by
  rw [isLinkLine, List.isPrefixOf_iff_prefix]
  exact List.prefix_append _ _

/-- The lines that link are the targets with a path, in order. -/
theorem sectionLines_links : (sectionLines structured frontmatter).filter isLinkLine =
    (allTargets structured frontmatter).map fun target => linkLine target.1 target.2 := by
  unfold sectionLines allTargets
  induction frontmatterRelations with
  | nil => rfl
  | cons field fields ih =>
    rw [List.flatMap_cons, List.flatMap_cons, List.filter_append, List.map_append, ih]
    congr 1
    by_cases hfield : pathTargets structured frontmatter field = []
    · rw [fieldLines_nil hfield, hfield]
      rfl
    · have hnil : isLinkLine [] = false := by decide
      rw [fieldLines_cons hfield, List.filter_cons_of_neg (by rw [hnil]; exact Bool.false_ne_true),
        List.filter_cons_of_neg (by rw [isLinkLine_heading]; exact Bool.false_ne_true)]
      refine List.filter_eq_self.mpr ?_
      intro line hline
      obtain ⟨target, -, rfl⟩ := List.mem_map.mp hline
      exact isLinkLine_linkLine target.1 target.2

theorem mem_sectionLines {line : List Char} (h : line ∈ sectionLines structured frontmatter) :
    line = [] ∨ (∃ relation, line = "### ".toList ++ (relationHeading relation).toList) ∨
      ∃ target ∈ allTargets structured frontmatter, line = linkLine target.1 target.2 := by
  obtain ⟨field, hfield, hline⟩ := List.mem_flatMap.mp h
  by_cases htargets : pathTargets structured frontmatter field = []
  · rw [fieldLines_nil htargets] at hline
    cases hline
  · rw [fieldLines_cons htargets] at hline
    obtain rfl | hline := List.mem_cons.mp hline
    · exact .inl rfl
    · obtain rfl | hline := List.mem_cons.mp hline
      · exact .inr (.inl ⟨field.2, rfl⟩)
      · obtain ⟨target, htarget, rfl⟩ := List.mem_map.mp hline
        exact .inr (.inr ⟨target, List.mem_flatMap.mpr ⟨field, hfield, htarget⟩, rfl⟩)

theorem linkLine_mem {target : List Char × ObsidianRelationType} (h : target ∈ allTargets structured frontmatter) :
    linkLine target.1 target.2 ∈ sectionLines structured frontmatter := by
  have hlink : linkLine target.1 target.2 ∈ (sectionLines structured frontmatter).filter isLinkLine := by
    rw [sectionLines_links]
    exact List.mem_map.mpr ⟨target, h, rfl⟩
  exact (List.mem_filter.mp hlink).1

theorem sectionLines_eq_nil : sectionLines structured frontmatter = [] ↔ allTargets structured frontmatter = [] := by
  constructor
  · intro h
    have hlinks : (sectionLines structured frontmatter).filter isLinkLine = _ := sectionLines_links
    rw [h] at hlinks
    exact List.map_eq_nil_iff.mp hlinks.symm
  · intro h
    rw [sectionLines, List.flatMap_eq_nil_iff]
    intro field hfield
    exact fieldLines_nil (List.flatMap_eq_nil_iff.mp h field hfield)

theorem renderLinksSection_eq : renderLinksSection structured frontmatter =
    if allTargets structured frontmatter = [] then []
    else ['\n'].intercalate ("## Alexandria Links".toList :: sectionLines structured frontmatter) := by
  unfold renderLinksSection
  simp only
  show (if sectionLines structured frontmatter = [] then _ else _) = _
  by_cases h : allTargets structured frontmatter = []
  · rw [if_pos h, if_pos (sectionLines_eq_nil.mpr h)]
  · rw [if_neg h, if_neg (fun hnil => h (sectionLines_eq_nil.mp hnil))]
    rfl

theorem renderLinksSection_eq_nil : renderLinksSection structured frontmatter = [] ↔
    allTargets structured frontmatter = [] := by
  rw [renderLinksSection_eq]
  by_cases h : allTargets structured frontmatter = []
  · rw [if_pos h]
    exact ⟨fun _ => h, fun _ => rfl⟩
  · rw [if_neg h]
    refine ⟨fun hnil => ?_, fun htargets => absurd htargets h⟩
    cases hlines : sectionLines structured frontmatter with
    | nil => exact absurd (sectionLines_eq_nil.mp hlines) h
    | cons line lines =>
      rw [hlines, List.intercalate_cons_cons] at hnil
      exact absurd (congrArg List.length hnil) (by simp)

/-- A link line has the stop marker in it exactly when the link has. -/
theorem end_infix_linkLine {link : List Char} {relation : ObsidianRelationType} :
    linksEnd <:+: linkLine link relation ↔ linksEnd <:+: link := by
  have hopen : '[' ∉ linksEnd := by decide
  have hclose : ']' ∉ linksEnd := by decide
  have hfront : ¬ linksEnd <:+: ['-', ' '] := by decide
  have hnil : ¬ linksEnd <:+: [] := by decide
  have hback : ¬ linksEnd <:+: "] — ".toList ++ relation.value.toList := by
    cases relation <;> decide
  have hshape : linkLine link relation =
      ['-', ' '] ++ '[' :: ([] ++ '[' :: (link ++ ']' :: ("] — ".toList ++ relation.value.toList))) := rfl
  rw [hshape, infix_append_cons hopen, infix_append_cons hopen, infix_append_cons hclose]
  simp only [hfront, hnil, hback, false_or, or_false]

theorem end_infix_heading (relation : ObsidianRelationType) :
    ¬ linksEnd <:+: "### ".toList ++ (relationHeading relation).toList := by
  cases relation <;> decide

theorem isInert_linkLine (link : List Char) (relation : ObsidianRelationType) :
    isInert (linkLine link relation ++ ['\n']) = isInert (link ++ [']']) := by
  have hfront : '\\' ∉ "- [[".toList := by decide
  have hback : isInert ("] — ".toList ++ relation.value.toList ++ ['\n']) = true := by
    cases relation <;> decide
  have hshape : linkLine link relation ++ ['\n'] =
      "- [[".toList ++ (link ++ ']' :: ("] — ".toList ++ relation.value.toList ++ ['\n'])) := by
    show "- [[".toList ++ (link ++ ("]] — ".toList ++ relation.value.toList)) ++ ['\n'] = _
    simp only [List.append_assoc]
    rfl
  rw [hshape, ReplacementTemplate.isInert_append hfront, ReplacementTemplate.isInert_append_cons (by decide), hback,
    Bool.and_true]

theorem isInert_heading (relation : ObsidianRelationType) :
    isInert ("### ".toList ++ (relationHeading relation).toList ++ ['\n']) = true := by
  cases relation <;> decide

/-- The stop marker comes early exactly when a target brings it along. -/
theorem end_infix_renderLinksSection : linksEnd <:+: renderLinksSection structured frontmatter ↔
    ∃ target ∈ allTargets structured frontmatter, linksEnd <:+: target.1 := by
  have hnil : ¬ linksEnd <:+: [] := by decide
  have htitle : ¬ linksEnd <:+: "## Alexandria Links".toList := by decide
  rw [renderLinksSection_eq]
  by_cases h : allTargets structured frontmatter = []
  · rw [if_pos h, h]
    refine ⟨fun hin => absurd hin hnil, ?_⟩
    rintro ⟨target, htarget, -⟩
    cases htarget
  · rw [if_neg h, infix_intercalate newline_notMem_end (by decide)]
    constructor
    · rintro ⟨line, hline, hin⟩
      obtain rfl | hline := List.mem_cons.mp hline
      · exact absurd hin htitle
      · obtain rfl | ⟨relation, rfl⟩ | ⟨target, htarget, rfl⟩ := mem_sectionLines hline
        · exact absurd hin hnil
        · exact absurd hin (end_infix_heading relation)
        · exact ⟨target, htarget, end_infix_linkLine.mp hin⟩
    · rintro ⟨target, htarget, hin⟩
      exact ⟨_, List.mem_cons_of_mem _ (linkLine_mem htarget), end_infix_linkLine.mpr hin⟩

/-- The section stands for itself as a replacement exactly when each target does, before the bracket that closes it. -/
theorem isInert_renderLinksSection : isInert (renderLinksSection structured frontmatter ++ ['\n']) = true ↔
    ∀ target ∈ allTargets structured frontmatter, isInert (target.1 ++ [']']) = true := by
  have hnewline : isInert ['\n'] = true := by decide
  have htitle : isInert ("## Alexandria Links".toList ++ ['\n']) = true := by decide
  rw [renderLinksSection_eq]
  by_cases h : allTargets structured frontmatter = []
  · rw [if_pos h, h, List.nil_append]
    refine ⟨fun _ target htarget => ?_, fun _ => hnewline⟩
    cases htarget
  · rw [if_neg h, ReplacementTemplate.isInert_intercalate (by decide), List.all_eq_true]
    constructor
    · intro hall target htarget
      rw [← isInert_linkLine target.1 target.2]
      exact hall _ (List.mem_cons_of_mem _ (linkLine_mem htarget))
    · intro hall line hline
      obtain rfl | hline := List.mem_cons.mp hline
      · exact htitle
      · obtain rfl | ⟨relation, rfl⟩ | ⟨target, htarget, rfl⟩ := mem_sectionLines hline
        · exact hnewline
        · exact isInert_heading relation
        · rw [isInert_linkLine]
          exact hall target htarget

/-! ## The section of a note -/

variable (structured frontmatter)

/-- The section has one line for each target with a path, in order, and is empty when there are none. -/
def ListsTargets : Prop :=
  (renderLinksSection structured frontmatter = [] ↔ allTargets structured frontmatter = []) ∧
    (allTargets structured frontmatter ≠ [] →
      renderLinksSection structured frontmatter =
        ['\n'].intercalate ("## Alexandria Links".toList :: sectionLines structured frontmatter)) ∧
    (sectionLines structured frontmatter).filter isLinkLine =
      (allTargets structured frontmatter).map fun target => linkLine target.1 target.2

/-- The body that is returned shows the section, once, or no block when nothing was rendered; the text outside is that of
the body up to blanks around it; and the same frontmatter gives the same body again. -/
def FaithfulSection (body : List Char) : Prop :=
  ∃ out, addOrUpdateAlexandriaLinksSection structured body frontmatter = some out ∧
    ShowsSection (renderLinksSection structured frontmatter) out ∧
    trimBy isPythonWhitespace (outside out) = trimBy isPythonWhitespace (outside body) ∧
    addOrUpdateAlexandriaLinksSection structured out frontmatter = some out

/-- What a link must not bring along: the stop marker, and escapes of the replacement template. -/
def IsPlainLink (link : List Char) : Prop := ¬ linksEnd <:+: link ∧ isInert (link ++ [']']) = true

/-- The section lists the targets. It is a fixed point when no target has a path and no block is there; or else when the
links are plain, and the body is blank or starts, up to blanks, with its only block. -/
theorem links_section_settles_iff (body : List Char) : ListsTargets structured frontmatter ∧
    (FaithfulSection structured frontmatter body ↔
      (allTargets structured frontmatter = [] ∧ alexandriaLinks.find body = none) ∨
        (allTargets structured frontmatter ≠ [] ∧
          (∀ target ∈ allTargets structured frontmatter, IsPlainLink target.1) ∧
          (trimBy isPythonWhitespace body = [] ∨
            ∃ block, alexandriaLinks.find body = some block ∧ trimBy isPythonWhitespace block.before = [] ∧
              alexandriaLinks.find block.after = none))) := by
  constructor
  · refine ⟨renderLinksSection_eq_nil, ?_, sectionLines_links⟩
    intro h
    rw [renderLinksSection_eq, if_neg h]
  · have hplain : (∀ target ∈ allTargets structured frontmatter, IsPlainLink target.1) ↔
        ¬ linksEnd <:+: renderLinksSection structured frontmatter ∧
          isInert (renderLinksSection structured frontmatter ++ ['\n']) = true := by
      rw [end_infix_renderLinksSection, isInert_renderLinksSection]
      constructor
      · intro h
        refine ⟨?_, fun target htarget => (h target htarget).2⟩
        rintro ⟨target, htarget, hin⟩
        exact (h target htarget).1 hin
      · rintro ⟨hend, hinert⟩ target htarget
        exact ⟨fun hin => hend ⟨target, htarget, hin⟩, hinert target htarget⟩
    have hfixed : FaithfulSection structured frontmatter body ↔ FixedPoint (renderLinksSection structured frontmatter) body :=
      Iff.rfl
    rw [hfixed, fixedPoint_iff, Settles, renderLinksSection_eq_nil, Ne, renderLinksSection_eq_nil, hplain, and_assoc]

/-- The frontmatter of the counterexample: one related note. -/
def relatedTo (path : String) : JsonObject φ := [("related", .list [.str path])]

/-- Reads no text as a value. -/
def plainTexts : StructuredText φ := ⟨fun _ => none, fun h _ => by cases h⟩

/-- A body that is not blank and has no block yet: the first application puts the block after the text, and the second adds
a line break between them. -/
theorem links_section_grows : ¬ FaithfulSection (plainTexts : StructuredText Unit) (relatedTo "b") "x".toList := by
  intro h
  have htarget : ("b".toList, ObsidianRelationType.related) ∈
      allTargets (plainTexts : StructuredText Unit) (relatedTo "b") := by
    refine List.mem_flatMap.mpr ⟨("related", .related), by decide, ?_⟩
    unfold pathTargets
    have hget : JsonObject.get (relatedTo "b" : JsonObject Unit) "related" = .list [.str "b"] := rfl
    rw [hget, relationTargets_list]
    decide
  have hnone : alexandriaLinks.find "x".toList = none := by decide
  obtain ⟨hrendered, -⟩ | ⟨-, -, -, hblank | ⟨block, hblock, -⟩⟩ := fixedPoint_iff.mp h
  · rw [renderLinksSection_eq_nil.mp hrendered] at htarget
    cases htarget
  · exact absurd hblank (by decide)
  · rw [hnone] at hblock
    cases hblock

end Links

end Alexandria.Graph
