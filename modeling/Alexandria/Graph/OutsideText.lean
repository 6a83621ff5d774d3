import Alexandria.Graph.ManagedSection
import Alexandria.Notes.BodyReadBack

/-! # The text outside the links section

A body is compared with another by the text before and after its block, without the line breaks directly around it. A body
that is written is read back with one line break before it and one after it; an operation that takes the first one off again
keeps the text outside, if nothing else at the ends is trimmed.
-/

namespace Alexandria.Graph
set_option autoImplicit false
open Text
open Delimited
open ReplacementTemplate (isInert)
open Notes (reread)

/-! ## Bodies up to their block -/

/-- The texts before and after the block without the line breaks at it, or the whole text. -/
def outsideBlock (text : List Char) : List (List Char) :=
  match alexandriaLinks.find text with
  | none => [text]
  | some block => [block.before.rdropWhile (· = '\n'), block.after.dropWhile (· = '\n')]

/-- The same text outside the block; a new block is put between two parts of the text or at its end. -/
def SameOutside (body body' : List Char) : Prop :=
  outsideBlock body' = outsideBlock body ∨
    ∃ before after n, outsideBlock body = [before ++ (List.replicate n '\n' ++ after)] ∧ outsideBlock body' = [before, after]

section Outside
variable {text body body' body'' rendered : List Char} {block : Block Char}

theorem outsideBlock_none (h : alexandriaLinks.find text = none) : outsideBlock text = [text] := by
  unfold outsideBlock
  rw [h]

theorem outsideBlock_some (h : alexandriaLinks.find text = some block) :
    outsideBlock text = [block.before.rdropWhile (· = '\n'), block.after.dropWhile (· = '\n')] := by
  unfold outsideBlock
  rw [h]

theorem SameOutside.refl (body : List Char) : SameOutside body body := .inl rfl

theorem SameOutside.trans (h : SameOutside body body') (h' : SameOutside body' body'') : SameOutside body body'' := by
  obtain hsame | ⟨before, after, n, hbody, hbody'⟩ := h
  · obtain hsame' | ⟨before, after, n, hbody', hbody''⟩ := h'
    · exact .inl (hsame'.trans hsame)
    · exact .inr ⟨before, after, n, hsame ▸ hbody', hbody''⟩
  · obtain hsame' | ⟨before', after', n', hsingle, -⟩ := h'
    · exact .inr ⟨before, after, n, hbody, hsame'.trans hbody'⟩
    · rw [hbody'] at hsingle
      cases hsingle

/-! ## A body without its first line break -/

/-- `body.removeprefix("\n")` -/
def withoutLead : List Char → List Char
  | '\n' :: rest => rest
  | body => body

theorem withoutLead_of_head {c : Char} {rest : List Char} (hc : c ≠ '\n') : withoutLead (c :: rest) = c :: rest := by
  unfold withoutLead
  split
  · rename_i heq
    exact absurd (List.cons.inj heq).1 hc
  · rfl

theorem withoutLead_suffix (body : List Char) : withoutLead body <:+ body := by
  unfold withoutLead
  split
  · exact List.suffix_cons _ _
  · exact List.suffix_refl body

/-- The line break that is taken off stood before the block. -/
theorem find_withoutLead (h : alexandriaLinks.find body = some block) :
    alexandriaLinks.find (withoutLead body) = some { block with before := withoutLead block.before } := by
  cases body with
  | nil =>
    have hnil : alexandriaLinks.find [] = none := by decide
    rw [hnil] at h
    cases h
  | cons c rest =>
    by_cases hc : c = '\n'
    · subst hc
      have hstart : alexandriaLinks.start.head? ≠ some '\n' := by decide
      rw [Markers.find_cons hstart] at h
      obtain ⟨found, hfound, rfl⟩ := Option.map_eq_some_iff.mp h
      exact hfound
    · rw [withoutLead_of_head hc, h]
      have hsame : withoutLead block.before = block.before := by
        cases hbefore : block.before with
        | nil => rfl
        | cons d before =>
          have hsound := Markers.find_sound h
          rw [hbefore, List.cons_append] at hsound
          exact withoutLead_of_head ((List.cons.inj hsound).1 ▸ hc)
      rw [hsame]

/-! ## What the ends of a body keep -/

/-- Nothing but line breaks, or one line break and text that is not trimmed. -/
def KeepsStart (p : Char → Bool) (before : List Char) : Prop :=
  (∀ c ∈ before, c = '\n') ∨ ∃ c rest, before = '\n' :: c :: rest ∧ p c = false

def KeepsEnd (p : Char → Bool) (after : List Char) : Prop :=
  (∀ c ∈ after, c = '\n') ∨ ∃ rest, after = rest ++ ['\n'] ∧ ∀ c, rest.getLast? = some c → p c = false

theorem rdropWhile_newlines (h : ∀ c ∈ text, c = '\n') : text.rdropWhile (· = '\n') = [] :=
  List.rdropWhile_eq_nil_iff.mpr fun c hc => decide_eq_true (h c hc)

theorem dropWhile_newlines (h : ∀ c ∈ text, c = '\n') : text.dropWhile (· = '\n') = [] :=
  List.dropWhile_eq_nil_iff.mpr fun c hc => decide_eq_true (h c hc)

theorem rdropWhile_newline (text : List Char) : (text ++ ['\n']).rdropWhile (· = '\n') = text.rdropWhile (· = '\n') :=
  List.rdropWhile_concat_pos _ _ _ rfl

theorem KeepsEnd.dropWhile {p : Char → Bool} {after : List Char} (hp : p '\n' = true) (h : KeepsEnd p after) :
    (after.rdropWhile p ++ ['\n']).dropWhile (· = '\n') = after.dropWhile (· = '\n') := by
  obtain hnewlines | ⟨rest, rfl, hlast⟩ := h
  · have hnil : after.rdropWhile p = [] := List.rdropWhile_eq_nil_iff.mpr fun c hc => (hnewlines c hc).symm ▸ hp
    rw [hnil, dropWhile_newlines hnewlines]
    rfl
  · rw [List.rdropWhile_concat_pos _ _ _ hp, rdropWhile_settled hlast]

/-- The two line breaks before the block are not told from the one that was there. -/
theorem rdropWhile_chop (front before : List Char) :
    (front ++ (Markers.chop '\n' before ++ ['\n', '\n'])).rdropWhile (· = '\n') = (front ++ before).rdropWhile (· = '\n') := by
  have htwo : ∀ l : List Char, (l ++ ['\n', '\n']).rdropWhile (· = '\n') = l.rdropWhile (· = '\n') := by
    intro l
    have hassoc : l ++ ['\n', '\n'] = (l ++ ['\n']) ++ ['\n'] := by simp
    rw [hassoc, rdropWhile_newline, rdropWhile_newline]
  rw [← List.append_assoc, htwo]
  by_cases hlead : before.getLast? = some '\n'
  · obtain ⟨rest, rfl⟩ := List.getLast?_eq_some_iff.mp hlead
    rw [Markers.chop_append_lead, ← List.append_assoc, rdropWhile_newline]
  · unfold Markers.chop
    rw [if_neg hlead]

theorem chop_cons (c d : Char) (rest : List Char) : Markers.chop '\n' (c :: d :: rest) = c :: Markers.chop '\n' (d :: rest) := by
  unfold Markers.chop
  rw [List.getLast?_cons_cons]
  split
  · rw [List.dropLast_cons_cons]
  · rfl

theorem chop_first {c : Char} (hc : c ≠ '\n') (rest : List Char) : ∃ kept, Markers.chop '\n' (c :: rest) = c :: kept := by
  cases rest with
  | nil =>
    refine ⟨[], if_neg ?_⟩
    intro hlast
    exact hc (Option.some.inj hlast)
  | cons d rest => exact ⟨_, chop_cons c d rest⟩

/-- The text before the block comes back: the blanks that are trimmed are a line break, or stand at the block. -/
theorem KeepsStart.rdropWhile {before front : List Char} (h : KeepsStart isPythonWhitespace before)
    (hfront : front = before ∨ front = withoutLead before) :
    ('\n' :: (Markers.chop '\n' front ++ ['\n', '\n']).dropWhile isPythonWhitespace).rdropWhile (· = '\n') =
      before.rdropWhile (· = '\n') := by
  have hnewline : isPythonWhitespace '\n' = true := by decide
  obtain hnewlines | ⟨c, rest, rfl, hc⟩ := h
  · have hmem : ∀ d ∈ front, d = '\n' := by
      obtain rfl | rfl := hfront
      · exact hnewlines
      · exact fun d hd => hnewlines d ((withoutLead_suffix before).mem hd)
    have hnil : (Markers.chop '\n' front ++ ['\n', '\n']).dropWhile isPythonWhitespace = [] := by
      refine List.dropWhile_eq_nil_iff.mpr fun d hd => ?_
      obtain hd | hd := List.mem_append.mp hd
      · rw [hmem d ((Markers.chop_prefix front).mem hd)]
        exact hnewline
      · simp only [List.mem_cons, List.not_mem_nil, or_false, or_self] at hd
        rw [hd]
        exact hnewline
    rw [hnil, rdropWhile_newlines hnewlines]
    rfl
  · have hlead : c ≠ '\n' := by
      rintro rfl
      rw [hnewline] at hc
      cases hc
    -- the first character after the line break stays
    obtain ⟨kept, hkept⟩ := chop_first hlead rest
    have hstays : (Markers.chop '\n' (c :: rest) ++ ['\n', '\n']).dropWhile isPythonWhitespace =
        Markers.chop '\n' (c :: rest) ++ ['\n', '\n'] := by
      rw [hkept, List.cons_append, List.dropWhile_cons_of_neg (by rw [hc]; exact Bool.false_ne_true)]
    have hfronted : (Markers.chop '\n' front ++ ['\n', '\n']).dropWhile isPythonWhitespace =
        Markers.chop '\n' (c :: rest) ++ ['\n', '\n'] := by
      obtain rfl | rfl := hfront
      · rw [chop_cons, List.cons_append, List.dropWhile_cons_of_pos hnewline, hstays]
      · exact hstays
    rw [hfronted]
    exact rdropWhile_chop ['\n'] (c :: rest)

/-! ## When an operation keeps the text outside -/

/-- A section that the substitution takes literally, that ends where it ends, and that is read back as it is. -/
structure PlainSection (rendered : List Char) : Prop where
  nonempty : rendered ≠ []
  stop : ¬ linksEnd <:+: rendered
  inert : isInert (rendered ++ ['\n']) = true
  lines : LineFeeds rendered

/-- The body before an operation; `relating` says whether the operation takes the first line break off. -/
inductive BodyKept (relating : Bool) (rendered body : List Char) : Prop
  /-- Without a section and without compensation, only the empty body stays. -/
  | blank (hrelating : relating = false) (hrendered : rendered = []) (hbody : body = ['\n', '\n'])
  | plain (hrelating : relating = true) (hrendered : rendered = []) (text : List Char) (hbody : body = '\n' :: (text ++ ['\n']))
      (hlast : text.getLast? ≠ some '\n')
  /-- The block of a section that is not rendered any more. -/
  | stale (hrelating : relating = true) (hrendered : rendered = []) (block : Block Char)
      (hfind : alexandriaLinks.find body = some block) (hbefore : KeepsStart (fun _ => false) block.before)
      (hafter : KeepsEnd (· = '\n') block.after)
  | started (hsection : PlainSection rendered) (hbody : ∀ c ∈ body, c = '\n')
  | appended (hrelating : relating = true) (hsection : PlainSection rendered) (hfind : alexandriaLinks.find body = none)
      (hstart : ¬ linksStart <:+: body) (text : List Char) (n : ℕ) (hbody : body = '\n' :: (text ++ List.replicate n '\n'))
      (c : Char) (hlast : text.getLast? = some c) (hc : isPythonWhitespace c = false)
  | replaced (hsection : PlainSection rendered) (block : Block Char) (hfind : alexandriaLinks.find body = some block)
      (honly : alexandriaLinks.find block.after = none) (hbefore : KeepsStart isPythonWhitespace block.before)
      (hafter : KeepsEnd isPythonWhitespace block.after)

/-- The body that an operation asks to be saved. -/
def compensated (relating : Bool) (body : List Char) : List Char := if relating then withoutLead body else body

/-- The operation succeeds, and the text outside stays. -/
def Keeps (relating : Bool) (rendered body : List Char) : Prop :=
  ∃ out, updateSection rendered (compensated relating body) = some out ∧ LineFeeds out ∧ SameOutside body (reread out)

/-! ### Line breaks -/

theorem lineFeeds_linksBlock (h : LineFeeds rendered) : LineFeeds (linksBlock rendered) := by
  have hstart : LineFeeds linksStart := lineFeeds_of_all (by decide)
  have hend : LineFeeds linksEnd := lineFeeds_of_all (by decide)
  have hnewline : LineFeeds ['\n'] := lineFeeds_of_all (by decide)
  exact hstart.append ((hnewline.append (h.append hnewline)).append hend)

/-- A trimmed text with one line break after it is that text again without the line break. -/
theorem reread_trimmed {body : List Char} (hlast : ∀ c, body.getLast? = some c → isPythonWhitespace c = false) :
    reread (body ++ ['\n']) = '\n' :: (body ++ ['\n']) := by
  have hsettled : body.rdropWhile (· = '\n') = body := by
    refine rdropWhile_settled fun c hc => ?_
    have hkept := hlast c hc
    refine decide_eq_false ?_
    rintro rfl
    exact absurd hkept (by decide)
  unfold reread
  rw [rdropWhile_newline, hsettled]

theorem getLast_rdropWhile {p : Char → Bool} {text : List Char} {c : Char} (h : (text.rdropWhile p).getLast? = some c) :
    p c = false := by
  obtain ⟨rest, hrest⟩ := List.getLast?_eq_some_iff.mp h
  have hidem := List.rdropWhile_idempotent p text
  rw [hrest] at hidem
  by_contra hc
  rw [List.rdropWhile_concat_pos _ _ _ (by simpa using hc)] at hidem
  have hlength := congrArg List.length hidem
  have hle := (List.rdropWhile_prefix p rest).length_le
  rw [List.length_append, List.length_singleton] at hlength
  omega

/-! ### The cases -/

theorem outsideBlock_of {before inside after : List Char} (hbefore : ¬ linksStart <:+: before)
    (hinside : ¬ linksEnd <:+: inside) : outsideBlock (before ++ (alexandriaLinks.enclose inside ++ after)) =
      [before.rdropWhile (· = '\n'), after.dropWhile (· = '\n')] :=
  outsideBlock_some (Markers.find_append hbefore hinside after)

theorem start_notMem_cons {before : List Char} : linksStart <:+: '\n' :: before ↔ linksStart <:+: before := by
  have hnil : ¬ linksStart <:+: [] := by decide
  have hsplit := infix_append_cons (u := []) (v := before) newline_notMem_start
  rw [List.nil_append] at hsplit
  rw [hsplit]
  exact or_iff_right hnil

/-- The section is put in the place of the block. -/
theorem keeps_replaced {relating : Bool} (hsection : PlainSection rendered) (hfind : alexandriaLinks.find body = some block)
    (honly : alexandriaLinks.find block.after = none) (hbefore : KeepsStart isPythonWhitespace block.before)
    (hafter : KeepsEnd isPythonWhitespace block.after) (hbody : LineFeeds body) : Keeps relating rendered body := by
  obtain ⟨m, hm⟩ := linksBlock_ends rendered
  have hnewline : isPythonWhitespace '\n' = true := by decide
  obtain ⟨front, hfront, hfound⟩ : ∃ front, (front = block.before ∨ front = withoutLead block.before) ∧
      alexandriaLinks.find (compensated relating body) = some { block with before := front } := by
    cases relating with
    | false => exact ⟨block.before, .inl rfl, hfind⟩
    | true => exact ⟨withoutLead block.before, .inr rfl, find_withoutLead hfind⟩
  have hnostart : ¬ linksStart <:+: front := Markers.find_before hfound
  have hshape : ∀ u v : List Char, u ++ (linksBlock rendered ++ v) = u ++ '<' :: (m ++ '>' :: v) := by
    intro u v
    rw [hm]
    simp
  set padded := Markers.chop '\n' front ++ ['\n', '\n'] with hpadded
  have htrim : trimBy isPythonWhitespace (Markers.chop '\n' front ++ (template rendered ++ block.after)) =
      padded.dropWhile isPythonWhitespace ++ (linksBlock rendered ++ block.after.rdropWhile isPythonWhitespace) := by
    have hsplit : Markers.chop '\n' front ++ (template rendered ++ block.after) =
        padded ++ (linksBlock rendered ++ block.after) := by
      simp [hpadded, template]
    rw [hsplit, hshape, trimBy_around (by decide) (by decide), ← hshape]
  have hlast : ∀ c, (padded.dropWhile isPythonWhitespace ++
      (linksBlock rendered ++ block.after.rdropWhile isPythonWhitespace)).getLast? = some c → isPythonWhitespace c = false := by
    intro c hc
    rw [← htrim, trimBy] at hc
    exact getLast_rdropWhile hc
  refine ⟨_, updateSection_found hsection.nonempty hfound hsection.inert, ?_, ?_⟩
  · rw [Markers.replaceAll_none honly, htrim]
    have hall : LineFeeds (block.before ++ (alexandriaLinks.enclose block.inner ++ block.after)) :=
      Markers.find_sound hfind ▸ hbody
    have hparts : LineFeeds block.before ∧ LineFeeds block.after :=
      ⟨hall.mono fun c hc => List.mem_append_left _ hc,
        hall.mono fun c hc => List.mem_append_right _ (List.mem_append_right _ hc)⟩
    have hfrontLines : LineFeeds front := by
      obtain rfl | rfl := hfront
      · exact hparts.1
      · exact hparts.1.mono fun c hc => (withoutLead_suffix _).mem hc
    have htwo : LineFeeds ['\n', '\n'] := lineFeeds_of_all (by decide)
    have hpaddedLines : LineFeeds padded := (hfrontLines.mono fun c hc => (Markers.chop_prefix _).mem hc).append htwo
    refine LineFeeds.append ((hpaddedLines.mono fun c hc => (List.dropWhile_suffix _).mem hc).append
      ((lineFeeds_linksBlock hsection.lines).append
        (hparts.2.mono fun c hc => (List.rdropWhile_prefix _ _).mem hc))) (lineFeeds_of_all (by decide))
  · left
    rw [Markers.replaceAll_none honly, htrim, reread_trimmed hlast, outsideBlock_some hfind]
    have hregroup : '\n' :: (padded.dropWhile isPythonWhitespace ++
        (linksBlock rendered ++ block.after.rdropWhile isPythonWhitespace) ++ ['\n']) =
        '\n' :: padded.dropWhile isPythonWhitespace ++
          (alexandriaLinks.enclose (inner rendered) ++ (block.after.rdropWhile isPythonWhitespace ++ ['\n'])) := by
      simp [linksBlock, inner]
    have hnone : ¬ linksStart <:+: '\n' :: padded.dropWhile isPythonWhitespace := by
      rw [start_notMem_cons]
      exact fun h => start_notMem_padded hnostart (h.trans (List.dropWhile_suffix _).isInfix)
    rw [hregroup, outsideBlock_of hnone (fun h => hsection.stop (end_infix_inner.mp h)), hpadded,
      hbefore.rdropWhile hfront, hafter.dropWhile hnewline]

theorem keeps_stale (hfind : alexandriaLinks.find body = some block) (hbefore : KeepsStart (fun _ => false) block.before)
    (hafter : KeepsEnd (· = '\n') block.after) (hbody : LineFeeds body) : Keeps true [] body := by
  have hfound := find_withoutLead hfind
  obtain ⟨e, he⟩ := end_ends
  refine ⟨withoutLead body, if_pos rfl, hbody.mono fun c hc => (withoutLead_suffix body).mem hc, .inl ?_⟩
  have hshape : ∀ w : List Char, withoutLead block.before ++ (alexandriaLinks.enclose block.inner ++ w) =
      (withoutLead block.before ++ (linksStart ++ (block.inner ++ '<' :: e))) ++ '>' :: w := by
    intro w
    have hstop : alexandriaLinks.stop = '<' :: (e ++ ['>']) := he
    have hstart : alexandriaLinks.start = linksStart := rfl
    simp [Markers.enclose, hstop, hstart]
  have hreread : reread (withoutLead body) = '\n' :: withoutLead block.before ++
      (alexandriaLinks.enclose block.inner ++ (block.after.rdropWhile (· = '\n') ++ ['\n'])) := by
    unfold reread
    rw [Markers.find_sound hfound, hshape, rdropWhile_append_last (by decide), ← hshape]
    simp
  have hnone : ¬ linksStart <:+: '\n' :: withoutLead block.before := by
    rw [start_notMem_cons]
    exact Markers.find_before hfound
  rw [hreread, outsideBlock_of hnone (Markers.find_inner hfind), outsideBlock_some hfind, hafter.dropWhile rfl]
  congr 1
  obtain hnewlines | ⟨c, rest, heq, -⟩ := hbefore
  · rw [rdropWhile_newlines hnewlines]
    refine rdropWhile_newlines ?_
    intro c hc
    obtain rfl | hc := List.mem_cons.mp hc
    · rfl
    · exact hnewlines c ((withoutLead_suffix _).mem hc)
  · rw [heq]
    rfl

/-- There is nothing but line breaks, and the section becomes the body. -/
theorem keeps_started {relating : Bool} (hsection : PlainSection rendered) (hbody : ∀ c ∈ body, c = '\n') :
    Keeps relating rendered body := by
  have hnewline : isPythonWhitespace '\n' = true := by decide
  have hcompensated : ∀ c ∈ compensated relating body, c = '\n' := by
    intro c hc
    unfold compensated at hc
    split at hc
    · exact hbody c ((withoutLead_suffix body).mem hc)
    · exact hbody c hc
  have hblank : ∀ {text : List Char}, (∀ c ∈ text, c = '\n') → trimBy isPythonWhitespace text = [] := by
    intro text htext
    exact trimBy_eq_nil_iff.mpr fun c hc => (htext c hc).symm ▸ hnewline
  refine ⟨_, updateSection_blank hsection.nonempty (hblank hcompensated),
    (lineFeeds_linksBlock hsection.lines).append (lineFeeds_of_all (by decide)), .inr ⟨[], [], body.length, ?_, ?_⟩⟩
  · have hall : body = List.replicate body.length '\n' := List.eq_replicate_iff.mpr ⟨rfl, hbody⟩
    rw [outsideBlock_none (find_blank (hblank hbody)), List.nil_append, List.append_nil, ← hall]
  · obtain ⟨m, hm⟩ := linksBlock_ends rendered
    have hlast : ∀ c, (linksBlock rendered).getLast? = some c → isPythonWhitespace c = false := by
      intro c hc
      rw [hm, ← List.cons_append, List.getLast?_concat] at hc
      cases hc
      decide
    have hnone : ¬ linksStart <:+: ['\n'] := by decide
    have hregroup : '\n' :: (linksBlock rendered ++ ['\n']) =
        ['\n'] ++ (alexandriaLinks.enclose (inner rendered) ++ ['\n']) := rfl
    rw [reread_trimmed hlast, hregroup, outsideBlock_of hnone (fun h => hsection.stop (end_infix_inner.mp h))]
    rfl

/-- The section is put after the text. -/
theorem keeps_appended {text : List Char} {n : ℕ} {c : Char} (hsection : PlainSection rendered)
    (hfind : alexandriaLinks.find body = none) (hstart : ¬ linksStart <:+: body)
    (hshape : body = '\n' :: (text ++ List.replicate n '\n')) (hlast : text.getLast? = some c)
    (hc : isPythonWhitespace c = false) (hbody : LineFeeds body) : Keeps true rendered body := by
  have hnewline : isPythonWhitespace '\n' = true := by decide
  have hcompensated : compensated true body = text ++ List.replicate n '\n' := by
    rw [hshape]
    rfl
  have hnone : alexandriaLinks.find (text ++ List.replicate n '\n') = none :=
    Markers.find_none_of_infix hfind (hshape ▸ (List.suffix_cons _ _).isInfix)
  have hsettled : text.rdropWhile isPythonWhitespace = text := by
    refine rdropWhile_settled fun d hd => ?_
    rw [hlast] at hd
    exact Option.some.inj hd ▸ hc
  have hrest : ∀ n : ℕ, (text ++ List.replicate n '\n').rdropWhile isPythonWhitespace = text := by
    intro n
    induction n with
    | zero => rw [List.replicate_zero, List.append_nil, hsettled]
    | succ n ih => rw [List.replicate_succ', ← List.append_assoc, List.rdropWhile_concat_pos _ _ _ hnewline, ih]
  have hblank : trimBy isPythonWhitespace (text ++ List.replicate n '\n') ≠ [] := by
    intro hnil
    have hall := trimBy_eq_nil_iff.mp hnil c (List.mem_append_left _ (List.mem_of_getLast? hlast))
    rw [hc] at hall
    cases hall
  have hupdate : updateSection rendered (text ++ List.replicate n '\n') =
      some (text ++ ('\n' :: '\n' :: (linksBlock rendered ++ ['\n']))) := by
    unfold updateSection
    rw [if_neg hsection.nonempty, hnone]
    simp only
    rw [if_pos hblank, hrest]
  have htext : LineFeeds text := by
    rw [hshape] at hbody
    exact hbody.mono fun d hd => List.mem_cons_of_mem _ (List.mem_append_left _ hd)
  have hparts : LineFeeds ['\n', '\n'] ∧ LineFeeds ['\n'] := ⟨lineFeeds_of_all (by decide), lineFeeds_of_all (by decide)⟩
  refine ⟨_, by rw [hcompensated, hupdate], ?_, .inr ⟨'\n' :: text, [], n, ?_, ?_⟩⟩
  · have hend : LineFeeds (linksBlock rendered ++ ['\n']) := (lineFeeds_linksBlock hsection.lines).append hparts.2
    exact htext.append (hparts.1.append hend)
  · rw [outsideBlock_none hfind, hshape, List.append_nil]
    rfl
  · obtain ⟨m, hm⟩ := linksBlock_ends rendered
    have hends : ∀ d, (text ++ ('\n' :: '\n' :: linksBlock rendered)).getLast? = some d → isPythonWhitespace d = false := by
      intro d hd
      have hassoc : text ++ ('\n' :: '\n' :: linksBlock rendered) = (text ++ '\n' :: '\n' :: '<' :: m) ++ ['>'] := by
        rw [hm]
        simp
      rw [hassoc, List.getLast?_concat] at hd
      cases hd
      decide
    have hsplit : text ++ ('\n' :: '\n' :: (linksBlock rendered ++ ['\n'])) =
        text ++ ('\n' :: '\n' :: linksBlock rendered) ++ ['\n'] := by simp
    have hregroup : '\n' :: (text ++ ('\n' :: '\n' :: linksBlock rendered) ++ ['\n']) =
        ('\n' :: text ++ ['\n', '\n']) ++ (alexandriaLinks.enclose (inner rendered) ++ ['\n']) := by
      simp [linksBlock, inner]
    have hbefore : ¬ linksStart <:+: '\n' :: text ++ ['\n', '\n'] := by
      have hlastOnly : ¬ linksStart <:+: ['\n'] := by decide
      have htextOnly : ¬ linksStart <:+: '\n' :: text := fun h => hstart (by
        rw [hshape]
        exact h.trans ⟨[], List.replicate n '\n', by simp⟩)
      rw [infix_append_cons newline_notMem_start]
      exact not_or.mpr ⟨htextOnly, hlastOnly⟩
    rw [hsplit, reread_trimmed hends, hregroup, outsideBlock_of hbefore (fun h => hsection.stop (end_infix_inner.mp h))]
    have htwo := rdropWhile_chop ('\n' :: text) []
    have hkept : ('\n' :: text).rdropWhile (· = '\n') = '\n' :: text := by
      refine rdropWhile_settled fun d hd => ?_
      have hlast' : ('\n' :: text).getLast? = some c := by
        cases text with
        | nil => cases hlast
        | cons e rest => rw [List.getLast?_cons_cons, hlast]
      rw [hlast'] at hd
      cases hd
      refine decide_eq_false ?_
      rintro rfl
      rw [hnewline] at hc
      cases hc
    have hchop : Markers.chop '\n' ([] : List Char) = [] := rfl
    rw [hchop, List.nil_append, List.append_nil, hkept] at htwo
    rw [htwo]
    rfl

/-- The text outside the block stays in each of the cases. -/
theorem BodyKept.keeps {relating : Bool} (h : BodyKept relating rendered body) (hbody : LineFeeds body) :
    Keeps relating rendered body := by
  cases h with
  | blank hrelating hrendered hshape =>
    subst hrelating hrendered hshape
    exact ⟨_, if_pos rfl, hbody, .refl _⟩
  | plain hrelating hrendered text hshape hlast =>
    subst hrelating hrendered hshape
    refine ⟨_, if_pos rfl, hbody.mono fun c hc => List.mem_cons_of_mem _ hc, ?_⟩
    have hsettled : text.rdropWhile (· = '\n') = text := by
      refine rdropWhile_settled fun c hc => decide_eq_false ?_
      rintro rfl
      exact hlast hc
    have hreread : reread (text ++ ['\n']) = '\n' :: (text ++ ['\n']) := by
      unfold reread
      rw [rdropWhile_newline, hsettled]
    show SameOutside _ (reread (text ++ ['\n']))
    rw [hreread]
    exact .refl _
  | stale hrelating hrendered block hfind hbefore hafter =>
    subst hrelating hrendered
    exact keeps_stale hfind hbefore hafter hbody
  | started hsection hnewlines => exact keeps_started hsection hnewlines
  | appended hrelating hsection hfind hstart text n hshape c hlast hc =>
    subst hrelating
    exact keeps_appended hsection hfind hstart hshape hlast hc hbody
  | replaced hsection block hfind honly hbefore hafter => exact keeps_replaced hsection hfind honly hbefore hafter hbody

/-- Without a section an operation that does not compensate keeps only the empty body, and keeps it as it is. -/
theorem BodyKept.unchanged (h : BodyKept false [] body) : body = ['\n', '\n'] ∧ reread body = body := by
  cases h with
  | blank _ _ hbody => exact ⟨hbody, by rw [hbody]; rfl⟩
  | plain hrelating => cases hrelating
  | stale hrelating => cases hrelating
  | started hsection => exact absurd rfl hsection.nonempty
  | appended hrelating => cases hrelating
  | replaced hsection => exact absurd rfl hsection.nonempty

end Outside

end Alexandria.Graph
