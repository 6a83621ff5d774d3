import Alexandria.Foundations.Lists
import Alexandria.References.Extraction

/-! # Normalised target paths

A target is trimmed, taken out of its brackets, freed of one `./`, checked, given its suffix and put below the root. The result
stays below the root, and the spellings of one plain target have one result. It is a fixed point unless its front would be
trimmed or freed again, or the root is itself a target that the checks refuse.
-/

namespace Alexandria.References
set_option autoImplicit false

open Text

/-! ## The steps -/

def noteSuffix : List Char := ".md".toList

def withoutDot (text : List Char) : List Char := if startsWith "./".toList text then text.drop 2 else text

/-- The path without blanks at its ends, out of its brackets up to the first bar and heading, and without one `./`. -/
def bareTarget (path : List Char) : List Char :=
  let trimmed := trimBy isPythonWhitespace path
  withoutDot (if startsWith "[[".toList trimmed && endsWith "]]".toList trimmed then
    beforeFirst '#' (beforeFirst '|' (trimmed.drop 2).dropLast.dropLast)
  else trimmed)

def withSuffix (text : List Char) : List Char :=
  (if endsWith noteSuffix text then text.take (text.length - 3) else text) ++ noteSuffix

/-- The text is a link out of the vault or into the note itself. -/
def External (text : List Char) : Prop :=
  "://".toList <:+: text ∨ ['#'] <+: text ∨ "artifact:".toList <+: text.map Char.toLower ∨
    "evidence:".toList <+: text.map Char.toLower

structure Acceptable (text : List Char) : Prop where
  nonempty : text ≠ []
  internal : ¬ External text
  relative : ¬ ['/'] <+: withSuffix text
  inside : "..".toList ∉ segments (withSuffix text)

/-- The text below the root, where it is not there already. -/
def placed (root text : List Char) : List Char :=
  if root = ['.'] ∨ root ++ ['/'] <+: text then text else root ++ '/' :: text

theorem startsWith_iff {start text : List Char} : startsWith start text = true ↔ start <+: text :=
  List.isPrefixOf_iff_prefix

theorem endsWith_iff {stop text : List Char} : endsWith stop text = true ↔ stop <:+ text := List.isSuffixOf_iff_suffix

theorem normalizeTargetPath_eq_some {path root result : List Char} :
    normalizeTargetPath path root = some result ↔
      Acceptable (bareTarget path) ∧ placed root (withSuffix (bareTarget path)) = result := by
  obtain ⟨scheme, hrun, hscheme⟩ : ∃ scheme, normalizeTargetPath path root =
      (if (bareTarget path).isEmpty || scheme || startsWith ['#'] (bareTarget path) ||
          startsWith "artifact:".toList ((bareTarget path).map Char.toLower) ||
          startsWith "evidence:".toList ((bareTarget path).map Char.toLower) then none
      else if startsWith ['/'] (withSuffix (bareTarget path)) || (segments (withSuffix (bareTarget path))).contains "..".toList
        then none
      else if root = ['.'] || startsWith (root ++ ['/']) (withSuffix (bareTarget path)) then
        some (withSuffix (bareTarget path))
      else some (root ++ ['/'] ++ withSuffix (bareTarget path))) ∧
      (scheme = true ↔ "://".toList <:+: bareTarget path) := by
    refine ⟨_, rfl, ?_⟩
    simp only [decide_eq_true_eq]
    rfl
  rw [hrun]
  generalize bareTarget path = text at hscheme
  by_cases hrefused : text = [] ∨ External text
  · rw [if_pos]
    · refine iff_of_false (fun h => nomatch h) ?_
      rintro ⟨⟨hnonempty, hinternal, -, -⟩, -⟩
      exact hrefused.elim hnonempty hinternal
    · simp only [Bool.or_eq_true, List.isEmpty_iff, hscheme, startsWith_iff, or_assoc]
      exact hrefused
  · rw [if_neg]
    · obtain ⟨hnonempty, hinternal⟩ := not_or.mp hrefused
      by_cases houtside : ['/'] <+: withSuffix text ∨ "..".toList ∈ segments (withSuffix text)
      · rw [if_pos]
        · refine iff_of_false (fun h => nomatch h) ?_
          rintro ⟨⟨-, -, hrelative, hinside⟩, -⟩
          exact houtside.elim hrelative hinside
        · rw [Bool.or_eq_true, startsWith_iff, List.contains_iff_mem]
          exact houtside
      · rw [if_neg]
        · obtain ⟨hrelative, hinside⟩ := not_or.mp houtside
          have haccepted : Acceptable text := ⟨hnonempty, hinternal, hrelative, hinside⟩
          rw [and_iff_right haccepted]
          unfold placed
          simp only [Bool.or_eq_true, decide_eq_true_eq, startsWith_iff, List.append_assoc, List.singleton_append]
          split_ifs
          · exact Option.some_inj
          · exact Option.some_inj
        · rw [Bool.or_eq_true, startsWith_iff, List.contains_iff_mem]
          exact houtside
    · simp only [Bool.or_eq_true, List.isEmpty_iff, hscheme, startsWith_iff, or_assoc]
      exact hrefused

/-! ## Words at the front and inside -/

section Words
variable {a b : List Char}

/-- A word whose last character is not in the second part is in the first part, if it begins there. -/
theorem prefix_of_append (word : List Char) {c : Char} (h : word ++ [c] <+: a ++ b) (hc : c ∉ b) : word ++ [c] <+: a := by
  obtain ⟨rest, hrest⟩ := h
  obtain ⟨middle, ha, -⟩ | ⟨middle, hword, hb⟩ := List.append_eq_append_iff.mp hrest
  · exact ⟨middle, ha.symm⟩
  · obtain rfl | ⟨middle, d, rfl⟩ := List.eq_nil_or_concat' middle
    · rw [List.append_nil] at hword
      exact ⟨[], by rw [hword, List.append_nil]⟩
    · rw [← List.append_assoc] at hword
      have hd : c = d := (List.append_singleton_inj.mp hword).2
      rw [hb, hd] at hc
      exact absurd (List.mem_append_left _ (List.mem_append_right _ List.mem_cons_self)) hc

theorem infix_of_append (word : List Char) {c : Char} (h : word ++ [c] <:+: a ++ b) (hc : c ∉ b) : word ++ [c] <:+: a := by
  obtain ⟨before, after, heq⟩ := h
  have hprefix : (before ++ word) ++ [c] <+: a ++ b := ⟨after, by rw [← heq]; simp only [List.append_assoc]⟩
  obtain ⟨rest, hrest⟩ := prefix_of_append (before ++ word) hprefix hc
  exact ⟨before, rest, by rw [← hrest]; simp only [List.append_assoc]⟩

/-- A word without the separator that begins before it ends before it. -/
theorem prefix_of_separator {word : List Char} {c : Char} (h : word <+: a ++ c :: b) (hc : c ∉ word) : word <+: a := by
  obtain ⟨rest, hrest⟩ := h
  obtain ⟨middle, ha, -⟩ | ⟨middle, hword, hb⟩ := List.append_eq_append_iff.mp hrest
  · exact ⟨middle, ha.symm⟩
  · cases middle with
    | nil =>
      rw [List.append_nil] at hword
      exact ⟨[], by rw [hword, List.append_nil]⟩
    | cons d middle =>
      cases hb
      rw [hword] at hc
      exact absurd (List.mem_append_right a List.mem_cons_self) hc

end Words

theorem external_mono {text longer : List Char} (hlonger : text <+: longer) (h : External text) : External longer := by
  have hlower : text.map Char.toLower <+: longer.map Char.toLower := List.IsPrefix.map Char.toLower hlonger
  obtain h | h | h | h := h
  · exact .inl (h.trans hlonger.isInfix)
  · exact .inr (.inl (h.trans hlonger))
  · exact .inr (.inr (.inl (h.trans hlower)))
  · exact .inr (.inr (.inr (h.trans hlower)))

/-- The suffix makes no text external. -/
theorem external_suffix {text : List Char} : External (text ++ noteSuffix) ↔ External text := by
  refine ⟨?_, external_mono (List.prefix_append text noteSuffix)⟩
  have hlower : (text ++ noteSuffix).map Char.toLower = text.map Char.toLower ++ noteSuffix := List.map_append
  unfold External
  rw [hlower]
  rintro (h | h | h | h)
  · exact .inl (infix_of_append ":/".toList h (by decide))
  · exact .inr (.inl (prefix_of_append [] h (by decide)))
  · exact .inr (.inr (.inl (prefix_of_append "artifact".toList h (by decide))))
  · exact .inr (.inr (.inr (prefix_of_append "evidence".toList h (by decide))))

/-- A scheme mark across the separator needs a separator more. -/
theorem scheme_below {root text : List Char} (hlast : ¬ ['/'] <:+ root) (hrelative : ¬ ['/'] <+: text)
    (h : "://".toList <:+: root ++ '/' :: text) : "://".toList <:+: root ∨ "://".toList <:+: text := by
  obtain ⟨before, after, heq⟩ := h
  obtain ⟨middle, hroot, -⟩ | ⟨middle, hbefore, htext⟩ := List.append_eq_append_iff.mp heq
  · exact .inl ⟨before, middle, hroot.symm⟩
  cases middle with
  | nil =>
    rw [List.append_nil] at hbefore
    exact .inl ⟨before, [], by rw [List.append_nil, hbefore]⟩
  | cons c middle =>
    cases htext
    -- The mark is compared with the part of the text that it reaches into, from its end.
    obtain rfl | ⟨middle, d, rfl⟩ := List.eq_nil_or_concat' middle
    · have hend : (before ++ ":/".toList) ++ ['/'] = root ++ ['/'] := (List.append_assoc _ _ _).trans hbefore
      have hroot := (List.append_singleton_inj.mp hend).1
      exact absurd ⟨before ++ [':'], (List.append_assoc _ _ _).trans hroot⟩ hlast
    have hend : (before ++ ":/".toList) ++ ['/'] = (root ++ '/' :: middle) ++ [d] :=
      (List.append_assoc _ _ _).trans (hbefore.trans (List.append_assoc root ('/' :: middle) [d]).symm)
    obtain ⟨hslash, rfl⟩ := List.append_singleton_inj.mp hend
    obtain rfl | ⟨middle, d, rfl⟩ := List.eq_nil_or_concat' middle
    · exact absurd ⟨after, rfl⟩ hrelative
    have hend' : (before ++ [':']) ++ ['/'] = (root ++ '/' :: middle) ++ [d] :=
      (List.append_assoc _ _ _).trans (hslash.trans (List.append_assoc root ('/' :: middle) [d]).symm)
    obtain ⟨hcolon, rfl⟩ := List.append_singleton_inj.mp hend'
    obtain rfl | ⟨middle, d, rfl⟩ := List.eq_nil_or_concat' middle
    · exact absurd (List.append_singleton_inj.mp hcolon).2 (by decide)
    have hend'' : before ++ [':'] = (root ++ '/' :: middle) ++ [d] :=
      hcolon.trans (List.append_assoc root ('/' :: middle) [d]).symm
    obtain ⟨-, rfl⟩ := List.append_singleton_inj.mp hend''
    refine .inr ⟨middle, after, ?_⟩
    show middle ++ "://".toList ++ after = middle ++ [':'] ++ ['/'] ++ ['/'] ++ after
    simp only [List.append_assoc, List.singleton_append]
    rfl

/-- Below a root the text is external exactly if the root is. -/
theorem external_below {root text : List Char} (hlast : ¬ ['/'] <:+ root) (htext : ¬ External text)
    (hrelative : ¬ ['/'] <+: text) :
    External (root ++ '/' :: text) ↔ External root := by
  refine ⟨?_, external_mono (List.prefix_append root _)⟩
  have hlower : (root ++ '/' :: text).map Char.toLower = root.map Char.toLower ++ '/' :: text.map Char.toLower :=
    List.map_append
  unfold External
  rw [hlower]
  rintro (h | h | h | h)
  · exact .inl ((scheme_below hlast hrelative h).resolve_right fun hscheme => htext (.inl hscheme))
  · exact .inr (.inl (prefix_of_separator h (by decide)))
  · exact .inr (.inr (.inl (prefix_of_separator h (by decide))))
  · exact .inr (.inr (.inr (prefix_of_separator h (by decide))))

/-! ## The suffix -/

theorem withSuffix_of_suffix {text : List Char} (h : noteSuffix <:+ text) : withSuffix text = text := by
  obtain ⟨stem, rfl⟩ := h
  unfold withSuffix
  have hlength : (stem ++ noteSuffix).length - 3 = stem.length := by
    rw [List.length_append]
    exact Nat.add_sub_cancel _ 3
  rw [if_pos (endsWith_iff.mpr ⟨stem, rfl⟩), hlength, List.take_left]

theorem withSuffix_of_not {text : List Char} (h : ¬ noteSuffix <:+ text) : withSuffix text = text ++ noteSuffix := by
  unfold withSuffix
  rw [if_neg fun hends => h (endsWith_iff.mp hends)]

theorem suffix_withSuffix (text : List Char) : noteSuffix <:+ withSuffix text := List.suffix_append _ _

theorem withSuffix_cases (text : List Char) : withSuffix text = text ∨ withSuffix text = text ++ noteSuffix := by
  by_cases h : noteSuffix <:+ text
  · exact .inl (withSuffix_of_suffix h)
  · exact .inr (withSuffix_of_not h)

theorem withSuffix_withSuffix (text : List Char) : withSuffix (withSuffix text) = withSuffix text :=
  withSuffix_of_suffix (suffix_withSuffix text)

theorem external_withSuffix {text : List Char} : External (withSuffix text) ↔ External text := by
  obtain h | h := withSuffix_cases text
  · rw [h]
  · rw [h, external_suffix]

theorem Acceptable.withSuffix {text : List Char} (h : Acceptable text) : Acceptable (withSuffix text) where
  nonempty hnil := by
    have hsuffix := suffix_withSuffix text
    rw [hnil, List.suffix_nil] at hsuffix
    exact absurd hsuffix (by decide)
  internal hexternal := h.internal (external_withSuffix.mp hexternal)
  relative := by
    rw [withSuffix_withSuffix]
    exact h.relative
  inside := by
    rw [withSuffix_withSuffix]
    exact h.inside

/-! ## The front of a text -/

/-- The text begins with white space or with `./`. -/
def Loose (text : List Char) : Prop :=
  (∃ c, text.head? = some c ∧ isPythonWhitespace c = true) ∨ "./".toList <+: text

theorem loose_withSuffix {text : List Char} (h : text ≠ []) : Loose (withSuffix text) ↔ Loose text := by
  obtain hsame | hmore := withSuffix_cases text
  · rw [hsame]
  · rw [hmore]
    unfold Loose
    rw [List.head?_append_of_ne_nil _ h]
    refine or_congr Iff.rfl ⟨fun hdot => ?_, fun hdot => hdot.trans (List.prefix_append _ _)⟩
    exact prefix_of_append ['.'] hdot (by decide)

/-- What a text with the suffix is looked at as: the part behind blanks and one `./`. -/
theorem bareTarget_of_suffix {text : List Char} (h : noteSuffix <:+ text) :
    bareTarget text = withoutDot (text.dropWhile isPythonWhitespace) ∧
      noteSuffix <:+ text.dropWhile isPythonWhitespace := by
  obtain ⟨stem, rfl⟩ := h
  have hdrop : (stem ++ noteSuffix).dropWhile isPythonWhitespace = stem.dropWhile isPythonWhitespace ++ noteSuffix :=
    dropWhile_append_first (by decide) stem ['m', 'd']
  have htrim : trimBy isPythonWhitespace (stem ++ noteSuffix) = stem.dropWhile isPythonWhitespace ++ noteSuffix := by
    unfold trimBy
    rw [hdrop]
    exact rdropWhile_append_last (by decide) (stem.dropWhile isPythonWhitespace) ['m', 'd']
  refine ⟨?_, hdrop ▸ List.suffix_append _ _⟩
  unfold bareTarget
  simp only
  rw [htrim, hdrop, if_neg]
  rw [Bool.and_eq_true, not_and]
  intro _ hends
  obtain ⟨front, hfront⟩ := endsWith_iff.mp hends
  have hlast : (front ++ [']']) ++ [']'] = (stem.dropWhile isPythonWhitespace ++ ".m".toList) ++ ['d'] := by
    rw [List.append_assoc, List.append_assoc]
    exact hfront
  exact absurd (List.append_singleton_inj.mp hlast).2 (by decide)

theorem withoutDot_dot (text : List Char) : withoutDot ('.' :: '/' :: text) = text := rfl

theorem withoutDot_of_not {text : List Char} (h : ¬ "./".toList <+: text) : withoutDot text = text := by
  unfold withoutDot
  rw [if_neg fun hstarts => h (startsWith_iff.mp hstarts)]

/-- A text with the suffix is looked at behind its blanks and one `./`. -/
theorem bareTarget_split {text : List Char} (h : noteSuffix <:+ text) :
    ∃ blanks, (∀ c ∈ blanks, isPythonWhitespace c = true) ∧ noteSuffix <:+ bareTarget text ∧
      (text = blanks ++ bareTarget text ∨ text = blanks ++ '.' :: '/' :: bareTarget text) := by
  obtain ⟨htarget, hsuffix⟩ := bareTarget_of_suffix h
  have hsplit : text.takeWhile isPythonWhitespace ++ text.dropWhile isPythonWhitespace = text :=
    List.takeWhile_append_dropWhile
  rw [htarget]
  generalize text.dropWhile isPythonWhitespace = rest at hsplit hsuffix
  refine ⟨text.takeWhile isPythonWhitespace, fun c hc => List.mem_takeWhile_imp hc, ?_⟩
  by_cases hdot : "./".toList <+: rest
  · obtain ⟨inner, rfl⟩ := hdot
    have hinner : withoutDot ("./".toList ++ inner) = inner := withoutDot_dot inner
    rw [hinner]
    refine ⟨?_, .inr hsplit.symm⟩
    have hcons : noteSuffix <:+ '.' :: '/' :: inner := hsuffix
    obtain heq | hcons := List.suffix_cons_iff.mp hcons
    · have hslash : 'm' = '/' := congrArg (fun l : List Char => l.getD 1 'm') heq
      exact absurd hslash (by decide)
    · obtain heq | hcons := List.suffix_cons_iff.mp hcons
      · have hslash : '.' = '/' := congrArg (fun l : List Char => l.getD 0 '.') heq
        exact absurd hslash (by decide)
      · exact hcons
  · rw [withoutDot_of_not hdot]
    exact ⟨hsuffix, .inl hsplit.symm⟩

/-- A text that is not loose is looked at as it is. -/
theorem bareTarget_of_firm {text : List Char} (h : noteSuffix <:+ text) (hfirm : ¬ Loose text) : bareTarget text = text := by
  obtain ⟨hblank, hdot⟩ := not_or.mp hfirm
  have hkept : text.dropWhile isPythonWhitespace = text := by
    cases text with
    | nil => rfl
    | cons c rest => exact List.dropWhile_cons_of_neg fun hc => hblank ⟨c, rfl, hc⟩
  rw [(bareTarget_of_suffix h).1, hkept, withoutDot_of_not hdot]

theorem withoutDot_length (text : List Char) : (withoutDot text).length ≤ text.length := by
  unfold withoutDot
  split
  · rw [List.length_drop]
    exact Nat.sub_le _ _
  · exact le_rfl

/-- Of a loose text the front is taken off. -/
theorem bareTarget_of_loose {text : List Char} (h : noteSuffix <:+ text) (hloose : Loose text) :
    (bareTarget text).length < text.length := by
  rw [(bareTarget_of_suffix h).1]
  obtain ⟨c, hhead, hblank⟩ | ⟨rest, rfl⟩ := hloose
  · cases text with
    | nil => cases hhead
    | cons d rest =>
      cases hhead
      rw [List.dropWhile_cons_of_pos hblank]
      calc (withoutDot (rest.dropWhile isPythonWhitespace)).length
          ≤ (rest.dropWhile isPythonWhitespace).length := withoutDot_length _
        _ ≤ rest.length := (List.dropWhile_suffix _).length_le
        _ < (c :: rest).length := Nat.lt_succ_self _
  · have hkept : ("./".toList ++ rest).dropWhile isPythonWhitespace = '.' :: '/' :: rest :=
      List.dropWhile_cons_of_neg (by decide)
    rw [hkept, withoutDot_dot, List.length_append]
    exact Nat.lt_add_of_pos_left (by decide)

/-! ## The result -/

/-- The path is below the root and leads nowhere else. -/
structure Contained (root path : List Char) : Prop where
  relative : ¬ ['/'] <+: path
  inside : "..".toList ∉ segments path
  note : noteSuffix <:+ path
  below : root = ['.'] ∨ root ++ ['/'] <+: path

/-- A target that is written as it is meant: neither a link nor with the suffix, nor with a front that is taken off. -/
structure PlainTarget (target : List Char) : Prop where
  nonempty : target ≠ []
  trimmed : trimBy isPythonWhitespace target = target
  bar : '|' ∉ target
  heading : '#' ∉ target
  front : ¬ "./".toList <+: target
  unlinked : ¬ ("[[".toList <+: target ∧ "]]".toList <:+ target)
  suffix : ¬ noteSuffix <:+ target

/-- The ways to write a plain target. -/
def spellings (target aliasText heading : List Char) : List (List Char) :=
  [target ++ noteSuffix, "./".toList ++ target, "[[".toList ++ target ++ "]]".toList,
    "[[".toList ++ target ++ '|' :: aliasText ++ "]]".toList, "[[".toList ++ target ++ '#' :: heading ++ "]]".toList]

/-- What the normalisation of a path promises: a contained result that is a fixed point, and one result for all spellings of a
plain target. -/
structure Canonical (path root : List Char) : Prop where
  contained : ∀ result, normalizeTargetPath path root = some result → Contained root result
  fixed : ∀ result, normalizeTargetPath path root = some result → normalizeTargetPath result root = some result
  spelled : ∀ target aliasText heading, PlainTarget target → ∀ spelling ∈ spellings target aliasText heading,
    normalizeTargetPath spelling root = normalizeTargetPath target root

/-! ## Roots -/

theorem normalizeRoot_nonempty (root : List Char) : normalizeRoot root ≠ [] := by
  unfold normalizeRoot
  simp only
  split
  · exact List.cons_ne_nil _ _
  · rename_i h
    exact fun hnil => h (List.isEmpty_iff.mpr hnil)

theorem normalizeRoot_relative (root : List Char) : ¬ ['/'] <+: normalizeRoot root := by
  unfold normalizeRoot
  simp only
  split
  · decide
  · rintro ⟨rest, hrest⟩
    have hslash := trimBy_head_neg (p := (· == '/')) (l := trimBy isPythonWhitespace root) (c := '/') (by rw [← hrest]; rfl)
    exact absurd hslash (by decide)

theorem normalizeRoot_last (root : List Char) : ¬ ['/'] <:+ normalizeRoot root := by
  unfold normalizeRoot
  simp only
  split
  · decide
  · rintro ⟨front, hfront⟩
    have hnonempty : trimBy (· == '/') (trimBy isPythonWhitespace root) ≠ [] := by
      rw [← hfront]
      exact List.append_ne_nil_of_right_ne_nil _ (List.cons_ne_nil _ _)
    have hlast := List.rdropWhile_last_not (· == '/') ((trimBy isPythonWhitespace root).dropWhile (· == '/')) hnonempty
    have hslash : (trimBy (· == '/') (trimBy isPythonWhitespace root)).getLast hnonempty = '/' := by
      simp only [← hfront, List.getLast_append_singleton]
    exact hlast (beq_iff_eq.mpr hslash)

/-- A path that is accepted goes to a contained one. -/
theorem placed_contained {root text : List Char} (hroot : root ≠ []) (hrelative : ¬ ['/'] <+: root)
    (hinside : "..".toList ∉ segments root) (h : Acceptable text) : Contained root (placed root (withSuffix text)) := by
  unfold placed
  split
  · rename_i hplaced
    exact ⟨h.relative, h.inside, suffix_withSuffix text, hplaced⟩
  · refine ⟨?_, ?_, ?_, .inr ⟨withSuffix text, by rw [List.append_assoc]; rfl⟩⟩
    · cases root with
      | nil => exact absurd rfl hroot
      | cons c root =>
        rintro ⟨rest, hrest⟩
        cases hrest
        exact hrelative ⟨root, rfl⟩
    · have hsegments : segments (root ++ '/' :: withSuffix text) = segments root ++ segments (withSuffix text) :=
        List.splitOn_append_cons_self root (withSuffix text)
      rw [hsegments, List.mem_append, not_or]
      exact ⟨hinside, h.inside⟩
    · exact (suffix_withSuffix text).trans ((List.suffix_cons '/' _).trans (List.suffix_append root _))

/-! ## The second pass -/

section SecondPass
variable {root path : List Char}

/-- White space and a dot. -/
def DottedRoot (root : List Char) : Prop := ∃ blanks, (∀ c ∈ blanks, isPythonWhitespace c = true) ∧ root = blanks ++ ['.']

/-- The text behind the root, if it is below it. -/
def withoutRoot (root text : List Char) : List Char :=
  if root ++ ['/'] <+: text then text.drop (root.length + 1) else text

/-- A result with a firm front is a fixed point unless the checks refuse it. -/
theorem fixed_of_firm (h : Contained root path) (hfirm : ¬ Loose path) :
    normalizeTargetPath path root = some path ↔ ¬ External path := by
  have hsame := withSuffix_of_suffix h.note
  have hplaced : placed root path = path := by
    unfold placed
    rw [if_pos h.below]
  rw [normalizeTargetPath_eq_some, bareTarget_of_firm h.note hfirm, hsame, hplaced, and_iff_left rfl]
  constructor
  · exact fun haccepted => haccepted.internal
  · intro hinternal
    refine ⟨?_, hinternal, hsame.symm ▸ h.relative, hsame.symm ▸ h.inside⟩
    rintro rfl
    exact absurd (List.suffix_nil.mp h.note) (by decide)

/-- Of a result with a loose front only what stands behind it may come back below the root. -/
theorem fixed_of_loose (h : Contained root path) (hloose : Loose path) :
    normalizeTargetPath path root = some path ↔
      root ≠ ['.'] ∧ Acceptable (bareTarget path) ∧ ¬ root ++ ['/'] <+: bareTarget path ∧
        root ++ '/' :: bareTarget path = path := by
  obtain ⟨-, -, hsuffix, -⟩ := bareTarget_split h.note
  have hshorter := bareTarget_of_loose h.note hloose
  rw [normalizeTargetPath_eq_some, withSuffix_of_suffix hsuffix]
  unfold placed
  split
  · rename_i hplaced
    refine iff_of_false ?_ ?_
    · rintro ⟨-, hsame⟩
      rw [hsame] at hshorter
      exact lt_irrefl _ hshorter
    · rintro ⟨hroot, -, hrepeats, -⟩
      exact hplaced.elim hroot hrepeats
  · rename_i hplaced
    obtain ⟨hroot, hrepeats⟩ := not_or.mp hplaced
    constructor
    · rintro ⟨haccepted, hsame⟩
      exact ⟨hroot, haccepted, hrepeats, hsame⟩
    · rintro ⟨-, haccepted, -, hsame⟩
      exact ⟨haccepted, hsame⟩

/-- Behind the front of a path below the root is what is below the root, if the root is white space and a dot. -/
theorem bareTarget_below {rest : List Char} (hsuffix : noteSuffix <:+ root ++ '/' :: rest) :
    bareTarget (root ++ '/' :: rest) = rest ↔ DottedRoot root := by
  constructor
  · intro heq
    obtain ⟨blanks, hblanks, -, hsplit | hsplit⟩ := bareTarget_split hsuffix
    · rw [heq] at hsplit
      have hslash : root ++ ['/'] = blanks := by
        refine List.append_cancel_right (?_ : _ ++ rest = _ ++ rest)
        rw [List.append_assoc]
        exact hsplit
      have hmem : '/' ∈ blanks := hslash ▸ List.mem_append_right root List.mem_cons_self
      exact absurd (hblanks '/' hmem) (by decide)
    · rw [heq] at hsplit
      have hslash : root ++ ['/'] = (blanks ++ ['.']) ++ ['/'] := by
        refine List.append_cancel_right (?_ : _ ++ rest = _ ++ rest)
        rw [List.append_assoc, List.append_assoc, List.append_assoc]
        exact hsplit
      exact ⟨blanks, hblanks, (List.append_singleton_inj.mp hslash).1⟩
  · rintro ⟨blanks, hblanks, rfl⟩
    rw [(bareTarget_of_suffix hsuffix).1, List.append_assoc, List.dropWhile_append_of_pos hblanks]
    exact withoutDot_dot rest

theorem loose_below (hnonempty : root ≠ []) (hroot : root ≠ ['.']) (rest : List Char) :
    Loose (root ++ '/' :: rest) ↔ Loose root := by
  unfold Loose
  rw [List.head?_append_of_ne_nil _ hnonempty]
  refine or_congr Iff.rfl ⟨fun hdot => ?_, fun hdot => hdot.trans (List.prefix_append _ _)⟩
  obtain ⟨inner, hinner⟩ := hdot
  cases root with
  | nil => exact absurd rfl hnonempty
  | cons c root =>
    cases root with
    | nil =>
      cases hinner
      exact absurd rfl hroot
    | cons d root =>
      cases hinner
      exact ⟨root, rfl⟩

/-- Below another root than the vault the text stands behind the root. -/
theorem placed_eq (hroot : root ≠ ['.']) (text : List Char) : placed root text = root ++ '/' :: withoutRoot root text := by
  unfold placed withoutRoot
  by_cases hrepeats : root ++ ['/'] <+: text
  · rw [if_pos (.inr hrepeats), if_pos hrepeats]
    obtain ⟨rest, rfl⟩ := hrepeats
    have hdrop : (root ++ ['/'] ++ rest).drop (root.length + 1) = rest := by
      have hlength : (root ++ ['/']).length = root.length + 1 := List.length_append
      rw [← hlength, List.drop_left]
    rw [hdrop, List.append_assoc]
    rfl
  · rw [if_neg (not_or.mpr ⟨hroot, hrepeats⟩), if_neg hrepeats]

end SecondPass

/-! ## The spellings of a plain target -/

section Spellings
variable {target : List Char}

theorem PlainTarget.first (h : PlainTarget target) {c : Char} (hc : target.head? = some c) :
    isPythonWhitespace c = false := by
  rw [← h.trimmed] at hc
  exact trimBy_head_neg hc

theorem PlainTarget.last (h : PlainTarget target) : ∃ front c, target = front ++ [c] ∧ isPythonWhitespace c = false := by
  obtain rfl | ⟨front, c, rfl⟩ := List.eq_nil_or_concat' target
  · exact absurd rfl h.nonempty
  · refine ⟨front, c, rfl, ?_⟩
    cases hc : isPythonWhitespace c with
    | false => rfl
    | true =>
      have hblank : ∀ d ∈ [c], isPythonWhitespace d = true := fun d hd => List.mem_singleton.mp hd ▸ hc
      have hshorter : (trimBy isPythonWhitespace front).length ≤ front.length :=
        ((List.rdropWhile_prefix _ _).length_le).trans (List.dropWhile_suffix _).length_le
      rw [← trimBy_append_end hblank, h.trimmed, List.length_append] at hshorter
      exact absurd hshorter (Nat.not_succ_le_self _)

theorem PlainTarget.bareTarget (h : PlainTarget target) : bareTarget target = target := by
  unfold References.bareTarget
  simp only
  rw [h.trimmed, if_neg, withoutDot_of_not h.front]
  rw [Bool.and_eq_true, startsWith_iff, endsWith_iff]
  exact h.unlinked

theorem PlainTarget.bareTarget_suffix (h : PlainTarget target) :
    References.bareTarget (target ++ noteSuffix) = target ++ noteSuffix := by
  refine bareTarget_of_firm (List.suffix_append _ _) ?_
  rintro (⟨c, hhead, hblank⟩ | hdot)
  · rw [List.head?_append_of_ne_nil _ h.nonempty] at hhead
    rw [h.first hhead] at hblank
    exact Bool.false_ne_true hblank
  · exact h.front (prefix_of_append ['.'] hdot (by decide))

theorem PlainTarget.bareTarget_dot (h : PlainTarget target) : References.bareTarget ("./".toList ++ target) = target := by
  obtain ⟨front, c, rfl, hc⟩ := h.last
  have htrim : trimBy isPythonWhitespace ('.' :: (('/' :: front) ++ [c])) = '.' :: (('/' :: front) ++ [c]) :=
    trimBy_between (by decide) hc
  show withoutDot (if startsWith "[[".toList (trimBy isPythonWhitespace ('.' :: (('/' :: front) ++ [c]))) && _ then _
    else trimBy isPythonWhitespace ('.' :: (('/' :: front) ++ [c]))) = _
  rw [htrim, if_neg (by rw [Bool.and_eq_true]; exact fun hlink => nomatch startsWith_iff.mp hlink.1)]
  exact withoutDot_dot _

/-- In brackets what stands before the first bar and the first heading mark counts. -/
theorem bareTarget_linked (inner : List Char) :
    bareTarget ("[[".toList ++ inner ++ "]]".toList) = withoutDot (beforeFirst '#' (beforeFirst '|' inner)) := by
  have htrim : trimBy isPythonWhitespace ('[' :: (('[' :: inner ++ [']']) ++ [']'])) = "[[".toList ++ inner ++ "]]".toList := by
    rw [trimBy_between (by decide) (by decide)]
    show _ = ('[' :: '[' :: inner) ++ ([']'] ++ [']'])
    rw [← List.append_assoc]
    rfl
  have hsame : "[[".toList ++ inner ++ "]]".toList = '[' :: (('[' :: inner ++ [']']) ++ [']']) := by
    rw [List.append_assoc ('[' :: inner)]
    rfl
  have hlinked : startsWith "[[".toList ("[[".toList ++ inner ++ "]]".toList) = true :=
    startsWith_iff.mpr ⟨inner ++ "]]".toList, (List.append_assoc _ _ _).symm⟩
  have hends : endsWith "]]".toList ("[[".toList ++ inner ++ "]]".toList) = true := endsWith_iff.mpr (List.suffix_append _ _)
  unfold bareTarget
  simp only
  rw [hsame, htrim, hlinked, hends]
  have hinner : ((("[[".toList ++ inner ++ "]]".toList).drop 2).dropLast).dropLast = inner := by
    show ((inner ++ ([']'] ++ [']'])).dropLast).dropLast = inner
    rw [← List.append_assoc, List.dropLast_concat, List.dropLast_concat]
  rw [hinner]
  rfl

theorem beforeFirst_of_not_mem {separator : Char} {text : List Char} (h : separator ∉ text) :
    beforeFirst separator text = text :=
  List.takeWhile_eq_self_iff.mpr fun _ hc => decide_eq_true (ne_of_mem_of_not_mem hc h)

theorem beforeFirst_append {separator : Char} {text : List Char} (h : separator ∉ text) (rest : List Char) :
    beforeFirst separator (text ++ separator :: rest) = text := by
  have hstop : ¬ decide (separator ≠ separator) = true := fun hne => absurd rfl (of_decide_eq_true hne)
  unfold beforeFirst
  rw [List.takeWhile_append_of_pos fun _ hc => decide_eq_true (ne_of_mem_of_not_mem hc h),
    List.takeWhile_cons, if_neg hstop, List.append_nil]

/-- Before the bar of an alias or the mark of a heading stands the target, whatever the alias and the heading hold. -/
theorem PlainTarget.bareTarget_spelling (h : PlainTarget target) (aliasText heading : List Char) {spelling : List Char}
    (hmem : spelling ∈ spellings target aliasText heading) :
    References.bareTarget spelling = target ++ noteSuffix ∨ References.bareTarget spelling = target := by
  have hplain : withoutDot target = target := withoutDot_of_not h.front
  have hheading : beforeFirst '#' target = target := beforeFirst_of_not_mem h.heading
  unfold spellings at hmem
  simp only [List.mem_cons, List.not_mem_nil, or_false] at hmem
  obtain rfl | rfl | rfl | rfl | rfl := hmem
  · exact .inl h.bareTarget_suffix
  · exact .inr h.bareTarget_dot
  · rw [bareTarget_linked, beforeFirst_of_not_mem h.bar, hheading, hplain]
    exact .inr rfl
  · rw [List.append_assoc "[[".toList, bareTarget_linked, beforeFirst_append h.bar, hheading, hplain]
    exact .inr rfl
  · have hcut : beforeFirst '|' (target ++ '#' :: heading) = target ++ '#' :: beforeFirst '|' heading := by
      unfold beforeFirst
      rw [List.takeWhile_append_of_pos fun _ hc => decide_eq_true (ne_of_mem_of_not_mem hc h.bar),
        List.takeWhile_cons_of_pos (by decide)]
    rw [List.append_assoc "[[".toList, bareTarget_linked, hcut, beforeFirst_append h.heading, hplain]
    exact .inr rfl

theorem acceptable_suffix (h : ¬ noteSuffix <:+ target) (hnonempty : target ≠ []) :
    Acceptable (target ++ noteSuffix) ↔ Acceptable target := by
  rw [← withSuffix_of_not h]
  refine ⟨fun haccepted => ?_, Acceptable.withSuffix⟩
  have hrelative := haccepted.relative
  have hinside := haccepted.inside
  rw [withSuffix_withSuffix] at hrelative hinside
  exact ⟨hnonempty, fun hexternal => haccepted.internal (external_withSuffix.mpr hexternal), hrelative, hinside⟩

theorem PlainTarget.spelled (h : PlainTarget target) (root aliasText heading : List Char) {spelling : List Char}
    (hmem : spelling ∈ spellings target aliasText heading) :
    normalizeTargetPath spelling root = normalizeTargetPath target root := by
  ext result
  rw [← Option.mem_def, ← Option.mem_def, Option.mem_def, Option.mem_def, normalizeTargetPath_eq_some,
    normalizeTargetPath_eq_some, h.bareTarget]
  obtain htext | htext := h.bareTarget_spelling aliasText heading hmem
  · have hsuffix : withSuffix (target ++ noteSuffix) = withSuffix target := by
      rw [← withSuffix_of_not h.suffix, withSuffix_withSuffix]
    rw [htext, acceptable_suffix h.suffix h.nonempty, hsuffix]
  · rw [htext]

end Spellings

/-! ## When the result is a fixed point -/

/-- The front of the result is not taken off again, or what is taken off is put back, and the root is no external link itself. -/
def Steady (path root : List Char) : Prop :=
  Acceptable (bareTarget path) →
    (root = ['.'] ∧ ¬ Loose (bareTarget path)) ∨
    (root ≠ ['.'] ∧ ¬ Loose root ∧ ¬ External root) ∨
    (root ≠ ['.'] ∧ DottedRoot root ∧ Acceptable (withoutRoot root (withSuffix (bareTarget path))) ∧
      ¬ root ++ ['/'] <+: withoutRoot root (withSuffix (bareTarget path)))

theorem DottedRoot.loose {root : List Char} (h : DottedRoot root) (hroot : root ≠ ['.']) : Loose root := by
  obtain ⟨blanks, hblanks, rfl⟩ := h
  cases blanks with
  | nil => exact absurd rfl hroot
  | cons c blanks => exact .inl ⟨c, rfl, hblanks c List.mem_cons_self⟩

section Fixed
variable {root text : List Char}

/-- In the whole vault the result is the text itself. -/
theorem fixed_vault (h : Acceptable text) (hcontained : Contained ['.'] (withSuffix text)) :
    normalizeTargetPath (withSuffix text) ['.'] = some (withSuffix text) ↔ ¬ Loose text := by
  rw [← loose_withSuffix h.nonempty]
  by_cases hloose : Loose (withSuffix text)
  · rw [fixed_of_loose hcontained hloose]
    exact iff_of_false (fun hback => hback.1 rfl) fun hfirm => hfirm hloose
  · rw [fixed_of_firm hcontained hloose]
    exact iff_of_true h.withSuffix.internal hloose

/-- Below a root the result is an external link exactly if the root is one. -/
theorem external_placed (hlast : ¬ ['/'] <:+ root) (hroot : root ≠ ['.']) (h : Acceptable text) :
    External (placed root (withSuffix text)) ↔ External root := by
  constructor
  · unfold placed
    split
    · exact fun hexternal => absurd hexternal h.withSuffix.internal
    · exact (external_below hlast h.withSuffix.internal h.relative).mp
  · intro hexternal
    rw [placed_eq hroot]
    exact external_mono (List.prefix_append root _) hexternal

/-- Below a root the result is fixed if its front is the root's and stays, or is put back. -/
theorem fixed_below (hnonempty : root ≠ []) (hlast : ¬ ['/'] <:+ root) (hroot : root ≠ ['.']) (h : Acceptable text)
    (hcontained : Contained root (placed root (withSuffix text))) :
    normalizeTargetPath (placed root (withSuffix text)) root = some (placed root (withSuffix text)) ↔
      (¬ Loose root ∧ ¬ External root) ∨
      (DottedRoot root ∧ Acceptable (withoutRoot root (withSuffix text)) ∧
        ¬ root ++ ['/'] <+: withoutRoot root (withSuffix text)) := by
  have hexternal := external_placed hlast hroot h
  rw [placed_eq hroot] at hcontained hexternal ⊢
  generalize withoutRoot root (withSuffix text) = rest at hcontained hexternal ⊢
  have hfront := loose_below hnonempty hroot rest
  by_cases hloose : Loose root
  · rw [fixed_of_loose hcontained (hfront.mpr hloose)]
    constructor
    · rintro ⟨-, haccepted, hrepeats, hback⟩
      have hrest : bareTarget (root ++ '/' :: rest) = rest := (List.cons_inj_right _).mp (List.append_cancel_left hback)
      rw [hrest] at haccepted hrepeats
      exact .inr ⟨(bareTarget_below hcontained.note).mp hrest, haccepted, hrepeats⟩
    · rintro (⟨hfirm, -⟩ | ⟨hdotted, haccepted, hrepeats⟩)
      · exact absurd hloose hfirm
      · rw [(bareTarget_below hcontained.note).mpr hdotted]
        exact ⟨hroot, haccepted, hrepeats, rfl⟩
  · rw [fixed_of_firm hcontained fun h => hloose (hfront.mp h), hexternal]
    constructor
    · exact fun hinternal => .inl ⟨hloose, hinternal⟩
    · rintro (⟨-, hinternal⟩ | ⟨hdotted, -⟩)
      · exact hinternal
      · exact absurd (hdotted.loose hroot) hloose

end Fixed

/-- The normalisation of a path is contained, fixed and the same for all spellings exactly if the path is steady below the
root. -/
theorem canonical_iff (path rawRoot : List Char) (hinside : "..".toList ∉ segments (normalizeRoot rawRoot)) :
    Canonical path (normalizeRoot rawRoot) ↔ Steady path (normalizeRoot rawRoot) := by
  have hnonempty := normalizeRoot_nonempty rawRoot
  have hrelative := normalizeRoot_relative rawRoot
  have hlast := normalizeRoot_last rawRoot
  generalize normalizeRoot rawRoot = root at hinside hnonempty hrelative hlast ⊢
  have hcontained : ∀ text, Acceptable text → Contained root (placed root (withSuffix text)) := fun _ =>
    placed_contained hnonempty hrelative hinside
  -- Only the fixed point depends on the path: it is the one result of an acceptable target.
  have hfixed : Canonical path root ↔ ∀ _ : Acceptable (bareTarget path),
      normalizeTargetPath (placed root (withSuffix (bareTarget path))) root =
        some (placed root (withSuffix (bareTarget path))) := by
    constructor
    · exact fun hcanonical haccepted => hcanonical.fixed _ (normalizeTargetPath_eq_some.mpr ⟨haccepted, rfl⟩)
    · intro hback
      refine ⟨fun result hresult => ?_, fun result hresult => ?_, fun target aliasText heading hplain spelling hmem => ?_⟩
      · obtain ⟨haccepted, rfl⟩ := normalizeTargetPath_eq_some.mp hresult
        exact hcontained _ haccepted
      · obtain ⟨haccepted, rfl⟩ := normalizeTargetPath_eq_some.mp hresult
        exact hback haccepted
      · exact hplain.spelled root aliasText heading hmem
  rw [hfixed]
  refine forall_congr' fun haccepted => ?_
  by_cases hroot : root = ['.']
  · subst hroot
    have hplaced : placed ['.'] (withSuffix (bareTarget path)) = withSuffix (bareTarget path) := if_pos (.inl rfl)
    have hresult := hcontained _ haccepted
    rw [hplaced] at hresult ⊢
    rw [fixed_vault haccepted hresult]
    constructor
    · exact fun hfirm => .inl ⟨rfl, hfirm⟩
    · rintro (⟨-, hfirm⟩ | ⟨hother, -⟩ | ⟨hother, -⟩)
      · exact hfirm
      · exact absurd rfl hother
      · exact absurd rfl hother
  · rw [fixed_below hnonempty hlast hroot haccepted (hcontained _ haccepted)]
    constructor
    · rintro (hfirm | hdotted)
      · exact .inr (.inl ⟨hroot, hfirm⟩)
      · exact .inr (.inr ⟨hroot, hdotted⟩)
    · rintro (⟨hvault, -⟩ | ⟨-, hfirm⟩ | ⟨-, hdotted⟩)
      · exact absurd hvault hroot
      · exact .inl hfirm
      · exact .inr hdotted

theorem canonical_iff_alexandria :
    "..".toList ∉ segments (normalizeRoot "Alexandria/".toList) ∧
      (Canonical "[[Notes/x]]".toList (normalizeRoot "Alexandria/".toList) ↔
        Steady "[[Notes/x]]".toList (normalizeRoot "Alexandria/".toList)) := by
  have hinside : "..".toList ∉ segments (normalizeRoot "Alexandria/".toList) := by decide
  exact ⟨hinside, canonical_iff _ _ hinside⟩

/-- The blank behind the bracket stays in the result and is trimmed when the result is normalised again. -/
theorem spaced_target_moves :
    normalizeTargetPath "[[ x ]]".toList (normalizeRoot ".".toList) = some " x .md".toList ∧
      normalizeTargetPath " x .md".toList (normalizeRoot ".".toList) = some "x .md".toList ∧
      "..".toList ∉ segments (normalizeRoot ".".toList) ∧ ¬ Canonical "[[ x ]]".toList (normalizeRoot ".".toList) := by
  have hfirst : normalizeTargetPath "[[ x ]]".toList (normalizeRoot ".".toList) = some " x .md".toList := by decide
  have hsecond : normalizeTargetPath " x .md".toList (normalizeRoot ".".toList) = some "x .md".toList := by decide
  refine ⟨hfirst, hsecond, by decide, fun hcanonical => ?_⟩
  have hsame : some "x .md".toList = some " x .md".toList := hsecond.symm.trans (hcanonical.fixed _ hfirst)
  exact absurd hsame (by decide)

end Alexandria.References
