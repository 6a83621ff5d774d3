import Mathlib.Data.List.Basic

/-! # Replacement templates

The replacement of a regular-expression substitution is itself a small language: a backslash starts an escape. For a
pattern without groups the only text a template can refer to is the whole match. A template stands for itself exactly
when it is inert: every backslash in it is followed by a character of which the language makes nothing.
-/

namespace Alexandria.ReplacementTemplate
set_option autoImplicit false

inductive Piece
  | char (c : Char)
  | whole
  deriving DecidableEq

def isDigit (c : Char) : Bool := '0' ≤ c && c ≤ '9'

def isOctalDigit (c : Char) : Bool := '0' ≤ c && c ≤ '7'

def isAsciiLetter (c : Char) : Bool := ('a' ≤ c && c ≤ 'z') || ('A' ≤ c && c ≤ 'Z')

def octalValue (digits : List Char) : ℕ := digits.foldl (fun n c => 8 * n + (c.toNat - '0'.toNat)) 0

/-- The escapes of one letter, and the backslash. -/
def escapes : List (Char × Char) :=
  [('a', '\x07'), ('b', '\x08'), ('f', '\x0c'), ('n', '\n'), ('r', '\r'), ('t', '\t'), ('v', '\x0b'), ('\\', '\\')]

/-- `\g<name>`: no group has a name, and the whole match is the only one with a number. -/
def groupReference : List Char → Option (List Piece × List Char)
  | '<' :: rest =>
    let name := rest.takeWhile (· ≠ '>')
    match rest.dropWhile (· ≠ '>') with
    | [] => none
    | _ :: after => if name ≠ [] ∧ name.all (· = '0') then some ([.whole], after) else none
  | _ => none

/-- Up to two more octal digits after a zero. -/
def zeroEscape (rest : List Char) : List Piece × List Char :=
  let digits := (rest.take 2).takeWhile isOctalDigit
  ([.char (Char.ofNat (octalValue digits % 256))], rest.drop digits.length)

/-- A digit that is not zero: three octal digits are a character, and anything else is a group that there is not. -/
def digitEscape (c : Char) : List Char → Option (List Piece × List Char)
  | d :: e :: rest =>
    if isOctalDigit c && isOctalDigit d && isOctalDigit e && octalValue [c, d, e] ≤ 255 then
      some ([.char (Char.ofNat (octalValue [c, d, e]))], rest)
    else none
  | _ => none

/-- What follows a backslash. -/
def escape : List Char → Option (List Piece × List Char)
  | [] => none
  | c :: rest =>
    if c = 'g' then groupReference rest
    else if c = '0' then some (zeroEscape rest)
    else if isDigit c then digitEscape c rest
    else
      match escapes.lookup c with
      | some character => some ([.char character], rest)
      | none => if isAsciiLetter c then none else some ([.char '\\', .char c], rest)

theorem groupReference_length {text rest : List Char} {pieces : List Piece} (h : groupReference text = some (pieces, rest)) :
    pieces = [.whole] ∧ rest.length < text.length := by
  unfold groupReference at h
  split at h
  · rename_i tail
    simp only at h
    cases hdrop : tail.dropWhile (· ≠ '>') with
    | nil =>
      rw [hdrop] at h
      cases h
    | cons close after =>
      rw [hdrop] at h
      simp only at h
      split at h
      · cases h
        have hlen := (List.dropWhile_suffix (p := fun c => decide (c ≠ '>')) (l := tail)).length_le
        rw [hdrop, List.length_cons] at hlen
        refine ⟨rfl, ?_⟩
        rw [List.length_cons]
        omega
      · cases h
  · cases h

theorem digitEscape_some {c : Char} {text rest : List Char} {pieces : List Piece}
    (h : digitEscape c text = some (pieces, rest)) : ∃ character, pieces = [.char character] ∧ rest.length < text.length := by
  unfold digitEscape at h
  split at h
  · split at h
    · cases h
      refine ⟨_, rfl, ?_⟩
      simp only [List.length_cons]
      omega
    · cases h
  · cases h

theorem escape_cons (c : Char) (rest : List Char) : escape (c :: rest) =
    if c = 'g' then groupReference rest
    else if c = '0' then some (zeroEscape rest)
    else if isDigit c then digitEscape c rest
    else
      match escapes.lookup c with
      | some character => some ([.char character], rest)
      | none => if isAsciiLetter c then none else some ([.char '\\', .char c], rest) := rfl

/-- A backslash that the language makes something of loses a character or refers to the match. -/
theorem escape_cases {text rest : List Char} {pieces : List Piece} (h : escape text = some (pieces, rest)) :
    (pieces = [.whole] ∧ rest.length < text.length) ∨
      (∃ character, pieces = [.char character] ∧ rest.length < text.length) ∨
      ∃ c, text = c :: rest ∧ pieces = [.char '\\', .char c] ∧ isDigit c = false ∧ isAsciiLetter c = false ∧ c ≠ '\\' := by
  cases text with
  | nil => cases h
  | cons c tail =>
    rw [escape_cons] at h
    by_cases hg : c = 'g'
    · rw [if_pos hg] at h
      obtain ⟨hpieces, hlen⟩ := groupReference_length h
      exact .inl ⟨hpieces, Nat.lt_succ_of_lt hlen⟩
    · rw [if_neg hg] at h
      by_cases hzero : c = '0'
      · rw [if_pos hzero] at h
        cases h
        refine .inr (.inl ⟨_, rfl, ?_⟩)
        rw [List.length_drop, List.length_cons]
        omega
      · rw [if_neg hzero] at h
        by_cases hdigit : isDigit c = true
        · rw [if_pos hdigit] at h
          obtain ⟨character, hpieces, hlen⟩ := digitEscape_some h
          exact .inr (.inl ⟨character, hpieces, Nat.lt_succ_of_lt hlen⟩)
        · rw [if_neg hdigit] at h
          cases hlookup : escapes.lookup c with
          | some character =>
            rw [hlookup] at h
            cases h
            exact .inr (.inl ⟨character, rfl, Nat.lt_succ_self _⟩)
          | none =>
            rw [hlookup] at h
            simp only at h
            by_cases hletter : isAsciiLetter c = true
            · rw [if_pos hletter] at h
              cases h
            · rw [if_neg hletter] at h
              cases h
              refine .inr (.inr ⟨c, rfl, rfl, by simpa using hdigit, by simpa using hletter, ?_⟩)
              rintro rfl
              exact absurd hlookup (by decide)

theorem escape_length {text rest : List Char} {pieces : List Piece} (h : escape text = some (pieces, rest)) :
    rest.length < text.length := by
  obtain ⟨-, hlen⟩ | ⟨-, -, hlen⟩ | ⟨c, rfl, -⟩ := escape_cases h
  · exact hlen
  · exact hlen
  · exact Nat.lt_succ_self _

/-- The pieces of a template; `none` where compiling it raises. -/
def parse : List Char → Option (List Piece)
  | [] => some []
  | c :: rest =>
    if c = '\\' then
      match _h : escape rest with
      | none => none
      | some (pieces, after) => (parse after).map (pieces ++ ·)
    else (parse rest).map (.char c :: ·)
termination_by text => text.length
decreasing_by
  · have := escape_length _h
    rw [List.length_cons]
    omega
  · exact Nat.lt_succ_self _

/-- The text a template gives for a match. -/
def expand (pieces : List Piece) (whole : List Char) : List Char :=
  pieces.flatMap fun piece =>
    match piece with
    | .char c => [c]
    | .whole => whole

/-- Nothing is made of a backslash before such a character. -/
def isQuiet (c : Char) : Bool := !isDigit c && !isAsciiLetter c && c ≠ '\\'

/-- Every backslash is followed by a quiet character. -/
def isInert : List Char → Bool
  | [] => true
  | ['\\'] => false
  | '\\' :: c :: rest => isQuiet c && isInert rest
  | _ :: rest => isInert rest

attribute [local simp] isInert parse

theorem isQuiet_iff {c : Char} : isQuiet c = true ↔ isDigit c = false ∧ isAsciiLetter c = false ∧ c ≠ '\\' := by
  simp [isQuiet, and_assoc]

theorem isInert_escape {c : Char} {rest : List Char} :
    isInert ('\\' :: c :: rest) = (isQuiet c && isInert rest) := by
  rw [isInert]

theorem isInert_cons {c : Char} (hc : c ≠ '\\') (rest : List Char) : isInert (c :: rest) = isInert rest := by
  rw [isInert]
  · rintro rfl
    exact absurd rfl hc
  · rintro _ _ rfl
    exact absurd rfl hc

/-- A text is inert when its two halves at a character that is no backslash are. -/
theorem isInert_append_cons {c : Char} (hc : c ≠ '\\') (u v : List Char) :
    isInert (u ++ c :: v) = (isInert (u ++ [c]) && isInert v) := by
  induction u using isInert.induct with
  | case1 => rw [List.nil_append, List.nil_append, isInert_cons hc, isInert_cons hc, isInert, Bool.true_and]
  | case2 =>
    rw [List.cons_append, List.nil_append, List.cons_append, List.nil_append, isInert_escape, isInert_escape, isInert,
      Bool.and_true]
  | case3 d rest ih =>
    rw [List.cons_append, List.cons_append, List.cons_append, List.cons_append, isInert_escape, isInert_escape, ih,
      Bool.and_assoc]
  | case4 d rest hsingle hpair ih =>
    have hd : d ≠ '\\' := by
      rintro rfl
      cases rest with
      | nil => exact hsingle rfl rfl
      | cons e rest => exact hpair e rest rfl rfl
    rw [List.cons_append, List.cons_append, isInert_cons hd, isInert_cons hd, ih]

theorem isInert_append {u v : List Char} (hu : '\\' ∉ u) : isInert (u ++ v) = isInert v := by
  induction u with
  | nil => rfl
  | cons c u ih =>
    rw [List.mem_cons, not_or] at hu
    rw [List.cons_append, isInert_cons (Ne.symm hu.1), ih hu.2]

/-- Joined texts, each with the separator after it. -/
theorem isInert_intercalate {c : Char} (hc : c ≠ '\\') (parts : List (List Char)) :
    isInert ([c].intercalate parts ++ [c]) = parts.all fun part => isInert (part ++ [c]) := by
  induction parts with
  | nil =>
    show isInert [c] = true
    rw [isInert_cons hc, isInert]
  | cons part parts ih =>
    rw [List.all_cons, ← ih]
    cases parts with
    | nil =>
      have hnil : isInert ([c].intercalate [] ++ [c]) = true := by
        show isInert [c] = true
        rw [isInert_cons hc, isInert]
      rw [List.intercalate_singleton, hnil, Bool.and_true]
    | cons next parts =>
      rw [List.intercalate_cons_cons, List.append_assoc, List.append_assoc, List.singleton_append, isInert_append_cons hc]

/-! ## What a template gives -/

variable {text whole : List Char} {pieces : List Piece}

theorem parse_cons {c : Char} (hc : c ≠ '\\') (rest : List Char) : parse (c :: rest) = (parse rest).map (.char c :: ·) := by
  rw [parse, if_neg hc]

theorem parse_escape {rest after : List Char} (h : escape rest = some (pieces, after)) :
    parse ('\\' :: rest) = (parse after).map (pieces ++ ·) := by
  rw [parse, if_pos rfl]
  split
  · rename_i hnone
    rw [h] at hnone
    cases hnone
  · rename_i found tail hfound
    cases h.symm.trans hfound
    rfl

theorem parse_escape_none {rest : List Char} (h : escape rest = none) : parse ('\\' :: rest) = none := by
  rw [parse, if_pos rfl]
  split
  · rfl
  · rename_i found tail hfound
    cases h.symm.trans hfound

theorem parse_append {u : List Char} (hu : '\\' ∉ u) (text : List Char) :
    parse (u ++ text) = (parse text).map (u.map .char ++ ·) := by
  induction u with
  | nil => simp
  | cons c u ih =>
    rw [List.mem_cons, not_or] at hu
    rw [List.cons_append, parse_cons (Ne.symm hu.1), ih hu.2, Option.map_map]
    rfl

theorem escape_quiet {c : Char} (hc : isQuiet c = true) (rest : List Char) :
    escape (c :: rest) = some ([.char '\\', .char c], rest) := by
  obtain ⟨hdigit, hletter, hback⟩ := isQuiet_iff.mp hc
  have hg : c ≠ 'g' := by
    rintro rfl
    exact absurd hletter (by decide)
  have hzero : c ≠ '0' := by
    rintro rfl
    exact absurd hdigit (by decide)
  have hlookup : escapes.lookup c = none := by
    rw [List.lookup_eq_none_iff]
    intro entry hentry
    have hkeys : ∀ entry ∈ escapes, isAsciiLetter entry.1 = true ∨ entry.1 = '\\' := by decide
    rw [bne_iff_ne]
    rintro rfl
    obtain hkey | hkey := hkeys entry hentry
    · rw [hletter] at hkey
      cases hkey
    · exact hback hkey
  rw [escape_cons, if_neg hg, if_neg hzero, hdigit, if_neg Bool.false_ne_true, hlookup]
  simp only
  rw [hletter, if_neg Bool.false_ne_true]

/-- An inert template is taken literally. -/
theorem parse_inert (h : isInert text = true) : parse text = some (text.map .char) := by
  induction text using isInert.induct with
  | case1 => rw [parse]; rfl
  | case2 => cases h
  | case3 c rest ih =>
    rw [isInert_escape, Bool.and_eq_true] at h
    rw [parse_escape (escape_quiet h.1 rest), ih h.2]
    rfl
  | case4 c rest hsingle hpair ih =>
    have hc : c ≠ '\\' := by
      rintro rfl
      cases rest with
      | nil => exact hsingle rfl rfl
      | cons e rest => exact hpair e rest rfl rfl
    rw [isInert_cons hc] at h
    rw [parse_cons hc, ih h]
    rfl

theorem expand_char (text whole : List Char) : expand (text.map .char) whole = text := by
  induction text with
  | nil => rfl
  | cons c text ih =>
    rw [List.map_cons, expand, List.flatMap_cons]
    exact congrArg (c :: ·) ih

theorem expand_append (pieces more : List Piece) (whole : List Char) :
    expand (pieces ++ more) whole = expand pieces whole ++ expand more whole := List.flatMap_append

theorem expand_length (h : .whole ∉ pieces) (whole : List Char) : (expand pieces whole).length = pieces.length := by
  induction pieces with
  | nil => rfl
  | cons piece pieces ih =>
    rw [List.mem_cons, not_or] at h
    cases piece with
    | char c =>
      show (c :: expand pieces whole).length = _
      rw [List.length_cons, List.length_cons, ih h.2]
    | whole => exact absurd rfl h.1

/-- A template that refers to the match gives a text around it. -/
theorem expand_whole (h : .whole ∈ pieces) (whole : List Char) :
    ∃ front tail, expand pieces whole = front ++ (whole ++ tail) := by
  obtain ⟨before, after, rfl⟩ := List.append_of_mem h
  exact ⟨expand before whole, expand after whole, by rw [expand_append]; rfl⟩

/-- A template without a reference never gives more characters than it has, and as many only when it is inert. -/
theorem parse_shrinks (h : parse text = some pieces) (hwhole : .whole ∉ pieces) :
    pieces.length ≤ text.length ∧ (pieces.length = text.length → isInert text = true) := by
  induction text using parse.induct generalizing pieces with
  | case1 =>
    rw [parse] at h
    cases h
    exact ⟨Nat.le_refl _, fun _ => rfl⟩
  | case2 rest hnone =>
    rw [parse_escape_none hnone] at h
    cases h
  | case3 rest found after hfound ih =>
    rw [parse_escape hfound] at h
    obtain ⟨more, hmore, rfl⟩ := Option.map_eq_some_iff.mp h
    rw [List.mem_append, not_or] at hwhole
    obtain ⟨hle, hinert⟩ := ih hmore hwhole.2
    rw [List.length_append, List.length_cons]
    obtain ⟨rfl, -⟩ | ⟨character, rfl, hlen⟩ | ⟨c, rfl, rfl, hdigit, hletter, hback⟩ := escape_cases hfound
    · exact absurd (List.mem_singleton_self _) hwhole.1
    · rw [List.length_singleton]
      exact ⟨by omega, fun heq => by omega⟩
    · rw [List.length_cons, List.length_cons, List.length_cons, List.length_nil]
      refine ⟨by omega, fun heq => ?_⟩
      rw [isInert_escape, isQuiet_iff.mpr ⟨hdigit, hletter, hback⟩, hinert (by omega)]
      rfl
  | case4 c rest hc ih =>
    rw [parse_cons hc] at h
    obtain ⟨more, hmore, rfl⟩ := Option.map_eq_some_iff.mp h
    rw [List.mem_cons, not_or] at hwhole
    obtain ⟨hle, hinert⟩ := ih hmore hwhole.2
    rw [List.length_cons, List.length_cons]
    refine ⟨by omega, fun heq => ?_⟩
    rw [isInert_cons hc]
    exact hinert (by omega)

end Alexandria.ReplacementTemplate
