import Alexandria.Markdown.Injection

/-! # What a line of frontmatter does

A line is skipped, is an item of the open list, closes the list, or adds a key. Which of these it is depends on the line and on
whether a list is open, not on what has been read before.
-/

namespace Alexandria.Markdown.Native
set_option autoImplicit false
open Text

inductive LineAction
  | skip
  | item (value : FrontmatterScalar)
  | close
  | add (key : String) (value : FrontmatterValue) (opens : Bool)

def lineAction (listOpen : Bool) (line : List Char) : LineAction :=
  if trimmed line = [] ∨ (trimmed line).head? = some '#' then .skip
  else if listOpen ∧ (trimmed line).head? = some '-' then .item (parseScalar (trimmed (trimmed line).tail))
  else if line ≠ line.dropWhile isWhitespace then .skip
  else
    match splitOnce ':' line with
    | none => .close
    | some (rawKey, rawValue) =>
      if String.ofList (trimmed rawKey) = "" then .close
      else .add (String.ofList (trimmed rawKey)) (parseValue (trimmed rawValue)) (trimmed rawValue = [])

def LineAction.apply (s : FrontmatterState) : LineAction → Except String FrontmatterState
  | .skip => .ok s
  | .item value =>
    .ok { s with entries := s.entries.modify (s.activeListIndex.getD 0) (FrontmatterEntry.push value) }
  | .close => .ok { s with activeListIndex := none }
  | .add key value opens =>
    if key ∈ s.keys then .error ("FRONTMATTER_PARSE_ERROR: duplicate top-level key: " ++ key)
    else
      .ok
        { entries := s.entries ++ [⟨key, value⟩]
          keys := key :: s.keys
          activeListIndex := if opens then some s.entries.length else none }

theorem line_eq (s : FrontmatterState) (line : List Char) :
    s.line line = (lineAction s.activeListIndex.isSome line).apply s := by
  have hentry : s.entry line =
      LineAction.apply s (match splitOnce ':' line with
        | none => .close
        | some (rawKey, rawValue) =>
          if String.ofList (trimmed rawKey) = "" then .close
          else .add (String.ofList (trimmed rawKey)) (parseValue (trimmed rawValue)) (trimmed rawValue = [])) := by
    unfold FrontmatterState.entry
    cases splitOnce ':' line with
    | none => rfl
    | some parts =>
      simp only
      split
      · rfl
      · simp only [LineAction.apply, decide_eq_true_eq]
  unfold FrontmatterState.line lineAction
  simp only
  by_cases hskip : trimmed line = [] ∨ (trimmed line).head? = some '#'
  · rw [if_pos hskip, if_pos hskip]
    rfl
  · rw [if_neg hskip, if_neg hskip]
    by_cases hitem : s.activeListIndex.isSome = true ∧ (trimmed line).head? = some '-'
    · obtain ⟨index, hactive⟩ := Option.isSome_iff_exists.mp hitem.1
      obtain ⟨rest, hstripped⟩ : ∃ rest, trimmed line = '-' :: rest := by
        cases hline : trimmed line with
        | nil => simp [hline] at hitem
        | cons c rest =>
          rw [hline] at hitem
          cases hitem.2
          exact ⟨rest, rfl⟩
      rw [if_pos hitem, hactive, hstripped]
      simp [LineAction.apply, hactive]
    · rw [if_neg hitem]
      split
      · rename_i index rawItem hactive hstripped
        exact absurd ⟨by rw [hactive]; rfl, by rw [hstripped]; rfl⟩ hitem
      · by_cases hindented : line ≠ line.dropWhile isWhitespace
        · rw [if_pos hindented, if_pos hindented]
          rfl
        · rw [if_neg hindented, if_neg hindented]
          exact hentry

/-- Without a list to add to, an item is what its line is by itself. -/
theorem lineAction_closed {line : List Char} (h : ∀ value, lineAction true line ≠ .item value) :
    lineAction true line = lineAction false line := by
  unfold lineAction at h ⊢
  by_cases hskip : trimmed line = [] ∨ (trimmed line).head? = some '#'
  · rw [if_pos hskip, if_pos hskip]
  · rw [if_neg hskip] at h ⊢
    rw [if_neg hskip]
    by_cases hdash : (trimmed line).head? = some '-'
    · rw [if_pos ⟨rfl, hdash⟩] at h
      exact absurd rfl (h _)
    · have hno : ∀ listOpen : Bool, ¬ (listOpen = true ∧ (trimmed line).head? = some '-') := fun _ hitem => hdash hitem.2
      rw [if_neg (hno true), if_neg (hno false)]

theorem lineAction_item {line : List Char} {listOpen : Bool} {value : FrontmatterScalar} (h : lineAction listOpen line = .item value) :
    listOpen = true ∧ (trimmed line).head? = some '-' := by
  unfold lineAction at h
  by_cases hskip : trimmed line = [] ∨ (trimmed line).head? = some '#'
  · rw [if_pos hskip] at h
    cases h
  · rw [if_neg hskip] at h
    by_cases hitem : listOpen = true ∧ (trimmed line).head? = some '-'
    · exact hitem
    · rw [if_neg hitem] at h
      split at h
      · cases h
      · split at h
        · cases h
        · split at h <;> cases h

/-- A key is added by a line at the margin that is neither skipped nor an item. -/
theorem lineAction_add {line : List Char} {listOpen : Bool} {key : String} :
    (∃ value opens, lineAction listOpen line = .add key value opens) ↔ isKept listOpen line = false ∧ lineKey line = some key := by
  unfold lineAction isKept lineKey
  by_cases hskip : trimmed line = [] ∨ (trimmed line).head? = some '#'
  · rw [if_pos hskip]
    obtain hskip | hskip := hskip <;> simp [hskip]
  · rw [if_neg hskip]
    rw [not_or] at hskip
    by_cases hitem : listOpen = true ∧ (trimmed line).head? = some '-'
    · rw [if_pos hitem]
      simp [hitem]
    · rw [if_neg hitem]
      by_cases hindented : line ≠ line.dropWhile isWhitespace
      · rw [if_pos hindented]
        simp [hindented]
      · rw [if_neg hindented]
        have hkept : decide (trimmed line = [] ∨ (trimmed line).head? = some '#' ∨
            (listOpen = true ∧ (trimmed line).head? = some '-') ∨ line ≠ line.dropWhile isWhitespace) = false := by
          simp only [decide_eq_false_iff_not, not_or]
          exact ⟨hskip.1, hskip.2, hitem, hindented⟩
        rw [hkept]
        cases splitOnce ':' line with
        | none => simp
        | some parts =>
          by_cases hempty : String.ofList (trimmed parts.1) = ""
          · simp [hempty]
          · have hsame : String.ofList (trimmed parts.1) = key → key ≠ "" := fun heq hkey => hempty (heq.trans hkey)
            simpa [hempty] using hsame

theorem lineAction_of_key {line : List Char} {listOpen : Bool} {key : String} (hkept : isKept listOpen line = false)
    (hkey : lineKey line = some key) : ∃ value opens, lineAction listOpen line = .add key value opens :=
  lineAction_add.mpr ⟨hkept, hkey⟩

end Alexandria.Markdown.Native
