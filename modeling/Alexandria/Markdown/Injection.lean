import Alexandria.Markdown.LogicalLines

/-! # What a value can add to the frontmatter

A rendered value is quoted, not escaped: each line break in it starts a line of the block that the native analysis reads like any
other. The frontmatter stays that of the mapping exactly if none of these lines closes the block or is a key at the margin.
-/

namespace Alexandria.Markdown
set_option autoImplicit false
open Text
open Native (trimmed delimiter splitOnce byteLength OneLine DocumentAnalysis)

/-! ## The lines of a block -/

inductive BlockLine
  | key (name : String) (rest : List Char)
  | tail (line : List Char)

def BlockLine.text : BlockLine → List Char
  | .key name rest => name.toList ++ ':' :: rest
  | .tail line => line

def BlockLine.key? : BlockLine → Option String
  | .key name _ => some name
  | .tail _ => none

section Floats
variable {φ : Type} (floats : Floats φ)

/-- The lines of a value; the first of them is on the line of its key. -/
def valueLines : FrontmatterValue φ → List (List Char)
  | .scalar value => splitlines (' ' :: (yamlScalar floats value ++ ['\n']))
  | .list [] => [" []".toList]
  | .list items => [] :: items.flatMap fun item => splitlines ("  - ".toList ++ yamlScalar floats item ++ ['\n'])

def itemLines (item : String × FrontmatterValue φ) : List BlockLine :=
  .key item.1 ((valueLines floats item.2).headD []) :: (valueLines floats item.2).tail.map .tail

def blockLines (items : Mapping φ) : List BlockLine := items.flatMap (itemLines floats)

end Floats

/-! ## Lines without effect on the keys -/

/-- The line is skipped, or an item of the open list. -/
def isKept (listOpen : Bool) (line : List Char) : Bool :=
  trimmed line = [] ∨ (trimmed line).head? = some '#' ∨ (listOpen ∧ (trimmed line).head? = some '-') ∨
    line ≠ line.dropWhile isWhitespace

/-- The key of a line at the margin. -/
def lineKey (line : List Char) : Option String :=
  (splitOnce ':' line).bind fun parts => (some (String.ofList (trimmed parts.1))).filter (· ≠ "")

/-- The line neither closes the block nor has a key. -/
def Inert (listOpen : Bool) (line : List Char) : Prop :=
  trimmed line ≠ delimiter ∧ (isKept listOpen line = true ∨ lineKey line = none)

instance (listOpen : Bool) (line : List Char) : Decidable (Inert listOpen line) := by
  unfold Inert
  infer_instance

/-- Every line that a line break starts is without effect on the keys. -/
def Contained : Bool → List BlockLine → Prop
  | _, [] => True
  | _, .key _ rest :: lines => Contained (trimmed rest = []) lines
  | listOpen, .tail line :: lines => Inert listOpen line ∧ Contained (listOpen && isKept listOpen line) lines

/-! ## One line -/

open Native (FrontmatterState FrontmatterEntry parseLinesFrom parseValue parseScalar)

theorem line_kept {s : FrontmatterState} {line : List Char} (h : isKept s.activeListIndex.isSome line = true) :
    ∃ entries, s.line line = .ok { s with entries := entries } ∧
      (entries = s.entries ∨ ∃ index item, s.activeListIndex = some index ∧
        entries = s.entries.modify index (FrontmatterEntry.push item)) := by
  unfold FrontmatterState.line
  simp only
  by_cases hskip : trimmed line = [] ∨ (trimmed line).head? = some '#'
  · rw [if_pos hskip]
    exact ⟨s.entries, rfl, .inl rfl⟩
  · rw [if_neg hskip]
    split
    · rename_i index rawItem hactive _
      exact ⟨_, rfl, .inr ⟨index, _, hactive, rfl⟩⟩
    · rename_i hitem
      have hindented : line ≠ line.dropWhile isWhitespace := by
        simp only [isKept, decide_eq_true_eq] at h
        obtain h | h | ⟨hopen, hdash⟩ | h := h
        · exact absurd (.inl h) hskip
        · exact absurd (.inr h) hskip
        · obtain ⟨index, hactive⟩ := Option.isSome_iff_exists.mp hopen
          cases htrim : trimmed line with
          | nil =>
            rw [htrim] at hdash
            cases hdash
          | cons c rest =>
            rw [htrim] at hdash
            cases hdash
            exact absurd htrim (hitem index rest hactive)
        · exact h
      rw [if_pos hindented]
      exact ⟨s.entries, rfl, .inl rfl⟩

/-- A line at the margin that is no item. -/
theorem line_margin {s : FrontmatterState} {line : List Char} (h : isKept s.activeListIndex.isSome line = false) :
    s.line line = s.entry line := by
  simp only [isKept, decide_eq_false_iff_not, not_or] at h
  obtain ⟨hblank, hcomment, hitem, hmargin⟩ := h
  unfold FrontmatterState.line
  simp only
  rw [if_neg (by simp [hblank, hcomment])]
  split
  · rename_i index rawItem hactive hstripped
    exact absurd ⟨by rw [hactive]; rfl, by rw [hstripped]; rfl⟩ hitem
  · rw [if_neg hmargin]

theorem entry_keyless {s : FrontmatterState} {line : List Char} (h : lineKey line = none) :
    s.entry line = .ok { s with activeListIndex := none } := by
  unfold FrontmatterState.entry
  unfold lineKey at h
  cases hsplit : splitOnce ':' line with
  | none => rfl
  | some parts =>
    rw [hsplit, Option.bind_some] at h
    simp only [Option.filter_some_eq_none, decide_eq_true_eq, not_not] at h
    simp only
    rw [if_pos h]

theorem entry_forged {s s' : FrontmatterState} {line : List Char} {key : String} (h : lineKey line = some key)
    (hentry : s.entry line = .ok s') :
    key ∉ s.keys ∧ s'.keys = key :: s.keys ∧ ∃ value, s'.entries = s.entries ++ [⟨key, value⟩] := by
  unfold FrontmatterState.entry at hentry
  unfold lineKey at h
  cases hsplit : splitOnce ':' line with
  | none =>
    rw [hsplit] at h
    cases h
  | some parts =>
    rw [hsplit, Option.bind_some] at h
    obtain ⟨hkey, hne⟩ := Option.filter_eq_some_iff.mp h
    cases hkey
    rw [hsplit] at hentry
    simp only at hentry
    rw [if_neg (of_decide_eq_true hne)] at hentry
    split at hentry
    · cases hentry
    · rename_i hnew
      cases hentry
      exact ⟨hnew, rfl, _, rfl⟩

theorem line_inert {s : FrontmatterState} {line : List Char} (h : Inert s.activeListIndex.isSome line) :
    ∃ entries active, s.line line = .ok ⟨entries, s.keys, active⟩ ∧
      active.isSome = (s.activeListIndex.isSome && isKept s.activeListIndex.isSome line) ∧
      (active = none ∨ active = s.activeListIndex) ∧
      (entries = s.entries ∨ ∃ index item, s.activeListIndex = some index ∧
        entries = s.entries.modify index (FrontmatterEntry.push item)) := by
  cases hkept : isKept s.activeListIndex.isSome line with
  | true =>
    obtain ⟨entries, hline, hentries⟩ := line_kept hkept
    exact ⟨entries, s.activeListIndex, hline, by simp, .inr rfl, hentries⟩
  | false =>
    obtain ⟨-, hline | hline⟩ := h
    · rw [hkept] at hline
      cases hline
    · exact ⟨s.entries, none, (line_margin hkept).trans (entry_keyless hline), by simp, .inl rfl, .inl rfl⟩

/-! ## Contained lines are read -/

/-- The state after the lines of one entry: the entry is the last one, and only it can take items. -/
structure LastEntry (entries : List FrontmatterEntry) (keys : List String) (key : String) (s : FrontmatterState) : Prop where
  last : ∃ value, s.entries = entries ++ [⟨key, value⟩]
  seen : s.keys = key :: keys
  active : s.activeListIndex = none ∨ s.activeListIndex = some entries.length

theorem LastEntry.tail {entries : List FrontmatterEntry} {keys : List String} {key : String} {s : FrontmatterState}
    (h : LastEntry entries keys key s) {line : List Char} (hinert : Inert s.activeListIndex.isSome line) :
    ∃ s', s.line line = .ok s' ∧ LastEntry entries keys key s' ∧
      s'.activeListIndex.isSome = (s.activeListIndex.isSome && isKept s.activeListIndex.isSome line) := by
  obtain ⟨entries', active, hline, hopen, hactive, hentries⟩ := line_inert hinert
  obtain ⟨value, hvalue⟩ := h.last
  refine ⟨_, hline, ⟨?_, h.seen, ?_⟩, hopen⟩
  · obtain rfl | ⟨index, item, hindex, rfl⟩ := hentries
    · exact ⟨value, hvalue⟩
    · obtain hnone | hsome := h.active
      · cases hnone.symm.trans hindex
      · cases hsome.symm.trans hindex
        refine ⟨(FrontmatterEntry.push item ⟨key, value⟩).value, ?_⟩
        rw [hvalue, modify_last]
        cases value <;> rfl
  · obtain rfl | rfl := hactive
    · exact .inl rfl
    · exact h.active

theorem LastEntry.tails {entries : List FrontmatterEntry} {keys : List String} {key : String} {s : FrontmatterState}
    (h : LastEntry entries keys key s) {tails : List (List Char)} {rest : List BlockLine}
    (hcontained : Contained s.activeListIndex.isSome (tails.map .tail ++ rest)) (lines : List (List Char)) :
    ∃ s', parseLinesFrom s (tails ++ lines) = parseLinesFrom s' lines ∧ LastEntry entries keys key s' ∧
      Contained s'.activeListIndex.isSome rest := by
  induction tails generalizing s with
  | nil => exact ⟨s, rfl, h, hcontained⟩
  | cons tail tails ih =>
    obtain ⟨hinert, hrest⟩ := hcontained
    obtain ⟨s', hline, hlast, hopen⟩ := h.tail hinert
    obtain ⟨s'', hparse, hlast', hcontained'⟩ := ih hlast (by rw [hopen]; exact hrest)
    refine ⟨s'', ?_, hlast', hcontained'⟩
    rw [List.cons_append, parseLinesFrom, hline]
    exact hparse

section Mapping
variable {φ : Type} {floats : Floats φ}

/-- A key that a line can start with and that is taken for no item. -/
structure PlainKey (key : String) : Prop extends ValidKey key where
  dash : startsWithDash key = false

/-- The value is rendered without line breaks. -/
def OnItsLines (floats : Floats φ) (item : String × FrontmatterValue φ) : Prop :=
  ∀ line ∈ renderFrontmatterValue floats item.1 item.2, OneLine line

theorem item_texts {item : String × FrontmatterValue φ} (hkey : ValidKey item.1) :
    (itemLines floats item).map BlockLine.text =
      (renderFrontmatterValue floats item.1 item.2).flatMap fun line => splitlines (line ++ ['\n']) := by
  have hopens : ∀ text : List Char, splitlines (item.1.toList ++ ':' :: (text ++ ['\n'])) =
      (item.1.toList ++ ':' :: (splitlines (text ++ ['\n'])).headD []) :: (splitlines (text ++ ['\n'])).tail := by
    intro text
    have hstart : Unbroken (item.1.toList ++ [':']) := by
      rw [unbroken_append]
      exact ⟨Native.oneLine_iff.mp hkey.oneLine, by decide⟩
    have hne : text ++ ['\n'] ≠ [] := by simp
    simpa using splitlines_append hstart hne
  have htails : ∀ lines : List (List Char), lines.map (BlockLine.text ∘ .tail) = lines := by
    intro lines
    exact List.map_id lines
  obtain ⟨key, value⟩ := item
  cases value with
  | scalar value =>
    have hscalar := hopens (' ' :: yamlScalar floats value)
    simp only [itemLines, valueLines, List.map_cons, List.map_map, htails, renderFrontmatterValue, List.flatMap_cons,
      List.flatMap_nil, List.append_nil, BlockLine.text, List.append_assoc]
    exact hscalar.symm
  | list items =>
    cases items with
    | nil =>
      have hnil := hopens " []".toList
      have hone : splitlines (" []".toList ++ ['\n']) = [" []".toList] := by decide
      rw [hone] at hnil
      simp only [itemLines, valueLines, renderFrontmatterValue, List.flatMap_cons, List.flatMap_nil, List.append_nil,
        List.append_assoc]
      exact hnil.symm
    | cons first items =>
      have hlist := hopens []
      have hone : splitlines (([] : List Char) ++ ['\n']) = [[]] := by decide
      rw [hone] at hlist
      have hopening : splitlines (key.toList ++ [':'] ++ ['\n']) = [key.toList ++ [':']] := by
        rw [List.append_assoc]
        exact hlist
      have hitems : ∀ values : List (FrontmatterScalar φ),
          (values.flatMap fun value => splitlines ("  - ".toList ++ yamlScalar floats value ++ ['\n'])) =
            (values.map fun value => "  - ".toList ++ yamlScalar floats value).flatMap fun line => splitlines (line ++ ['\n']) :=
        fun values => by rw [List.flatMap_map]
      simp only [itemLines, valueLines, hitems, List.headD_cons, List.tail_cons, List.map_cons, List.map_map, htails,
        renderFrontmatterValue, List.flatMap_cons, BlockLine.text]
      rw [hopening]
      rfl

theorem blockLines_texts {items : Mapping φ} (hkeys : ∀ item ∈ items, ValidKey item.1) :
    (blockLines floats items).map BlockLine.text =
      (renderedLines floats items).flatMap fun line => splitlines (line ++ ['\n']) := by
  induction items with
  | nil => rfl
  | cons item items ih =>
    have hitem : (itemLines floats item).map BlockLine.text =
        (renderFrontmatterValue floats item.1 item.2).flatMap fun line => splitlines (line ++ ['\n']) :=
      item_texts (hkeys item List.mem_cons_self)
    have hrest := ih fun other hother => hkeys other (List.mem_cons_of_mem item hother)
    unfold blockLines renderedLines at hrest ⊢
    rw [List.flatMap_cons, List.flatMap_cons, List.map_append, List.flatMap_append, hitem, hrest]

theorem flatMap_oneLine {lines : List (List Char)} (h : ∀ line ∈ lines, OneLine line) :
    (lines.flatMap fun line => splitlines (line ++ ['\n'])) = lines := by
  induction lines with
  | nil => rfl
  | cons line lines ih =>
    have hline : splitlines (line ++ ['\n']) = [line] := by
      rw [splitlines_line (Native.oneLine_iff.mp (h line List.mem_cons_self))]
      rfl
    rw [List.flatMap_cons, hline, ih fun other hother => h other (List.mem_cons_of_mem line hother)]
    rfl

/-- A value without line breaks has the lines that are rendered. -/
theorem OnItsLines.texts {item : String × FrontmatterValue φ} (h : OnItsLines floats item) (hkey : ValidKey item.1) :
    (itemLines floats item).map BlockLine.text = renderFrontmatterValue floats item.1 item.2 :=
  (item_texts hkey).trans (flatMap_oneLine h)

theorem parseLinesFrom_append {s s' : FrontmatterState} {lines : List (List Char)} (h : parseLinesFrom s lines = .ok s')
    (rest : List (List Char)) : parseLinesFrom s (lines ++ rest) = parseLinesFrom s' rest := by
  induction lines generalizing s with
  | nil =>
    cases h
    rfl
  | cons line lines ih =>
    rw [parseLinesFrom] at h
    rw [List.cons_append, parseLinesFrom]
    cases hline : s.line line with
    | error e =>
      rw [hline] at h
      cases h
    | ok next =>
      rw [hline] at h
      exact ih h

/-- The lines of an item of which no line has effect add its entry; without line breaks, with its value. -/
theorem item_read {s : FrontmatterState} {item : String × FrontmatterValue φ} {rest : List BlockLine}
    (hkey : PlainKey item.1) (hnew : item.1 ∉ s.keys)
    (hcontained : Contained s.activeListIndex.isSome (itemLines floats item ++ rest)) :
    ∃ s', parseLinesFrom s ((itemLines floats item).map BlockLine.text) = .ok s' ∧
      LastEntry s.entries s.keys item.1 s' ∧ Contained s'.activeListIndex.isSome rest ∧
      (OnItsLines floats item → s'.entries = s.entries ++ [⟨item.1, reread floats item.2⟩]) := by
  have hline := line_key (r := (valueLines floats item.2).headD []) hkey.toValidKey hnew fun _ => hkey.dash
  have hactive : (if trimmed ((valueLines floats item.2).headD []) = [] then some s.entries.length else none).isSome =
      decide (trimmed ((valueLines floats item.2).headD []) = []) := by
    split <;> simp_all
  have hopens : LastEntry s.entries s.keys item.1
      { entries := s.entries ++ [⟨item.1, parseValue (trimmed ((valueLines floats item.2).headD []))⟩]
        keys := item.1 :: s.keys
        activeListIndex :=
          if trimmed ((valueLines floats item.2).headD []) = [] then some s.entries.length else none } := by
    refine ⟨⟨_, rfl⟩, rfl, ?_⟩
    split
    · exact .inr rfl
    · exact .inl rfl
  obtain ⟨s', hparse, hlast, hrest⟩ := hopens.tails (by rw [hactive]; exact hcontained) []
  have htexts : (itemLines floats item).map BlockLine.text =
      (item.1.toList ++ ':' :: (valueLines floats item.2).headD []) :: (valueLines floats item.2).tail := by
    unfold itemLines
    rw [List.map_cons, List.map_map]
    exact congrArg _ (List.map_id _)
  have hread : parseLinesFrom s ((itemLines floats item).map BlockLine.text) = .ok s' := by
    rw [htexts, parseLinesFrom, hline]
    rw [List.append_nil] at hparse
    exact hparse
  refine ⟨s', hread, hlast, hrest, ?_⟩
  intro hunbroken
  have hentry : parseLinesFrom s (renderFrontmatterValue floats item.1 item.2 ++ []) = _ :=
    parseLinesFrom_entry hkey.toValidKey hnew (fun _ => hkey.dash) []
  rw [List.append_nil, ← hunbroken.texts hkey.toValidKey, hread] at hentry
  cases hentry
  rfl

/-- The entries of the items are added in turn. -/
theorem items_read {s : FrontmatterState} {items : Mapping φ} (hkeys : ∀ item ∈ items, PlainKey item.1)
    (hdistinct : (items.map Prod.fst).Nodup) (hnew : ∀ item ∈ items, item.1 ∉ s.keys)
    (hcontained : Contained s.activeListIndex.isSome (blockLines floats items)) :
    ∃ s', parseLinesFrom s ((blockLines floats items).map BlockLine.text) = .ok s' ∧
      s'.entries.map FrontmatterEntry.key = s.entries.map FrontmatterEntry.key ++ items.map Prod.fst ∧
      s.entries ⊆ s'.entries ∧
      ∀ item ∈ items, OnItsLines floats item → ⟨item.1, reread floats item.2⟩ ∈ s'.entries := by
  induction items generalizing s with
  | nil => exact ⟨s, rfl, by simp, List.Subset.refl _, by simp⟩
  | cons item items ih =>
    obtain ⟨s₁, hparse, hlast, hrest, hvalue⟩ :=
      item_read (hkeys item List.mem_cons_self) (hnew item List.mem_cons_self) hcontained
    obtain ⟨hother, hdistinct'⟩ := List.nodup_cons.mp hdistinct
    have hnew' : ∀ next ∈ items, next.1 ∉ s₁.keys := by
      intro next hnext hmem
      rw [hlast.seen] at hmem
      obtain heq | hmem := List.mem_cons.mp hmem
      · exact hother (heq ▸ List.mem_map_of_mem hnext)
      · exact hnew next (List.mem_cons_of_mem item hnext) hmem
    obtain ⟨s', hparse', hentries, hsubset, hvalues⟩ :=
      ih (fun next hnext => hkeys next (List.mem_cons_of_mem item hnext)) hdistinct' hnew' hrest
    obtain ⟨value, hadded⟩ := hlast.last
    refine ⟨s', ?_, ?_, ?_, ?_⟩
    · unfold blockLines at hparse' ⊢
      rw [List.flatMap_cons, List.map_append, parseLinesFrom_append hparse]
      exact hparse'
    · rw [hentries, hadded]
      simp
    · intro entry hentry
      apply hsubset
      rw [hadded]
      exact List.mem_append_left _ hentry
    · intro next hnext hunbroken
      obtain rfl | hnext := List.mem_cons.mp hnext
      · apply hsubset
        rw [hvalue hunbroken]
        simp
      · exact hvalues next hnext hunbroken

/-! ## Lines that are read are contained -/

theorem PlainKey.margin {key : String} (h : PlainKey key) (listOpen : Bool) (rest : List Char) :
    isKept listOpen (key.toList ++ ':' :: rest) = false := by
  obtain ⟨c, others, hcons, hc, hcomment⟩ := h.first
  have hdash : c ≠ '-' := by
    rintro rfl
    have hfree := h.dash
    unfold startsWithDash at hfree
    rw [hcons] at hfree
    exact absurd hfree (by simp)
  have hstripped : trimmed (key.toList ++ ':' :: rest) = c :: (others ++ ':' :: rest).rdropWhile isWhitespace := by
    rw [hcons]
    exact trimBy_cons_neg hc
  have hmargin : (key.toList ++ ':' :: rest).dropWhile isWhitespace = key.toList ++ ':' :: rest := by
    rw [hcons, List.cons_append, List.dropWhile_cons_of_neg]
    rw [hc]
    exact Bool.false_ne_true
  simp [isKept, hstripped, hmargin, hdash, hcomment]

theorem lineKey_key {key : String} (h : ValidKey key) (rest : List Char) : lineKey (key.toList ++ ':' :: rest) = some key := by
  unfold lineKey
  rw [splitOnce_eq_some.mpr ⟨rfl, h.colon⟩, Option.bind_some, h.trim, String.ofList_toList]
  simp [h.nonempty]

theorem modify_push_keys (entries : List FrontmatterEntry) (index : ℕ) (item : Native.FrontmatterScalar) :
    (entries.modify index (FrontmatterEntry.push item)).map FrontmatterEntry.key = entries.map FrontmatterEntry.key := by
  induction entries generalizing index with
  | nil => simp
  | cons e entries ih =>
    cases index with
    | zero =>
      rw [List.modify_zero_cons, List.map_cons, List.map_cons]
      congr 1
      unfold FrontmatterEntry.push
      cases e.value <;> rfl
    | succ index => rw [List.modify_succ_cons, List.map_cons, List.map_cons, ih]

/-- A line adds the key that it has at the margin, or none. -/
theorem line_cases {s s' : FrontmatterState} {line : List Char} (h : s.line line = .ok s') :
    ((isKept s.activeListIndex.isSome line = true ∨ lineKey line = none) ∧ s'.keys = s.keys ∧
      s'.entries.map FrontmatterEntry.key = s.entries.map FrontmatterEntry.key) ∨
    ∃ key, isKept s.activeListIndex.isSome line = false ∧ lineKey line = some key ∧ key ∉ s.keys ∧
      s'.keys = key :: s.keys ∧
      s'.entries.map FrontmatterEntry.key = s.entries.map FrontmatterEntry.key ++ [key] := by
  cases hkept : isKept s.activeListIndex.isSome line with
  | true =>
    obtain ⟨entries, hline, hentries⟩ := line_kept hkept
    rw [hline] at h
    cases h
    refine .inl ⟨.inl rfl, rfl, ?_⟩
    obtain rfl | ⟨index, item, -, rfl⟩ := hentries
    · rfl
    · exact modify_push_keys s.entries index item
  | false =>
    rw [line_margin hkept] at h
    cases hkey : lineKey line with
    | none =>
      rw [entry_keyless hkey] at h
      cases h
      exact .inl ⟨.inr rfl, rfl, rfl⟩
    | some key =>
      obtain ⟨hnew, hkeys, value, hentries⟩ := entry_forged hkey h
      refine .inr ⟨key, rfl, rfl, hnew, hkeys, ?_⟩
      rw [hentries]
      simp

/-- The keys seen are those of the entries, the last one first. -/
theorem parseLinesFrom_keys {s s' : FrontmatterState} {lines : List (List Char)} (h : parseLinesFrom s lines = .ok s')
    (hs : s.keys.reverse = s.entries.map FrontmatterEntry.key) : s'.keys.reverse = s'.entries.map FrontmatterEntry.key := by
  induction lines generalizing s with
  | nil =>
    cases h
    exact hs
  | cons line lines ih =>
    obtain ⟨next, hnext, hrest⟩ := Native.parseLinesFrom_cons h
    refine ih hrest ?_
    obtain ⟨-, hkeys, hentries⟩ | ⟨key, -, -, -, hkeys, hentries⟩ := line_cases hnext
    · rw [hkeys, hentries, hs]
    · rw [hkeys, hentries, ← hs, List.reverse_cons]

theorem parseLinesFrom_seen {s s' : FrontmatterState} {lines : List (List Char)} (h : parseLinesFrom s lines = .ok s') :
    s.keys ⊆ s'.keys := by
  induction lines generalizing s with
  | nil =>
    cases h
    exact List.Subset.refl _
  | cons line lines ih =>
    obtain ⟨next, hnext, hrest⟩ := Native.parseLinesFrom_cons h
    refine List.Subset.trans ?_ (ih hrest)
    obtain ⟨-, hkeys, -⟩ | ⟨key, -, -, -, hkeys, -⟩ := line_cases hnext
    · rw [hkeys]
      exact List.Subset.refl _
    · rw [hkeys]
      exact List.subset_cons_self key s.keys

/-- The key of a line that is read is new. -/
theorem key_new {s s' : FrontmatterState} {lines : List BlockLine}
    (hplain : ∀ name rest, .key name rest ∈ lines → PlainKey name)
    (h : parseLinesFrom s (lines.map BlockLine.text) = .ok s') : ∀ name rest, .key name rest ∈ lines → name ∉ s.keys := by
  induction lines generalizing s with
  | nil => simp
  | cons line lines ih =>
    obtain ⟨next, hnext, hrest⟩ := Native.parseLinesFrom_cons h
    have hplain' : ∀ name rest, .key name rest ∈ lines → PlainKey name := fun name rest hmem =>
      hplain name rest (List.mem_cons_of_mem line hmem)
    have hseen : s.keys ⊆ next.keys := by
      obtain ⟨-, hkeys, -⟩ | ⟨key, -, -, -, hkeys, -⟩ := line_cases hnext
      · rw [hkeys]
        exact List.Subset.refl _
      · rw [hkeys]
        exact List.subset_cons_self key s.keys
    intro name rest hmem
    obtain rfl | hmem := List.mem_cons.mp hmem
    · have hkey := hplain name rest List.mem_cons_self
      have hmargin := hkey.margin s.activeListIndex.isSome rest
      rw [show s.line (BlockLine.key name rest).text = s.entry _ from line_margin hmargin] at hnext
      exact (entry_forged (lineKey_key hkey.toValidKey rest) hnext).1
    · exact fun hold => ih hplain' hrest name rest hmem (hseen hold)

theorem contained_of_parse {s s' : FrontmatterState} {lines : List BlockLine}
    (hplain : ∀ name rest, .key name rest ∈ lines → PlainKey name)
    (hinside : ∀ line, .tail line ∈ lines → trimmed line ≠ delimiter)
    (h : parseLinesFrom s (lines.map BlockLine.text) = .ok s')
    (hkeys : ∀ key ∈ s'.keys, key ∈ s.keys ∨ key ∈ lines.filterMap BlockLine.key?) :
    Contained s.activeListIndex.isSome lines := by
  induction lines generalizing s with
  | nil => trivial
  | cons line lines ih =>
    have hnew := key_new hplain h
    obtain ⟨next, hnext, hrest⟩ := Native.parseLinesFrom_cons h
    have hih := ih (s := next) (fun name rest hmem => hplain name rest (List.mem_cons_of_mem line hmem))
      (fun tail hmem => hinside tail (List.mem_cons_of_mem line hmem)) hrest
    cases line with
    | key name rest =>
      have hkey := hplain name rest List.mem_cons_self
      have hline := line_key (r := rest) hkey.toValidKey (hnew name rest List.mem_cons_self) fun _ => hkey.dash
      rw [show s.line (BlockLine.key name rest).text = _ from hline] at hnext
      cases hnext
      have hopen : (if trimmed rest = [] then some s.entries.length else none).isSome = decide (trimmed rest = []) := by
        split <;> simp_all
      rw [hopen] at hih
      refine hih ?_
      intro key hmem
      obtain hold | hnamed := hkeys key hmem
      · exact .inl (List.mem_cons_of_mem name hold)
      · obtain rfl | hnamed := List.mem_cons.mp hnamed
        · exact .inl List.mem_cons_self
        · exact .inr hnamed
    | tail line =>
      have hinert : Inert s.activeListIndex.isSome line := by
        refine ⟨hinside line List.mem_cons_self, ?_⟩
        obtain ⟨hquiet, -⟩ | ⟨key, -, -, hfresh, hadded, -⟩ := line_cases hnext
        · exact hquiet
        · -- the key that the line adds would be one of the mapping, which is then met a second time
          have hmem : key ∈ s'.keys := parseLinesFrom_seen hrest (by rw [hadded]; exact List.mem_cons_self)
          obtain hold | hnamed := hkeys key hmem
          · exact absurd hold hfresh
          · obtain ⟨later, hlater, hname⟩ := List.mem_filterMap.mp hnamed
            cases later with
            | tail other => cases hname
            | key name rest =>
              cases hname
              obtain hfirst | hlater := List.mem_cons.mp hlater
              · cases hfirst
              · refine absurd ?_ (key_new (fun name rest hmem => hplain name rest (List.mem_cons_of_mem _ hmem)) hrest
                  key rest hlater)
                rw [hadded]
                exact List.mem_cons_self
      obtain ⟨entries, active, hline, hopen, -⟩ := line_inert hinert
      rw [show s.line (BlockLine.tail line).text = _ from hline] at hnext
      cases hnext
      refine ⟨hinert, ?_⟩
      rw [← hopen]
      exact hih hkeys

/-! ## The block between its delimiters -/

theorem splitFrom_delimiter (i : ℕ) (rest : List Char) :
    Native.splitFrom i i [] (delimiter ++ '\n' :: rest) =
      ⟨delimiter, i, i + 3, i + 4⟩ :: Native.splitFrom (i + 4) (i + 4) [] rest := by
  rw [Native.splitFrom_append (Native.oneLine_of_all (by decide)), Native.splitFrom_newline]
  rfl

/-- The position after the closing delimiter that is rendered. -/
def closingEnd (floats : Floats φ) (items : Mapping φ) : ℕ :=
  byteLength (['\n'].intercalate (delimiter :: (renderedLines floats items ++ [delimiter]))) + 1

/-- The lines of a rendered document. -/
theorem split_rendered {items : Mapping φ} (hkeys : ∀ item ∈ items, ValidKey item.1) (body : String) :
    ∃ (opening closing : Native.LogicalLine) (content after : List Native.LogicalLine),
      Native.splitLogicalLines (renderMarkdownDocument floats items body) = opening :: (content ++ closing :: after) ∧
      opening.text = delimiter ∧ closing.text = delimiter ∧
      content.map Native.LogicalLine.text = (blockLines floats items).map BlockLine.text ∧
      closing.endingEnd = closingEnd floats items ∧ ∀ line ∈ content, line.endingEnd < closing.endingEnd := by
  set rest : List Char := '\n' :: (body.toList.rdropWhile (· = '\n') ++ ['\n']) with hrest
  obtain ⟨content, htexts, hends, hsplit⟩ := Native.splitFrom_block (renderedLines floats items) 4 (delimiter ++ '\n' :: rest)
  have hdocument : renderMarkdownDocument floats items body =
      delimiter ++ '\n' :: ((renderedLines floats items).flatMap (fun line => line ++ ['\n']) ++ (delimiter ++ '\n' :: rest)) := by
    unfold renderMarkdownDocument
    simp only
    rw [← hrest, Native.intercalate_newline, List.flatMap_cons, List.flatMap_append]
    simp [renderedLines]
  set j : ℕ := 4 + byteLength ((renderedLines floats items).flatMap fun line => line ++ ['\n']) with hj
  rw [splitFrom_delimiter] at hsplit
  refine ⟨⟨delimiter, 0, 3, 4⟩, ⟨delimiter, j, j + 3, j + 4⟩, content, Native.splitFrom (j + 4) (j + 4) [] rest, ?_, rfl, rfl, ?_,
    ?_, ?_⟩
  · rw [hdocument]
    unfold Native.splitLogicalLines
    rw [splitFrom_delimiter, hsplit]
  · rw [htexts, blockLines_texts hkeys]
  · have hlength : closingEnd floats items =
        byteLength (['\n'].intercalate (delimiter :: (renderedLines floats items ++ [delimiter])) ++ '\n' :: []) := by
      rw [Native.byteLength_append]
      rfl
    rw [hlength, Native.intercalate_newline, List.flatMap_cons, List.flatMap_append]
    simp only [List.flatMap_cons, List.flatMap_nil, List.append_nil, Native.byteLength_append]
    have hdelimiter : byteLength delimiter = 3 := by decide
    have hnewline : byteLength ['\n'] = 1 := by decide
    omega
  · intro line hline
    have hend := hends line hline
    simp only
    omega

/-! ## What is read of a rendered mapping -/

/-- A mapping of distinct plain keys. -/
structure PlainFrontmatter (φ : Type) where
  items : Mapping φ
  keys : ∀ item ∈ items, PlainKey item.1
  distinct : (items.map Prod.fst).Nodup

/-- Nothing but the mapping is read, and the body is where it was rendered. A value with line breaks may be another one itself. -/
structure ReadsOnly (floats : Floats φ) (items : Mapping φ) (analysis : DocumentAnalysis) : Prop where
  keys : ∀ entry ∈ analysis.frontmatter, entry.key ∈ items.map Prod.fst
  values : ∀ item ∈ items, OnItsLines floats item → ⟨item.1, reread floats item.2⟩ ∈ analysis.frontmatter
  body : analysis.bodySourceRange.start = closingEnd floats items

def NoInjection (floats : Floats φ) (items : Mapping φ) (body : String) : Prop :=
  ∃ analysis, Native.analyzeInput documentId (renderMarkdownDocument floats items body) = .ok analysis ∧
    ReadsOnly floats items analysis

theorem key_of_blockLines {items : Mapping φ} {name : String} {rest : List Char}
    (h : .key name rest ∈ blockLines floats items) : name ∈ items.map Prod.fst := by
  obtain ⟨item, hitem, h⟩ := List.mem_flatMap.mp h
  obtain h | h := List.mem_cons.mp h
  · cases h
    exact List.mem_map_of_mem hitem
  · obtain ⟨line, -, hline⟩ := List.mem_map.mp h
    cases hline

theorem filterMap_blockLines (items : Mapping φ) :
    (blockLines floats items).filterMap BlockLine.key? = items.map Prod.fst := by
  induction items with
  | nil => rfl
  | cons item items ih =>
    unfold blockLines at ih ⊢
    rw [List.flatMap_cons, List.filterMap_append, ih]
    have htails : (itemLines floats item).filterMap BlockLine.key? = [item.1] := by
      have hnone : (valueLines floats item.2).tail.filterMap (BlockLine.key? ∘ .tail) = [] :=
        List.filterMap_eq_nil_iff.mpr fun line _ => rfl
      unfold itemLines
      rw [List.filterMap_cons, List.filterMap_map, hnone]
      rfl
    rw [htails]
    rfl

theorem Contained.inside {lines : List BlockLine} {listOpen : Bool} (h : Contained listOpen lines) {line : List Char}
    (hline : .tail line ∈ lines) : trimmed line ≠ delimiter := by
  induction lines generalizing listOpen with
  | nil => simp at hline
  | cons first lines ih =>
    cases first with
    | key name rest =>
      obtain hfirst | hline := List.mem_cons.mp hline
      · cases hfirst
      · exact ih h hline
    | tail first =>
      obtain ⟨⟨hdelimiter, -⟩, hrest⟩ := h
      obtain hfirst | hline := List.mem_cons.mp hline
      · cases hfirst
        exact hdelimiter
      · exact ih hrest hline

theorem key_line_inside (name : String) (rest : List Char) : trimmed (BlockLine.key name rest).text ≠ delimiter := by
  intro heq
  have hmem : ':' ∈ trimmed (BlockLine.key name rest).text :=
    mem_trimBy (List.mem_append_right _ List.mem_cons_self) (by decide)
  rw [heq] at hmem
  exact absurd hmem (by decide)

section Block
variable {opening closing : Native.LogicalLine} {content after : List Native.LogicalLine} {text : List Char}

theorem delimits {line : Native.LogicalLine} (h : line.text = delimiter) : Native.isDelimiter line = true := by
  unfold Native.isDelimiter
  rw [h]
  decide

/-- The block ends at the first delimiter after the opening one. -/
theorem analyzeDocument_ok {analysis : DocumentAnalysis}
    (hsplit : Native.splitLogicalLines text = opening :: (content ++ closing :: after)) (hopening : opening.text = delimiter)
    (hclosing : closing.text = delimiter) (hcontent : ∀ line ∈ content, line.endingEnd < closing.endingEnd)
    (h : Native.analyzeDocument text = .ok analysis) (hstart : analysis.bodySourceRange.start = closing.endingEnd) :
    (∀ line ∈ content, trimmed line.text ≠ delimiter) ∧
      ∃ s, parseLinesFrom ⟨[], [], none⟩ (content.map Native.LogicalLine.text) = .ok s ∧
        analysis.frontmatter = s.entries := by
  have hopens := delimits hopening
  have hcloses : (!Native.isDelimiter closing) = false := by rw [delimits hclosing]; rfl
  unfold Native.analyzeDocument at h
  rw [hsplit] at h
  simp only at h
  rw [if_pos hopens] at h
  cases hdrop : (content ++ closing :: after).dropWhile fun line => !Native.isDelimiter line with
  | nil =>
    rw [hdrop] at h
    cases h
  | cons found bodyLines =>
    rw [hdrop] at h
    simp only at h
    cases hparse : Native.parseFrontmatterLines ((content ++ closing :: after).takeWhile fun line => !Native.isDelimiter line) with
    | error e =>
      rw [hparse] at h
      cases h
    | ok entries =>
      rw [hparse] at h
      cases h
      have hinside : ∀ line ∈ content, (!Native.isDelimiter line) = true := by
        rw [List.dropWhile_append] at hdrop
        split at hdrop
        · rename_i hempty
          exact List.dropWhile_eq_nil_iff.mp (List.isEmpty_iff.mp hempty)
        · rename_i hrest
          -- a delimiter among the lines would end the block before its end
          obtain ⟨first, rest, hfirst⟩ := List.exists_cons_of_ne_nil fun hnil => hrest (List.isEmpty_iff.mpr hnil)
          rw [hfirst] at hdrop
          have hmem : found ∈ content := by
            rw [← (List.cons.inj hdrop).1]
            apply (List.dropWhile_suffix _).mem
            rw [hfirst]
            exact List.mem_cons_self
          exact absurd hstart (Nat.ne_of_lt (hcontent found hmem))
      refine ⟨?_, ?_⟩
      · intro line hline
        have hno := hinside line hline
        unfold Native.isDelimiter at hno
        simpa using hno
      · rw [(takeWhile_append_cons hinside hcloses).1] at hparse
        unfold Native.parseFrontmatterLines at hparse
        cases hlines : parseLinesFrom ⟨[], [], none⟩ (content.map Native.LogicalLine.text) with
        | error e =>
          rw [hlines] at hparse
          cases hparse
        | ok s =>
          rw [hlines] at hparse
          cases hparse
          exact ⟨s, rfl, rfl⟩

theorem analyzeDocument_of {s : FrontmatterState}
    (hsplit : Native.splitLogicalLines text = opening :: (content ++ closing :: after)) (hopening : opening.text = delimiter)
    (hclosing : closing.text = delimiter) (hinside : ∀ line ∈ content, trimmed line.text ≠ delimiter)
    (hparse : parseLinesFrom ⟨[], [], none⟩ (content.map Native.LogicalLine.text) = .ok s) :
    ∃ analysis, Native.analyzeDocument text = .ok analysis ∧ analysis.frontmatter = s.entries ∧
      analysis.bodySourceRange.start = closing.endingEnd := by
  have hopens := delimits hopening
  have hcloses : (!Native.isDelimiter closing) = false := by rw [delimits hclosing]; rfl
  have hbetween : ∀ line ∈ content, (!Native.isDelimiter line) = true := by
    intro line hline
    have hne := hinside line hline
    unfold Native.isDelimiter
    simpa using hne
  have hwhile := takeWhile_append_cons (b := after) hbetween hcloses
  unfold Native.analyzeDocument Native.parseFrontmatterLines
  rw [hsplit]
  simp only
  rw [if_pos hopens, hwhile.1, hwhile.2, hparse]
  exact ⟨_, rfl, rfl, rfl⟩

end Block

end Mapping

/-! ## A title of three lines -/

def scopedTitle : PlainFrontmatter String where
  items := [("id", .scalar (.str "note_plan")), ("title", .scalar (.str "Plan\u2028scope: global\u2028"))]
  keys := by
    intro item hitem
    simp only [List.mem_cons, List.not_mem_nil, or_false] at hitem
    obtain rfl | rfl := hitem
    · exact ⟨⟨by decide, by decide, by decide, Native.oneLine_of_all (by decide), by decide⟩, by decide⟩
    · exact ⟨⟨by decide, by decide, by decide, Native.oneLine_of_all (by decide), by decide⟩, by decide⟩
  distinct := by decide

end Alexandria.Markdown
