import Alexandria.Markdown.Analysis

/-! # Lines and what is read from them

Lines without line breaks are split where they were joined. The texts that a frontmatter block yields are made of the
characters of its lines, and an entry that has been read is never taken back: a later line adds an entry or an item.
-/

namespace Alexandria.Markdown.Native
set_option autoImplicit false

open Text

/-! ## Splitting -/

/-- A text of one line. -/
def OneLine (text : List Char) : Prop := ∀ c ∈ text, isLineBreak c = false

theorem oneLine_of_all {text : List Char} (h : (text.all fun c => !isLineBreak c) = true) : OneLine text := by
  intro c hc
  simpa using List.all_eq_true.mp h c hc

theorem byteLength_cons (c : Char) (l : List Char) : byteLength (c :: l) = c.utf8Size + byteLength l := rfl

attribute [local simp] splitFrom

theorem splitFrom_cons {s i : ℕ} {line rest : List Char} {c : Char} (hc : isLineBreak c = false) :
    splitFrom s i line (c :: rest) = splitFrom s (i + c.utf8Size) (line ++ [c]) rest := by
  rw [splitFrom.eq_3]
  · rw [if_neg]
    rw [hc]
    exact Bool.false_ne_true
  · rintro rest' rfl -
    exact absurd hc (by decide)

theorem splitFrom_newline {s i : ℕ} {line rest : List Char} :
    splitFrom s i line ('\n' :: rest) = ⟨line, s, i, i + 1⟩ :: splitFrom (i + 1) (i + 1) [] rest := by
  rw [splitFrom.eq_3]
  · rfl
  · intro rest' h
    exact absurd h (by decide)

theorem splitFrom_append {s i : ℕ} {line l rest : List Char} (hl : OneLine l) :
    splitFrom s i line (l ++ rest) = splitFrom s (i + byteLength l) (line ++ l) rest := by
  induction l generalizing i line with
  | nil => rw [List.nil_append, List.append_nil]; rfl
  | cons c l ih =>
    rw [List.cons_append, splitFrom_cons (hl c List.mem_cons_self), ih fun d hd => hl d (List.mem_cons_of_mem c hd),
      List.append_assoc, byteLength_cons, Nat.add_assoc]
    rfl

theorem splitFrom_lines {ls : List (List Char)} (hls : ∀ l ∈ ls, OneLine l) (i : ℕ) (rest : List Char) :
    ∃ lines j, lines.map LogicalLine.text = ls ∧
      splitFrom i i [] (ls.flatMap (fun l => l ++ ['\n']) ++ rest) = lines ++ splitFrom j j [] rest := by
  induction ls generalizing i with
  | nil => exact ⟨[], i, rfl, rfl⟩
  | cons l ls ih =>
    obtain ⟨lines, j, htexts, hsplit⟩ := ih (fun k hk => hls k (List.mem_cons_of_mem l hk)) (i + byteLength l + 1)
    refine ⟨⟨l, i, i + byteLength l, i + byteLength l + 1⟩ :: lines, j, by rw [List.map_cons, htexts], ?_⟩
    rw [List.flatMap_cons, List.append_assoc, List.append_assoc, splitFrom_append (hls l List.mem_cons_self),
      List.singleton_append, splitFrom_newline, hsplit]
    rfl

theorem intercalate_newline (ls : List (List Char)) (l : List Char) (rest : List Char) :
    ['\n'].intercalate (l :: ls) ++ '\n' :: rest = (l :: ls).flatMap (fun l => l ++ ['\n']) ++ rest := by
  induction ls generalizing l with
  | nil => simp
  | cons k ls ih =>
    rw [List.intercalate_cons_cons, List.append_assoc, List.append_assoc, ih, List.flatMap_cons]
    simp

theorem splitFrom_oneLine {s i : ℕ} {line text : List Char} (hline : OneLine line) :
    ∀ l ∈ splitFrom s i line text, OneLine l.text := by
  fun_induction splitFrom s i line text with
  | case1 => simp
  | case2 =>
    intro l hl
    rw [List.mem_singleton.mp hl]
    exact hline
  | case3 s i line rest ih =>
    intro l hl
    obtain rfl | hl := List.mem_cons.mp hl
    · exact hline
    · exact ih (fun c hc => (nomatch hc)) l hl
  | case4 s i line c rest _ _ ih =>
    intro l hl
    obtain rfl | hl := List.mem_cons.mp hl
    · exact hline
    · exact ih (fun c hc => (nomatch hc)) l hl
  | case5 s i line c rest _ hc ih =>
    apply ih
    intro d hd
    obtain hd | hd := List.mem_append.mp hd
    · exact hline d hd
    · rw [List.mem_singleton.mp hd]
      exact Bool.eq_false_iff.mpr hc

/-! ## The characters of the values -/

def FrontmatterScalar.chars : FrontmatterScalar → List Char
  | .string text => text.toList
  | _ => []

def FrontmatterValue.scalars : FrontmatterValue → List FrontmatterScalar
  | .scalar value => [value]
  | .sequence items => items

section Chars
variable {P : Char → Prop}

theorem mem_undoubleQuotes {c : Char} {l : List Char} (h : c ∈ undoubleQuotes l) : c ∈ l := by
  fun_induction undoubleQuotes l with
  | case1 => exact h
  | case2 rest ih =>
    obtain rfl | h := List.mem_cons.mp h
    · exact List.mem_cons_self
    · exact List.mem_cons_of_mem _ (List.mem_cons_of_mem _ (ih h))
  | case3 d rest _ ih =>
    obtain rfl | h := List.mem_cons.mp h
    · exact List.mem_cons_self
    · exact List.mem_cons_of_mem _ (ih h)

theorem mem_quotedBy {quote c : Char} {l inner : List Char} (h : quotedBy quote l = some inner) (hc : c ∈ inner) :
    c ∈ l := by
  unfold quotedBy at h
  split at h
  · cases h
    exact List.mem_of_mem_tail (List.dropLast_subset _ hc)
  · simp at h

theorem parseScalar_chars {raw : List Char} (hraw : ∀ c ∈ raw, P c) : ∀ c ∈ (parseScalar raw).chars, P c := by
  have hvalue : ∀ c ∈ trimmed raw, P c := fun c hc => hraw c (mem_of_mem_trimBy hc)
  unfold parseScalar
  simp only
  intro c hc
  split at hc
  · rename_i inner hquoted
    rw [FrontmatterScalar.chars, String.toList_ofList] at hc
    exact hvalue c (mem_quotedBy hquoted (mem_undoubleQuotes hc))
  · rename_i inner _ hquoted
    rw [FrontmatterScalar.chars, String.toList_ofList] at hc
    exact hvalue c (mem_quotedBy hquoted hc)
  · split_ifs at hc
    all_goals try cases hc
    rw [FrontmatterScalar.chars, String.toList_ofList] at hc
    exact hvalue c hc

/-- The scanner holds only characters of a kind. -/
def InlineList.Of (P : Char → Prop) (l : InlineList) : Prop :=
  (∀ c ∈ l.current, P c) ∧ ∀ item ∈ l.items, ∀ c ∈ item.chars, P c

theorem InlineList.Of.scan {l : InlineList} {c : Char} (h : l.Of P) (hc : P c) : (l.scan c).Of P := by
  have hcurrent : ∀ d ∈ l.current ++ [c], P d := by
    intro d hd
    obtain hd | hd := List.mem_append.mp hd
    · exact h.1 d hd
    · rw [List.mem_singleton.mp hd]
      exact hc
  unfold InlineList.scan
  simp only
  split
  · exact ⟨hcurrent, h.2⟩
  · split_ifs
    · exact ⟨hcurrent, h.2⟩
    · exact ⟨hcurrent, h.2⟩
    · exact ⟨hcurrent, h.2⟩
    · refine ⟨fun d hd => (nomatch hd), ?_⟩
      intro item hitem
      obtain hitem | hitem := List.mem_append.mp hitem
      · exact h.2 item hitem
      · rw [List.mem_singleton.mp hitem]
        exact parseScalar_chars fun d hd => h.1 d (mem_of_mem_trimBy hd)
    · exact ⟨hcurrent, h.2⟩

theorem InlineList.Of.foldl {l : InlineList} {text : List Char} (h : l.Of P) (htext : ∀ c ∈ text, P c) :
    (text.foldl InlineList.scan l).Of P := by
  induction text generalizing l with
  | nil => exact h
  | cons c text ih => exact ih (h.scan (htext c List.mem_cons_self)) fun d hd => htext d (List.mem_cons_of_mem c hd)

theorem parseInlineList_chars {value : List Char} (hvalue : ∀ c ∈ value, P c) :
    ∀ item ∈ parseInlineList value, ∀ c ∈ item.chars, P c := by
  have hinner : ∀ c ∈ value.tail.dropLast, P c := fun c hc =>
    hvalue c (List.mem_of_mem_tail (List.dropLast_subset _ hc))
  have hstart : InlineList.Of P ⟨none, false, 0, [], []⟩ := ⟨fun c hc => (nomatch hc), fun item hitem => (nomatch hitem)⟩
  have hscanned := hstart.foldl hinner
  unfold parseInlineList
  simp only
  split
  · exact fun item hitem => (nomatch hitem)
  · intro item hitem
    obtain hitem | hitem := List.mem_append.mp hitem
    · exact hscanned.2 item hitem
    · rw [List.mem_singleton.mp hitem]
      exact parseScalar_chars fun d hd => hscanned.1 d (mem_of_mem_trimBy hd)

theorem parseValue_chars {valueText : List Char} (h : ∀ c ∈ valueText, P c) :
    ∀ item ∈ (parseValue valueText).scalars, ∀ c ∈ item.chars, P c := by
  unfold parseValue
  split_ifs
  · exact fun item hitem => (nomatch hitem)
  · exact parseInlineList_chars h
  · intro item hitem
    rw [List.mem_singleton.mp hitem]
    exact parseScalar_chars h

/-- The texts of the entries hold only characters of a kind. -/
def EntriesOf (P : Char → Prop) (entries : List FrontmatterEntry) : Prop :=
  ∀ e ∈ entries, ∀ item ∈ e.value.scalars, ∀ c ∈ item.chars, P c

theorem mem_splitOnce {sep : Char} {text a b : List Char} (h : splitOnce sep text = some (a, b)) :
    ∀ c ∈ b, c ∈ text := by
  unfold splitOnce at h
  split at h
  · cases h
    exact fun c hc => (List.dropWhile_suffix _).mem (List.mem_of_mem_tail hc)
  · simp at h

theorem EntriesOf.push {entries : List FrontmatterEntry} {index : ℕ} {item : FrontmatterScalar}
    (h : EntriesOf P entries) (hitem : ∀ c ∈ item.chars, P c) :
    EntriesOf P (entries.modify index (FrontmatterEntry.push item)) := by
  intro e he
  obtain ⟨j, hj, rfl⟩ := List.mem_iff_getElem.mp he
  rw [List.getElem_modify]
  rw [List.length_modify] at hj
  have hold := h entries[j] (List.getElem_mem hj)
  split
  · unfold FrontmatterEntry.push
    split
    · rename_i items hvalue
      intro item' hmem
      obtain hmem | hmem := List.mem_append.mp hmem
      · exact hold item' (by rw [hvalue]; exact hmem)
      · rw [List.mem_singleton.mp hmem]
        exact hitem
    · exact hold
  · exact hold

theorem line_chars {s s' : FrontmatterState} {text : List Char} (h : s.line text = .ok s') (hs : EntriesOf P s.entries)
    (htext : ∀ c ∈ text, P c) : EntriesOf P s'.entries := by
  unfold FrontmatterState.line at h
  simp only at h
  split at h
  · cases h
    exact hs
  · split at h
    · rename_i index rawItem hactive hstripped
      cases h
      apply hs.push
      apply parseScalar_chars
      intro c hc
      apply htext
      have hmem : c ∈ trimmed text := by
        rw [hstripped]
        exact List.mem_cons_of_mem '-' (mem_of_mem_trimBy hc)
      exact mem_of_mem_trimBy hmem
    · split at h
      · cases h
        exact hs
      · unfold FrontmatterState.entry at h
        split at h
        · cases h
          exact hs
        · rename_i rawKey rawValue hsplit
          simp only at h
          split at h
          · cases h
            exact hs
          · split at h
            · simp at h
            · cases h
              intro e he
              obtain he | he := List.mem_append.mp he
              · exact hs e he
              · rw [List.mem_singleton.mp he]
                exact parseValue_chars fun c hc => htext c (mem_splitOnce hsplit c (mem_of_mem_trimBy hc))

theorem parseLinesFrom_cons {s s' : FrontmatterState} {line : List Char} {lines : List (List Char)}
    (h : parseLinesFrom s (line :: lines) = .ok s') :
    ∃ next, s.line line = .ok next ∧ parseLinesFrom next lines = .ok s' := by
  rw [parseLinesFrom] at h
  split at h
  · simp at h
  · rename_i next hnext
    exact ⟨next, hnext, h⟩

theorem parseLinesFrom_chars {s s' : FrontmatterState} {lines : List (List Char)}
    (h : parseLinesFrom s lines = .ok s') (hs : EntriesOf P s.entries) (hlines : ∀ l ∈ lines, ∀ c ∈ l, P c) :
    EntriesOf P s'.entries := by
  induction lines generalizing s with
  | nil =>
    cases h
    exact hs
  | cons line lines ih =>
    obtain ⟨next, hnext, hrest⟩ := parseLinesFrom_cons h
    exact ih hrest (line_chars hnext hs (hlines line List.mem_cons_self)) fun l hl => hlines l (List.mem_cons_of_mem line hl)

/-! ### Keys -/

theorem mem_splitOnce_key {sep : Char} {text a b : List Char} (h : splitOnce sep text = some (a, b)) :
    ∀ c ∈ a, c ∈ text := by
  unfold splitOnce at h
  split at h
  · cases h
    exact fun c hc => (List.takeWhile_prefix _).mem hc
  · cases h

/-- A key has characters of its line. -/
theorem line_keys {s s' : FrontmatterState} {text : List Char} (h : s.line text = .ok s')
    (hs : ∀ e ∈ s.entries, ∀ c ∈ e.key.toList, P c) (htext : ∀ c ∈ text, P c) : ∀ e ∈ s'.entries, ∀ c ∈ e.key.toList, P c := by
  unfold FrontmatterState.line at h
  simp only at h
  split at h
  · cases h
    exact hs
  · split at h
    · rename_i index rawItem hactive hstripped
      cases h
      intro e he
      obtain ⟨j, hj, rfl⟩ := List.mem_iff_getElem.mp he
      rw [List.getElem_modify]
      split
      · rename_i hindex
        have hkey : ∀ (item : FrontmatterScalar) (e : FrontmatterEntry), (e.push item).key = e.key := by
          intro item e
          unfold FrontmatterEntry.push
          split <;> rfl
        rw [hkey]
        exact hs _ (List.getElem_mem _)
      · exact hs _ (List.getElem_mem _)
    · split at h
      · cases h
        exact hs
      · unfold FrontmatterState.entry at h
        split at h
        · cases h
          exact hs
        · rename_i rawKey rawValue hsplit
          simp only at h
          split at h
          · cases h
            exact hs
          · split at h
            · simp at h
            · cases h
              intro e he
              obtain he | he := List.mem_append.mp he
              · exact hs e he
              · rw [List.mem_singleton.mp he]
                intro c hc
                rw [String.toList_ofList] at hc
                exact htext c (mem_splitOnce_key hsplit c (mem_of_mem_trimBy hc))

theorem parseLinesFrom_keys {s s' : FrontmatterState} {lines : List (List Char)} (h : parseLinesFrom s lines = .ok s')
    (hs : ∀ e ∈ s.entries, ∀ c ∈ e.key.toList, P c) (hlines : ∀ l ∈ lines, ∀ c ∈ l, P c) :
    ∀ e ∈ s'.entries, ∀ c ∈ e.key.toList, P c := by
  induction lines generalizing s with
  | nil =>
    cases h
    exact hs
  | cons line lines ih =>
    obtain ⟨next, hnext, hrest⟩ := parseLinesFrom_cons h
    exact ih hrest (line_keys hnext hs (hlines line List.mem_cons_self)) fun l hl => hlines l (List.mem_cons_of_mem line hl)

end Chars

/-! ## Entries are never taken back -/

/-- The value, or the sequence with more items. -/
inductive FrontmatterValue.Extends : FrontmatterValue → FrontmatterValue → Prop
  | same (value : FrontmatterValue) : Extends value value
  | more (items added : List FrontmatterScalar) : Extends (.sequence items) (.sequence (items ++ added))

def FrontmatterEntry.Extends (e e' : FrontmatterEntry) : Prop := e.key = e'.key ∧ e.value.Extends e'.value

/-- The entries, some with more items, and others after them. -/
inductive EntriesExtend : List FrontmatterEntry → List FrontmatterEntry → Prop
  | nil (added : List FrontmatterEntry) : EntriesExtend [] added
  | cons {e e' : FrontmatterEntry} {es es' : List FrontmatterEntry} (head : e.Extends e')
      (tail : EntriesExtend es es') : EntriesExtend (e :: es) (e' :: es')

theorem FrontmatterValue.Extends.trans {u v w : FrontmatterValue} (huv : u.Extends v) (hvw : v.Extends w) :
    u.Extends w := by
  cases huv with
  | same => exact hvw
  | more items added =>
    generalize hv : FrontmatterValue.sequence (items ++ added) = v at hvw
    cases hvw with
    | same =>
      rw [← hv]
      exact .more items added
    | more items' added' =>
      cases hv
      rw [List.append_assoc]
      exact .more items (added ++ added')

theorem FrontmatterEntry.Extends.refl (e : FrontmatterEntry) : e.Extends e := ⟨rfl, .same _⟩

theorem FrontmatterEntry.Extends.trans {e f g : FrontmatterEntry} (hef : e.Extends f) (hfg : f.Extends g) :
    e.Extends g := ⟨hef.1.trans hfg.1, hef.2.trans hfg.2⟩

theorem FrontmatterEntry.extends_push (item : FrontmatterScalar) (e : FrontmatterEntry) : e.Extends (e.push item) := by
  obtain ⟨key, value⟩ := e
  cases value with
  | scalar value => exact .refl _
  | sequence items => exact ⟨rfl, .more items [item]⟩

theorem entriesExtend_append (entries added : List FrontmatterEntry) : EntriesExtend entries (entries ++ added) := by
  induction entries with
  | nil => exact .nil added
  | cons e entries ih => exact .cons (.refl e) ih

theorem EntriesExtend.refl (entries : List FrontmatterEntry) : EntriesExtend entries entries := by
  have h := entriesExtend_append entries []
  rwa [List.append_nil] at h

theorem EntriesExtend.trans {es fs gs : List FrontmatterEntry} (hef : EntriesExtend es fs) (hfg : EntriesExtend fs gs) :
    EntriesExtend es gs := by
  induction hef generalizing gs with
  | nil => exact .nil gs
  | cons hhead _ ih =>
    cases hfg with
    | cons hnext htail => exact .cons (hhead.trans hnext) (ih htail)

/-- The last entry keeps its place. -/
theorem EntriesExtend.last {entries es : List FrontmatterEntry} {e : FrontmatterEntry}
    (h : EntriesExtend (entries ++ [e]) es) :
    ∃ before e' after, es = before ++ e' :: after ∧ before.length = entries.length ∧ e.Extends e' := by
  induction entries generalizing es with
  | nil =>
    cases h with
    | cons hhead _ => exact ⟨[], _, _, rfl, rfl, hhead⟩
  | cons d entries ih =>
    cases h with
    | cons _ htail =>
      obtain ⟨before, e', after, rfl, hlen, he⟩ := ih htail
      exact ⟨_ :: before, e', after, rfl, by rw [List.length_cons, List.length_cons, hlen], he⟩

theorem entriesExtend_push (entries : List FrontmatterEntry) (index : ℕ) (item : FrontmatterScalar) :
    EntriesExtend entries (entries.modify index (FrontmatterEntry.push item)) := by
  induction entries generalizing index with
  | nil =>
    rw [List.modify_nil]
    exact .nil []
  | cons e entries ih =>
    cases index with
    | zero =>
      rw [List.modify_zero_cons]
      exact .cons (FrontmatterEntry.extends_push item e) (.refl entries)
    | succ index =>
      rw [List.modify_succ_cons]
      exact .cons (.refl e) (ih index)

theorem line_extends {s s' : FrontmatterState} {text : List Char} (h : s.line text = .ok s') :
    EntriesExtend s.entries s'.entries := by
  have hsame : EntriesExtend s.entries s.entries := .refl _
  unfold FrontmatterState.line at h
  simp only at h
  split at h
  · cases h
    exact hsame
  · split at h
    · cases h
      exact entriesExtend_push _ _ _
    · split at h
      · cases h
        exact hsame
      · unfold FrontmatterState.entry at h
        split at h
        · cases h
          exact hsame
        · simp only at h
          split at h
          · cases h
            exact hsame
          · split at h
            · simp at h
            · cases h
              exact entriesExtend_append _ _

theorem parseLinesFrom_extends {s s' : FrontmatterState} {lines : List (List Char)}
    (h : parseLinesFrom s lines = .ok s') : EntriesExtend s.entries s'.entries := by
  induction lines generalizing s with
  | nil =>
    cases h
    exact .refl _
  | cons line lines ih =>
    obtain ⟨next, hnext, hrest⟩ := parseLinesFrom_cons h
    exact (line_extends hnext).trans (ih hrest)

end Alexandria.Markdown.Native
