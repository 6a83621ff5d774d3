import Alexandria.Markdown.Scalars

/-! # Reading rendered frontmatter back

Each line of a rendered block is followed through the native parser: a key line adds an entry, an item line adds an
item to the last one. A text comes back unless it is broken into lines or rendered plain with blanks at an end; the
mapping comes back unless, besides, a key is taken for the item of the list before it.
-/

namespace Alexandria.Markdown
set_option autoImplicit false

open Native Text

/-! ## What can be carried -/

/-- A key that a frontmatter line can start with. -/
structure ValidKey (key : String) : Prop where
  nonempty : key ≠ ""
  trim : trimmed key.toList = key.toList
  colon : ':' ∉ key.toList
  oneLine : OneLine key.toList
  comment : key.toList.head? ≠ some '#'

section Values
variable {φ : Type}

def FrontmatterValue.scalars : FrontmatterValue φ → List (FrontmatterScalar φ)
  | .scalar value => [value]
  | .list items => items

/-- Is the value rendered as a key with item lines? -/
def FrontmatterValue.isBlock : FrontmatterValue φ → Bool
  | .list (_ :: _) => true
  | _ => false

/-- A mapping of distinct keys to nulls, booleans, integers, strings and flat lists of these. -/
structure ExactFrontmatter (φ : Type) where
  items : Mapping φ
  keys : ∀ item ∈ items, ValidKey item.1
  distinct : (items.map Prod.fst).Nodup
  exact : ∀ item ∈ items, ∀ value ∈ item.2.scalars, value.Exact

def startsWithDash (key : String) : Bool := key.toList.head? = some '-'

/-- Every text is one line without blanks at the ends where it is rendered plain, and no key that starts with a dash
follows a list with items. -/
def Renderable (items : Mapping φ) : Prop :=
  (∀ item ∈ items, ∀ text, .str text ∈ item.2.scalars →
    OneLine text.toList ∧ (canRenderPlain text.toList = true → trimmed text.toList = text.toList)) ∧
  items.IsChain fun item next => item.2.isBlock = true → startsWithDash next.1 = false

def RoundTrips (floats : Floats φ) (items : Mapping φ) (body : String) : Prop :=
  ∃ document, parseMarkdownDocument floats (renderMarkdownDocument floats items body) = .ok document ∧
    document.frontmatter = items

end Values

/-! ## Lines -/

/-- The first character of a key. -/
theorem ValidKey.first {key : String} (h : ValidKey key) :
    ∃ c rest, key.toList = c :: rest ∧ isWhitespace c = false ∧ c ≠ '#' := by
  have hne : key.toList ≠ [] := fun hnil => h.nonempty (String.toList_eq_nil_iff.mp hnil)
  obtain ⟨c, rest, hcons⟩ := List.exists_cons_of_ne_nil hne
  refine ⟨c, rest, hcons, ?_, ?_⟩
  · have hhead : (trimBy isWhitespace key.toList).head? = some c := by
      rw [show trimBy isWhitespace key.toList = key.toList from h.trim, hcons]
      rfl
    exact trimBy_head_neg hhead
  · rintro rfl
    apply h.comment
    rw [hcons]
    rfl

/-- A key line adds an entry, unless it is taken for an item. -/
theorem line_key {s : FrontmatterState} {key : String} {r : List Char} (hkey : ValidKey key) (hnew : key ∉ s.keys)
    (hdash : s.activeListIndex.isSome = true → startsWithDash key = false) :
    s.line (key.toList ++ ':' :: r) = .ok
      { entries := s.entries ++ [⟨key, parseValue (trimmed r)⟩]
        keys := key :: s.keys
        activeListIndex := if trimmed r = [] then some s.entries.length else none } := by
  obtain ⟨c, rest, hcons, hc, hcomment⟩ := hkey.first
  have hstripped : trimmed (key.toList ++ ':' :: r) = c :: (rest ++ ':' :: r).rdropWhile isWhitespace := by
    rw [hcons]
    exact trimBy_cons_neg hc
  have hmargin : (key.toList ++ ':' :: r).dropWhile isWhitespace = key.toList ++ ':' :: r := by
    rw [hcons, List.cons_append, List.dropWhile_cons_of_neg]
    rw [hc]
    exact Bool.false_ne_true
  have hentry : s.entry (key.toList ++ ':' :: r) = .ok
      { entries := s.entries ++ [⟨key, parseValue (trimmed r)⟩]
        keys := key :: s.keys
        activeListIndex := if trimmed r = [] then some s.entries.length else none } := by
    unfold FrontmatterState.entry
    rw [splitOnce_eq_some.mpr ⟨rfl, hkey.colon⟩]
    simp only
    rw [hkey.trim, String.ofList_toList, if_neg hkey.nonempty, if_neg hnew]
  unfold FrontmatterState.line
  simp only
  rw [hstripped, if_neg]
  · split
    · rename_i index rawItem hactive hitem
      cases hitem
      have hfree := hdash (by rw [hactive]; rfl)
      unfold startsWithDash at hfree
      rw [hcons] at hfree
      exact absurd hfree (by simp)
    · rw [hmargin, if_neg (fun h => h rfl)]
      exact hentry
  · rintro (h | h)
    · simp at h
    · rw [List.head?_cons] at h
      cases h
      exact hcomment rfl

/-- A line that starts with a dash is an item of the list before it. -/
theorem line_item {s : FrontmatterState} {text rawItem : List Char} {index : ℕ} (hactive : s.activeListIndex = some index)
    (hstripped : trimmed text = '-' :: rawItem) :
    s.line text = .ok { s with entries := s.entries.modify index (FrontmatterEntry.push (parseScalar rawItem)) } := by
  unfold FrontmatterState.line
  simp only
  rw [hstripped, hactive, if_neg]
  · simp only
    rw [parseScalar_trimmed]
  · rintro (h | h)
    · simp at h
    · rw [List.head?_cons] at h
      exact absurd h (by decide)

theorem trimmed_item (y : List Char) : trimmed ("  - ".toList ++ y) = '-' :: (' ' :: y).rdropWhile isWhitespace := by
  show trimBy isWhitespace (' ' :: ' ' :: '-' :: ' ' :: y) = _
  rw [trimBy_cons_pos whitespace_blank, trimBy_cons_pos whitespace_blank, trimBy_cons_neg (by decide)]

theorem parseScalar_item (y : List Char) : parseScalar ((' ' :: y).rdropWhile isWhitespace) = parseScalar y := by
  rw [← parseScalar_trimmed]
  have htrim : trimmed ((' ' :: y).rdropWhile isWhitespace) = trimmed y := by
    unfold trimmed
    rw [trimBy_rdropWhile, trimBy_cons_pos whitespace_blank]
  rw [htrim, parseScalar_trimmed]

theorem modify_last {α : Type} (l : List α) (a : α) (f : α → α) : (l ++ [a]).modify l.length f = l ++ [f a] := by
  induction l with
  | nil => rfl
  | cons b l ih =>
    rw [List.cons_append, List.length_cons, List.modify_succ_cons, ih]
    rfl

/-- Item lines fill the last entry. -/
theorem parseLinesFrom_items {entries : List FrontmatterEntry} {key : String} {items : List Native.FrontmatterScalar}
    {keys : List String} (ys : List (List Char)) (lines : List (List Char)) :
    parseLinesFrom ⟨entries ++ [⟨key, .sequence items⟩], keys, some entries.length⟩
        (ys.map (fun y => "  - ".toList ++ y) ++ lines) =
      parseLinesFrom ⟨entries ++ [⟨key, .sequence (items ++ ys.map parseScalar)⟩], keys, some entries.length⟩ lines := by
  induction ys generalizing items with
  | nil => rw [List.map_nil, List.map_nil, List.append_nil, List.nil_append]
  | cons y ys ih =>
    rw [List.map_cons, List.cons_append, parseLinesFrom, line_item rfl (trimmed_item y)]
    simp only
    rw [parseScalar_item, modify_last, FrontmatterEntry.push, ih, List.append_assoc, List.map_cons]
    rfl

/-! ## Entries -/

section Entries
variable {φ : Type} {floats : Floats φ}

/-- The native value of a rendered one. -/
def reread (floats : Floats φ) : FrontmatterValue φ → Native.FrontmatterValue
  | .scalar value => parseValue (trimmed (yamlScalar floats value))
  | .list items => .sequence (items.map fun item => parseScalar (yamlScalar floats item))

/-- The list that further items would go to. -/
def activeAfter (floats : Floats φ) (index : ℕ) : FrontmatterValue φ → Option ℕ
  | .scalar value => if trimmed (yamlScalar floats value) = [] then some index else none
  | .list [] => none
  | .list (_ :: _) => some index

/-- The lines of an item add its entry. -/
theorem parseLinesFrom_entry {s : FrontmatterState} {key : String} {value : FrontmatterValue φ}
    (hkey : ValidKey key) (hnew : key ∉ s.keys)
    (hdash : s.activeListIndex.isSome = true → startsWithDash key = false) (lines : List (List Char)) :
    parseLinesFrom s (renderFrontmatterValue floats key value ++ lines) =
      parseLinesFrom ⟨s.entries ++ [⟨key, reread floats value⟩], key :: s.keys,
        activeAfter floats s.entries.length value⟩ lines := by
  cases value with
  | scalar value =>
    have htrim : trimmed (' ' :: yamlScalar floats value) = trimmed (yamlScalar floats value) :=
      trimBy_cons_pos whitespace_blank
    have hline := line_key (r := ' ' :: yamlScalar floats value) hkey hnew hdash
    rw [htrim] at hline
    show parseLinesFrom s ((key.toList ++ ':' :: ' ' :: yamlScalar floats value) :: lines) = _
    rw [parseLinesFrom, hline]
    rfl
  | list items =>
    cases items with
    | nil =>
      have hline := line_key (r := " []".toList) hkey hnew hdash
      show parseLinesFrom s ((key.toList ++ ':' :: " []".toList) :: lines) = _
      rw [parseLinesFrom, hline]
      rfl
    | cons item items =>
      have hline := line_key (r := []) hkey hnew hdash
      have hitems : (item :: items).map (fun item => "  - ".toList ++ yamlScalar floats item) =
          ((item :: items).map (yamlScalar floats)).map fun y => "  - ".toList ++ y := by
        rw [List.map_map]
        rfl
      show parseLinesFrom s ((key.toList ++ [':']) ::
        ((item :: items).map (fun item => "  - ".toList ++ yamlScalar floats item) ++ lines)) = _
      rw [parseLinesFrom, hline]
      show parseLinesFrom ⟨s.entries ++ [⟨key, .sequence []⟩], key :: s.keys, some s.entries.length⟩
        ((item :: items).map (fun item => "  - ".toList ++ yamlScalar floats item) ++ lines) = _
      rw [hitems, parseLinesFrom_items, List.nil_append, List.map_map]
      rfl

theorem parseValue_scalar {value : FrontmatterScalar φ} (h : value.Exact)
    (hblank : trimmed (yamlScalar floats value) ≠ []) :
    parseValue (trimmed (yamlScalar floats value)) = .scalar (parseScalar (yamlScalar floats value)) := by
  unfold parseValue
  rw [if_neg hblank, if_neg fun hlist => yamlScalar_head h hlist.1, parseScalar_trimmed]

/-- A value is read back if its scalars are settled. -/
theorem valueFromTag_reread {value : FrontmatterValue φ} (h : ∀ x ∈ value.scalars, x.Exact)
    (hsettled : ∀ x ∈ value.scalars, Settled x) : valueFromTag floats (reread floats value) = value := by
  cases value with
  | scalar value =>
    have hexact := h value (List.mem_singleton.mpr rfl)
    have hvalue := hsettled value (List.mem_singleton.mpr rfl)
    show valueFromTag floats (parseValue (trimmed (yamlScalar floats value))) = _
    rw [parseValue_scalar hexact (yamlScalar_nonblank floats hexact hvalue)]
    exact congrArg FrontmatterValue.scalar ((scalarFromTag_iff hexact).mpr hvalue)
  | list items =>
    show FrontmatterValue.list ((items.map fun item => parseScalar (yamlScalar floats item)).map (scalarFromTag floats)) = _
    rw [List.map_map]
    congr 1
    calc items.map (scalarFromTag floats ∘ fun item => parseScalar (yamlScalar floats item)) = items.map id :=
          List.map_congr_left fun item hitem => (scalarFromTag_iff (h item hitem)).mpr (hsettled item hitem)
      _ = items := List.map_id _

/-- Where a value is read back, with whatever items added, its scalars are settled. -/
theorem settled_of_extends {value : FrontmatterValue φ} {w : Native.FrontmatterValue} (h : ∀ x ∈ value.scalars, x.Exact)
    (hextends : (reread floats value).Extends w) (hread : valueFromTag floats w = value) :
    ∀ x ∈ value.scalars, Settled x := by
  cases value with
  | scalar value =>
    have hexact := h value (List.mem_singleton.mpr rfl)
    intro x hx
    rw [List.mem_singleton.mp hx]
    have hblank : trimmed (yamlScalar floats value) ≠ [] := by
      intro hnil
      have hempty : reread floats (.scalar value) = .sequence [] := by
        show parseValue (trimmed (yamlScalar floats value)) = _
        rw [hnil]
        rfl
      rw [hempty] at hextends
      cases hextends with
      | same => cases hread
      | more => cases hread
    have hscalar : reread floats (.scalar value) = .scalar (parseScalar (yamlScalar floats value)) :=
      parseValue_scalar hexact hblank
    rw [hscalar] at hextends
    cases hextends with
    | same => exact (scalarFromTag_iff hexact).mp (FrontmatterValue.scalar.inj hread)
  | list items =>
    have hsame : ∀ added : List Native.FrontmatterScalar,
        ((items.map fun item => parseScalar (yamlScalar floats item)) ++ added).map (scalarFromTag floats) = items →
          ∀ x ∈ items, Settled x := by
      intro added heq x hx
      have hlen := congrArg List.length heq
      rw [List.length_map, List.length_append, List.length_map] at hlen
      have hnone : added = [] := List.length_eq_zero_iff.mp (by omega)
      rw [hnone, List.append_nil, List.map_map] at heq
      exact (scalarFromTag_iff (h x hx)).mp (List.map_inj_left.mp (heq.trans (List.map_id items).symm) x hx)
    unfold reread at hextends
    cases hextends with
    | same => exact hsame [] (by rw [List.append_nil]; exact FrontmatterValue.list.inj hread)
    | more _ added => exact hsame added (FrontmatterValue.list.inj hread)

/-! ## Mappings -/

/-- The mapping is read back after a list that may take further items. -/
def Follows (active : Bool) : Mapping φ → Prop
  | [] => True
  | item :: items => (active = true → startsWithDash item.1 = false) ∧ (∀ x ∈ item.2.scalars, Settled x) ∧
      Follows item.2.isBlock items

def decodeEntry (floats : Floats φ) (e : FrontmatterEntry) : String × FrontmatterValue φ :=
  (e.key, valueFromTag floats e.value)

def renderedLines (floats : Floats φ) (items : Mapping φ) : List (List Char) :=
  items.flatMap fun item => renderFrontmatterValue floats item.1 item.2

theorem activeAfter_settled (floats : Floats φ) {value : FrontmatterValue φ} (index : ℕ)
    (h : ∀ x ∈ value.scalars, x.Exact) (hsettled : ∀ x ∈ value.scalars, Settled x) :
    activeAfter floats index value = if value.isBlock then some index else none := by
  cases value with
  | scalar value =>
    have hblank := yamlScalar_nonblank floats (h value (List.mem_singleton.mpr rfl))
      (hsettled value (List.mem_singleton.mpr rfl))
    show (if trimmed (yamlScalar floats value) = [] then some index else none) = none
    rw [if_neg hblank]
  | list items =>
    cases items with
    | nil => rfl
    | cons item items => rfl

/-- What the parser has to be in to read the rest of a mapping. -/
structure Reads (s : FrontmatterState) (items : Mapping φ) : Prop where
  keys : ∀ item ∈ items, ValidKey item.1
  distinct : (items.map Prod.fst).Nodup
  fresh : ∀ item ∈ items, item.1 ∉ s.keys
  exact : ∀ item ∈ items, ∀ x ∈ item.2.scalars, x.Exact

theorem Reads.next {s : FrontmatterState} {item : String × FrontmatterValue φ} {items : Mapping φ}
    (h : Reads s (item :: items)) (entries : List FrontmatterEntry) (active : Option ℕ) :
    Reads ⟨entries, item.1 :: s.keys, active⟩ items where
  keys := fun i hi => h.keys i (List.mem_cons_of_mem item hi)
  distinct := (List.nodup_cons.mp h.distinct).2
  fresh := by
    intro i hi hmem
    obtain heq | hmem := List.mem_cons.mp hmem
    · exact (List.nodup_cons.mp h.distinct).1 (heq ▸ List.mem_map_of_mem hi)
    · exact h.fresh i (List.mem_cons_of_mem item hi) hmem
  exact := fun i hi => h.exact i (List.mem_cons_of_mem item hi)

/-- A mapping that follows is read entry by entry. -/
theorem parseLinesFrom_follows (floats : Floats φ) {s : FrontmatterState} {items : Mapping φ} {active : Bool} (hreads : Reads s items)
    (hactive : s.activeListIndex.isSome = active) (h : Follows active items) :
    ∃ s', parseLinesFrom s (renderedLines floats items) = .ok s' ∧
      s'.entries = s.entries ++ items.map fun item => ⟨item.1, reread floats item.2⟩ := by
  induction items generalizing s active with
  | nil => exact ⟨s, rfl, (List.append_nil _).symm⟩
  | cons item items ih =>
    obtain ⟨hdash, hsettled, hrest⟩ := h
    have hexact := hreads.exact item List.mem_cons_self
    have hnext := activeAfter_settled floats s.entries.length hexact hsettled
    have hsome : (activeAfter floats s.entries.length item.2).isSome = item.2.isBlock := by
      rw [hnext]
      cases item.2.isBlock <;> rfl
    obtain ⟨s', hparse, hentries⟩ := ih (hreads.next _ _) hsome hrest
    refine ⟨s', ?_, ?_⟩
    · unfold renderedLines at hparse ⊢
      rw [List.flatMap_cons, parseLinesFrom_entry (hreads.keys item List.mem_cons_self)
        (hreads.fresh item List.mem_cons_self) (fun h => hdash (hactive ▸ h))]
      exact hparse
    · rw [hentries, List.map_cons, List.append_assoc]
      rfl

/-- The state right after a list with items, or after any other entry. -/
def AfterList (s : FrontmatterState) : Prop :=
  ∀ index, s.activeListIndex = some index →
    ∃ entries key items, s.entries = entries ++ [⟨key, .sequence items⟩] ∧ index = entries.length

/-- An entry that was read stays in its place. -/
theorem decodeEntry_last {entries es : List FrontmatterEntry} {e : FrontmatterEntry} {before after : Mapping φ}
    {item : String × FrontmatterValue φ} (h : EntriesExtend (entries ++ [e]) es)
    (hread : es.map (decodeEntry floats) = before ++ item :: after) (hlen : before.length = entries.length) :
    ∃ w, e.value.Extends w ∧ valueFromTag floats w = item.2 := by
  obtain ⟨es₁, e', es₂, rfl, hlen', hextends⟩ := h.last
  rw [List.map_append, List.map_cons] at hread
  obtain ⟨-, htail⟩ := List.append_inj hread (by rw [List.length_map, hlen', hlen])
  refine ⟨e'.value, hextends.2, ?_⟩
  have hhead := (List.cons.inj htail).1
  exact congrArg Prod.snd hhead

theorem renderFrontmatterValue_first (floats : Floats φ) (key : String) (value : FrontmatterValue φ) :
    ∃ r more, renderFrontmatterValue floats key value = (key.toList ++ ':' :: r) :: more := by
  cases value with
  | scalar value => exact ⟨' ' :: yamlScalar floats value, [], rfl⟩
  | list items =>
    cases items with
    | nil => exact ⟨" []".toList, [], rfl⟩
    | cons item items => exact ⟨[], _, rfl⟩

/-- A dash at the start of a key line spoils the list before it. -/
theorem dash_spoils {s s' : FrontmatterState} {entries : List FrontmatterEntry} {key : String}
    {old : List Native.FrontmatterScalar} {rest r : List Char} {lines : List (List Char)} {after : Mapping φ}
    (hentries : s.entries = entries ++ [⟨key, .sequence old⟩]) (hactive : s.activeListIndex = some entries.length)
    (hparse : parseLinesFrom s (('-' :: rest ++ ':' :: r) :: lines) = .ok s')
    (hread : s'.entries.map (decodeEntry floats) = s.entries.map (decodeEntry floats) ++ after) : False := by
  have hstripped : trimmed ('-' :: rest ++ ':' :: r) = '-' :: (rest ++ ':' :: r).rdropWhile isWhitespace :=
    trimBy_cons_neg (by decide)
  obtain ⟨next, hnext, hlater⟩ := parseLinesFrom_cons hparse
  rw [line_item hactive hstripped, hentries, modify_last, FrontmatterEntry.push] at hnext
  cases hnext
  have hextends := parseLinesFrom_extends hlater
  rw [hentries, List.map_append, List.append_assoc] at hread
  obtain ⟨w, hw, hvalue⟩ := decodeEntry_last hextends hread (List.length_map _)
  cases hw with
  | same =>
    have hlen := congrArg List.length (FrontmatterValue.list.inj hvalue)
    simp only [List.length_map, List.length_append, List.length_singleton] at hlen
    omega
  | more _ added =>
    have hlen := congrArg List.length (FrontmatterValue.list.inj hvalue)
    simp only [List.length_map, List.length_append, List.length_singleton] at hlen
    omega

/-- A mapping that was read back follows. -/
theorem follows_of_parse {s s' : FrontmatterState} {items : Mapping φ} {active : Bool} (hreads : Reads s items)
    (hactive : s.activeListIndex.isSome = active) (hlist : AfterList s)
    (hparse : parseLinesFrom s (renderedLines floats items) = .ok s')
    (hread : s'.entries.map (decodeEntry floats) = s.entries.map (decodeEntry floats) ++ items) :
    Follows active items := by
  induction items generalizing s active with
  | nil => trivial
  | cons item items ih =>
    have hkey := hreads.keys item List.mem_cons_self
    have hexact := hreads.exact item List.mem_cons_self
    unfold renderedLines at hparse
    rw [List.flatMap_cons] at hparse
    have hdash : s.activeListIndex.isSome = true → startsWithDash item.1 = false := by
      intro hsome
      by_contra hstarts
      obtain ⟨index, hindex⟩ := Option.isSome_iff_exists.mp hsome
      obtain ⟨entries, key, old, hentries, rfl⟩ := hlist index hindex
      obtain ⟨r, more, hfirst⟩ := renderFrontmatterValue_first floats item.1 item.2
      obtain ⟨c, rest, hcons, -⟩ := hkey.first
      have hc : c = '-' := by
        unfold startsWithDash at hstarts
        rw [hcons] at hstarts
        simpa using hstarts
      rw [hfirst, hcons, hc] at hparse
      exact dash_spoils hentries hindex hparse hread
    rw [parseLinesFrom_entry hkey (hreads.fresh item List.mem_cons_self) hdash] at hparse
    have hsettled : ∀ x ∈ item.2.scalars, Settled x := by
      obtain ⟨w, hw, hvalue⟩ := decodeEntry_last (parseLinesFrom_extends hparse) hread (List.length_map _)
      exact settled_of_extends hexact hw hvalue
    have hnext := activeAfter_settled floats s.entries.length hexact hsettled
    refine ⟨fun h => hdash (hactive ▸ h), hsettled, ?_⟩
    refine ih (hreads.next _ _) ?_ ?_ hparse ?_
    · rw [hnext]
      cases item.2.isBlock <;> rfl
    · intro index hindex
      rw [hnext] at hindex
      cases hvalue : item.2 with
      | scalar value =>
        rw [hvalue] at hindex
        cases hindex
      | list values =>
        refine ⟨s.entries, item.1, _, rfl, ?_⟩
        split at hindex
        · exact (Option.some.inj hindex).symm
        · simp at hindex
    · rw [hread, List.map_append, List.append_assoc]
      show _ = s.entries.map (decodeEntry floats) ++ ((item.1, valueFromTag floats (reread floats item.2)) :: items)
      rw [valueFromTag_reread hexact hsettled]

theorem follows_iff {items : Mapping φ} {active : Bool} : Follows active items ↔
    (∀ item ∈ items, ∀ x ∈ item.2.scalars, Settled x) ∧
      (∀ item ∈ items.head?, active = true → startsWithDash item.1 = false) ∧
        items.IsChain fun item next => item.2.isBlock = true → startsWithDash next.1 = false := by
  induction items generalizing active with
  | nil => simp [Follows]
  | cons item items ih =>
    rw [Follows, ih, List.isChain_cons, List.forall_mem_cons, List.head?_cons]
    constructor
    · rintro ⟨hdash, hsettled, hrest, hhead, hchain⟩
      exact ⟨⟨hsettled, hrest⟩, fun i hi => by cases hi; exact hdash, fun next hnext => hhead next hnext, hchain⟩
    · rintro ⟨⟨hsettled, hrest⟩, hdash, hhead, hchain⟩
      exact ⟨hdash item rfl, hsettled, hrest, fun next hnext => hhead next hnext, hchain⟩

/-! ## Documents -/

theorem renderFrontmatterValue_all {P : Char → Prop} (hmarks : ∀ c ∈ [':', ' ', '-', '[', ']'], P c) {key : String}
    {value : FrontmatterValue φ} (hkey : ∀ c ∈ key.toList, P c)
    (hscalar : ∀ x ∈ value.scalars, ∀ c ∈ yamlScalar floats x, P c) :
    ∀ l ∈ renderFrontmatterValue floats key value, ∀ c ∈ l, P c := by
  have happend : ∀ {a b : List Char}, (∀ c ∈ a, P c) → (∀ c ∈ b, P c) → ∀ c ∈ a ++ b, P c := by
    intro a b ha hb c hc
    obtain hc | hc := List.mem_append.mp hc
    · exact ha c hc
    · exact hb c hc
  have hconstant : ∀ {text : List Char}, (∀ c ∈ text, c ∈ [':', ' ', '-', '[', ']']) → ∀ c ∈ text, P c :=
    fun hsub c hc => hmarks c (hsub c hc)
  intro l hl
  cases value with
  | scalar value =>
    rw [List.mem_singleton.mp hl]
    refine happend hkey (happend ?_ (hscalar value (List.mem_singleton.mpr rfl)))
    exact hconstant (forall_mem_of_all (by decide))
  | list items =>
    cases items with
    | nil =>
      rw [List.mem_singleton.mp hl]
      exact happend hkey (hconstant (forall_mem_of_all (by decide)))
    | cons item items =>
      obtain rfl | hl := List.mem_cons.mp hl
      · exact happend hkey (hconstant (forall_mem_of_all (by decide)))
      · obtain ⟨x, hx, rfl⟩ := List.mem_map.mp hl
        exact happend (hconstant (forall_mem_of_all (by decide))) (hscalar x hx)

theorem renderFrontmatterValue_oneLine {key : String} {value : FrontmatterValue φ} (hkey : OneLine key.toList)
    (hscalar : ∀ x ∈ value.scalars, OneLine (yamlScalar floats x)) : ∀ l ∈ renderFrontmatterValue floats key value, OneLine l :=
  renderFrontmatterValue_all (forall_mem_of_all (by decide)) hkey hscalar

/-- What holds of the constant characters, of a key and of its texts holds of their lines. -/
theorem renderedLine_all {P : Char → Prop} (hmarks : ∀ c ∈ [':', ' ', '-', '[', ']'] ++ scalarChars, P c) {key : String}
    {value : FrontmatterValue φ} (hkey : ∀ c ∈ key.toList, P c) (hexact : ∀ x ∈ value.scalars, x.Exact)
    (htexts : ∀ text, .str text ∈ value.scalars → ∀ c ∈ text.toList, P c) :
    ∀ l ∈ renderFrontmatterValue floats key value, ∀ c ∈ l, P c := by
  refine renderFrontmatterValue_all (fun c hc => hmarks c (List.mem_append_left _ hc)) hkey ?_
  intro x hx
  refine yamlScalar_all (fun c hc => hmarks c (List.mem_append_right _ hc)) (hexact x hx) ?_
  rintro text rfl
  exact htexts text hx

theorem renderedLine_oneLine {key : String} {value : FrontmatterValue φ} (hkey : ValidKey key)
    (hexact : ∀ x ∈ value.scalars, x.Exact) (htexts : ∀ text, .str text ∈ value.scalars → OneLine text.toList) :
    ∀ l ∈ renderFrontmatterValue floats key value, OneLine l :=
  renderedLine_all (forall_mem_of_all (by decide)) hkey.oneLine hexact htexts

theorem renderedLine_inside {key : String} {value : FrontmatterValue φ} :
    ∀ l ∈ renderFrontmatterValue floats key value, trimmed l ≠ delimiter := by
  have hcolon : ∀ l, ':' ∈ l → trimmed l ≠ delimiter := by
    intro l hl heq
    have hmem : ':' ∈ trimmed l := mem_trimBy hl (by decide)
    rw [heq] at hmem
    exact absurd hmem (by decide)
  intro l hl
  cases value with
  | scalar value =>
    rw [List.mem_singleton.mp hl]
    exact hcolon _ (List.mem_append_right _ List.mem_cons_self)
  | list items =>
    cases items with
    | nil =>
      rw [List.mem_singleton.mp hl]
      exact hcolon _ (List.mem_append_right _ List.mem_cons_self)
    | cons item items =>
      obtain rfl | hl := List.mem_cons.mp hl
      · exact hcolon _ (List.mem_append_right _ List.mem_cons_self)
      · obtain ⟨x, -, rfl⟩ := List.mem_map.mp hl
        rw [trimmed_item]
        intro heq
        -- what follows the dash starts with a blank, if anything does
        have htail : (' ' :: yamlScalar floats x).rdropWhile isWhitespace = ['-', '-'] := (List.cons.inj heq).2
        have hprefix := List.rdropWhile_prefix isWhitespace (' ' :: yamlScalar floats x)
        rw [htail] at hprefix
        exact absurd (List.cons_prefix_cons.mp hprefix).1 (by decide)

/-- The block between two delimiters is what is parsed. -/
theorem analyzeDocument_block {lines : List (List Char)} (hlines : ∀ l ∈ lines, OneLine l)
    (hinside : ∀ l ∈ lines, trimmed l ≠ delimiter) (rest : List Char) :
    (analyzeDocument (['\n'].intercalate (delimiter :: (lines ++ [delimiter])) ++ '\n' :: rest)).map
        DocumentAnalysis.frontmatter =
      (parseLinesFrom ⟨[], [], none⟩ lines).map FrontmatterState.entries := by
  have hdelimiter : OneLine delimiter := oneLine_of_all (by decide)
  have hall : ∀ l ∈ delimiter :: (lines ++ [delimiter]), OneLine l := by
    intro l hl
    obtain rfl | hl := List.mem_cons.mp hl
    · exact hdelimiter
    · obtain hl | hl := List.mem_append.mp hl
      · exact hlines l hl
      · rw [List.mem_singleton.mp hl]
        exact hdelimiter
  obtain ⟨split, j, htexts, hsplit⟩ := splitFrom_lines hall 0 rest
  obtain ⟨opening, split', rfl, hopening, hrest⟩ := List.map_eq_cons_iff.mp htexts
  obtain ⟨content, last, rfl, hcontent, hlast⟩ := List.map_eq_append_iff.mp hrest
  obtain ⟨closing, rfl, hclosing⟩ := List.map_eq_singleton_iff.mp hlast
  have hopens : isDelimiter opening = true := by
    unfold isDelimiter
    rw [hopening]
    decide
  have hcloses : isDelimiter closing = true := by
    unfold isDelimiter
    rw [hclosing]
    decide
  have hbetween : ∀ l ∈ content, (!isDelimiter l) = true := by
    intro l hl
    have hmem : l.text ∈ lines := by
      rw [← hcontent]
      exact List.mem_map_of_mem hl
    have hne := hinside l.text hmem
    unfold isDelimiter
    simpa using hne
  have hwhile := takeWhile_append_cons (p := fun l => !isDelimiter l) (b := splitFrom j j [] rest) hbetween
    (by rw [hcloses]; rfl : (!isDelimiter closing) = false)
  have hlogical : splitLogicalLines (['\n'].intercalate (delimiter :: (lines ++ [delimiter])) ++ '\n' :: rest) =
      opening :: (content ++ closing :: splitFrom j j [] rest) := by
    unfold splitLogicalLines
    rw [intercalate_newline, hsplit]
    simp
  unfold analyzeDocument
  rw [hlogical]
  simp only
  rw [if_pos hopens, hwhile.1, hwhile.2]
  simp only
  unfold parseFrontmatterLines
  rw [hcontent]
  cases parseLinesFrom ⟨[], [], none⟩ lines with
  | error e => rfl
  | ok s => rfl

/-- The entries of a document are parsed from lines without a line break. -/
theorem analyzeDocument_lines {text : List Char} {analysis : DocumentAnalysis} (h : analyzeDocument text = .ok analysis) :
    analysis.frontmatter = [] ∨ ∃ lines s, (∀ l ∈ lines, OneLine l) ∧ parseLinesFrom ⟨[], [], none⟩ lines = .ok s ∧
      analysis.frontmatter = s.entries := by
  have hsplit : ∀ l ∈ splitLogicalLines text, OneLine l.text := splitFrom_oneLine fun c hc => absurd hc List.not_mem_nil
  unfold analyzeDocument at h
  split at h
  · cases h
    exact .inl rfl
  · rename_i opening rest hlines
    split at h
    · simp only at h
      split at h
      · simp at h
      · split at h
        · simp at h
        · rename_i entries hentries
          cases h
          unfold parseFrontmatterLines at hentries
          cases hparse : parseLinesFrom ⟨[], [], none⟩
              ((rest.takeWhile fun line => !isDelimiter line).map LogicalLine.text) with
          | error e =>
            rw [hparse] at hentries
            cases hentries
          | ok s =>
            rw [hparse] at hentries
            cases hentries
            refine .inr ⟨_, s, ?_, hparse, rfl⟩
            intro l hl
            obtain ⟨line, hline, rfl⟩ := List.mem_map.mp hl
            apply hsplit
            rw [hlines]
            exact List.mem_cons_of_mem opening ((List.takeWhile_prefix _).mem hline)
    · cases h
      exact .inl rfl

/-- Nothing that is read from a document has a line break. -/
theorem analyzeDocument_oneLine {text : List Char} {analysis : DocumentAnalysis}
    (h : analyzeDocument text = .ok analysis) : EntriesOf (fun c => isLineBreak c = false) analysis.frontmatter := by
  have hnone : EntriesOf (fun c => isLineBreak c = false) [] := fun e he => absurd he List.not_mem_nil
  obtain hnil | ⟨lines, s, hlines, hparse, hentries⟩ := analyzeDocument_lines h
  · rw [hnil]
    exact hnone
  · rw [hentries]
    exact parseLinesFrom_chars hparse hnone hlines

theorem analyzeDocument_keys {text : List Char} {analysis : DocumentAnalysis} (h : analyzeDocument text = .ok analysis) :
    ∀ e ∈ analysis.frontmatter, OneLine e.key.toList := by
  obtain hnil | ⟨lines, s, hlines, hparse, hentries⟩ := analyzeDocument_lines h
  · rw [hnil]
    exact fun e he => absurd he List.not_mem_nil
  · rw [hentries]
    exact parseLinesFrom_keys hparse (fun e he => absurd he List.not_mem_nil) hlines

theorem decodeNativeFrontmatterEntries_ok {acc frontmatter : Mapping φ} {entries : List FrontmatterEntry}
    (h : decodeNativeFrontmatterEntries floats acc entries = .ok frontmatter) :
    frontmatter = acc ++ entries.map (decodeEntry floats) := by
  induction entries generalizing acc with
  | nil =>
    cases h
    exact (List.append_nil _).symm
  | cons e entries ih =>
    rw [decodeNativeFrontmatterEntries] at h
    split_ifs at h
    rw [ih h, List.append_assoc]
    rfl

theorem decodeNativeFrontmatterEntries_of {acc : Mapping φ} {entries : List FrontmatterEntry}
    (hnonempty : ∀ e ∈ entries, e.key ≠ "") (hdistinct : (acc.map Prod.fst ++ entries.map FrontmatterEntry.key).Nodup) :
    decodeNativeFrontmatterEntries floats acc entries = .ok (acc ++ entries.map (decodeEntry floats)) := by
  induction entries generalizing acc with
  | nil => rw [List.map_nil, List.append_nil]; rfl
  | cons e entries ih =>
    have hfresh : e.key ∉ acc.map Prod.fst := by
      intro hmem
      exact List.disjoint_of_nodup_append hdistinct hmem List.mem_cons_self
    rw [decodeNativeFrontmatterEntries, if_neg (hnonempty e List.mem_cons_self), if_neg hfresh, ih, List.append_assoc]
    · rfl
    · exact fun d hd => hnonempty d (List.mem_cons_of_mem e hd)
    · rw [List.map_append, List.append_assoc]
      exact hdistinct

theorem parseMarkdownDocument_ok {text : List Char} {document : MarkdownDocument φ}
    (h : parseMarkdownDocument floats text = .ok document) :
    byteLength text ≤ maxDocumentBytes ∧ ∃ analysis, analyzeDocument text = .ok analysis ∧
      document.frontmatter = analysis.frontmatter.map (decodeEntry floats) := by
  unfold parseMarkdownDocument analyzeInput at h
  split at h
  · simp at h
  · rename_i analysis hanalysis
    split at hanalysis
    · simp at hanalysis
    · rename_i hsize
      split at h
      · simp at h
      · rename_i frontmatter hdecode
        cases h
        have hfrontmatter := decodeNativeFrontmatterEntries_ok hdecode
        rw [List.nil_append] at hfrontmatter
        exact ⟨Nat.le_of_not_lt hsize, analysis, hanalysis, hfrontmatter⟩

/-- A text that was read back is one line. -/
theorem oneLine_of_decode {entries : List FrontmatterEntry} {items : Mapping φ}
    (hentries : EntriesOf (fun c => isLineBreak c = false) entries) (h : entries.map (decodeEntry floats) = items) :
    ∀ item ∈ items, ∀ text, .str text ∈ item.2.scalars → OneLine text.toList := by
  intro item hitem text htext
  rw [← h] at hitem
  obtain ⟨e, he, rfl⟩ := List.mem_map.mp hitem
  have hnative : ∃ x ∈ e.value.scalars, scalarFromTag floats x = .str text := by
    unfold decodeEntry at htext
    cases hvalue : e.value with
    | scalar x =>
      rw [hvalue] at htext
      exact ⟨x, List.mem_singleton.mpr rfl, (List.mem_singleton.mp htext).symm⟩
    | sequence xs =>
      rw [hvalue] at htext
      exact List.mem_map.mp htext
  obtain ⟨x, hx, hread⟩ := hnative
  cases x with
  | string result =>
    have hresult : result = text := by
      cases hread
      rfl
    have hchars := hentries e he _ hx
    rw [← hresult]
    exact hchars
  | integer lexeme => cases hread
  | float lexeme => cases hread
  | boolean b => cases hread
  | null => cases hread

theorem reads_start (frontmatter : ExactFrontmatter φ) : Reads ⟨[], [], none⟩ frontmatter.items where
  keys := frontmatter.keys
  distinct := frontmatter.distinct
  fresh := fun _ _ hmem => (nomatch hmem)
  exact := frontmatter.exact

theorem analyzeDocument_rendered (floats : Floats φ) {frontmatter : ExactFrontmatter φ} (body : String)
    (htexts : ∀ item ∈ frontmatter.items, ∀ text, .str text ∈ item.2.scalars → OneLine text.toList) :
    (analyzeDocument (renderMarkdownDocument floats frontmatter.items body)).map DocumentAnalysis.frontmatter =
      (parseLinesFrom ⟨[], [], none⟩ (renderedLines floats frontmatter.items)).map FrontmatterState.entries := by
  apply analyzeDocument_block
  · intro l hl
    obtain ⟨item, hitem, hl⟩ := List.mem_flatMap.mp hl
    exact renderedLine_oneLine (frontmatter.keys item hitem) (frontmatter.exact item hitem) (htexts item hitem) l hl
  · intro l hl
    obtain ⟨item, -, hl⟩ := List.mem_flatMap.mp hl
    exact renderedLine_inside l hl

/-- A mapping without dashes at the start of its keys is read entry by entry, whatever becomes of its values. -/
theorem parseLinesFrom_reread (floats : Floats φ) {s : FrontmatterState} {items : Mapping φ} (hreads : Reads s items)
    (hdash : ∀ item ∈ items, startsWithDash item.1 = false) :
    ∃ s', parseLinesFrom s (renderedLines floats items) = .ok s' ∧
      s'.entries = s.entries ++ items.map fun item => ⟨item.1, reread floats item.2⟩ := by
  induction items generalizing s with
  | nil => exact ⟨s, rfl, (List.append_nil _).symm⟩
  | cons item items ih =>
    obtain ⟨s', hparse, hentries⟩ := ih (hreads.next (s.entries ++ [⟨item.1, reread floats item.2⟩])
      (activeAfter floats s.entries.length item.2)) fun other hother => hdash other (List.mem_cons_of_mem item hother)
    refine ⟨s', ?_, ?_⟩
    · unfold renderedLines at hparse ⊢
      rw [List.flatMap_cons, parseLinesFrom_entry (hreads.keys item List.mem_cons_self)
        (hreads.fresh item List.mem_cons_self) fun _ => hdash item List.mem_cons_self]
      exact hparse
    · rw [hentries, List.map_cons, List.append_assoc]
      rfl

/-- What the frontmatter of a rendered block is read as, whatever follows the block. -/
theorem analyzeDocument_reread (floats : Floats φ) {frontmatter : ExactFrontmatter φ}
    (htexts : ∀ item ∈ frontmatter.items, ∀ text, .str text ∈ item.2.scalars → OneLine text.toList)
    (hdash : ∀ item ∈ frontmatter.items, startsWithDash item.1 = false) {rest : List Char} {analysis : DocumentAnalysis}
    (h : analyzeDocument (['\n'].intercalate (delimiter :: (renderedLines floats frontmatter.items ++ [delimiter])) ++
      '\n' :: rest) = .ok analysis) :
    analysis.frontmatter = frontmatter.items.map fun item => ⟨item.1, reread floats item.2⟩ := by
  have hlines : ∀ l ∈ renderedLines floats frontmatter.items, OneLine l := by
    intro l hl
    obtain ⟨item, hitem, hl⟩ := List.mem_flatMap.mp hl
    exact renderedLine_oneLine (frontmatter.keys item hitem) (frontmatter.exact item hitem) (htexts item hitem) l hl
  have hinside : ∀ l ∈ renderedLines floats frontmatter.items, trimmed l ≠ delimiter := by
    intro l hl
    obtain ⟨item, -, hl⟩ := List.mem_flatMap.mp hl
    exact renderedLine_inside l hl
  have hblock := analyzeDocument_block hlines hinside rest
  obtain ⟨s, hparse, hentries⟩ := parseLinesFrom_reread floats (reads_start frontmatter) hdash
  rw [h, hparse] at hblock
  rw [show analysis.frontmatter = s.entries from Except.ok.inj hblock, hentries]
  rfl

/-- Renderable frontmatter is read back, if the native parser takes the document. -/
theorem roundTrips_of_renderable (floats : Floats φ) (frontmatter : ExactFrontmatter φ) (body : String)
    (h : Renderable frontmatter.items)
    (hsize : byteLength (renderMarkdownDocument floats frontmatter.items body) ≤ maxDocumentBytes) :
    RoundTrips floats frontmatter.items body := by
  obtain ⟨htexts, hchain⟩ := h
  have hblock := analyzeDocument_rendered floats body fun item hitem text htext =>
    (htexts item hitem text htext).1
  have hsettled : ∀ item ∈ frontmatter.items, ∀ x ∈ item.2.scalars, Settled x := by
    rintro item hitem x hx text rfl
    exact (htexts item hitem text hx).2
  have hfollows : Follows false frontmatter.items :=
    follows_iff.mpr ⟨hsettled, fun item _ h => (nomatch h), hchain⟩
  obtain ⟨s, hparse, hentries⟩ := parseLinesFrom_follows floats (reads_start frontmatter) rfl hfollows
  rw [hparse] at hblock
  cases hanalysis : analyzeDocument (renderMarkdownDocument floats frontmatter.items body) with
  | error e =>
    rw [hanalysis] at hblock
    cases hblock
  | ok analysis =>
    rw [hanalysis] at hblock
    have hread : analysis.frontmatter = frontmatter.items.map fun item => ⟨item.1, reread floats item.2⟩ :=
      (Except.ok.inj hblock).trans hentries
    have hkeys : (analysis.frontmatter.map FrontmatterEntry.key) = frontmatter.items.map Prod.fst := by
      rw [hread, List.map_map]
      rfl
    have hdecode : decodeNativeFrontmatterEntries floats [] analysis.frontmatter = .ok frontmatter.items := by
      rw [decodeNativeFrontmatterEntries_of]
      · rw [hread, List.map_map]
        congr 1
        calc frontmatter.items.map (decodeEntry floats ∘ fun item => ⟨item.1, reread floats item.2⟩)
            = frontmatter.items.map id := by
              apply List.map_congr_left
              intro item hitem
              show (item.1, valueFromTag floats (reread floats item.2)) = item
              rw [valueFromTag_reread (frontmatter.exact item hitem) (hsettled item hitem)]
          _ = frontmatter.items := List.map_id _
      · intro e he
        rw [hread] at he
        obtain ⟨item, hitem, rfl⟩ := List.mem_map.mp he
        exact (frontmatter.keys item hitem).nonempty
      · rw [List.map_nil, List.nil_append, hkeys]
        exact frontmatter.distinct
    refine ⟨⟨frontmatter.items, String.ofList analysis.body⟩, ?_, rfl⟩
    unfold parseMarkdownDocument analyzeInput
    rw [if_neg (Nat.not_lt.mpr hsize), hanalysis]
    simp only
    rw [hdecode]

end Entries

/-! ## A text of two lines -/

def lexemeFloats : Floats String := ⟨id, id⟩

def twoLines : ExactFrontmatter String where
  items := [("title", .scalar (.str "first\nsecond"))]
  keys := by
    intro item hitem
    rw [List.mem_singleton.mp hitem]
    exact ⟨by decide, by decide, by decide, oneLine_of_all (by decide), by decide⟩
  distinct := by decide
  exact := by
    intro item hitem value hvalue x
    rw [List.mem_singleton.mp hitem] at hvalue
    rw [List.mem_singleton.mp hvalue]
    exact fun h => (nomatch h)

end Alexandria.Markdown
