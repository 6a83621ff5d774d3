import Alexandria.Notes.ReadBack
import Alexandria.Notes.ScalarUpdate
import Mathlib.Algebra.Order.BigOperators.Group.List

/-! # Rendered documents by their fields

The size of a rendered document is bounded by the sizes of its fields, the fields are read back when their texts are checked,
and an update of scalars renders the updated fields. No line has to be rendered for this.
-/

namespace Alexandria.Notes
set_option autoImplicit false
open Text
open Markdown (FrontmatterScalar FrontmatterValue Mapping Floats PlainKey yamlText yamlScalar renderFrontmatterValue
  renderMarkdownDocument renderedLines scalarChars)
open Markdown.Native (byteLength byteLength_cons byteLength_append OneLine oneLine_of_all trimmed delimiter splitOnce)

variable {φ : Type}

/-! ## The size -/

theorem byteLength_flatMap {α : Type} (items : List α) (f : α → List Char) :
    byteLength (items.flatMap f) = (items.map fun item => byteLength (f item)).sum := by
  induction items with
  | nil => rfl
  | cons item items ih => rw [List.flatMap_cons, byteLength_append, ih, List.map_cons, List.sum_cons]

theorem byteLength_yamlText_le (value : List Char) : byteLength (yamlText value) ≤ 2 * byteLength value + 2 := by
  have hdoubled : byteLength (Markdown.doubleQuotes value) ≤ 2 * byteLength value := by
    unfold Markdown.doubleQuotes
    induction value with
    | nil => exact Nat.le_refl 0
    | cons c value ih =>
      rw [List.flatMap_cons, byteLength_append, byteLength_cons]
      have hc : byteLength (if c = '\'' then ['\'', '\''] else [c]) ≤ 2 * c.utf8Size := by
        split
        · rename_i hquote
          rw [hquote]
          decide
        · show c.utf8Size + 0 ≤ 2 * c.utf8Size
          omega
      omega
  unfold yamlText
  split
  · omega
  · have hquote : byteLength ['\''] = 1 := by decide
    rw [byteLength_cons, byteLength_append, hquote]
    have hsize : '\''.utf8Size = 1 := by decide
    omega

theorem byteLength_toList (text : String) : byteLength text.toList = text.utf8ByteSize := by
  have hlist : ∀ l : List Char, (String.ofList l).utf8ByteSize = byteLength l := by
    intro l
    induction l with
    | nil => rfl
    | cons c l ih => rw [String.ofList_cons, String.utf8ByteSize_append, String.utf8ByteSize_singleton, ih, byteLength_cons]
  rw [← hlist, String.ofList_toList]

section Size
variable (floats : Floats φ)

/-- A bound on the size of a rendered scalar. -/
def scalarSize : FrontmatterScalar φ → ℕ
  | .str text => 2 * text.utf8ByteSize + 2
  | value => byteLength (yamlScalar floats value)

def itemSize (item : String × FrontmatterValue φ) : ℕ :=
  item.1.utf8ByteSize + 5 + (item.2.scalars.map fun x => scalarSize floats x + 5).sum

theorem byteLength_yamlScalar_le (value : FrontmatterScalar φ) : byteLength (yamlScalar floats value) ≤ scalarSize floats value := by
  cases value with
  | str text =>
    have hsize := byteLength_yamlText_le text.toList
    rw [byteLength_toList] at hsize
    exact hsize
  | none => exact Nat.le_refl _
  | bool value => exact Nat.le_refl _
  | int n => exact Nat.le_refl _
  | float x => exact Nat.le_refl _

variable {floats}

theorem byteLength_item_le (item : String × FrontmatterValue φ) :
    byteLength ((renderFrontmatterValue floats item.1 item.2).flatMap fun l => l ++ ['\n']) ≤ itemSize floats item := by
  obtain ⟨key, value⟩ := item
  have hnewline : byteLength ['\n'] = 1 := by decide
  cases value with
  | scalar value =>
    have hvalue := byteLength_yamlScalar_le floats value
    have hmark : byteLength ": ".toList = 2 := by decide
    have hsum : itemSize floats (key, .scalar value) = key.utf8ByteSize + 5 + (scalarSize floats value + 5 + 0) := rfl
    show byteLength ([key.toList ++ (": ".toList ++ yamlScalar floats value)].flatMap fun l => l ++ ['\n']) ≤ _
    rw [List.flatMap_cons, List.flatMap_nil, List.append_nil, byteLength_append, byteLength_append, byteLength_append, hnewline,
      hmark, byteLength_toList, hsum]
    omega
  | list items =>
    cases items with
    | nil =>
      have hmark : byteLength ": []".toList = 4 := by decide
      have hsum : itemSize floats (key, .list []) = key.utf8ByteSize + 5 + 0 := rfl
      unfold renderFrontmatterValue
      rw [List.flatMap_cons, List.flatMap_nil, List.append_nil, byteLength_append, byteLength_append, hnewline, hmark, byteLength_toList,
        hsum]
    | cons first rest =>
      have hmark : byteLength [':'] = 1 := by decide
      have hdash : byteLength "  - ".toList = 4 := by decide
      have hitems : ((first :: rest).map fun x => byteLength (("  - ".toList ++ yamlScalar floats x) ++ ['\n'])).sum ≤
          ((first :: rest).map fun x => scalarSize floats x + 5).sum := by
        apply List.sum_le_sum
        intro x _
        have hx := byteLength_yamlScalar_le floats x
        rw [byteLength_append, byteLength_append, hnewline, hdash]
        omega
      have hsum : itemSize floats (key, .list (first :: rest)) =
          key.utf8ByteSize + 5 + ((first :: rest).map fun x => scalarSize floats x + 5).sum := rfl
      show byteLength (((key.toList ++ [':']) :: (first :: rest).map fun x => "  - ".toList ++ yamlScalar floats x).flatMap
        fun l => l ++ ['\n']) ≤ _
      rw [List.flatMap_cons, byteLength_append, byteLength_append, byteLength_append, List.flatMap_map, byteLength_flatMap, hnewline,
        hmark, byteLength_toList, hsum]
      omega

theorem byteLength_renderMarkdownDocument_le (items : Mapping φ) (body : String) :
    byteLength (renderMarkdownDocument floats items body) ≤ (items.map (itemSize floats)).sum + body.utf8ByteSize + 11 := by
  obtain ⟨newlines, hsplit⟩ := List.rdropWhile_prefix (· = '\n') body.toList
  have hfront := congrArg byteLength hsplit
  rw [byteLength_append, byteLength_toList] at hfront
  have hlines : byteLength ((renderedLines floats items).flatMap fun l => l ++ ['\n']) ≤ (items.map (itemSize floats)).sum := by
    unfold renderedLines
    rw [List.flatMap_assoc, byteLength_flatMap]
    exact List.sum_le_sum fun item _ => byteLength_item_le item
  have hdelimiter : byteLength delimiter = 3 := by decide
  have hnewline : '\n'.utf8Size + byteLength [] = 1 := by decide
  have hsize : '\n'.utf8Size = 1 := by decide
  have hparts : renderMarkdownDocument floats items body = (delimiter ++ ['\n']) ++
      (((renderedLines floats items).flatMap fun l => l ++ ['\n']) ++ ((delimiter ++ ['\n']) ++
        ('\n' :: (body.toList.rdropWhile (· = '\n') ++ ['\n'])))) := by
    unfold renderMarkdownDocument
    simp only
    rw [Markdown.Native.intercalate_newline]
    simp [renderedLines]
  simp only [hparts, byteLength_append, byteLength_cons]
  omega

end Size

/-! ## Redaction that changes nothing -/

/-- A name without a word of a secret, checked by its bytes. -/
def isClearName (name : String) : Bool :=
  isLowerName name && name ≠ "secret_values_recorded" &&
    secretFieldWords.all fun word => !decide (Ascii.bytes word <:+: Ascii.bytes name)

theorem caselessText_lower {name : String} (h : isLowerName name = true) : caselessText name = name := by
  have hchars : ∀ c ∈ name.toList, caseless c = c := by
    intro c hc
    have hmem := List.all_eq_true.mp ((Bool.and_eq_true _ _).mp (isFieldName_of_lower h)).2 c hc
    have hall : ∀ c ∈ fieldChars, caseless c = c := forall_mem_of_all (by decide)
    exact hall c (by simpa using hmem)
  unfold caselessText
  rw [List.map_congr_left hchars, List.map_id', String.ofList_toList]

theorem isSecretFieldName_of_clear {name : String} (h : isClearName name = true) : isSecretFieldName name = false := by
  obtain ⟨hname, hwords⟩ := (Bool.and_eq_true _ _).mp h
  unfold isSecretFieldName
  rw [caselessText_lower ((Bool.and_eq_true _ _).mp hname).1, List.any_eq_false]
  intro word hword
  have hbytes := List.all_eq_true.mp hwords word hword
  rw [Bool.not_eq_true', decide_eq_false_iff_not] at hbytes
  rw [decide_eq_true_eq]
  exact fun hinfix => hbytes (Ascii.bytes_infix hinfix)

mutual

/-- No mapping in the value has the name of a secret. -/
def hasClearNames : JsonValue φ → Bool
  | .list items => clearItems items
  | .object fields => clearFields fields
  | _ => true

def clearItems : List (JsonValue φ) → Bool
  | [] => true
  | item :: items => hasClearNames item && clearItems items

def clearFields : List (String × JsonValue φ) → Bool
  | [] => true
  | (fieldName, item) :: fields => isClearName fieldName && hasClearNames item && clearFields fields

end

section Clear
variable {redactSecretText : String → SecretRedaction}

mutual

theorem redactedJson_clear (hclear : ∀ text, redactSecretText text = ⟨false, text, []⟩) :
    ∀ value : JsonValue φ, hasClearNames value = true →
      redactedJson redactSecretText value = .ok (value, [])
  | .str text, _ => by rw [redactedJson, hclear]; rfl
  | .list items, h => by rw [redactedJson, redactedSequence_clear hclear items h]; rfl
  | .object fields, h => by rw [redactedJson, redactedMapping_clear hclear fields h]; rfl
  | .null, _ => by rw [redactedJson] <;> simp
  | .bool _, _ => by rw [redactedJson] <;> simp
  | .int _, _ => by rw [redactedJson] <;> simp
  | .float _, _ => by rw [redactedJson] <;> simp

theorem redactedSequence_clear (hclear : ∀ text, redactSecretText text = ⟨false, text, []⟩) :
    ∀ items : List (JsonValue φ), clearItems items = true →
      redactedSequence redactSecretText items = .ok (items, [])
  | [], _ => by rw [redactedSequence]
  | item :: items, h => by
    obtain ⟨hitem, hitems⟩ := (Bool.and_eq_true _ _).mp h
    rw [redactedSequence, redactedJson_clear hclear item hitem, redactedSequence_clear hclear items hitems]
    rfl

theorem redactedMapping_clear (hclear : ∀ text, redactSecretText text = ⟨false, text, []⟩) :
    ∀ fields : List (String × JsonValue φ), clearFields fields = true →
      redactedMapping redactSecretText fields = .ok (fields, [])
  | [], _ => by rw [redactedMapping]
  | (fieldName, item) :: fields, h => by
    obtain ⟨hfirst, hfields⟩ := (Bool.and_eq_true _ _).mp h
    obtain ⟨hname, hitem⟩ := (Bool.and_eq_true _ _).mp hfirst
    have hparts := (Bool.and_eq_true _ _).mp ((Bool.and_eq_true _ _).mp hname).1
    have hsafe : isSafeFalseSecretAuditField fieldName item = false := by
      unfold isSafeFalseSecretAuditField
      rw [caselessText_lower hparts.1, decide_eq_false (of_decide_eq_true hparts.2), Bool.false_and]
    rw [redactedMapping, hsafe, isSecretFieldName_of_clear hname, redactedJson_clear hclear item hitem,
      redactedMapping_clear hclear fields hfields]
    rfl

end

/-- Clear texts under clear names are redacted to themselves. -/
theorem redactedFrontmatter_clear (hclear : ∀ text, redactSecretText text = ⟨false, text, []⟩) {fields : JsonObject φ}
    (h : clearFields fields = true) :
    redactedFrontmatter redactSecretText fields = .ok (fields, []) := by
  unfold redactedFrontmatter
  rw [redactedMapping_clear hclear fields h]
  rfl

end Clear

/-! ## Plain fields -/

def isPlainScalar : JsonValue φ → Bool
  | .str text => isPrintable text
  | .null => true
  | .bool _ => true
  | .int _ => true
  | _ => false

def isPlainValue : JsonValue φ → Bool
  | .list items => items.all isPlainScalar
  | value => isPlainScalar value

/-- Fields that are checked by evaluation. -/
structure PlainFields (fields : JsonObject φ) : Prop where
  plain : fields.all (fun field => isLowerName field.1 && !(field.1 == "provenance") && isPlainValue field.2) = true
  distinct : (fields.map Prod.fst).Nodup

theorem isPlainScalar_text {str : NestedText φ} {value : JsonValue φ} {text : String} (h : isPlainScalar value = true)
    (htext : frontmatterScalar str value = .str text) : isPrintable text = true := by
  cases value with
  | str found =>
    cases htext
    exact h
  | null => cases htext
  | bool flag => cases htext
  | int n => cases htext
  | float x => cases h
  | list items => cases h
  | object inner => cases h

theorem lineScalar_of_plain {value : JsonValue φ} (h : isPlainScalar value = true) : LineScalar value := by
  cases value with
  | str text => exact (oneLine_of_printable h).1
  | float x => cases h
  | null => trivial
  | bool flag => trivial
  | int n => trivial
  | list items => trivial
  | object inner => trivial

theorem lineValue_of_plain {value : JsonValue φ} (h : isPlainValue value = true) : LineValue value := by
  have hscalar : ∀ scalar : JsonValue φ, isPlainScalar scalar = true → LineScalar scalar := fun _ => lineScalar_of_plain
  cases value with
  | list items => exact fun item hitem => hscalar item (List.all_eq_true.mp h item hitem)
  | null => exact hscalar .null h
  | bool flag => exact hscalar (.bool flag) h
  | int n => exact hscalar (.int n) h
  | float x => exact hscalar (.float x) h
  | str text => exact hscalar (.str text) h
  | object inner => exact hscalar (.object inner) h

namespace PlainFields
variable {str : NestedText φ} {fields : JsonObject φ} (h : PlainFields fields)
include h

theorem field {field : String × JsonValue φ} (hfield : field ∈ fields) :
    isFieldName field.1 = true ∧ field.1 ≠ "provenance" ∧ isPlainValue field.2 = true := by
  have hplain := List.all_eq_true.mp h.plain field hfield
  simp only [Bool.and_eq_true, Bool.not_eq_true', beq_eq_false_iff_ne] at hplain
  exact ⟨isFieldName_of_lower hplain.1.1, hplain.1.2, hplain.2⟩

theorem writable : WritableFields fields := by
  refine ⟨fun field hfield => ?_, h.distinct⟩
  obtain ⟨hname, hflat, hvalue⟩ := h.field hfield
  exact ⟨hname, hflat, lineValue_of_plain hvalue⟩

/-- Every text that is rendered is plain. -/
theorem text {item : String × FrontmatterValue φ} (hitem : item ∈ renderedMapping str fields) {text : String}
    (htext : .str text ∈ item.2.scalars) : isPrintable text = true := by
  obtain ⟨⟨name, value⟩, hfield, rfl⟩ := List.mem_map.mp hitem
  obtain ⟨-, -, hvalue⟩ := h.field hfield
  have hsingle : ∀ scalar : JsonValue φ, isPlainScalar scalar = true → .str text ∈ [frontmatterScalar str scalar] →
      isPrintable text = true := by
    intro scalar hscalar hmem
    exact isPlainScalar_text hscalar (List.mem_singleton.mp hmem).symm
  cases value with
  | list items =>
    obtain ⟨x, hx, hxtext⟩ := List.mem_map.mp htext
    exact isPlainScalar_text (List.all_eq_true.mp hvalue x hx) hxtext
  | null => exact hsingle .null hvalue htext
  | bool flag => exact hsingle (.bool flag) hvalue htext
  | int n => exact hsingle (.int n) hvalue htext
  | float x => exact hsingle (.float x) hvalue htext
  | str found => exact hsingle (.str found) hvalue htext
  | object inner => exact hsingle (.object inner) hvalue htext

theorem settled : SettledFields str fields := fun _ hitem _ htext _ => trimmed_of_printable (h.text hitem htext)

end PlainFields

/-! ## Updated fields -/

section Updated
variable {env : NoteEnvironment φ} {str : NestedText φ} {fields : JsonObject φ} {replacements : Replacements} {floats : Floats φ}

/-- The field with the text that replaces its value. -/
def Replacements.field (replacements : Replacements) (field : String × JsonValue φ) : String × JsonValue φ :=
  match replacements.value field.1 with
  | some value => (field.1, .str value)
  | none => field

/-- A line that is ended by a line feed. -/
def fedLine (l : List Char) : PythonLine := (l, ['\n'])

theorem broken_fedLines {lines : List (List Char)} (h : ∀ l ∈ lines, OneLine l) (rest : List Char) :
    Broken (lines.map fedLine) rest := by
  induction lines with
  | nil => trivial
  | cons l lines ih =>
    have hends : ∀ more, Ends ['\n'] more := fun more => ⟨.inr ⟨'\n', by decide, rfl⟩, fun hreturn => by cases hreturn⟩
    exact ⟨h l List.mem_cons_self, hends _, ih fun other hother => h other (List.mem_cons_of_mem l hother)⟩

/-- What the update needs of the fields of a document. -/
structure Updatable (str : NestedText φ) (fields : JsonObject φ) (replacements : Replacements) : Prop where
  writable : WritableFields fields
  separators : ∀ item ∈ renderedMapping str fields, ∀ text, .str text ∈ item.2.scalars → '\x1f' ∉ text.toList
  scalars : ∀ field ∈ fields, ∀ items, field.2 = .list items → replacements.value field.1 = none
  present : ∀ entry ∈ replacements.items, entry.1 ∈ fields.map Prod.fst

theorem isFieldName_plainKey {name : String} (h : isFieldName name = true) : PlainKey name :=
  ⟨(isFieldName_validKey h).1, (isFieldName_validKey h).2⟩

theorem isFieldName_unit {name : String} (h : isFieldName name = true) : '\x1f' ∉ name.toList := by
  intro hmem
  have hchar := List.all_eq_true.mp ((Bool.and_eq_true _ _).mp h).2 _ hmem
  exact absurd hchar (by decide)

theorem marginKey_plain {key : String} {rest : List Char} (hkey : PlainKey key) (hline : OneLine (key.toList ++ ':' :: rest))
    (hunit : '\x1f' ∉ key.toList ++ ':' :: rest) : marginKey (key.toList ++ ':' :: rest) = some key := by
  obtain ⟨c, tail, hcons, hc, -⟩ := hkey.first
  have hmargin : (key.toList ++ ':' :: rest).dropWhile isWhitespace = key.toList ++ ':' :: rest := by
    rw [hcons, List.cons_append, List.dropWhile_cons_of_neg (by rw [hc]; exact Bool.false_ne_true)]
  rw [marginKey_eq hline hunit, if_neg (not_not.mpr hmargin.symm), Markdown.splitOnce_eq_some.mpr ⟨rfl, hkey.colon⟩,
    Option.map_some, hkey.trim, String.ofList_toList]

theorem marginKey_item (text : List Char) : marginKey ("  - ".toList ++ text) = none := by
  unfold marginKey
  rw [if_pos]
  intro heq
  have hlength := congrArg List.length heq
  have hle := (List.dropWhile_suffix (l := ' ' :: '-' :: ' ' :: text) isPythonWhitespace).length_le
  have hdrop : ("  - ".toList ++ text).dropWhile isPythonWhitespace =
      (' ' :: '-' :: ' ' :: text).dropWhile isPythonWhitespace := rfl
  rw [hdrop] at hlength
  have hfull : ("  - ".toList ++ text).length = (' ' :: '-' :: ' ' :: text).length + 1 := rfl
  omega

/-- A line of a field starts with its key, or it is one of its items. -/
theorem renderedLine_cases {key : String} {value : FrontmatterValue φ} {l : List Char}
    (hl : l ∈ renderFrontmatterValue floats key value) :
    (∃ rest, l = key.toList ++ ':' :: rest) ∨ ∃ text, l = "  - ".toList ++ text := by
  cases value with
  | scalar value => exact .inl ⟨' ' :: yamlScalar floats value, List.mem_singleton.mp hl⟩
  | list items =>
    cases items with
    | nil => exact .inl ⟨" []".toList, List.mem_singleton.mp hl⟩
    | cons item items =>
      obtain rfl | hl := List.mem_cons.mp hl
      · exact .inl ⟨[], rfl⟩
      · obtain ⟨x, -, rfl⟩ := List.mem_map.mp hl
        exact .inr ⟨_, rfl⟩

namespace Updatable
variable (h : Updatable str fields replacements)
include h

/-- The update reads the lines of the fields as they are. -/
theorem clean (hstr : ∀ value, OneLineText (str value)) {field : String × JsonValue φ} (hfield : field ∈ fields) :
    ∀ l ∈ renderFrontmatterValue floats field.1 (frontmatterValue str field.2), OneLine l ∧ '\x1f' ∉ l := by
  have hwritable := h.writable.writable field hfield
  have hkey := isFieldName_plainKey hwritable.name
  have hvalue := frontmatterValue_line hstr hwritable.value
  have hchars : ∀ l ∈ renderFrontmatterValue floats field.1 (frontmatterValue str field.2),
      ∀ c ∈ l, Markdown.Native.isLineBreak c = false ∧ c ≠ '\x1f' := by
    refine Markdown.renderedLine_all (forall_mem_of_all (by decide)) ?_ (fun x hx => (hvalue x hx).1) ?_
    · intro c hc
      exact ⟨hkey.oneLine c hc, fun heq => isFieldName_unit hwritable.name (heq ▸ hc)⟩
    · intro text htext c hc
      exact ⟨(hvalue _ htext).2 text rfl c hc,
        fun heq => h.separators _ (List.mem_map_of_mem hfield) text htext (heq ▸ hc)⟩
  exact fun l hl => ⟨fun c hc => (hchars l hl c hc).1, fun hc => (hchars l hl _ hc).2 rfl⟩

theorem marginKey_line (hstr : ∀ value, OneLineText (str value)) {field : String × JsonValue φ} (hfield : field ∈ fields)
    {l : List Char} (hl : l ∈ renderFrontmatterValue floats field.1 (frontmatterValue str field.2)) :
    marginKey l = some field.1 ∨ marginKey l = none := by
  obtain ⟨hline, hunit⟩ := h.clean hstr hfield l hl
  obtain ⟨rest, rfl⟩ | ⟨text, rfl⟩ := renderedLine_cases hl
  · exact .inl (marginKey_plain (isFieldName_plainKey (h.writable.writable field hfield).name) hline hunit)
  · exact .inr (marginKey_item text)

/-- The lines of a field become those of the updated field. -/
theorem map_line (hstr : ∀ value, OneLineText (str value)) {field : String × JsonValue φ} (hfield : field ∈ fields) :
    (renderFrontmatterValue floats field.1 (frontmatterValue str field.2)).map replacements.line =
      renderFrontmatterValue floats (replacements.field field).1 (frontmatterValue str (replacements.field field).2) := by
  have hmargin : ∀ l ∈ renderFrontmatterValue floats field.1 (frontmatterValue str field.2),
      marginKey l = some field.1 ∨ marginKey l = none := fun l hl => h.marginKey_line hstr hfield hl
  cases hvalue : replacements.value field.1 with
  | none =>
    have hsame : replacements.field field = field := by
      unfold Replacements.field
      rw [hvalue]
    rw [hsame]
    refine (List.map_congr_left ?_).trans (List.map_id _)
    intro l hl
    apply Replacements.line_of_none
    intro key hkey
    obtain hfound | hfound := hmargin l hl <;> rw [hfound] at hkey <;> cases hkey
    exact hvalue
  | some value =>
    have hnew : replacements.field field = (field.1, .str value) := by
      unfold Replacements.field
      rw [hvalue]
    have hscalar : ∀ items, field.2 ≠ .list items := by
      intro items hitems
      rw [h.scalars field hfield items hitems] at hvalue
      cases hvalue
    obtain ⟨x, hx⟩ : ∃ x, frontmatterValue str field.2 = .scalar x := by
      cases hvalue' : field.2 with
      | list items => exact absurd hvalue' (hscalar items)
      | null => exact ⟨_, rfl⟩
      | bool flag => exact ⟨_, rfl⟩
      | int n => exact ⟨_, rfl⟩
      | float x => exact ⟨_, rfl⟩
      | str text => exact ⟨_, rfl⟩
      | object inner => exact ⟨_, rfl⟩
    have hmem : field.1.toList ++ ':' :: ' ' :: yamlScalar floats x ∈
        renderFrontmatterValue floats field.1 (frontmatterValue str field.2) := by
      rw [hx]
      exact List.mem_singleton.mpr rfl
    obtain ⟨honeline, hunit⟩ := h.clean hstr hfield _ hmem
    have hline := marginKey_plain (isFieldName_plainKey (h.writable.writable field hfield).name) honeline hunit
    rw [hnew, hx]
    exact congrArg (fun l => [l]) (Replacements.line_of_value hline hvalue)

/-- The lines of the fields become those of the updated fields. -/
theorem map_lines (hstr : ∀ value, OneLineText (str value)) :
    (renderedLines floats (renderedMapping str fields)).map replacements.line =
      renderedLines floats (renderedMapping str (fields.map replacements.field)) := by
  unfold renderedLines renderedMapping
  rw [List.map_flatMap, List.flatMap_map, List.flatMap_map, List.flatMap_map]
  exact List.flatMap_congr fun field hfield => h.map_line hstr hfield

/-- Every key that is replaced has a line. -/
theorem marginKey_present (hstr : ∀ value, OneLineText (str value)) {entry : String × String} (hentry : entry ∈ replacements.items) :
    entry.1 ∈ (renderedLines floats (renderedMapping str fields)).filterMap marginKey := by
  obtain ⟨field, hfield, hname⟩ := List.mem_map.mp (h.present entry hentry)
  obtain ⟨rest, lines, hrendered⟩ := Markdown.renderFrontmatterValue_first floats field.1 (frontmatterValue str field.2)
  have hmem : field.1.toList ++ ':' :: rest ∈ renderFrontmatterValue floats field.1 (frontmatterValue str field.2) := by
    rw [hrendered]
    exact List.mem_cons_self
  obtain ⟨hline, hunit⟩ := h.clean hstr hfield _ hmem
  have hkey := marginKey_plain (isFieldName_plainKey (h.writable.writable field hfield).name) hline hunit
  refine List.mem_filterMap.mpr ⟨_, List.mem_flatMap.mpr ⟨_, List.mem_map_of_mem hfield, hmem⟩, ?_⟩
  rw [hkey, hname]

/-- The update of a rendered document renders the updated fields. -/
theorem update (hstr : ∀ value, OneLineText (str value)) {body : String} (hbody : LineFeeds body.toList) :
    updateFrontmatterScalars (universalNewlines (renderDocument env str fields body)) replacements.items =
      .ok (renderDocument env str (fields.map replacements.field) body) := by
  set lines := renderedLines env.floats (renderedMapping str fields) with hlines
  set rest := '\n' :: (body.toList.rdropWhile (· = '\n') ++ ['\n']) with hrest
  have hrendered : ∀ others : JsonObject φ, renderDocument env str others body =
      (delimiter :: (renderedLines env.floats (renderedMapping str others) ++ [delimiter])).flatMap (fun l => l ++ ['\n']) ++
        rest := by
    intro others
    unfold renderDocument renderMarkdownDocument
    exact Markdown.Native.intercalate_newline _ _ _
  have hclean : ∀ l ∈ lines, OneLine l ∧ '\x1f' ∉ l := by
    intro l hl
    obtain ⟨item, hitem, hl⟩ := List.mem_flatMap.mp hl
    obtain ⟨field, hfield, rfl⟩ := List.mem_map.mp hitem
    exact h.clean hstr hfield l hl
  have hreturn : '\r' ∉ renderDocument env str fields body :=
    (renderedOver_render (fun l hl => (hclean l hl).1) hbody).noReturn
  have hbroken : Broken ((delimiter :: (lines ++ [delimiter])).map fedLine) rest := by
    apply broken_fedLines
    have hdelimiter : OneLine delimiter := oneLine_of_all (by decide)
    intro l hl
    obtain rfl | hl := List.mem_cons.mp hl
    · exact hdelimiter
    · obtain hl | hl := List.mem_append.mp hl
      · exact (hclean l hl).1
      · exact List.mem_singleton.mp hl ▸ hdelimiter
  have hdocument : Document (renderDocument env str fields body) (fedLine delimiter) (lines.map fedLine) (fedLine delimiter)
      (pythonLines rest) := by
    refine ⟨?_, by decide, by decide, ?_⟩
    · have hbreaks := pythonLines_broken hbroken
      rw [List.flatMap_map] at hbreaks
      rw [hrendered]
      refine hbreaks.trans ?_
      simp
    · intro line hline
      obtain ⟨l, hl, rfl⟩ := List.mem_map.mp hline
      obtain ⟨item, -, hl⟩ := List.mem_flatMap.mp hl
      exact Markdown.renderedLine_inside l hl
  have halike : ReadAlike (renderDocument env str fields body) replacements := by
    constructor
    · intro line hline
      rw [hdocument.contentLines] at hline
      obtain ⟨l, hl, rfl⟩ := List.mem_map.mp hline
      exact (hclean l hl).2
    · intro line hline key value _ _ c hc
      rw [hdocument.contentLines] at hline
      obtain ⟨l, -, rfl⟩ := List.mem_map.mp hline
      rw [List.mem_singleton.mp hc]
      decide
  have hadded : addedLines replacements (fedLine delimiter) (lines.map fedLine) = [] := by
    unfold addedLines
    rw [List.map_eq_nil_iff, List.filter_eq_nil_iff, List.filterMap_map]
    intro entry hentry
    rw [decide_eq_true_eq, not_not]
    exact h.marginKey_present hstr hentry
  have hedited : (lines.map fedLine).map (editedLine replacements) = (lines.map replacements.line).map fedLine := by
    rw [List.map_map, List.map_map]
    rfl
  rw [universalNewlines_eq_self hreturn, hdocument.update halike, hadded, hedited, hrendered, hlines, h.map_lines hstr]
  congr 1
  simp [List.flatMap_map, pythonLines_whole, fedLine, PythonLine.whole]

end Updatable

def isReplaceable (replacements : Replacements) : String × JsonValue φ → Bool
  | (name, .list _) => (replacements.value name).isNone
  | _ => true

theorem PlainFields.updatable (h : PlainFields fields) (hscalars : fields.all (isReplaceable replacements) = true)
    (hpresent : replacements.items.all (fun entry => (fields.map Prod.fst).contains entry.1) = true) :
    Updatable str fields replacements where
  writable := h.writable
  separators _ hitem _ htext := (oneLine_of_printable (h.text hitem htext)).2
  scalars := by
    intro field hfield items hitems
    obtain ⟨name, value⟩ := field
    cases hitems
    have hfree := List.all_eq_true.mp hscalars _ hfield
    exact Option.isNone_iff_eq_none.mp hfree
  present := by
    intro entry hentry
    exact List.contains_iff_mem.mp (List.all_eq_true.mp hpresent entry hentry)

end Updated

end Alexandria.Notes
