import Alexandria.Foundations.Ascii
import Alexandria.Markdown.RoundTrip
import Alexandria.Notes.Service
import Mathlib.Tactic.IntervalCases

/-! # The frontmatter that a save writes

A field is written on lines of its own when its name is a plain word and its texts have no line break. Redaction, the
normalization of known fields and the policy of Contexts keep a frontmatter of such fields; its lists come back from the
file as lists of scalars.
-/

namespace Alexandria.Notes
set_option autoImplicit false
open Text
open Markdown (FrontmatterScalar FrontmatterValue ValidKey ExactFrontmatter startsWithDash)
open Markdown.Native (OneLine oneLine_of_all isLineBreak)

variable {φ : Type}

/-! ## Fields on lines of their own -/

def OneLineText (text : String) : Prop := OneLine text.toList

def fieldChars : List Char := "abcdefghijklmnopqrstuvwxyz_".toList

def isFieldName (name : String) : Bool := name ≠ "" && name.toList.all fun c => fieldChars.contains c

def LineScalar : JsonValue φ → Prop
  | .str text => OneLineText text
  | .float _ => False
  | _ => True

def LineValue : JsonValue φ → Prop
  | .list items => ∀ item ∈ items, LineScalar item
  | value => LineScalar value

structure Writable (field : String × JsonValue φ) : Prop where
  name : isFieldName field.1 = true
  flat : field.1 ≠ "provenance"
  value : LineValue field.2

structure WritableFields (fields : JsonObject φ) : Prop where
  writable : ∀ field ∈ fields, Writable field
  distinct : (fields.map Prod.fst).Nodup

theorem oneLineText_ofList {text : String} (h : OneLineText text) {part : List Char} (hpart : ∀ c ∈ part, c ∈ text.toList) :
    OneLineText (String.ofList part) := by
  intro c hc
  rw [String.toList_ofList] at hc
  exact h c (hpart c hc)

theorem oneLineText_strip {text : String} (h : OneLineText text) : OneLineText (pythonStrip text) :=
  oneLineText_ofList h fun _ => mem_of_mem_trimBy

theorem fieldChar_plain {c : Char} (h : c ∈ fieldChars) :
    isWhitespace c = false ∧ isLineBreak c = false ∧ c ≠ ':' ∧ c ≠ '#' ∧ c ≠ '-' := by
  have hall : ∀ c ∈ fieldChars, isWhitespace c = false ∧ isLineBreak c = false ∧ c ≠ ':' ∧ c ≠ '#' ∧ c ≠ '-' :=
    forall_mem_of_all (by decide)
  exact hall c h

theorem isFieldName_validKey {name : String} (h : isFieldName name = true) :
    ValidKey name ∧ startsWithDash name = false := by
  unfold isFieldName at h
  obtain ⟨hne, hchars⟩ := (Bool.and_eq_true _ _).mp h
  have hplain : ∀ c ∈ name.toList, isWhitespace c = false ∧ isLineBreak c = false ∧ c ≠ ':' ∧ c ≠ '#' ∧ c ≠ '-' := by
    intro c hc
    exact fieldChar_plain (by simpa using List.all_eq_true.mp hchars c hc)
  have hhead : ∀ c, name.toList.head? = some c → c ∈ name.toList := fun c hc => List.mem_of_head? hc
  refine ⟨⟨by simpa using hne, trimBy_eq_self fun c hc => (hplain c hc).1, ?_, fun c hc => (hplain c hc).2.1, ?_⟩, ?_⟩
  · intro hc
    exact (hplain _ hc).2.2.1 rfl
  · intro hc
    exact (hplain _ (hhead _ hc)).2.2.2.1 rfl
  · unfold startsWithDash
    rw [decide_eq_false_iff_not]
    intro hc
    exact (hplain _ (hhead _ hc)).2.2.2.2 rfl

/-! ## Names and texts by their bytes -/

/-- A name of letters, checked by their bytes. -/
def isLowerName (name : String) : Bool :=
  name ≠ "" && (Ascii.bytes name).all fun b => (97 ≤ b.toNat && b.toNat ≤ 122) || b.toNat = 95

theorem isFieldName_of_lower {name : String} (h : isLowerName name = true) : isFieldName name = true := by
  obtain ⟨hne, hbytes⟩ := (Bool.and_eq_true _ _).mp h
  refine (Bool.and_eq_true _ _).mpr ⟨hne, List.all_eq_true.mpr ?_⟩
  refine Ascii.forall_mem_toList (P := fun c => fieldChars.contains c = true) fun b hb => ?_
  have hrange := List.all_eq_true.mp hbytes b hb
  simp only [Bool.or_eq_true, Bool.and_eq_true, decide_eq_true_eq] at hrange
  generalize b.toNat = n at hrange ⊢
  obtain ⟨hlow, hhigh⟩ | rfl := hrange
  · refine ⟨by omega, ?_⟩
    interval_cases n <;> decide
  · decide

/-- The text is of printable letters of ASCII, without a blank at an end. -/
def isPrintable (text : String) : Bool :=
  ((Ascii.bytes text).all fun b => 32 ≤ b.toNat && b.toNat ≤ 126) &&
    ((Ascii.bytes text).head? ≠ some 32 && (Ascii.bytes text).getLast? ≠ some 32)

section Printable
variable {text : String}

theorem printable_range (h : isPrintable text = true) : ∀ b ∈ Ascii.bytes text, 32 ≤ b.toNat ∧ b.toNat ≤ 126 := by
  intro b hb
  have hrange := List.all_eq_true.mp ((Bool.and_eq_true _ _).mp h).1 b hb
  simpa using hrange

theorem oneLine_of_printable (h : isPrintable text = true) : OneLineText text ∧ '\x1f' ∉ text.toList := by
  have hchars : ∀ c ∈ text.toList, isLineBreak c = false ∧ c ≠ '\x1f' := by
    refine Ascii.forall_mem_toList fun b hb => ?_
    obtain ⟨hlow, hhigh⟩ := printable_range h b hb
    refine ⟨by omega, ?_⟩
    generalize b.toNat = n at hlow hhigh ⊢
    interval_cases n <;> decide
  exact ⟨fun c hc => (hchars c hc).1, fun hc => (hchars _ hc).2 rfl⟩

theorem trimmed_of_printable (h : isPrintable text = true) : Markdown.Native.trimmed text.toList = text.toList := by
  have hrange := printable_range h
  have hends := ((Bool.and_eq_true _ _).mp h).2
  simp only [Bool.and_eq_true, decide_eq_true_eq] at hends
  have hchar : ∀ b : UInt8, 32 ≤ b.toNat ∧ b.toNat ≤ 126 → b ≠ 32 → isWhitespace (Char.ofNat b.toNat) = false := by
    intro b hb hne
    have hspace : b.toNat ≠ 32 := fun heq => hne (UInt8.toNat_inj.mp heq)
    obtain ⟨hlow, hhigh⟩ := hb
    generalize b.toNat = n at hlow hhigh hspace ⊢
    interval_cases n
    · exact absurd rfl hspace
    all_goals decide
  have htext := Ascii.toList_of_ascii fun b hb => Nat.lt_of_le_of_lt (hrange b hb).2 (by decide)
  rw [htext]
  refine trimBy_of_ends ?_ ?_
  · intro c hc
    rw [List.head?_map] at hc
    obtain ⟨b, hb, rfl⟩ := Option.map_eq_some_iff.mp hc
    exact hchar b (hrange b (List.mem_of_mem_head? hb)) fun heq => hends.1 (heq ▸ hb)
  · intro c hc
    rw [List.getLast?_map] at hc
    obtain ⟨b, hb, rfl⟩ := Option.map_eq_some_iff.mp hc
    exact hchar b (hrange b (List.mem_of_getLast? hb)) fun heq => hends.2 (heq ▸ hb)

end Printable

/-- Plain names and values of one line make writable fields. -/
theorem writable_of_parts {fields : JsonObject φ}
    (hnames : ((fields.map Prod.fst).all fun name => isLowerName name && decide (name ≠ "provenance")) = true)
    (hvalues : ∀ value ∈ fields.map Prod.snd, LineValue value) : ∀ field ∈ fields, Writable field := by
  intro field hfield
  have hname := List.all_eq_true.mp hnames field.1 (List.mem_map_of_mem hfield)
  obtain ⟨hplain, hflat⟩ := (Bool.and_eq_true _ _).mp hname
  exact ⟨isFieldName_of_lower hplain, of_decide_eq_true hflat, hvalues field.2 (List.mem_map_of_mem hfield)⟩

/-! ## Texts without line breaks -/

def UnbrokenItem : JsonValue φ → Prop
  | .str text => OneLineText text
  | _ => True

def UnbrokenValue : JsonValue φ → Prop
  | .list items => ∀ item ∈ items, UnbrokenItem item
  | value => UnbrokenItem value

/-- A field under any name, which has no line break, nor has a text in it; a provenance is no mapping. -/
structure UnbrokenField (field : String × JsonValue φ) : Prop where
  name : OneLineText field.1
  flat : field.1 = "provenance" → field.2.isObject = false
  value : UnbrokenValue field.2

def UnbrokenFields (fields : JsonObject φ) : Prop := ∀ field ∈ fields, UnbrokenField field

theorem LineScalar.unbroken {value : JsonValue φ} (h : LineScalar value) : UnbrokenItem value := by
  cases value with
  | str text => exact h
  | _ => trivial

theorem LineValue.unbroken {value : JsonValue φ} (h : LineValue value) : UnbrokenValue value := by
  cases value with
  | list items => exact fun item hitem => LineScalar.unbroken (h item hitem)
  | str text => exact h
  | _ => trivial

theorem Writable.unbroken {field : String × JsonValue φ} (h : Writable field) : UnbrokenField field :=
  ⟨(isFieldName_validKey h.name).1.oneLine, fun hname => absurd hname h.flat, h.value.unbroken⟩

namespace UnbrokenFields
variable {fields : JsonObject φ}

theorem get (h : UnbrokenFields fields) (name : String) : UnbrokenValue (fields.get name) := by
  unfold JsonObject.get
  cases hfound : Keyed.lookup Prod.fst name fields with
  | none => trivial
  | some field => exact (h field (Keyed.lookup_mem hfound).1).value

theorem field_of_has (h : UnbrokenFields fields) {name : String} (hhas : fields.has name = true) :
    UnbrokenField (name, fields.get name) := by
  obtain ⟨field, hfound⟩ := Option.isSome_iff_exists.mp hhas
  obtain ⟨hmem, rfl⟩ := Keyed.lookup_mem hfound
  have hget : fields.get field.1 = field.2 := by
    unfold JsonObject.get
    rw [hfound]
    rfl
  rw [hget]
  exact h field hmem

theorem name_of_has (h : UnbrokenFields fields) {name : String} (hhas : fields.has name = true) : OneLineText name :=
  (h.field_of_has hhas).name

theorem provenance (h : UnbrokenFields fields) : (fields.get "provenance").isObject = false := by
  cases hhas : fields.has "provenance" with
  | true => exact (h.field_of_has hhas).flat rfl
  | false =>
    unfold JsonObject.has at hhas
    unfold JsonObject.get
    cases hfound : Keyed.lookup Prod.fst "provenance" fields with
    | none => rfl
    | some field =>
      rw [hfound] at hhas
      cases hhas

theorem set (h : UnbrokenFields fields) {name : String} {value : JsonValue φ} (hfield : UnbrokenField (name, value)) :
    UnbrokenFields (fields.set name value) := by
  intro field hmem
  obtain rfl | ⟨hmem, -⟩ := Keyed.mem_put.mp hmem
  · exact hfield
  · exact h field hmem

theorem update (h : UnbrokenFields fields) {entries : JsonObject φ} (hentries : UnbrokenFields entries) :
    UnbrokenFields (fields.update entries) := by
  unfold JsonObject.update
  induction entries generalizing fields with
  | nil => exact h
  | cons entry entries ih =>
    rw [List.foldl_cons]
    have hset : UnbrokenFields (fields.set entry.1 entry.2) := h.set (hentries entry List.mem_cons_self)
    exact ih hset fun other hother => hentries other (List.mem_cons_of_mem entry hother)

theorem erase (h : UnbrokenFields fields) (name : String) : UnbrokenFields (fields.erase name) :=
  fun field hmem => h field (List.mem_filter.mp hmem).1

end UnbrokenFields

theorem WritableFields.unbroken {fields : JsonObject φ} (h : WritableFields fields) : UnbrokenFields fields :=
  fun field hmem => (h.writable field hmem).unbroken

/-! ## Values -/

theorem lineValue_ofText {text : Option String} (h : ∀ t ∈ text, OneLineText t) :
    LineValue (JsonValue.ofText text : JsonValue φ) := by
  cases text with
  | none => trivial
  | some text => exact h text rfl

theorem lineValue_ofTexts {texts : List String} (h : ∀ t ∈ texts, OneLineText t) :
    LineValue (JsonValue.ofTexts texts : JsonValue φ) := by
  intro item hitem
  obtain ⟨text, htext, rfl⟩ := List.mem_map.mp hitem
  exact h text htext

theorem LineValue.text {value : JsonValue φ} (h : LineValue value) {text : String} (htext : value.text? = some text) :
    OneLineText text := by
  cases value <;> simp_all [JsonValue.text?, LineValue, LineScalar]

/-! ## Operations on fields -/

namespace WritableFields
variable {fields : JsonObject φ}

theorem get (h : WritableFields fields) (name : String) : LineValue (fields.get name) := by
  unfold JsonObject.get
  cases hfound : Keyed.lookup Prod.fst name fields with
  | none => trivial
  | some field => exact (h.writable field (Keyed.lookup_mem hfound).1).value

theorem name_of_has (h : WritableFields fields) {name : String} (hhas : fields.has name = true) :
    isFieldName name = true ∧ name ≠ "provenance" := by
  obtain ⟨field, hfound⟩ := Option.isSome_iff_exists.mp hhas
  obtain ⟨hmem, rfl⟩ := Keyed.lookup_mem hfound
  exact ⟨(h.writable field hmem).name, (h.writable field hmem).flat⟩

theorem set (h : WritableFields fields) {name : String} {value : JsonValue φ} (hname : isFieldName name = true)
    (hflat : name ≠ "provenance") (hvalue : LineValue value) : WritableFields (fields.set name value) where
  writable := by
    intro field hmem
    obtain rfl | ⟨hmem, -⟩ := Keyed.mem_put.mp hmem
    · exact ⟨hname, hflat, hvalue⟩
    · exact h.writable field hmem
  distinct := Keyed.nodup_put h.distinct

theorem update (h : WritableFields fields) {entries : JsonObject φ} (hentries : ∀ entry ∈ entries, Writable entry) :
    WritableFields (fields.update entries) := by
  unfold JsonObject.update
  induction entries generalizing fields with
  | nil => exact h
  | cons entry entries ih =>
    rw [List.foldl_cons]
    have hentry := hentries entry List.mem_cons_self
    have hset : WritableFields (fields.set entry.1 entry.2) := h.set hentry.name hentry.flat hentry.value
    exact ih hset fun other hother => hentries other (List.mem_cons_of_mem entry hother)

theorem erase (h : WritableFields fields) (name : String) : WritableFields (fields.erase name) where
  writable := fun field hmem => h.writable field (List.mem_filter.mp hmem).1
  distinct := h.distinct.sublist (List.filter_sublist.map Prod.fst)

end WritableFields

/-! ## Known fields -/

theorem mem_dedupe_strip {collection : List (JsonValue φ)} {texts : List String} {text : String}
    (h : collection.mapM collectionText = .ok texts) (hmem : text ∈ Reconciliation.dedupe (texts.filter (· ≠ ""))) :
    ∃ raw, JsonValue.str raw ∈ collection ∧ text = pythonStrip raw := by
  rw [Reconciliation.mem_dedupe] at hmem
  obtain ⟨item, hitem, htext⟩ := Keyed.mapM_ok_source h (List.mem_filter.mp hmem).1
  cases item <;> simp only [collectionText, reduceCtorEq, Except.ok.injEq] at htext
  exact ⟨_, hitem, htext.symm⟩

theorem normalizeStringCollection_line {value : JsonValue φ} {texts : List String} (h : UnbrokenValue value)
    (hok : normalizeStringCollection value = .ok texts) : ∀ text ∈ texts, OneLineText text := by
  obtain ⟨collection, hcollection, hrest⟩ := Keyed.bind_eq_ok hok
  obtain ⟨all, hall, hdone⟩ := Keyed.bind_eq_ok hrest
  cases hdone
  intro text htext
  obtain ⟨raw, hraw, rfl⟩ := mem_dedupe_strip hall htext
  have hline : OneLineText raw := by
    cases value with
    | list items =>
      simp only [stringCollectionInput] at hcollection
      split at hcollection
      · cases hcollection
      · cases hcollection
        exact h _ hraw
    | str whole =>
      simp only [stringCollectionInput] at hcollection
      split at hcollection
      · cases hcollection
        cases hraw
      · split at hcollection
        · cases hcollection
        · cases hcollection
          cases List.mem_singleton.mp hraw
          exact oneLineText_strip h
    | null =>
      cases hcollection
      cases hraw
    | bool value => cases hcollection
    | int value => cases hcollection
    | float value => cases hcollection
    | object fields => cases hcollection
  exact oneLineText_strip hline

theorem WritableFields.normalizeFields {normalize : JsonValue φ → Except String (JsonValue φ)}
    (hnormalize : ∀ value normalized, LineValue value → normalize value = .ok normalized → LineValue normalized)
    {names : List String} {fields normalized : JsonObject φ} (h : WritableFields fields)
    (hok : names.foldlM (normalizeField normalize) fields = .ok normalized) : WritableFields normalized := by
  induction names generalizing fields with
  | nil =>
    cases hok
    exact h
  | cons name names ih =>
    rw [List.foldlM_cons] at hok
    obtain ⟨next, hnext, hrest⟩ := Keyed.bind_eq_ok hok
    refine ih ?_ hrest
    unfold normalizeField at hnext
    split at hnext
    · rename_i hhas
      obtain ⟨value, hvalue, rfl⟩ := Keyed.map_eq_ok hnext
      obtain ⟨hname, hflat⟩ := h.name_of_has hhas
      exact h.set hname hflat (hnormalize _ _ (h.get name) hvalue)
    · cases hnext
      exact h

theorem normalizeFields_get {normalize : JsonValue φ → Except String (JsonValue φ)} {names : List String}
    {fields normalized : JsonObject φ} {other : String} (hother : other ∉ names)
    (hok : names.foldlM (normalizeField normalize) fields = .ok normalized) : normalized.get other = fields.get other := by
  induction names generalizing fields with
  | nil =>
    cases hok
    rfl
  | cons name names ih =>
    rw [List.foldlM_cons] at hok
    obtain ⟨next, hnext, hrest⟩ := Keyed.bind_eq_ok hok
    rw [List.mem_cons, not_or] at hother
    rw [ih hother.2 hrest, (normalizeField_get hnext (Ne.symm hother.1)).1]

theorem WritableFields.normalizeKnown {fields normalized : JsonObject φ} (h : WritableFields fields)
    (hok : normalizeKnownFrontmatterMetadata fields = .ok normalized) : WritableFields normalized := by
  obtain ⟨collected, hcollected, hbooleans⟩ := Keyed.bind_eq_ok hok
  refine (h.normalizeFields ?_ hcollected).normalizeFields ?_ hbooleans
  · intro value result hvalue hresult
    obtain ⟨texts, htexts, rfl⟩ := Keyed.map_eq_ok hresult
    exact lineValue_ofTexts (normalizeStringCollection_line hvalue.unbroken htexts)
  · intro value result _ hresult
    obtain ⟨flag, -, rfl⟩ := Keyed.map_eq_ok hresult
    trivial

/-! ## Redaction -/

section Redaction
variable {redactSecretText : String → SecretRedaction}

/-- Redaction breaks no line: neither the texts it leaves nor its warnings have a line break of their own. -/
structure RedactsLines (redactSecretText : String → SecretRedaction) : Prop where
  content : ∀ text, OneLineText text → OneLineText (redactSecretText text).redactedContent
  warnings : ∀ text, ∀ warning ∈ (redactSecretText text).warnings, OneLineText warning

theorem oneLineText_redactedField : OneLineText "potential secret-like frontmatter field was redacted" :=
  oneLine_of_all (by decide)

/-- The warnings of a frontmatter come from its texts. -/
theorem redactedMapping_warnings (h : RedactsLines redactSecretText) (fields : List (String × JsonValue φ)) :
    ∀ redacted, redactedMapping redactSecretText fields = .ok redacted → ∀ warning ∈ redacted.2, OneLineText warning := by
  refine (redactedJson.mutual_induct redactSecretText
    (fun value => ∀ redacted, redactedJson redactSecretText value = .ok redacted → ∀ w ∈ redacted.2, OneLineText w)
    (fun fields => ∀ redacted, redactedMapping redactSecretText fields = .ok redacted → ∀ w ∈ redacted.2, OneLineText w)
    (fun items => ∀ redacted, redactedSequence redactSecretText items = .ok redacted → ∀ w ∈ redacted.2, OneLineText w)
    ?_ ?_ ?_ ?_ ?_ ?_ ?_ ?_ ?_ ?_ ?_).2.1 fields
  · intro text hblocked redacted hok
    rw [redactedJson, if_pos hblocked] at hok
    cases hok
  · intro text hblocked redacted hok
    rw [redactedJson, if_neg hblocked] at hok
    cases hok
    exact h.warnings text
  · intro items ih redacted hok
    rw [redactedJson] at hok
    obtain ⟨sequence, hsequence, rfl⟩ := Keyed.map_eq_ok hok
    intro w hw
    exact ih sequence hsequence w (Reconciliation.mem_dedupe.mp hw)
  · intro fields ih redacted hok
    rw [redactedJson] at hok
    obtain ⟨mapping, hmapping, rfl⟩ := Keyed.map_eq_ok hok
    intro w hw
    exact ih mapping hmapping w (Reconciliation.mem_dedupe.mp hw)
  · intro value hstr hlist hobject redacted hok
    rw [redactedJson] at hok
    · cases hok
      intro w hw
      cases hw
    · exact hstr
    · exact hlist
    · exact hobject
  · intro redacted hok
    cases hok
    intro w hw
    cases hw
  · intro item items hitem hitems redacted hok
    rw [redactedSequence] at hok
    obtain ⟨first, hfirst, hmapped⟩ := Keyed.bind_eq_ok hok
    obtain ⟨rest, hrest, rfl⟩ := Keyed.map_eq_ok hmapped
    intro w hw
    obtain hw | hw := List.mem_append.mp hw
    · exact hitem first hfirst w hw
    · exact hitems rest hrest w hw
  · intro redacted hok
    cases hok
    intro w hw
    cases hw
  · intro fieldName item fields haudit ih redacted hok
    rw [redactedMapping, if_pos haudit] at hok
    obtain ⟨rest, hrest, rfl⟩ := Keyed.map_eq_ok hok
    exact ih rest hrest
  · intro fieldName item fields haudit hsecret ih redacted hok
    rw [redactedMapping, if_neg haudit, if_pos hsecret] at hok
    obtain ⟨rest, hrest, rfl⟩ := Keyed.map_eq_ok hok
    intro w hw
    obtain rfl | hw := List.mem_cons.mp hw
    · exact oneLineText_redactedField
    · exact ih rest hrest w hw
  · intro fieldName item fields haudit hsecret hitem hfields redacted hok
    rw [redactedMapping, if_neg haudit, if_neg hsecret] at hok
    obtain ⟨first, hfirst, hmapped⟩ := Keyed.bind_eq_ok hok
    obtain ⟨rest, hrest, rfl⟩ := Keyed.map_eq_ok hmapped
    intro w hw
    obtain hw | hw := List.mem_append.mp hw
    · exact hitem first hfirst w hw
    · exact hfields rest hrest w hw

theorem redactedJson_scalar (h : RedactsLines redactSecretText) {value : JsonValue φ} {redacted : JsonValue φ × List String}
    (hvalue : LineScalar value) (hok : redactedJson redactSecretText value = .ok redacted) : LineScalar redacted.1 := by
  cases value with
  | str text =>
    rw [redactedJson] at hok
    split at hok
    · cases hok
    · cases hok
      exact h.content text hvalue
  | list items =>
    rw [redactedJson] at hok
    obtain ⟨sequence, -, rfl⟩ := Keyed.map_eq_ok hok
    trivial
  | object fields =>
    rw [redactedJson] at hok
    obtain ⟨mapping, -, rfl⟩ := Keyed.map_eq_ok hok
    trivial
  | null => cases hok; trivial
  | bool value => cases hok; trivial
  | int value => cases hok; trivial
  | float value => cases hvalue

theorem redactedSequence_scalars (h : RedactsLines redactSecretText) {items : List (JsonValue φ)}
    {redacted : List (JsonValue φ) × List String} (hitems : ∀ item ∈ items, LineScalar item)
    (hok : redactedSequence redactSecretText items = .ok redacted) : ∀ item ∈ redacted.1, LineScalar item := by
  induction items generalizing redacted with
  | nil =>
    cases hok
    intro item hitem
    cases hitem
  | cons item items ih =>
    rw [redactedSequence] at hok
    obtain ⟨first, hfirst, hmapped⟩ := Keyed.bind_eq_ok hok
    obtain ⟨rest, hrest, rfl⟩ := Keyed.map_eq_ok hmapped
    intro other hother
    obtain rfl | hother := List.mem_cons.mp hother
    · exact redactedJson_scalar h (hitems item List.mem_cons_self) hfirst
    · exact ih (fun i hi => hitems i (List.mem_cons_of_mem item hi)) hrest other hother

theorem redactedJson_line (h : RedactsLines redactSecretText) {value : JsonValue φ} {redacted : JsonValue φ × List String}
    (hvalue : LineValue value) (hok : redactedJson redactSecretText value = .ok redacted) : LineValue redacted.1 := by
  cases value with
  | list items =>
    rw [redactedJson] at hok
    obtain ⟨sequence, hsequence, rfl⟩ := Keyed.map_eq_ok hok
    exact redactedSequence_scalars h hvalue hsequence
  | str text =>
    have hscalar : LineScalar redacted.1 := redactedJson_scalar h (show LineScalar (.str text) from hvalue) hok
    rw [redactedJson] at hok
    split at hok
    · cases hok
    · cases hok
      exact hscalar
  | object fields =>
    rw [redactedJson] at hok
    obtain ⟨mapping, -, rfl⟩ := Keyed.map_eq_ok hok
    trivial
  | null => cases hok; trivial
  | bool value => cases hok; trivial
  | int value => cases hok; trivial
  | float value => cases hvalue

/-- A redacted frontmatter has fields of the same names, in the same order. -/
theorem redactedMapping_writable (h : RedactsLines redactSecretText) {fields : JsonObject φ}
    {redacted : JsonObject φ × List String} (hfields : ∀ field ∈ fields, Writable field)
    (hok : redactedMapping redactSecretText fields = .ok redacted) :
    (∀ field ∈ redacted.1, Writable field) ∧ (redacted.1.map Prod.fst).Sublist (fields.map Prod.fst) := by
  induction fields generalizing redacted with
  | nil =>
    cases hok
    exact ⟨hfields, List.Sublist.refl _⟩
  | cons field fields ih =>
    obtain ⟨fieldName, item⟩ := field
    have hfirst := hfields (fieldName, item) List.mem_cons_self
    have hlater : ∀ field ∈ fields, Writable field := fun field hmem => hfields field (List.mem_cons_of_mem _ hmem)
    have hcons : ∀ (value : JsonValue φ) (rest : JsonObject φ), LineValue value →
        (∀ field ∈ rest, Writable field) ∧ (rest.map Prod.fst).Sublist (fields.map Prod.fst) →
        (∀ field ∈ (fieldName, value) :: rest, Writable field) ∧
          (((fieldName, value) :: rest).map Prod.fst).Sublist (((fieldName, item) :: fields).map Prod.fst) := by
      intro value rest hvalue hrest
      refine ⟨?_, hrest.2.cons_cons fieldName⟩
      intro other hother
      obtain rfl | hother := List.mem_cons.mp hother
      · exact ⟨hfirst.name, hfirst.flat, hvalue⟩
      · exact hrest.1 other hother
    rw [redactedMapping] at hok
    split at hok
    · obtain ⟨rest, hrest, rfl⟩ := Keyed.map_eq_ok hok
      exact hcons _ _ trivial (ih hlater hrest)
    · split at hok
      · obtain ⟨rest, hrest, rfl⟩ := Keyed.map_eq_ok hok
        obtain ⟨hwritable, hsublist⟩ := ih hlater hrest
        exact ⟨hwritable, hsublist.cons fieldName⟩
      · obtain ⟨first, hvalue, hmapped⟩ := Keyed.bind_eq_ok hok
        obtain ⟨rest, hrest, rfl⟩ := Keyed.map_eq_ok hmapped
        exact hcons _ _ (redactedJson_line h hfirst.value hvalue) (ih hlater hrest)

theorem WritableFields.redacted (h : RedactsLines redactSecretText) {fields : JsonObject φ}
    {redacted : JsonObject φ × List String} (hfields : WritableFields fields)
    (hok : redactedFrontmatter redactSecretText fields = .ok redacted) :
    WritableFields redacted.1 ∧ ∀ warning ∈ redacted.2, OneLineText warning := by
  obtain ⟨mapping, hmapping, rfl⟩ := Keyed.map_eq_ok hok
  obtain ⟨hwritable, hsublist⟩ := redactedMapping_writable h hfields.writable hmapping
  refine ⟨⟨hwritable, hfields.distinct.sublist hsublist⟩, ?_⟩
  intro warning hwarning
  exact redactedMapping_warnings h fields mapping hmapping warning (Reconciliation.mem_dedupe.mp hwarning)

end Redaction

/-! ## The identity of a Context -/

section Identity
variable {platform : TextPlatform} {fields : JsonObject φ}

def LineText (text : Option String) : Prop := ∀ t ∈ text, OneLineText t

theorem stringOrNone_line {value : JsonValue φ} {text : Option String} (h : UnbrokenValue value)
    (hok : stringOrNone value = some text) : LineText text := by
  cases value <;> simp only [stringOrNone, Option.some.injEq, reduceCtorEq] at hok
  · cases hok
    intro t ht
    cases ht
  · rename_i raw
    cases hok
    intro t ht
    unfold strippedText at ht
    split at ht
    · cases ht
    · cases ht
      exact oneLineText_strip h

theorem timestampField_line (htimestamp : ∀ raw, LineText (platform.timestamp raw)) {value : JsonValue φ}
    {text : Option String} (hok : timestampField platform value = some text) : LineText text := by
  cases value <;> simp only [timestampField, Option.some.injEq, reduceCtorEq] at hok
  · cases hok
    intro t ht
    cases ht
  · obtain ⟨stamp, hstamp, rfl⟩ := Option.map_eq_some_iff.mp hok
    intro t ht
    cases ht
    exact htimestamp _ _ hstamp

theorem referenceTuple_line {value : JsonValue φ} {texts : List String} (h : UnbrokenValue value)
    (hok : referenceTuple value = some texts) : ∀ t ∈ texts, OneLineText t := by
  unfold referenceTuple at hok
  cases hnormalized : normalizeStringCollection value with
  | error text =>
    rw [hnormalized] at hok
    cases hok
  | ok normalized =>
    rw [hnormalized] at hok
    cases hok
    exact normalizeStringCollection_line h hnormalized

theorem normalizedContentHash_line {value : JsonValue φ} {text : Option String}
    (hok : normalizedContentHash platform value = some text) : LineText text := by
  unfold normalizedContentHash at hok
  split at hok
  · cases hok
  · cases hok
    intro t ht
    cases ht
  · simp only at hok
    split at hok
    · cases hok
    · rename_i hdigits
      cases hok
      intro t ht
      cases ht
      have hplain : ∀ c ∈ hexDigits, isLineBreak c = false := forall_mem_of_all (by decide)
      intro c hc
      rw [not_or, Bool.not_eq_true, List.any_eq_false] at hdigits
      exact hplain c (by simpa using hdigits.2 c hc)

/-- The texts of the boundary that go to the frontmatter again. -/
structure LineBoundary (boundary : ContextFrontmatterBoundary) : Prop where
  texts : ∀ text ∈ [boundary.project, boundary.workspaceId, boundary.agentId, boundary.userId, boundary.sessionId,
    boundary.flat.sourceActorId, boundary.flat.sourceRunId, boundary.flat.externalRunId, boundary.contentHash,
    boundary.supersedesContextId, boundary.supersededByContextId, boundary.createdAt, boundary.updatedAt,
    boundary.recordedAt, boundary.observedAt, boundary.validFrom, boundary.validTo, boundary.reconciliationCandidateId],
    LineText text
  refs : ∀ ref ∈ boundary.flat.artifactRefs ++ boundary.flat.evidenceRefs ++ boundary.conflictSetIds, OneLineText ref
  flat : boundary.provenance = none

theorem readProvenance_line {provenance : ObsidianContextProvenance} (h : UnbrokenFields fields)
    (hok : readProvenance platform fields = some provenance) :
    LineText provenance.sourceActorId ∧ LineText provenance.sourceRunId ∧ LineText provenance.externalRunId ∧
      ∀ ref ∈ provenance.artifactRefs ++ provenance.evidenceRefs, OneLineText ref := by
  simp only [readProvenance, Option.bind_eq_bind, Option.bind_eq_some_iff] at hok
  obtain ⟨actorId, hactorId, actorType, -, runId, hrunId, externalId, hexternalId, artifacts, hartifacts, evidence, hevidence,
    confidence, -, hdone⟩ := hok
  cases hdone
  refine ⟨stringOrNone_line (h.get _) hactorId, stringOrNone_line (h.get _) hrunId, stringOrNone_line (h.get _) hexternalId, ?_⟩
  intro ref href
  obtain href | href := List.mem_append.mp href
  · exact referenceTuple_line (h.get _) hartifacts ref href
  · exact referenceTuple_line (h.get _) hevidence ref href

theorem readBoundary_line {boundary : ContextFrontmatterBoundary} (h : UnbrokenFields fields)
    (htimestamp : ∀ raw, LineText (platform.timestamp raw)) (hok : readBoundary platform fields = some boundary) :
    LineBoundary boundary := by
  obtain ⟨scope, -, hok⟩ := Option.bind_eq_some_iff.mp hok
  obtain ⟨project, hproject, hok⟩ := Option.bind_eq_some_iff.mp hok
  obtain ⟨workspaceId, hworkspace, hok⟩ := Option.bind_eq_some_iff.mp hok
  obtain ⟨agentId, hagent, hok⟩ := Option.bind_eq_some_iff.mp hok
  obtain ⟨userId, huser, hok⟩ := Option.bind_eq_some_iff.mp hok
  obtain ⟨sessionId, hsession, hok⟩ := Option.bind_eq_some_iff.mp hok
  obtain ⟨visibility, -, hok⟩ := Option.bind_eq_some_iff.mp hok
  obtain ⟨status, -, hok⟩ := Option.bind_eq_some_iff.mp hok
  obtain ⟨flat, hflat, hok⟩ := Option.bind_eq_some_iff.mp hok
  obtain ⟨provenance, hprovenance, hok⟩ := Option.bind_eq_some_iff.mp hok
  obtain ⟨contentHash, hhash, hok⟩ := Option.bind_eq_some_iff.mp hok
  obtain ⟨version, -, hok⟩ := Option.bind_eq_some_iff.mp hok
  obtain ⟨supersedes, hsupersedes, hok⟩ := Option.bind_eq_some_iff.mp hok
  obtain ⟨supersededBy, hsupersededBy, hok⟩ := Option.bind_eq_some_iff.mp hok
  obtain ⟨contextKind, -, hok⟩ := Option.bind_eq_some_iff.mp hok
  obtain ⟨memoryFunction, -, hok⟩ := Option.bind_eq_some_iff.mp hok
  obtain ⟨kind, -, hok⟩ := Option.bind_eq_some_iff.mp hok
  obtain ⟨createdAt, hcreated, hok⟩ := Option.bind_eq_some_iff.mp hok
  obtain ⟨updatedAt, hupdated, hok⟩ := Option.bind_eq_some_iff.mp hok
  obtain ⟨recordedAt, hrecorded, hok⟩ := Option.bind_eq_some_iff.mp hok
  obtain ⟨observedAt, hobserved, hok⟩ := Option.bind_eq_some_iff.mp hok
  obtain ⟨validFrom, hfrom, hok⟩ := Option.bind_eq_some_iff.mp hok
  obtain ⟨validTo, hto, hok⟩ := Option.bind_eq_some_iff.mp hok
  obtain ⟨candidateId, hcandidate, hok⟩ := Option.bind_eq_some_iff.mp hok
  obtain ⟨conflictSetIds, hconflicts, hok⟩ := Option.bind_eq_some_iff.mp hok
  cases hok
  obtain ⟨hactor, hrun, hexternal, hrefs⟩ := readProvenance_line h hflat
  refine ⟨?_, ?_, ?_⟩
  · simp only [List.mem_cons, List.not_mem_nil, or_false, forall_eq_or_imp, forall_eq]
    exact ⟨stringOrNone_line (h.get _) hproject, stringOrNone_line (h.get _) hworkspace,
      stringOrNone_line (h.get _) hagent, stringOrNone_line (h.get _) huser, stringOrNone_line (h.get _) hsession,
      hactor, hrun, hexternal, normalizedContentHash_line hhash, stringOrNone_line (h.get _) hsupersedes,
      stringOrNone_line (h.get _) hsupersededBy, timestampField_line htimestamp hcreated,
      timestampField_line htimestamp hupdated, timestampField_line htimestamp hrecorded,
      timestampField_line htimestamp hobserved, timestampField_line htimestamp hfrom, timestampField_line htimestamp hto,
      stringOrNone_line (h.get _) hcandidate⟩
  · intro ref href
    obtain href | href := List.mem_append.mp href
    · exact hrefs ref href
    · exact referenceTuple_line (h.get _) hconflicts ref href
  · have hflat := h.provenance
    cases hvalue : fields.get "provenance" with
    | object inner =>
      rw [hvalue] at hflat
      cases hflat
    | null =>
      rw [hvalue] at hprovenance
      exact (Option.some.inj hprovenance).symm
    | bool flag => rw [hvalue] at hprovenance; cases hprovenance
    | int n => rw [hvalue] at hprovenance; cases hprovenance
    | float x => rw [hvalue] at hprovenance; cases hprovenance
    | str text => rw [hvalue] at hprovenance; cases hprovenance
    | list items => rw [hvalue] at hprovenance; cases hprovenance

theorem validateContextFrontmatter_ok {boundary : ContextFrontmatterBoundary}
    (hok : validateContextFrontmatter platform fields = .ok boundary) : readBoundary platform fields = some boundary := by
  unfold validateContextFrontmatter at hok
  split at hok
  · cases hok
  · rename_i found hfound
    split at hok
    · cases hok
    · rw [← Except.ok.inj hok]
      exact hfound

theorem scope_line (scope : Reconciliation.ContextScope) : OneLineText scope.value := by
  cases scope <;> exact oneLine_of_all (by decide)

theorem status_line (status : ObsidianContextLifecycleStatus) : OneLineText status.value := by
  cases status <;> exact oneLine_of_all (by decide)

theorem kind_line (kind : ContextKind) : OneLineText kind.value := by
  cases kind <;> exact oneLine_of_all (by decide)

theorem sourceType_line (sourceType : Option ContextSourceType) : LineText (sourceType.map (·.value)) := by
  intro t ht
  obtain ⟨member, -, rfl⟩ := Option.map_eq_some_iff.mp ht
  cases member <;> exact oneLine_of_all (by decide)

theorem importance_line (importance : Option ContextImportance) : LineText (importance.map (·.value)) := by
  intro t ht
  obtain ⟨member, -, rfl⟩ := Option.map_eq_some_iff.mp ht
  cases member <;> exact oneLine_of_all (by decide)

theorem memoryFunction_line (memoryFunction : Option MemoryFunction) : LineText (memoryFunction.map (·.value)) := by
  intro t ht
  obtain ⟨member, -, rfl⟩ := Option.map_eq_some_iff.mp ht
  cases member <;> exact oneLine_of_all (by decide)

theorem lineText_or {first second : Option String} (hfirst : LineText first) (hsecond : LineText second) :
    LineText (first.or second) := by
  cases first with
  | none => exact hsecond
  | some text => exact hfirst

/-- The fields of an identity that was read from unbroken fields are writable. -/
theorem normalizedContextFrontmatter_writable {project : Option String} {status hash : String}
    {identity : ObsidianContextIdentity} (h : UnbrokenFields fields) (htimestamp : ∀ raw, LineText (platform.timestamp raw))
    (hproject : LineText project) (hhash : OneLineText hash)
    (hok : contextIdentityFromFrontmatter platform fields project status hash = .ok identity) :
    ∀ field ∈ (normalizedContextFrontmatter identity : JsonObject φ), Writable field := by
  obtain ⟨boundary, hboundary, hok⟩ := Keyed.bind_eq_ok hok
  obtain ⟨resolved, -, hok⟩ := Keyed.bind_eq_ok hok
  have hline := readBoundary_line h htimestamp (validateContextFrontmatter_ok hboundary)
  have htexts := hline.texts
  simp only [List.mem_cons, List.not_mem_nil, or_false, forall_eq_or_imp, forall_eq] at htexts
  obtain ⟨hboundaryProject, hworkspace, hagent, huser, hsession, hactor, hrun, hexternal, hboundaryHash, hsupersedes,
    hsupersededBy, hcreated, hupdated, hrecorded, hobserved, hfrom, hto, hcandidate⟩ := htexts
  have hcontentHash : OneLineText (boundary.contentHash.getD hash) := by
    cases hgiven : boundary.contentHash with
    | none => exact hhash
    | some given =>
      rw [hgiven] at hboundaryHash
      exact hboundaryHash given rfl
  have hrefs := hline.refs
  simp only [List.forall_mem_append] at hrefs
  obtain ⟨⟨hartifacts, hevidence⟩, hconflicts⟩ := hrefs
  simp only [hline.flat, provenanceValue] at hok
  generalize boundary.scope.getD _ = scope at hok
  split at hok
  · cases hok
  · split at hok
    · cases hok
    · split at hok
      · cases hok
      · rw [← Except.ok.inj hok]
        apply writable_of_parts
        · simp only [normalizedContextFrontmatter, List.map_cons, List.map_nil]
          decide
        · simp only [normalizedContextFrontmatter, List.map_cons, List.map_nil, List.forall_mem_cons, List.not_mem_nil,
            false_implies, implies_true, and_true]
          exact ⟨scope_line _, lineValue_ofText (lineText_or hboundaryProject hproject), lineValue_ofText hworkspace,
            lineValue_ofText hagent, lineValue_ofText huser, lineValue_ofText hsession, scope_line _, status_line _,
            lineValue_ofText hactor, lineValue_ofText (sourceType_line _), lineValue_ofText hrun,
            lineValue_ofText hexternal, lineValue_ofTexts hartifacts, lineValue_ofTexts hevidence,
            lineValue_ofText (importance_line _), hcontentHash, trivial, lineValue_ofText hsupersedes,
            lineValue_ofText hsupersededBy, kind_line _, lineValue_ofText (memoryFunction_line _),
            lineValue_ofText hcreated, lineValue_ofText hupdated, lineValue_ofText hrecorded, lineValue_ofText hobserved,
            lineValue_ofText hfrom, lineValue_ofText hto, lineValue_ofText hcandidate, lineValue_ofTexts hconflicts⟩

end Identity

/-! ## A save -/

section Save
variable {env : NoteEnvironment φ} {payload : ObsidianSaveNote φ} {fields result : JsonObject φ} {name : String}

/-- What the service adds to a frontmatter has no line break: redacted texts, hashes and timestamps. -/
structure KeepsLines (env : NoteEnvironment φ) : Prop where
  redacts : RedactsLines env.redactSecretText
  hash : ∀ text, OneLineText (env.hashText text)
  timestamp : ∀ raw, LineText (env.text.timestamp raw)

/-- The texts of a request that go to the frontmatter. -/
structure LinePayload (payload : ObsidianSaveNote φ) : Prop where
  fields : WritableFields payload.frontmatter
  title : OneLineText payload.title
  tags : ∀ tag ∈ payload.tags, OneLineText tag
  status : OneLineText payload.status
  project : LineText payload.project
  source : OneLineText payload.source
  noteId : ∃ noteId, payload.noteId = some noteId ∧ noteId ≠ "" ∧ OneLineText noteId

def savedFields : List String :=
  ["alexandria_type", "id", "title", "tags", "status", "created_at", "updated_at", "source", "project",
    "redaction_warnings"]

/-- A field that a save redacts and otherwise takes as it is. -/
structure Untouched (φ : Type) (name : String) : Prop where
  saved : name ∉ savedFields
  collections : name ∉ stringCollectionFields
  flags : name ∉ booleanFields
  identity : ∀ identity : ObsidianContextIdentity, name ∉ (normalizedContextFrontmatter identity : JsonObject φ).map Prod.fst
  provenance : name ≠ "provenance"
  contentHash : name ≠ "content_hash"
  secret : isSecretFieldName name = false
  audit : caselessText name ≠ "secret_values_recorded"

theorem orNow_line {value : JsonValue φ} {now : String} (h : LineValue value) (hnow : OneLineText now) :
    LineValue (orNow env value now) := by
  unfold orNow
  split
  · exact h
  · exact hnow

theorem noteType_line (noteType : AlexandriaNoteType) : OneLineText noteType.value := by
  cases noteType <;> exact oneLine_of_all (by decide)

theorem frontmatterForSave_writable {noteId title now : String} {warnings : List String} (h : WritableFields fields)
    (hpayload : LinePayload payload) (hnoteId : OneLineText noteId) (htitle : OneLineText title) (hnow : OneLineText now)
    (hwarnings : ∀ warning ∈ warnings, OneLineText warning)
    (hok : frontmatterForSave env payload fields noteId title warnings now = .ok result) : WritableFields result := by
  unfold frontmatterForSave at hok
  simp only at hok
  have hupdated : WritableFields (fields.update
      [("alexandria_type", .str payload.alexandriaType.value), ("id", .str noteId), ("title", .str title),
        ("tags", .ofTexts payload.tags), ("status", .str payload.status),
        ("created_at", orNow env (fields.get "created_at") now), ("updated_at", orNow env (fields.get "updated_at") now),
        ("source", .str payload.source)]) := by
    apply h.update
    apply writable_of_parts
    · simp only [List.map_cons, List.map_nil]
      decide
    · simp only [List.map_cons, List.map_nil, List.forall_mem_cons, List.not_mem_nil, false_implies, implies_true, and_true]
      exact ⟨noteType_line _, hnoteId, htitle, lineValue_ofTexts hpayload.tags, hpayload.status, orNow_line (h.get _) hnow,
        orNow_line (h.get _) hnow, hpayload.source⟩
  generalize fields.update _ = updated at hok hupdated
  have hwarned : ∀ projected : JsonObject φ, WritableFields projected → WritableFields
      (if warnings = [] then projected else projected.set "redaction_warnings" (.ofTexts warnings)) := by
    intro projected hprojected
    split
    · exact hprojected
    · exact hprojected.set (by decide) (by decide) (lineValue_ofTexts hwarnings)
  refine WritableFields.normalizeKnown (hwarned _ ?_) hok
  cases hproject : payload.project with
  | none => exact hupdated
  | some project => exact hupdated.set (by decide) (by decide) (hpayload.project project hproject)

theorem frontmatterForSave_get {noteId title now : String} {warnings : List String} (hname : Untouched φ name)
    (hok : frontmatterForSave env payload fields noteId title warnings now = .ok result) :
    result.get name = fields.get name := by
  have hsaved := hname.saved
  simp only [savedFields, List.mem_cons, List.not_mem_nil, or_false, not_or] at hsaved
  obtain ⟨h1, h2, h3, h4, h5, h6, h7, h8, h9, h10⟩ := hsaved
  unfold frontmatterForSave at hok
  simp only at hok
  have hupdated : (fields.update
      [("alexandria_type", .str payload.alexandriaType.value), ("id", .str noteId), ("title", .str title),
        ("tags", .ofTexts payload.tags), ("status", .str payload.status),
        ("created_at", orNow env (fields.get "created_at") now), ("updated_at", orNow env (fields.get "updated_at") now),
        ("source", .str payload.source)]).get name = fields.get name := by
    apply JsonObject.get_update_of_notMem
    simp [h1, h2, h3, h4, h5, h6, h7, h8]
  generalize fields.update _ = updated at hok hupdated
  have hwarned : ∀ projected : JsonObject φ,
      (if warnings = [] then projected else projected.set "redaction_warnings" (.ofTexts warnings)).get name =
        projected.get name := by
    intro projected
    split
    · rfl
    · rw [JsonObject.get_set, if_neg (Ne.symm h10)]
  obtain ⟨collected, hcollected, hflags⟩ := Keyed.bind_eq_ok hok
  rw [normalizeFields_get hname.flags hflags, normalizeFields_get hname.collections hcollected, hwarned, ← hupdated]
  cases payload.project with
  | none => rfl
  | some project => exact (JsonObject.get_set _ _ _ _).trans (if_neg (Ne.symm h9))

theorem saveTarget_noteId {vault : Vault φ} {title newId noteId : String} {target : String × String}
    (hgiven : payload.noteId = some noteId) (hne : noteId ≠ "") (hok : saveTarget env vault payload title newId = .ok target) :
    target.1 = noteId := by
  obtain ⟨path, -, hok⟩ := Keyed.bind_eq_ok hok
  obtain ⟨checked, -, hok⟩ := Keyed.bind_eq_ok hok
  have hsame : saveNoteId env vault payload path newId = noteId := by
    unfold saveNoteId
    rw [hgiven, Option.filter_some_pos (by simpa using hne)]
    rfl
  rw [hsame] at hok
  split at hok
  · cases hok
  · rw [(uniqueTarget_ok hok).1]

theorem applyContextSavePolicy_frontmatter {vault : Vault φ} {noteId body : String} {policy : ContextSavePolicyResult φ}
    (hok : applyContextSavePolicy env vault payload noteId fields body = .ok policy) :
    ∃ identity, contextIdentityFromFrontmatter env.text (fields.erase "content_hash") payload.project payload.status
        (contextContentHash env body) = .ok identity ∧
      policy.frontmatter =
        ((fields.erase "content_hash").update (normalizedContextFrontmatter identity)).erase "provenance" := by
  unfold applyContextSavePolicy at hok
  split at hok
  · cases hok
  · obtain ⟨identity, hidentity, hok⟩ := Keyed.bind_eq_ok hok
    obtain ⟨checked, -, hok⟩ := Keyed.bind_eq_ok hok
    refine ⟨identity, hidentity, ?_⟩
    rw [← Except.ok.inj hok]

/-- The frontmatter of the document that the save of a Context writes: fields on lines of their own, and among them each
field that is only redacted. -/
theorem prepareSave_written (henv : KeepsLines env) (hpayload : LinePayload payload)
    (hcontext : payload.alexandriaType = .context) {str : NestedText φ} {vault : Vault φ} {newId now : String}
    (hnow : OneLineText now) {save : SaveDocument}
    (hok : prepareSave env str vault payload none none newId now = .ok (.document save)) :
    ∃ fields body, save.document = renderDocument env str fields body ∧ WritableFields fields ∧
      ∀ name, Untouched φ name → payload.frontmatter.has name = true →
        ∃ warnings, redactedJson env.redactSecretText (payload.frontmatter.get name) = .ok (fields.get name, warnings) := by
  unfold prepareSave at hok
  simp only at hok
  split at hok
  · cases hok
  · split at hok
    · cases hok
    · obtain ⟨redacted, hredacted, hok⟩ := Keyed.bind_eq_ok hok
      obtain ⟨target, htarget, hok⟩ := Keyed.bind_eq_ok hok
      obtain ⟨fields, hfields, hok⟩ := Keyed.bind_eq_ok hok
      simp only [Option.isSome_none, Bool.false_eq_true, if_false, Option.filter_none, hcontext] at hok
      obtain ⟨policy, hpolicy, hok⟩ := Keyed.bind_eq_ok hok
      split at hok
      · cases hok
      · cases hok
        obtain ⟨noteId, hgiven, hne, hline⟩ := hpayload.noteId
        obtain rfl := saveTarget_noteId hgiven hne htarget
        obtain ⟨hwritable, hwarnings⟩ := hpayload.fields.redacted henv.redacts hredacted
        have hredactedPayload : LinePayload { payload with frontmatter := redacted.1 } :=
          ⟨hwritable, hpayload.title, hpayload.tags, hpayload.status, hpayload.project, hpayload.source, hpayload.noteId⟩
        have hallWarnings : ∀ warning ∈ (env.redactSecretText payload.body).warnings ++ redacted.2, OneLineText warning := by
          intro warning hwarning
          obtain hwarning | hwarning := List.mem_append.mp hwarning
          · exact henv.redacts.warnings payload.body warning hwarning
          · exact hwarnings warning hwarning
        have hwritten := frontmatterForSave_writable hwritable hredactedPayload hline (oneLineText_strip hpayload.title)
          hnow hallWarnings hfields
        obtain ⟨identity, hidentity, hfrontmatter⟩ := applyContextSavePolicy_frontmatter hpolicy
        refine ⟨policy.frontmatter, _, rfl, ?_, ?_⟩
        · rw [hfrontmatter]
          exact ((hwritten.erase _).update (normalizedContextFrontmatter_writable (hwritten.erase _).unbroken henv.timestamp
            hpayload.project (henv.hash _) hidentity)).erase _
        · intro name hname hhas
          obtain ⟨mapping, hmapping, rfl⟩ := Keyed.map_eq_ok hredacted
          obtain ⟨-, warnings, hvalue⟩ := redactedMapping_get hname.secret hname.audit hmapping hhas
          refine ⟨warnings, ?_⟩
          rw [hvalue, hfrontmatter, JsonObject.get_erase, if_neg hname.provenance,
            JsonObject.get_update_of_notMem (hname.identity identity), JsonObject.get_erase, if_neg hname.contentHash,
            frontmatterForSave_get hname hfields]

end Save

end Alexandria.Notes
