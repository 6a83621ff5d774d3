import Alexandria.Foundations.Keyed
import Alexandria.Markdown.Frontmatter
import Alexandria.Reconciliation.Entities

/-! # Metadata of notes

Frontmatter before it is rendered and after it is read is a JSON object: the items of a Python mapping in their order.
A save redacts what looks like a secret and normalizes the known collections and flags; either may refuse it.
-/

namespace Alexandria.Notes
set_option autoImplicit false
open Text

/-! ## JSON -/

inductive JsonValue (φ : Type)
  | null
  | bool (value : Bool)
  | int (value : ℤ)
  | float (value : φ)
  | str (text : String)
  | list (items : List (JsonValue φ))
  | object (fields : List (String × JsonValue φ))

abbrev JsonObject (φ : Type) := List (String × JsonValue φ)

section Equality
variable {φ : Type} [DecidableEq φ]

mutual

/-- Equality of two values, compared part by part. -/
def JsonValue.same : JsonValue φ → JsonValue φ → Bool
  | .null, .null => true
  | .bool a, .bool b => a = b
  | .int a, .int b => a = b
  | .float a, .float b => a = b
  | .str a, .str b => a = b
  | .list a, .list b => JsonValue.sameItems a b
  | .object a, .object b => JsonValue.sameFields a b
  | _, _ => false

def JsonValue.sameItems : List (JsonValue φ) → List (JsonValue φ) → Bool
  | [], [] => true
  | a :: as, b :: bs => JsonValue.same a b && JsonValue.sameItems as bs
  | _, _ => false

def JsonValue.sameFields : List (String × JsonValue φ) → List (String × JsonValue φ) → Bool
  | [], [] => true
  | (key, a) :: as, (key', b) :: bs => key = key' && JsonValue.same a b && JsonValue.sameFields as bs
  | _, _ => false

end

mutual
theorem JsonValue.same_iff : ∀ a b : JsonValue φ, JsonValue.same a b = true ↔ a = b
  | .null, b => by cases b <;> simp [JsonValue.same]
  | .bool a, b => by cases b <;> simp [JsonValue.same]
  | .int a, b => by cases b <;> simp [JsonValue.same]
  | .float a, b => by cases b <;> simp [JsonValue.same]
  | .str a, b => by cases b <;> simp [JsonValue.same]
  | .list a, b => by cases b <;> simp [JsonValue.same, JsonValue.sameItems_iff a]
  | .object a, b => by cases b <;> simp [JsonValue.same, JsonValue.sameFields_iff a]

theorem JsonValue.sameItems_iff : ∀ a b : List (JsonValue φ), JsonValue.sameItems a b = true ↔ a = b
  | [], b => by cases b <;> simp [JsonValue.sameItems]
  | a :: as, b => by cases b <;> simp [JsonValue.sameItems, JsonValue.same_iff a, JsonValue.sameItems_iff as]

theorem JsonValue.sameFields_iff : ∀ a b : List (String × JsonValue φ), JsonValue.sameFields a b = true ↔ a = b
  | [], b => by cases b <;> simp [JsonValue.sameFields]
  | (key, a) :: as, b => by
    cases b with
    | nil => simp [JsonValue.sameFields]
    | cons field bs => simp [JsonValue.sameFields, JsonValue.same_iff a, JsonValue.sameFields_iff as, Prod.ext_iff]
end

instance : DecidableEq (JsonValue φ) := fun a b => decidable_of_iff _ (JsonValue.same_iff a b)

end Equality

variable {φ : Type}

namespace JsonObject

def has (fields : JsonObject φ) (key : String) : Bool := (Keyed.lookup Prod.fst key fields).isSome

/-- `fields.get(key)`: a missing key reads as null. -/
def get (fields : JsonObject φ) (key : String) : JsonValue φ :=
  ((Keyed.lookup Prod.fst key fields).map Prod.snd).getD .null

def set (fields : JsonObject φ) (key : String) (value : JsonValue φ) : JsonObject φ := Keyed.put Prod.fst (key, value) fields

def update (fields entries : JsonObject φ) : JsonObject φ := entries.foldl (fun acc entry => acc.set entry.1 entry.2) fields

def erase (fields : JsonObject φ) (key : String) : JsonObject φ := fields.filter fun entry => entry.1 ≠ key

theorem get_set (fields : JsonObject φ) (key : String) (value : JsonValue φ) (name : String) :
    (fields.set key value).get name = if key = name then value else fields.get name := by
  unfold get set
  rw [Keyed.lookup_put]
  split <;> rfl

theorem has_set (fields : JsonObject φ) (key : String) (value : JsonValue φ) (name : String) :
    (fields.set key value).has name = (decide (key = name) || fields.has name) := by
  unfold has set
  rw [Keyed.lookup_put]
  by_cases h : key = name <;> simp [h]

theorem get_erase (fields : JsonObject φ) (key name : String) :
    (fields.erase key).get name = if name = key then .null else fields.get name := by
  unfold get erase
  rw [Keyed.lookup_filter Prod.fst name fields fun k => decide (k ≠ key)]
  by_cases h : name = key <;> simp [h]

/-- Entries that do not name the key leave it as it was. -/
theorem get_update_of_notMem {entries : JsonObject φ} {name : String} (h : name ∉ entries.map Prod.fst)
    (fields : JsonObject φ) : (fields.update entries).get name = fields.get name := by
  unfold update
  induction entries generalizing fields with
  | nil => rfl
  | cons entry entries ih =>
    simp only [List.map_cons, List.mem_cons, not_or] at h
    rw [List.foldl_cons, ih h.2, get_set, if_neg (Ne.symm h.1)]

theorem has_update {fields entries : JsonObject φ} {name : String} (h : fields.has name = true) :
    (fields.update entries).has name = true := by
  unfold update
  induction entries generalizing fields with
  | nil => exact h
  | cons entry entries ih =>
    rw [List.foldl_cons]
    apply ih
    rw [has_set, h, Bool.or_true]

end JsonObject

/-- The truth value of Python. -/
def JsonValue.truthy (isZero : φ → Bool) : JsonValue φ → Bool
  | .null => false
  | .bool value => value
  | .int value => value ≠ 0
  | .float value => !isZero value
  | .str text => text ≠ ""
  | .list items => !items.isEmpty
  | .object fields => !fields.isEmpty

/-- `value in (None, text)`. -/
def JsonValue.isNullOr (text : String) : JsonValue φ → Bool
  | .null => true
  | .str other => other = text
  | _ => false

def JsonValue.text? : JsonValue φ → Option String
  | .str text => some text
  | _ => none

def JsonValue.isNull : JsonValue φ → Bool
  | .null => true
  | _ => false

def JsonValue.isObject : JsonValue φ → Bool
  | .object _ => true
  | _ => false

def JsonValue.ofText : Option String → JsonValue φ
  | none => .null
  | some text => .str text

def JsonValue.ofTexts (texts : List String) : JsonValue φ := .list (texts.map .str)

theorem JsonValue.text?_ofText (text : Option String) : (JsonValue.ofText text : JsonValue φ).text? = text := by
  cases text <;> rfl

theorem JsonValue.isNullOr_cases {value : JsonValue φ} {text : String} (h : value.isNullOr text = true) :
    value = .null ∨ value = .str text := by
  cases value <;> simp_all [JsonValue.isNullOr]

/-! ## Known fields -/

def stringCollectionFields : List String :=
  ["tags", "artifact_refs", "evidence_refs", "conflict_set_ids", "evidence_urls", "linked_note_ids", "redaction_warnings",
    "required_tools", "supersedes", "when_not_to_use", "when_to_use"]

def booleanFields : List String :=
  ["activate_requested", "is_current", "requires_human_review", "safe_to_publish", "source_of_truth"]

def closesWith (stop text : String) : Bool := stop.toList.isSuffixOf text.toList

def looksLikeCollectionRepresentation (value : String) : Bool :=
  (opensWith "(" value && closesWith ")" value) || (opensWith "[" value && closesWith "]" value) ||
    (opensWith "\x7b" value && closesWith "\x7d" value) ||
    ((opensWith "set(" value || opensWith "frozenset(" value) && closesWith ")" value)

def legacyRepresentation : String := "string collection legacy representation is not accepted"

def stringCollectionInput : JsonValue φ → Except String (List (JsonValue φ))
  | .null => .ok []
  | .list items =>
    if items.any fun item => item.text?.any fun text => looksLikeCollectionRepresentation (pythonStrip text) then
      .error legacyRepresentation
    else .ok items
  | .str text =>
    if pythonStrip text = "" then .ok []
    else if looksLikeCollectionRepresentation (pythonStrip text) then .error legacyRepresentation
    else .ok [.str (pythonStrip text)]
  | _ => .error "string collection must be a string, list, tuple, or null"

def collectionText : JsonValue φ → Except String String
  | .str text => .ok (pythonStrip text)
  | _ => .error "string collection items must be strings"

def normalizeStringCollection (value : JsonValue φ) : Except String (List String) := do
  let collection ← stringCollectionInput value
  let texts ← collection.mapM collectionText
  return Reconciliation.dedupe (texts.filter (· ≠ ""))

/-- ASCII lower case, which is all that `true` and `false` need. -/
def normalizeBooleanMetadata : JsonValue φ → Except String Bool
  | .bool value => .ok value
  | .str text =>
    let normalized := (pythonStrip text).toLower
    if normalized = "true" then .ok true
    else if normalized = "false" then .ok false
    else .error "boolean metadata must be true or false"
  | _ => .error "boolean metadata must be true or false"

def normalizeField (normalize : JsonValue φ → Except String (JsonValue φ)) (fields : JsonObject φ) (name : String) :
    Except String (JsonObject φ) :=
  if fields.has name then (normalize (fields.get name)).map (fields.set name) else .ok fields

/-- The fields in a fixed order; which of two invalid ones is reported depends on it. -/
def normalizeKnownFrontmatterMetadata (fields : JsonObject φ) : Except String (JsonObject φ) := do
  let collected ← stringCollectionFields.foldlM
    (normalizeField fun value => (normalizeStringCollection value).map .ofTexts) fields
  booleanFields.foldlM (normalizeField fun value => (normalizeBooleanMetadata value).map .bool) collected

theorem normalizeField_get {normalize : JsonValue φ → Except String (JsonValue φ)} {fields normalized : JsonObject φ}
    {name other : String} (h : normalizeField normalize fields name = .ok normalized) (hne : name ≠ other) :
    normalized.get other = fields.get other ∧ normalized.has other = fields.has other := by
  unfold normalizeField at h
  split at h
  · obtain ⟨value, -, rfl⟩ := Keyed.map_eq_ok h
    rw [JsonObject.get_set, JsonObject.has_set, if_neg hne]
    simp [hne]
  · cases h
    exact ⟨rfl, rfl⟩

/-- A field that its normalization refuses makes the whole normalization fail. -/
theorem normalizeFields_error {normalize : JsonValue φ → Except String (JsonValue φ)} {name : String} {names : List String}
    (hmem : name ∈ names) {fields : JsonObject φ} (hpresent : fields.has name = true)
    (herror : ∀ value, normalize (fields.get name) ≠ .ok value) (result : JsonObject φ) :
    names.foldlM (normalizeField normalize) fields ≠ .ok result := by
  induction names generalizing fields with
  | nil => cases hmem
  | cons first names ih =>
    intro hrun
    rw [List.foldlM_cons] at hrun
    cases hfirst : normalizeField normalize fields first with
    | error text =>
      rw [hfirst] at hrun
      cases hrun
    | ok normalized =>
      rw [hfirst] at hrun
      by_cases hname : first = name
      · subst hname
        rw [normalizeField, if_pos hpresent] at hfirst
        obtain ⟨value, hvalue, -⟩ := Keyed.map_eq_ok hfirst
        exact herror value hvalue
      · obtain ⟨hget, hhas⟩ := normalizeField_get hfirst hname
        have hrest : name ∈ names := (List.mem_cons.mp hmem).resolve_left (Ne.symm hname)
        exact ih hrest (hhas.trans hpresent) (by rw [hget]; exact herror) hrun

/-- A collection of mappings is no string collection. -/
theorem normalizeStringCollection_object {items : List (JsonValue φ)} {item : JsonValue φ} (hmem : item ∈ items)
    (hitem : item.isObject = true) (texts : List String) : normalizeStringCollection (.list items) ≠ .ok texts := by
  intro h
  obtain ⟨collection, hcollection, hrest⟩ := Keyed.bind_eq_ok h
  obtain ⟨all, hall, -⟩ := Keyed.bind_eq_ok hrest
  have hsame : collection = items := by
    simp only [stringCollectionInput] at hcollection
    split at hcollection
    · cases hcollection
    · exact (Except.ok.inj hcollection).symm
  subst hsame
  obtain ⟨text, -, htext⟩ := Keyed.mapM_ok_of_mem hall hmem
  cases item <;> simp_all [JsonValue.isObject, collectionText]

/-! ## Redaction -/

/-- The result of `redact_secret_text`. -/
structure SecretRedaction where
  blocked : Bool
  redactedContent : String
  warnings : List String

/-- The letters that Python takes for ASCII letters when it ignores case. -/
def caseless (c : Char) : Char :=
  if c = '\u017f' then 's' else if c = '\u212a' then 'k' else if c = '\u0130' ∨ c = '\u0131' then 'i' else c.toLower

def caselessText (text : String) : String := String.ofList (text.toList.map caseless)

/-- The words of `SECRET_FIELD_NAME_PATTERN`. -/
def secretFieldWords : List String :=
  ["apikey", "api_key", "api-key", "token", "secret", "password", "credential", "privatekey", "private_key", "private-key"]

def isSecretFieldName (fieldName : String) : Bool :=
  secretFieldWords.any fun word => decide (word.toList <:+: (caselessText fieldName).toList)

def isSafeFalseSecretAuditField (fieldName : String) (value : JsonValue φ) : Bool :=
  caselessText fieldName = "secret_values_recorded" &&
    match value with
    | .bool value => !value
    | .str text => caselessText text = "false"
    | _ => false

/-- `item in (None, "")` -/
def JsonValue.isNullOrEmpty (value : JsonValue φ) : Bool := value.isNullOr ""

section Redaction
variable (redactSecretText : String → SecretRedaction)

mutual

def redactedJson : JsonValue φ → Except String (JsonValue φ × List String)
  | .str text =>
    if (redactSecretText text).blocked then .error "high-risk secret content cannot be saved in frontmatter"
    else .ok (.str (redactSecretText text).redactedContent, (redactSecretText text).warnings)
  | .list items => (redactedSequence items).map fun redacted => (.list redacted.1, Reconciliation.dedupe redacted.2)
  | .object fields => (redactedMapping fields).map fun redacted => (.object redacted.1, Reconciliation.dedupe redacted.2)
  | value => .ok (value, [])

def redactedSequence : List (JsonValue φ) → Except String (List (JsonValue φ) × List String)
  | [] => .ok ([], [])
  | item :: items =>
    (redactedJson item).bind fun first =>
      (redactedSequence items).map fun rest => (first.1 :: rest.1, first.2 ++ rest.2)

def redactedMapping : List (String × JsonValue φ) → Except String (List (String × JsonValue φ) × List String)
  | [] => .ok ([], [])
  | (fieldName, item) :: fields =>
    if isSafeFalseSecretAuditField fieldName item then
      (redactedMapping fields).map fun rest => ((fieldName, .bool false) :: rest.1, rest.2)
    else if isSecretFieldName fieldName && !item.isNullOrEmpty then
      (redactedMapping fields).map fun rest =>
        (rest.1, "potential secret-like frontmatter field was redacted" :: rest.2)
    else
      (redactedJson item).bind fun first =>
        (redactedMapping fields).map fun rest => ((fieldName, first.1) :: rest.1, first.2 ++ rest.2)

end

def redactedFrontmatter (frontmatter : JsonObject φ) : Except String (JsonObject φ × List String) :=
  (redactedMapping redactSecretText frontmatter).map fun redacted => (redacted.1, Reconciliation.dedupe redacted.2)

variable {redactSecretText}

/-- A redacted list has a mapping where the list had one. -/
theorem redactedSequence_object {items : List (JsonValue φ)} {item : JsonValue φ} (hmem : item ∈ items)
    (hitem : item.isObject = true) {redacted : List (JsonValue φ) × List String}
    (h : redactedSequence redactSecretText items = .ok redacted) : ∃ other ∈ redacted.1, other.isObject = true := by
  induction items generalizing redacted with
  | nil => cases hmem
  | cons head items ih =>
    rw [redactedSequence] at h
    obtain ⟨first, hfirst, hmapped⟩ := Keyed.bind_eq_ok h
    obtain ⟨rest, hrest, rfl⟩ := Keyed.map_eq_ok hmapped
    obtain rfl | hmem := List.mem_cons.mp hmem
    · refine ⟨first.1, List.mem_cons_self, ?_⟩
      cases item with
      | object fields =>
        rw [redactedJson] at hfirst
        obtain ⟨mapping, -, rfl⟩ := Keyed.map_eq_ok hfirst
        rfl
      | null => cases hitem
      | bool value => cases hitem
      | int value => cases hitem
      | float value => cases hitem
      | str text => cases hitem
      | list inner => cases hitem
    · obtain ⟨other, hother, hobject⟩ := ih hmem hrest
      exact ⟨other, List.mem_cons_of_mem _ hother, hobject⟩

/-- A field whose name is no secret's is redacted in its place. -/
theorem redactedMapping_get {fields redacted : JsonObject φ} {warnings : List String} {key : String}
    (hname : isSecretFieldName key = false) (haudit : caselessText key ≠ "secret_values_recorded")
    (h : redactedMapping redactSecretText fields = .ok (redacted, warnings)) (hpresent : fields.has key = true) :
    redacted.has key = true ∧ ∃ noted, redactedJson redactSecretText (fields.get key) = .ok (redacted.get key, noted) := by
  induction fields generalizing redacted warnings with
  | nil => cases hpresent
  | cons field fields ih =>
    obtain ⟨fieldName, item⟩ := field
    by_cases hkey : fieldName = key
    · subst hkey
      have hsafe : isSafeFalseSecretAuditField fieldName item = false := by simp [isSafeFalseSecretAuditField, haudit]
      rw [redactedMapping, hsafe, hname] at h
      obtain ⟨first, hfirst, hrest⟩ := Keyed.bind_eq_ok h
      obtain ⟨rest, -, heq⟩ := Keyed.map_eq_ok hrest
      cases heq
      refine ⟨by simp [JsonObject.has, Keyed.lookup], first.2, ?_⟩
      simpa [JsonObject.get, Keyed.lookup] using hfirst
    · have hskip : ∀ (value : JsonValue φ) (rest : JsonObject φ),
          JsonObject.has ((fieldName, value) :: rest) key = rest.has key ∧
            JsonObject.get ((fieldName, value) :: rest) key = rest.get key := by
        intro value rest
        simp [JsonObject.has, JsonObject.get, Keyed.lookup, hkey]
      rw [(hskip item fields).1] at hpresent
      rw [(hskip item fields).2]
      rw [redactedMapping] at h
      split at h
      · obtain ⟨rest, hrest, heq⟩ := Keyed.map_eq_ok h
        cases heq
        rw [(hskip _ rest.1).1, (hskip _ rest.1).2]
        exact ih hrest hpresent
      · split at h
        · obtain ⟨rest, hrest, heq⟩ := Keyed.map_eq_ok h
          cases heq
          exact ih hrest hpresent
        · obtain ⟨first, -, hmapped⟩ := Keyed.bind_eq_ok h
          obtain ⟨rest, hrest, heq⟩ := Keyed.map_eq_ok hmapped
          cases heq
          rw [(hskip _ rest.1).1, (hskip _ rest.1).2]
          exact ih hrest hpresent

end Redaction

end Alexandria.Notes
