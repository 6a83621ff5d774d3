import Alexandria.Notes.Metadata

/-! # Relation targets

The frontmatter of a note names other notes by relation. A target is an object, a text that parses as one, a path, or a
list of these; a text that parses as a list is taken apart in the same way.
-/

namespace Alexandria.Graph
set_option autoImplicit false
open Text
open Notes (JsonValue JsonObject)

variable {φ : Type}

inductive ObsidianRelationType
  | cites
  | derivedFrom
  | related
  | supersedes
  | promotesTo
  | blocks
  | resolves
  | duplicates
  | supports
  | extends
  | contradicts
  | contains
  | wikilink
  deriving DecidableEq

def ObsidianRelationType.value : ObsidianRelationType → String
  | .cites => "cites"
  | .derivedFrom => "derived_from"
  | .related => "related"
  | .supersedes => "supersedes"
  | .promotesTo => "promotes_to"
  | .blocks => "blocks"
  | .resolves => "resolves"
  | .duplicates => "duplicates"
  | .supports => "supports"
  | .extends => "extends"
  | .contradicts => "contradicts"
  | .contains => "contains"
  | .wikilink => "wikilink"

def relationTypes : List ObsidianRelationType :=
  [.cites, .derivedFrom, .related, .supersedes, .promotesTo, .blocks, .resolves, .duplicates, .supports, .extends,
    .contradicts, .contains, .wikilink]

/-- The values a text is read as, by `loads_json` or else by `ast.literal_eval`. A text inside such a value is written
between quotes, so it is shorter than the text around it. -/
structure StructuredText (φ : Type) where
  value : String → Option (JsonValue φ)
  shorter : ∀ {text items item}, value text = some (.list items) → .str item ∈ items → item.length < text.length

structure RelationTarget where
  path : Option String
  noteId : Option String
  relation : Option ObsidianRelationType

/-- `_string_field` -/
def stringField (value : JsonObject φ) (key : String) : Option String :=
  ((value.get key).text?.map pythonStrip).filter (· ≠ "")

/-- `_relation_or_none` -/
def relationOrNone (value : Option String) : Option ObsidianRelationType :=
  value.bind fun text => relationTypes.find? fun relation => relation.value = text

/-- `_target_from_mapping`, without a field name. -/
def targetFromMapping (value : JsonObject φ) : RelationTarget where
  path := (stringField value "path").or (stringField value "target_path")
  noteId := (stringField value "target_note_id").or (stringField value "id")
  relation := relationOrNone (stringField value "relation")

section Targets
variable (structured : StructuredText φ)

/-- `_target_mapping_from_string` -/
def targetMappingFromString (value : String) : Option (JsonObject φ) :=
  if (value.toList.dropWhile isPythonWhitespace).head? ≠ some '{' then none
  else
    match structured.value value with
    | some (.object fields) => some fields
    | _ => none

/-- `_target_sequence_from_string` -/
def targetSequenceFromString (value : String) : Option (List (JsonValue φ)) :=
  if (value.toList.dropWhile isPythonWhitespace).head? ≠ some '[' then none
  else
    match structured.value value with
    | some (.list items) => some items
    | _ => none

/-- A text that is no list. -/
def targetFromString (value : String) : RelationTarget :=
  match targetMappingFromString structured value with
  | some fields => targetFromMapping fields
  | none => ⟨some value, none, none⟩

/-- An item of a list: what is neither a text nor an object is passed over. -/
def itemTarget : JsonValue φ → Option RelationTarget
  | .str text => some (targetFromString structured text)
  | .object fields => some (targetFromMapping fields)
  | _ => none

theorem targetSequenceFromString_shorter {value item : String} {items : List (JsonValue φ)}
    (h : targetSequenceFromString structured value = some items) (hitem : .str item ∈ items) : item.length < value.length := by
  unfold targetSequenceFromString at h
  split at h
  · cases h
  · split at h
    · rename_i found hfound
      cases h
      exact structured.shorter hfound hitem
    · cases h

def textLength : JsonValue φ → ℕ
  | .str text => text.length + 1
  | _ => 0

/-- `_relation_targets`, without a field name. -/
def relationTargets (value : JsonValue φ) : List RelationTarget :=
  match value with
  | .str text =>
    match _h : targetSequenceFromString structured text with
    | some items => items.attach.flatMap fun item => relationTargets item.1
    | none => [targetFromString structured text]
  | .object fields => [targetFromMapping fields]
  | .list items => items.filterMap (itemTarget structured)
  | _ => []
termination_by textLength value
decreasing_by
  obtain ⟨item, hitem⟩ := item
  cases item with
  | str inner =>
    have := targetSequenceFromString_shorter structured _h hitem
    simp only [textLength]
    omega
  | _ => simp [textLength]

theorem relationTargets_list (items : List (JsonValue φ)) :
    relationTargets structured (.list items) = items.filterMap (itemTarget structured) := by
  rw [relationTargets]

end Targets

end Alexandria.Graph
