import Alexandria.Foundations.SplitLines
import Alexandria.Notes.Service

/-! # Notes of Memory Compacts

A compact is stored as a Markdown note of its own kind: the frontmatter has one property a field, the source references are
JSON on one line of it, and the body follows. Writing and reading are two codecs written by hand. What they take from the
JSON library, the clock and the identifiers stands in `CompactEnvironment`.
-/

namespace Alexandria.Compacts
set_option autoImplicit false
open Text
open Reconciliation (Instant)
open Notes (JsonValue JsonObject universalNewlines)

/-! ## Compacts -/

inductive MemoryCompactStatus
  | draft
  | current
  | superseded
  | archived
  deriving DecidableEq

def MemoryCompactStatus.value : MemoryCompactStatus → String
  | .draft => "DRAFT"
  | .current => "CURRENT"
  | .superseded => "SUPERSEDED"
  | .archived => "ARCHIVED"

def MemoryCompactStatus.all : List MemoryCompactStatus := [.draft, .current, .superseded, .archived]

/-- `MemoryCompactStatus(value)` -/
def MemoryCompactStatus.ofValue (value : String) : Option MemoryCompactStatus := all.find? fun status => status.value = value

inductive MemoryCompactReviewVerdict
  | pass
  | needsRevision
  | blocked
  deriving DecidableEq

def MemoryCompactReviewVerdict.value : MemoryCompactReviewVerdict → String
  | .pass => "pass"
  | .needsRevision => "needs_revision"
  | .blocked => "blocked"

def MemoryCompactReviewVerdict.ofValue (value : String) : Option MemoryCompactReviewVerdict :=
  [.pass, .needsRevision, .blocked].find? fun verdict => verdict.value = value

structure MemoryCompactSourceRef where
  id : String
  compactId : String
  sourceType : String
  sourceId : String
  title : String
  detailPath : String
  sourceHash : Option String
  deriving DecidableEq

structure MemoryCompact where
  id : String
  project : Option String
  coveredFrom : Instant
  coveredTo : Instant
  markdownBody : String
  status : MemoryCompactStatus
  sourceRefs : List MemoryCompactSourceRef
  createdAt : Instant
  updatedAt : Instant
  archivedAt : Option Instant
  reviewVerdict : Option MemoryCompactReviewVerdict
  reviewScore : Option ℤ
  reviewMaxScore : Option ℤ
  reviewedAt : Option Instant
  metadataWarnings : List String
  deduplicated : Bool
  sourceSetHash : Option String
  compactionPolicyVersion : Option String
  generationRevision : Option ℤ
  generatedAt : Option Instant
  deriving DecidableEq

/-- What the codecs take from the JSON library, `datetime`, `int`, `str` and the identifiers. -/
structure CompactEnvironment (φ : Type) where
  isoformat : Instant → String
  /-- `_parse_datetime`; `none` where it raises. -/
  parseDatetime : String → Option Instant
  upper : String → String
  parseInt : String → Option ℤ
  /-- `str` of a value that is no text. -/
  str : JsonValue φ → String
  isZero : φ → Bool
  dumpsJson : JsonValue φ → String
  loadsJson : String → Option (JsonValue φ)
  /-- A new identifier for the item of a list of JSON texts and the position in it. -/
  newUuid : ℕ → ℕ → String

variable {φ : Type}

/-! ## The frontmatter -/

inductive CompactFrontmatterValue
  | null
  | bool (value : Bool)
  | text (value : String)
  | texts (values : List String)
  deriving DecidableEq

abbrev CompactFrontmatter := List (String × CompactFrontmatterValue)

def CompactFrontmatterValue.ofText : Option String → CompactFrontmatterValue
  | none => .null
  | some value => .text value

/-! ## Serializing -/

def delimiter : List Char := "---".toList

/-- `value.startswith("[") and value.endswith("]")` -/
def isBracketed (value : List Char) : Bool := value.head? = some '[' ∧ value.getLast? = some ']'

def quotedYamlString (value : String) : List Char := '\'' :: Markdown.doubleQuotes value.toList ++ ['\'']

def yamlText (value : String) : List Char := if isBracketed value.toList then value.toList else quotedYamlString value

def yamlPropertyLines (key : String) : CompactFrontmatterValue → List (List Char)
  | .null => [key.toList ++ ": null".toList]
  | .bool value => [key.toList ++ if value then ": true".toList else ": false".toList]
  | .text value => [key.toList ++ ": ".toList ++ yamlText value]
  | .texts [] => [key.toList ++ ": []".toList]
  | .texts values => (key.toList ++ [':']) :: values.map fun value => "  - ".toList ++ quotedYamlString value

/-- The link to the source, when its path is that of a Markdown file. -/
def obsidianSourceLink (detailPath : String) : Option String :=
  let normalized := (trimBy isPythonWhitespace detailPath.toList).dropWhile (· = '/')
  if ".md".toList.isSuffixOf (normalized.map Char.toLower) ∧ ¬ "://".toList <:+: normalized then
    some (String.ofList ("[[".toList ++ normalized.take (normalized.length - 3) ++ "]]".toList))
  else none

def sourceRefJson (ref : MemoryCompactSourceRef) : JsonValue φ :=
  .object
    [("id", .str ref.id), ("compact_id", .str ref.compactId), ("source_type", .str ref.sourceType),
      ("source_id", .str ref.sourceId), ("title", .str ref.title), ("detail_path", .str ref.detailPath),
      ("source_hash", .ofText ref.sourceHash)]

def sourceRefsJson (refs : List MemoryCompactSourceRef) : JsonValue φ := .list (refs.map sourceRefJson)

section Serialize
variable (env : CompactEnvironment φ)

def compactFrontmatter (compact : MemoryCompact) : CompactFrontmatter :=
  [("alexandria_type", .text "memory_compact"),
    ("id", .text compact.id),
    ("tags", .texts ["alexandria", "memory-compact"]),
    ("status", .text compact.status.value),
    ("source", .text "heterarchy-alexandria"),
    ("project", .ofText compact.project),
    ("covered_from", .text (env.isoformat compact.coveredFrom)),
    ("covered_to", .text (env.isoformat compact.coveredTo)),
    ("created_at", .text (env.isoformat compact.createdAt)),
    ("updated_at", .text (env.isoformat compact.updatedAt)),
    ("archived_at", .ofText (compact.archivedAt.map env.isoformat)),
    ("review_verdict", .ofText (compact.reviewVerdict.map (·.value))),
    ("review_score", .ofText (compact.reviewScore.map fun score => String.ofList (Markdown.intText score))),
    ("review_max_score", .ofText (compact.reviewMaxScore.map fun score => String.ofList (Markdown.intText score))),
    ("reviewed_at", .ofText (compact.reviewedAt.map env.isoformat)),
    ("source_set_hash", .ofText compact.sourceSetHash),
    ("compaction_policy_version", .ofText compact.compactionPolicyVersion),
    ("generation_revision", .ofText (compact.generationRevision.map fun n => String.ofList (Markdown.intText n))),
    ("generated_at", .ofText (compact.generatedAt.map env.isoformat)),
    ("source_refs", .text (env.dumpsJson (sourceRefsJson compact.sourceRefs))),
    ("source_ref_links", .texts (compact.sourceRefs.filterMap fun ref => obsidianSourceLink ref.detailPath))]

/-- The lines of the frontmatter, each ended by a line feed, and the body. -/
def serializeCompact (compact : MemoryCompact) : List Char :=
  ((delimiter :: ((compactFrontmatter env compact).flatMap fun property => yamlPropertyLines property.1 property.2) ++
    [delimiter]).flatMap fun line => line ++ ['\n']) ++
      (compact.markdownBody.toList.rdropWhile (· = '\n') ++ ['\n'])

end Serialize

/-! ## Reading the frontmatter -/

def parseYamlScalar (value : List Char) : CompactFrontmatterValue :=
  if value = [] ∨ value = "null".toList ∨ value = "Null".toList ∨ value = "NULL".toList ∨ value = "~".toList then .null
  else if value = "true".toList ∨ value = "True".toList ∨ value = "TRUE".toList then .bool true
  else if value = "false".toList ∨ value = "False".toList ∨ value = "FALSE".toList then .bool false
  else
    match Markdown.Native.quotedBy '\'' value, Markdown.Native.quotedBy '"' value with
    | some inner, _ => .text (String.ofList (Markdown.Native.undoubleQuotes inner))
    | none, some inner => .text (String.ofList inner)
    | none, none => .text (String.ofList value)

/-- The text of a scalar that is one. -/
def CompactFrontmatterValue.text? : CompactFrontmatterValue → Option String
  | .text value => some value
  | _ => none

/-- The part between brackets opens no nested value. -/
def isFlatList (inner : List Char) : Bool := inner.head? ≠ some '\x7b' ∧ inner.head? ≠ some '['

def parseYamlValue (value : List Char) : CompactFrontmatterValue :=
  let inner := trimBy isPythonWhitespace value.tail.dropLast
  if isBracketed value && inner = [] then .texts []
  else if isBracketed value && isFlatList inner then
    .texts ((inner.splitOn ',').filterMap fun item =>
      (parseYamlScalar (trimBy isPythonWhitespace item)).text?.filter (· ≠ ""))
  else parseYamlScalar value

structure FrontmatterReading where
  fields : CompactFrontmatter
  activeListKey : Option String

def FrontmatterReading.start : FrontmatterReading := ⟨[], none⟩

/-- Add an item to the list of the field, if it is a list and the item a text. -/
def appendItem (fields : CompactFrontmatter) (key : String) (item : CompactFrontmatterValue) : CompactFrontmatter :=
  match Keyed.lookup Prod.fst key fields, item with
  | some (_, .texts values), .text value => Keyed.put Prod.fst (key, .texts (values ++ [value])) fields
  | _, _ => fields

/-- A property at the start of a line; the value of an empty one is the list that follows. -/
def FrontmatterReading.property (reading : FrontmatterReading) (line : List Char) : FrontmatterReading :=
  match line.dropWhile (· ≠ ':') with
  | [] => { reading with activeListKey := none }
  | _ :: rawValue =>
    let key := String.ofList (trimBy isPythonWhitespace (line.takeWhile (· ≠ ':')))
    let value := trimBy isPythonWhitespace rawValue
    if (line.head?.any isPythonWhitespace) || key = "" then { reading with activeListKey := none }
    else if value = [] then ⟨Keyed.put Prod.fst (key, .texts []) reading.fields, some key⟩
    else ⟨Keyed.put Prod.fst (key, parseYamlValue value) reading.fields, none⟩

def FrontmatterReading.line (reading : FrontmatterReading) (line : List Char) : FrontmatterReading :=
  let stripped := trimBy isPythonWhitespace line
  if stripped = [] ∨ stripped.head? = some '#' then reading
  else
    match reading.activeListKey.filter fun _ => stripped.head? = some '-' with
    | some key =>
      { reading with fields := appendItem reading.fields key (parseYamlScalar (trimBy isPythonWhitespace stripped.tail)) }
    | none => reading.property line

def isDelimiter (line : List Char) : Bool := trimBy isPythonWhitespace line = delimiter

def readFrontmatter (text : List Char) : CompactFrontmatter × List Char :=
  match splitlines text with
  | [] => ([], text)
  | first :: lines =>
    if isDelimiter first then
      match lines.dropWhile fun line => !isDelimiter line with
      | [] => ([], text)
      | _ :: body =>
        (((lines.takeWhile fun line => !isDelimiter line).foldl FrontmatterReading.line .start).fields,
          ['\n'].intercalate body)
    else ([], text)

/-! ## Reading a compact -/

def frontmatterText (frontmatter : CompactFrontmatter) (key : String) : Option String :=
  (Keyed.lookup Prod.fst key frontmatter).bind fun field => field.2.text?

def requiredText (frontmatter : CompactFrontmatter) (key : String) : Option String :=
  (frontmatterText frontmatter key).filter (· ≠ "")

def optionalString : JsonValue φ → Option String
  | .str text => if pythonStrip text = "" then none else some (pythonStrip text)
  | _ => none

def isTruthy (isZero : φ → Bool) : JsonValue φ → Bool
  | .null => false
  | .bool value => value
  | .int value => value ≠ 0
  | .float value => !isZero value
  | .str text => text ≠ ""
  | .list items => !items.isEmpty
  | .object fields => !fields.isEmpty

/-- A value that raises is `none`, an absent one `some none`. -/
def optionalParsed {α : Type} (parse : String → Option α) : Option String → Option (Option α)
  | none => some none
  | some value => if value = "" then some none else (parse value).map some

section Read
variable (env : CompactEnvironment φ)

/-- `str(value or default)` -/
def textOr (value : JsonValue φ) (default : String) : String :=
  if isTruthy env.isZero value then value.text?.getD (env.str value) else default

def sourceRefFromJson (compactId : String) (newId : String) (payload : JsonObject φ) : MemoryCompactSourceRef where
  id := textOr env (payload.get "id") newId
  compactId := textOr env (payload.get "compact_id") compactId
  sourceType := textOr env (payload.get "source_type") ""
  sourceId := textOr env (payload.get "source_id") ""
  title := textOr env (payload.get "title") ""
  detailPath := textOr env (payload.get "detail_path") ""
  sourceHash := optionalString (payload.get "source_hash")

def sourceRefsFromJson (compactId : String) (item : ℕ) (value : String) : List MemoryCompactSourceRef :=
  if value = "" then []
  else
    match env.loadsJson value with
    | some (.list items) =>
      items.zipIdx.filterMap fun entry =>
        match entry.1 with
        | .object payload => some (sourceRefFromJson env compactId (env.newUuid item entry.2) payload)
        | _ => none
    | _ => []

def sourceRefsFromFrontmatter (compactId : String) : Option CompactFrontmatterValue → List MemoryCompactSourceRef
  | some (.text value) => sourceRefsFromJson env compactId 0 value
  | some (.texts values) =>
    values.zipIdx.flatMap fun entry =>
      let normalized := pythonStrip entry.1
      if normalized = "" then []
      else sourceRefsFromJson env compactId entry.2 (if opensWith "[" normalized then normalized else "[" ++ normalized ++ "]")
  | _ => []

def statusFromFrontmatter (frontmatter : CompactFrontmatter) : Option MemoryCompactStatus :=
  (requiredText frontmatter "status").bind fun value => MemoryCompactStatus.ofValue (env.upper (pythonStrip value))

/-- The timestamp of the first key that has one. -/
def datetimeFromFrontmatter (frontmatter : CompactFrontmatter) (keys : List String) (fallback : Option Instant) :
    Option Instant :=
  match keys.findSome? (requiredText frontmatter) with
  | some value => env.parseDatetime value
  | none => fallback

def updatedAtKeys : List String := ["updated_at", "updated", "modified"]

def CompactFrontmatterValue.isTruthy : CompactFrontmatterValue → Bool
  | .null => false
  | .bool value => value
  | .text value => value ≠ ""
  | .texts values => !values.isEmpty

def updatedAtMissing (frontmatter : CompactFrontmatter) : Bool :=
  !updatedAtKeys.any fun key => (Keyed.lookup Prod.fst key frontmatter).any fun field => field.2.isTruthy

def compactFromFrontmatter (frontmatter : CompactFrontmatter) (body : List Char) : Option MemoryCompact := do
  let compactId ← requiredText frontmatter "id"
  let status ← statusFromFrontmatter env frontmatter
  let createdAt ← datetimeFromFrontmatter env frontmatter ["created_at", "created", "date"] none
  let updatedAt ← datetimeFromFrontmatter env frontmatter updatedAtKeys (some createdAt)
  let coveredFrom ← datetimeFromFrontmatter env frontmatter ["covered_from"] (some createdAt)
  let coveredTo ← datetimeFromFrontmatter env frontmatter ["covered_to"] (some updatedAt)
  let archivedAt ← optionalParsed env.parseDatetime (frontmatterText frontmatter "archived_at")
  let reviewVerdict ← optionalParsed MemoryCompactReviewVerdict.ofValue (frontmatterText frontmatter "review_verdict")
  let reviewScore ← optionalParsed env.parseInt (frontmatterText frontmatter "review_score")
  let reviewMaxScore ← optionalParsed env.parseInt (frontmatterText frontmatter "review_max_score")
  let reviewedAt ← optionalParsed env.parseDatetime (frontmatterText frontmatter "reviewed_at")
  let generationRevision ← optionalParsed env.parseInt (frontmatterText frontmatter "generation_revision")
  let generatedAt ← optionalParsed env.parseDatetime (frontmatterText frontmatter "generated_at")
  return {
    id := compactId
    project := frontmatterText frontmatter "project"
    coveredFrom := coveredFrom
    coveredTo := coveredTo
    markdownBody := String.ofList (body.rdropWhile (· = '\n'))
    status := status
    sourceRefs := sourceRefsFromFrontmatter env compactId
      ((Keyed.lookup Prod.fst "source_refs" frontmatter).map Prod.snd)
    createdAt := createdAt
    updatedAt := updatedAt
    archivedAt := archivedAt
    reviewVerdict := reviewVerdict
    reviewScore := reviewScore
    reviewMaxScore := reviewMaxScore
    reviewedAt := reviewedAt
    metadataWarnings := if updatedAtMissing frontmatter then ["memory_compact_timestamp_missing"] else []
    deduplicated := false
    sourceSetHash := frontmatterText frontmatter "source_set_hash"
    compactionPolicyVersion := frontmatterText frontmatter "compaction_policy_version"
    generationRevision := generationRevision
    generatedAt := generatedAt }

def readCompactFile (text : List Char) : Option MemoryCompact :=
  let (frontmatter, body) := readFrontmatter (universalNewlines text)
  if Keyed.lookup Prod.fst "alexandria_type" frontmatter = some ("alexandria_type", .text "memory_compact") then
    compactFromFrontmatter env frontmatter body
  else none

end Read

end Alexandria.Compacts
