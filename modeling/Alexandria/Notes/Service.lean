import Alexandria.Notes.Identity

/-! # The note service

The vault is the Markdown files and the index that is projected from them. A save checks its request against the index,
builds the frontmatter, renders the document, writes the file and indexes what the file reads back as; a Context that
supersedes another then marks it. Archiving and superseding patch single lines of the files. Every operation returns
the vault it leaves, also when it fails.
-/

namespace Alexandria.Notes
set_option autoImplicit false
open Text
open Markdown (FrontmatterScalar FrontmatterValue Mapping Floats MarkdownDocument)

inductive AlexandriaNoteType
  | context
  | memoryCompact
  | skill
  | prompt
  | jobPlan
  | implementationHistory
  deriving DecidableEq

def AlexandriaNoteType.value : AlexandriaNoteType → String
  | .context => "context"
  | .memoryCompact => "memory_compact"
  | .skill => "skill"
  | .prompt => "prompt"
  | .jobPlan => "job_plan"
  | .implementationHistory => "implementation_history"

/-- The values and their aliases. -/
def noteTypeNames : List (String × AlexandriaNoteType) :=
  [("context", .context), ("memory_compact", .memoryCompact), ("skill", .skill), ("prompt", .prompt), ("job_plan", .jobPlan),
    ("implementation_history", .implementationHistory), ("context_note", .context), ("decision", .context),
    ("decisions", .context), ("index", .context), ("indexes", .context), ("indices", .context),
    ("history", .implementationHistory), ("histories", .implementationHistory),
    ("implementation_histories", .implementationHistory), ("job", .jobPlan), ("memory", .memoryCompact),
    ("memory_compacts", .memoryCompact), ("plan", .jobPlan), ("plans", .jobPlan), ("project_context", .context),
    ("prompt_template", .prompt), ("prompt_templates", .prompt), ("prompts", .prompt), ("skills", .skill)]

/-! ## The environment -/

/-- What the service takes from other code: numbers and letter case, hashes, redaction, the section of links in a body,
paths and titles. None of it is restricted. -/
structure NoteEnvironment (φ : Type) where
  floats : Floats φ
  isZero : φ → Bool
  text : TextPlatform
  hashText : String → String
  redactSecretText : String → SecretRedaction
  addOrUpdateLinksSection : String → JsonObject φ → String
  /-- `frontmatter_contains_secret_field` -/
  containsSecretField : List Char → Bool
  /-- Python's equality of two objects. -/
  sameObject : JsonObject φ → JsonObject φ → Bool
  titleFromParts : Mapping φ → String → String → String
  defaultNotePath : AlexandriaNoteType → String → String
  safeRelativePath : String → Except String String

/-! ## Notes and the vault -/

structure SourceFile where
  text : List Char
  modifiedAt : String

structure ObsidianNote (φ : Type) where
  noteId : String
  relativePath : String
  alexandriaType : AlexandriaNoteType
  title : String
  status : String
  tags : List String
  project : Option String
  source : Option String
  contentHash : String
  sourceHash : String
  frontmatter : JsonObject φ
  body : String
  modifiedAt : String
  deriving DecidableEq

structure Vault (φ : Type) where
  files : List (String × SourceFile)
  index : List (ObsidianNote φ)

variable {φ : Type}

def Vault.empty : Vault φ := ⟨[], []⟩

def Vault.file (vault : Vault φ) (path : String) : Option SourceFile :=
  (Keyed.lookup Prod.fst path vault.files).map Prod.snd

def Vault.writeFile (vault : Vault φ) (path : String) (file : SourceFile) : Vault φ :=
  { vault with files := Keyed.put Prod.fst (path, file) vault.files }

def Vault.getById (vault : Vault φ) (noteId : String) : Option (ObsidianNote φ) :=
  Keyed.lookup ObsidianNote.noteId noteId vault.index

def Vault.getByPath (vault : Vault φ) (path : String) : Option (ObsidianNote φ) :=
  Keyed.lookup ObsidianNote.relativePath path vault.index

/-- The row of another note at the path gives way. -/
def Vault.upsertNote (vault : Vault φ) (note : ObsidianNote φ) : Vault φ :=
  { vault with
    index := Keyed.put ObsidianNote.noteId note
      (vault.index.filter fun row => row.relativePath ≠ note.relativePath || row.noteId = note.noteId) }

/-! ## Reading a file -/

/-- Text files are read with universal newlines. -/
def universalNewlines : List Char → List Char
  | '\r' :: '\n' :: rest => '\n' :: universalNewlines rest
  | '\r' :: rest => '\n' :: universalNewlines rest
  | c :: rest => c :: universalNewlines rest
  | [] => []

def jsonScalar : FrontmatterScalar φ → JsonValue φ
  | .none => .null
  | .bool value => .bool value
  | .int value => .int value
  | .float value => .float value
  | .str text => .str text

def frontmatterJson (frontmatter : Mapping φ) : JsonObject φ :=
  frontmatter.map fun item =>
    (item.1, match item.2 with
      | .scalar value => jsonScalar value
      | .list items => .list (items.map jsonScalar))

def frontmatterText (fields : JsonObject φ) (key : String) : Option String := (fields.get key).text?

/-- The texts of a list, or a text alone. -/
def frontmatterList (fields : JsonObject φ) (key : String) : List String :=
  match fields.get key with
  | .list items => items.filterMap JsonValue.text?
  | .str text => if text = "" then [] else [text]
  | _ => []

section Service
variable (env : NoteEnvironment φ)

def normalizedAlexandriaNoteType (value : String) : Option AlexandriaNoteType :=
  (noteTypeNames.find? fun name => name.1 = underscored (env.text.casefold (pythonStrip value))).map Prod.snd

def noteTypeFromFrontmatter (fields : JsonObject φ) : Except String (Option AlexandriaNoteType) :=
  match (frontmatterText fields "alexandria_type").filter (· ≠ "") with
  | some explicit =>
    match normalizedAlexandriaNoteType env explicit with
    | some noteType => .ok (some noteType)
    | none => .error "FRONTMATTER_PARSE_ERROR: invalid alexandria_type"
  | none =>
    .ok (["type", "item_type"].findSome? fun key => (frontmatterText fields key).bind (normalizedAlexandriaNoteType env))

def stripNewlines (text : String) : String := String.ofList (trimBy (· = '\n') text.toList)

def contextContentHash (content : String) : String := env.hashText (stripNewlines content)

/-- What a file reads as; `none` when it is not managed. -/
def noteIndexFromFile (relativePath : String) (file : SourceFile) : Except String (Option (ObsidianNote φ)) := do
  let text := universalNewlines file.text
  if env.containsSecretField text then
    .error "FRONTMATTER_SECRET_DETECTED: frontmatter contains a secret-like field"
  else
    let document ← Markdown.parseMarkdownDocument env.floats text
    let fields := frontmatterJson document.frontmatter
    match ← noteTypeFromFrontmatter env fields with
    | none => .ok none
    | some noteType =>
      match (frontmatterText fields "id").filter (· ≠ "") with
      | none => .error "FRONTMATTER_PARSE_ERROR: managed note is missing id"
      | some noteId =>
        let note : ObsidianNote φ :=
          { noteId := noteId
            relativePath := relativePath
            alexandriaType := noteType
            title := env.titleFromParts document.frontmatter document.body relativePath
            status := ((frontmatterText fields "status").filter (· ≠ "")).getD "active"
            tags := frontmatterList fields "tags"
            project := frontmatterText fields "project"
            source := frontmatterText fields "source"
            contentHash := env.hashText (String.ofList text)
            sourceHash := env.hashText (String.ofList text)
            frontmatter := fields.set "alexandria_type" (.str noteType.value)
            body := document.body
            modifiedAt := file.modifiedAt }
        if noteType = .context then
          let identity ← contextIdentityFromFrontmatter env.text note.frontmatter note.project note.status
            (contextContentHash env document.body)
          .ok (some
            { note with
              frontmatter := (note.frontmatter.update (normalizedContextFrontmatter identity)).erase "provenance"
              project := identity.identity.project
              status := identity.status.value
              contentHash := identity.contentHash })
        else .ok (some note)

/-- A note read from its file; `indexed` says whether the index agrees with it. -/
structure AuthoritativeNote (φ : Type) where
  note : ObsidianNote φ
  indexed : Bool

def authoritativeNote (row : Option (ObsidianNote φ)) (expectedNoteId : String) (payload : ObsidianNote φ) :
    Except String (AuthoritativeNote φ) :=
  if payload.noteId ≠ expectedNoteId then
    .error "SOURCE_ID_MISMATCH: canonical Markdown id does not match requested id"
  else
    .ok ⟨payload, row.any fun row => row.relativePath = payload.relativePath && row.contentHash = payload.contentHash &&
      env.sameObject row.frontmatter payload.frontmatter⟩

def sourceScanLimit : ℕ := 4096

def notFound (noteId : String) : String := "Obsidian note not found: " ++ noteId

/-- Look for the identifier in all files. -/
def readNoteFromSourceSnapshot (vault : Vault φ) (noteId : String) (row : Option (ObsidianNote φ)) :
    Except String (AuthoritativeNote φ) :=
  match vault.files.mapM fun file => noteIndexFromFile env file.1 file.2 with
  | .error _ => .error "SOURCE_SCAN_INCOMPLETE: cannot prove requested note id is absent or unique"
  | .ok payloads =>
    if sourceScanLimit < vault.files.length then
      .error "SOURCE_SCAN_INCOMPLETE: cannot prove requested note id is absent or unique"
    else
      match (payloads.filterMap id).filter fun payload => payload.noteId = noteId with
      | [] => .error (notFound noteId)
      | [payload] => authoritativeNote env row noteId payload
      | _ => .error "AMBIGUOUS_SOURCE_NOTE_ID: multiple canonical Markdown notes match the requested id"

def readNote (vault : Vault φ) (noteId : String) : Except String (AuthoritativeNote φ) :=
  match vault.getById noteId with
  | none => readNoteFromSourceSnapshot env vault noteId none
  | some row =>
    match vault.file row.relativePath with
    | none => readNoteFromSourceSnapshot env vault noteId (some row)
    | some file =>
      match noteIndexFromFile env row.relativePath file with
      | .error text => .error text
      | .ok none => .error ("Obsidian note is missing Alexandria frontmatter: " ++ row.relativePath)
      | .ok (some payload) => authoritativeNote env (some row) noteId payload

/-! ## Writing a file -/

/-- An operation returns the vault it leaves, also when it raises. -/
abbrev Outcome (φ α : Type) := Except String α × Vault φ

/-- Write the document, read it back and index it. -/
def persistAndIndex (missing : String) (vault : Vault φ) (path : String) (document : List Char) (now : String) :
    Outcome φ (ObsidianNote φ) :=
  let file : SourceFile := ⟨document, now⟩
  let written := vault.writeFile path file
  match noteIndexFromFile env path file with
  | .error text => (.error text, written)
  | .ok none => (.error missing, written)
  | .ok (some note) => (.ok note, written.upsertNote note)

/-! ## Lifecycle -/

/-- `splitlines(keepends=True)`: the lines with their endings. -/
def pythonLinesFrom (line : List Char) : List Char → List (List Char × List Char)
  | [] => if line = [] then [] else [(line, [])]
  | '\r' :: '\n' :: rest => (line, ['\r', '\n']) :: pythonLinesFrom [] rest
  | c :: rest =>
    if Markdown.Native.isLineBreak c then (line, [c]) :: pythonLinesFrom [] rest else pythonLinesFrom (line ++ [c]) rest

def pythonLines (text : List Char) : List (List Char × List Char) := pythonLinesFrom [] text

def isNewlineChar (c : Char) : Bool := c = '\r' || c = '\n'

/-- The line without trailing carriage returns and line feeds, and what was taken off. -/
def rawLine (line : List Char × List Char) : List Char × List Char :=
  let whole := line.1 ++ line.2
  let raw := whole.rdropWhile isNewlineChar
  (raw, whole.drop raw.length)

def isDelimiterLine (line : List Char × List Char) : Bool :=
  trimBy isPythonWhitespace (rawLine line).1 = Markdown.Native.delimiter

def scalarLine (key value : String) : List Char := key.toList ++ (": ".toList ++ Markdown.yamlText value.toList)

/-- The key of a line at the margin. -/
def marginKey (raw : List Char) : Option String :=
  if raw ≠ raw.dropWhile isPythonWhitespace then none
  else if ':' ∉ raw then none
  else some (String.ofList (trimBy isPythonWhitespace (raw.takeWhile (· ≠ ':'))))

def patchedLine (replacements : List (String × String)) (line : List Char × List Char) : List Char :=
  match marginKey (rawLine line).1 with
  | none => line.1 ++ line.2
  | some key =>
    match (Keyed.lookup Prod.fst key replacements).map Prod.snd with
    | none => line.1 ++ line.2
    | some value => scalarLine key value ++ (rawLine line).2

def updateFrontmatterScalars (text : List Char) (replacements : List (String × String)) : Except String (List Char) :=
  match pythonLines text with
  | [] => .error "FRONTMATTER_PARSE_ERROR: frontmatter is required"
  | opening :: lines =>
    if !isDelimiterLine opening then .error "FRONTMATTER_PARSE_ERROR: frontmatter is required"
    else
      match lines.dropWhile fun line => !isDelimiterLine line with
      | [] => .error "FRONTMATTER_PARSE_ERROR: unterminated frontmatter"
      | closing :: body =>
        let content := lines.takeWhile fun line => !isDelimiterLine line
        let matched := content.filterMap fun line => marginKey (rawLine line).1
        let ending := if opening.2 = ['\r', '\n'] then ['\r', '\n'] else ['\n']
        let additions := (replacements.filter fun entry => entry.1 ∉ matched).flatMap fun entry =>
          scalarLine entry.1 entry.2 ++ ending
        .ok (opening.1 ++ opening.2 ++ content.flatMap (patchedLine replacements) ++ additions ++
          (closing :: body).flatMap fun line => line.1 ++ line.2)

def updateScalars (vault : Vault φ) (note : ObsidianNote φ) (replacements : List (String × String)) (now : String) :
    Outcome φ (ObsidianNote φ) :=
  match vault.file note.relativePath with
  | none => (.error "SOURCE_READ_FAILED", vault)
  | some file =>
    match updateFrontmatterScalars (universalNewlines file.text) (replacements ++ [("updated_at", now)]) with
    | .error text => (.error text, vault)
    | .ok document =>
      persistAndIndex env "updated Context lost managed frontmatter" vault note.relativePath document now

def archiveNote (vault : Vault φ) (note : ObsidianNote φ) (now : String) : Outcome φ (ObsidianNote φ) :=
  if note.alexandriaType ≠ .context then (.error ("Not a Context note: " ++ note.noteId), vault)
  else updateScalars env vault note [("status", "archived")] now

/-- The version after the one in the frontmatter; a flag counts as a number. -/
def nextVersion (frontmatter : JsonObject φ) : ℤ :=
  match frontmatter.get "version" with
  | .int version => version + 1
  | .bool flag => if flag then 2 else 1
  | _ => 2

def intString (n : ℤ) : String := String.ofList (Markdown.intText n)

/-- The lines that mark a Context as superseded. -/
def markReplacements (superseded : ObsidianNote φ) (replacementId : String) : List (String × String) :=
  [("status", "superseded"), ("version", intString (nextVersion superseded.frontmatter)),
    ("superseded_by_context_id", replacementId)]

def markSuperseded (vault : Vault φ) (supersededId replacementId : String) (now : String) : Outcome φ (ObsidianNote φ) :=
  match vault.getById supersededId with
  | none => (.error "INVALID_SUPERSEDE: superseded Context disappeared during save", vault)
  | some superseded =>
    let existing := superseded.frontmatter.get "superseded_by_context_id"
    if !existing.isNullOr replacementId then
      (.error "INVALID_SUPERSEDE: Context already has a different replacement", vault)
    else if existing.text? = some replacementId ∧ superseded.status = "superseded" then (.ok superseded, vault)
    else updateScalars env vault superseded (markReplacements superseded replacementId) now

/-- The forward link of the replacement, which becomes current unless it is superseded itself. -/
def linkReplacements (superseded replacement : ObsidianNote φ) : List (String × String) :=
  [("version", intString (nextVersion replacement.frontmatter)), ("supersedes_context_id", superseded.noteId)] ++
    if (replacement.frontmatter.get "superseded_by_context_id").isNull then [("status", "current")] else []

def supersedeNotes (vault : Vault φ) (superseded replacement : ObsidianNote φ) (now : String) : Outcome φ Unit :=
  let existingReplacement := superseded.frontmatter.get "superseded_by_context_id"
  let existingTarget := replacement.frontmatter.get "supersedes_context_id"
  if superseded.alexandriaType ≠ .context then
    (.error ("INVALID_SUPERSEDE: not a Context note: " ++ superseded.noteId), vault)
  else if replacement.alexandriaType ≠ .context then
    (.error ("INVALID_SUPERSEDE: not a Context note: " ++ replacement.noteId), vault)
  else if superseded.noteId = replacement.noteId then
    (.error "INVALID_SUPERSEDE: Context cannot supersede itself", vault)
  else if !existingReplacement.isNullOr replacement.noteId then
    (.error "INVALID_SUPERSEDE: Context already has a different replacement", vault)
  else if !existingTarget.isNullOr superseded.noteId then
    (.error "INVALID_SUPERSEDE: replacement already supersedes a different Context", vault)
  else if existingReplacement.text? = some replacement.noteId ∧ existingTarget.text? = some superseded.noteId ∧
      superseded.status = "superseded" then (.ok (), vault)
  else
    let marked := fun vault : Vault φ =>
      let (answer, after) := markSuperseded env vault superseded.noteId replacement.noteId now
      (answer.map fun _ => (), after)
    if existingTarget.isNull then
      match updateScalars env vault replacement (linkReplacements superseded replacement) now with
      | (.error text, after) => (.error text, after)
      | (.ok _, after) => marked after
    else marked vault

def archive (vault : Vault φ) (noteId now : String) : Outcome φ (ObsidianNote φ) :=
  match readNote env vault noteId with
  | .error text => (.error text, vault)
  | .ok found => archiveNote env vault found.note now

def supersede (vault : Vault φ) (noteId replacementNoteId now : String) : Outcome φ Unit :=
  match readNote env vault noteId, readNote env vault replacementNoteId with
  | .error text, _ => (.error text, vault)
  | .ok _, .error text => (.error text, vault)
  | .ok superseded, .ok replacement => supersedeNotes env vault superseded.note replacement.note now

/-! ## The frontmatter of a save -/

structure ObsidianSaveNote (φ : Type) where
  title : String
  body : String
  alexandriaType : AlexandriaNoteType
  noteId : Option String
  relativePath : Option String
  tags : List String
  status : String
  project : Option String
  source : String
  frontmatter : JsonObject φ
  expectedContentHash : Option String

/-- `value or now` -/
def orNow (value : JsonValue φ) (now : String) : JsonValue φ := if value.truthy env.isZero then value else .str now

def frontmatterForSave (payload : ObsidianSaveNote φ) (fields : JsonObject φ) (noteId title : String)
    (redactionWarnings : List String) (now : String) : Except String (JsonObject φ) :=
  let updated := fields.update
    [("alexandria_type", .str payload.alexandriaType.value), ("id", .str noteId), ("title", .str title),
      ("tags", .ofTexts payload.tags), ("status", .str payload.status),
      ("created_at", orNow env (fields.get "created_at") now), ("updated_at", orNow env (fields.get "updated_at") now),
      ("source", .str payload.source)]
  let projected := match payload.project with
    | some project => updated.set "project" (.str project)
    | none => updated
  normalizeKnownFrontmatterMetadata
    (if redactionWarnings = [] then projected else projected.set "redaction_warnings" (.ofTexts redactionWarnings))

inductive ObsidianFrontmatterMode
  | merge
  | replaceUserFields
  deriving DecidableEq

def immutableSystemFields : List String := ["id", "created_at", "original_source", "initial_content_hash"]

def historyFields : List String := ["updated_at", "version", "previous_content_hash", "content_hash"]

def copyFields (names : List String) (source target : JsonObject φ) : JsonObject φ :=
  names.foldl (fun acc name => if source.has name then acc.set name (source.get name) else acc) target

/-- `frontmatter.get(key, default)`: only a missing key takes the default. -/
def getOr (fields : JsonObject φ) (key : String) (default : JsonValue φ) : JsonValue φ :=
  if fields.has key then fields.get key else default

/-- `existing.source or other` -/
def sourceOr (existing : ObsidianNote φ) (other : JsonValue φ) : JsonValue φ :=
  match existing.source.filter (· ≠ "") with
  | some source => .str source
  | none => other

def initialContentHash (existing : ObsidianNote φ) : JsonValue φ :=
  getOr existing.frontmatter "initial_content_hash"
    (getOr existing.frontmatter "content_hash" (.str (env.hashText existing.body)))

def mergedFrontmatter (payload : ObsidianSaveNote φ) (existing : Option (ObsidianNote φ))
    (mode : ObsidianFrontmatterMode) : JsonObject φ :=
  match existing with
  | none => payload.frontmatter
  | some existing =>
    let kept := match mode with
      | .merge => existing.frontmatter
      | .replaceUserFields =>
        existing.frontmatter.filter fun field => (immutableSystemFields ++ historyFields).contains field.1
    (copyFields immutableSystemFields existing.frontmatter (kept.update payload.frontmatter)).update
      [("created_at", getOr existing.frontmatter "created_at" (.str existing.modifiedAt)),
        ("original_source", getOr existing.frontmatter "original_source" (sourceOr existing (.str payload.source))),
        ("initial_content_hash", initialContentHash env existing)]

def withoutHistory (fields : JsonObject φ) : JsonObject φ := fields.filter fun field => !historyFields.contains field.1

def writeIsUnchanged (existing : ObsidianNote φ) (desiredFrontmatter : JsonObject φ) (desiredBody : String) : Bool :=
  existing.body.toList = '\n' :: desiredBody.toList.rdropWhile (· = '\n') &&
    env.sameObject (withoutHistory desiredFrontmatter) (withoutHistory existing.frontmatter)

/-- `_version` -/
def historyVersion : JsonValue φ → ℤ
  | .int value => max value 1
  | .str text =>
    match env.text.decimal text with
    | some value => max value 1
    | none => 1
  | _ => 1

def applyWriteHistory (fields : JsonObject φ) (existing : Option (ObsidianNote φ)) (body now : String) : JsonObject φ :=
  let bodyHash := JsonValue.str (env.hashText body)
  let modified := (fields.get "source").truthy env.isZero
  let dated := match existing with
    | none =>
      fields.update [("created_at", .str now), ("original_source", fields.get "source"), ("version", .int 1),
        ("initial_content_hash", bodyHash)]
    | some existing =>
      fields.update
        [("created_at", getOr existing.frontmatter "created_at" (.str existing.modifiedAt)),
          ("original_source", getOr existing.frontmatter "original_source" (sourceOr existing (fields.get "source"))),
          ("initial_content_hash", initialContentHash env existing),
          ("previous_content_hash", getOr existing.frontmatter "content_hash" (.str (env.hashText existing.body))),
          ("version", .int (historyVersion env (existing.frontmatter.get "version") + 1))]
  dated.update [("updated_at", .str now), ("content_hash", bodyHash),
    ("last_modified_by", if modified then fields.get "source" else .str "unknown")]

/-! ## The policy of Contexts -/

structure ContextSavePolicyResult (φ : Type) where
  frontmatter : JsonObject φ
  supersedesContextId : Option String
  duplicate : Option (ObsidianNote φ)
  deriving DecidableEq

/-- The target exists and has no other replacement; the replacement exists and names this Context. -/
def validateSupersedeRelations (vault : Vault φ) (identity : ObsidianContextIdentity) (noteId : String) :
    Except String Unit :=
  let targetError : Option String :=
    match identity.supersedesContextId with
    | none => none
    | some target =>
      match (vault.getById target).filter fun row => row.alexandriaType = .context with
      | none => some "INVALID_SUPERSEDE: superseded Context does not exist"
      | some superseded =>
        if (superseded.frontmatter.get "superseded_by_context_id").isNullOr noteId then none
        else some "INVALID_SUPERSEDE: Context already has a different replacement"
  match targetError, identity.supersededByContextId with
  | some text, _ => .error text
  | none, none => .ok ()
  | none, some replacementId =>
    match (vault.getById replacementId).filter fun row => row.alexandriaType = .context with
    | some replacement =>
      if (replacement.frontmatter.get "supersedes_context_id").text? = some noteId then .ok ()
      else .error "INVALID_SUPERSEDE: replacement Context is absent or does not reference this Context"
    | none => .error "INVALID_SUPERSEDE: replacement Context is absent or does not reference this Context"

/-- An indexed Context with the same scope, owners and content, under another identifier. -/
def findContextDuplicate (vault : Vault φ) (identity : ObsidianContextIdentity) (noteId : String) :
    Option (ObsidianNote φ) :=
  vault.index.find? fun row =>
    row.noteId ≠ noteId && row.alexandriaType = .context &&
      ((frontmatterText row.frontmatter "scope").map env.text.upper = some identity.scope.value) &&
      (frontmatterText row.frontmatter "content_hash" = some identity.contentHash) &&
      ([("project", identity.identity.project), ("workspace_id", identity.identity.workspaceId),
        ("agent_id", identity.identity.agentId), ("user_id", identity.identity.userId),
        ("session_id", identity.identity.sessionId)].all fun field => frontmatterText row.frontmatter field.1 = field.2)

def applyContextSavePolicy (vault : Vault φ) (payload : ObsidianSaveNote φ) (noteId : String) (fields : JsonObject φ)
    (body : String) : Except String (ContextSavePolicyResult φ) := do
  if ((fields.get "scope").text?.bind strippedText).isNone then
    .error "INVALID_SCOPE: new Context saves require an explicit scope"
  else
    let candidate := fields.erase "content_hash"
    let identity ← contextIdentityFromFrontmatter env.text candidate payload.project payload.status
      (contextContentHash env body)
    validateSupersedeRelations vault identity noteId
    return ⟨(candidate.update (normalizedContextFrontmatter identity)).erase "provenance", identity.supersedesContextId,
      findContextDuplicate env vault identity noteId⟩

/-! ## Saving -/

/-- A JSON value as the renderer takes it: a nested value stands as its `str`. -/
def frontmatterScalar (str : JsonValue φ → String) : JsonValue φ → FrontmatterScalar φ
  | .null => .none
  | .bool value => .bool value
  | .int value => .int value
  | .float value => .float value
  | .str text => .str text
  | value => .str (str value)

def frontmatterValue (str : JsonValue φ → String) : JsonValue φ → FrontmatterValue φ
  | .list items => .list (items.map (frontmatterScalar str))
  | value => .scalar (frontmatterScalar str value)

/-- `str` of a nested list or mapping. -/
abbrev NestedText (φ : Type) := JsonValue φ → String

def renderDocument (str : NestedText φ) (fields : JsonObject φ) (body : String) : List Char :=
  Markdown.renderMarkdownDocument env.floats (fields.map fun field => (field.1, frontmatterValue str field.2)) body

/-- The document a save writes, for which note and where. -/
structure SaveDocument where
  noteId : String
  path : String
  document : List Char
  supersedesContextId : Option String
  deriving DecidableEq

/-- What a save has decided before it writes. -/
inductive PreparedSave (φ : Type)
  /-- The note is unchanged, or the Context exists already. -/
  | existing (note : ObsidianNote φ)
  | document (save : SaveDocument)
  deriving DecidableEq

def noteIdFromExistingFile (vault : Vault φ) (path : String) : Option String := do
  let file ← vault.file path
  let document ← (Markdown.parseMarkdownDocument env.floats (universalNewlines file.text)).toOption
  frontmatterText (frontmatterJson document.frontmatter) "id"

def writeConflict (detail path : String) : String := "OBSIDIAN_WRITE_CONFLICT: " ++ detail ++ ": " ++ path

/-- The compare-and-swap token is that of the row, and the file still agrees with the row. -/
def validateExpectedContentHash (vault : Vault φ) (payload : ObsidianSaveNote φ) (row : Option (ObsidianNote φ))
    (path : String) : Except String Unit :=
  match payload.expectedContentHash, row with
  | none, _ => .ok ()
  | some _, none => .error (writeConflict "note does not exist" path)
  | some expected, some row =>
    if row.contentHash ≠ expected then
      .error (writeConflict "expected content hash does not match the current note" path)
    else if (vault.file path).any fun file => env.hashText (String.ofList (universalNewlines file.text)) = row.sourceHash then
      .ok ()
    else
      match (vault.file path).map (noteIndexFromFile env path) with
      | some (.ok (some payload)) =>
        match authoritativeNote env (some row) row.noteId payload with
        | .ok found =>
          if found.indexed then .ok ()
          else .error (writeConflict "canonical Markdown changed since the indexed compare-and-swap token was observed" path)
        | .error _ => .error (writeConflict "canonical Markdown cannot be verified before compare-and-swap" path)
      | _ => .error (writeConflict "canonical Markdown cannot be verified before compare-and-swap" path)

/-- The identifier of the request, of the note at the path, of an unindexed file there, or a new one. -/
def saveNoteId (vault : Vault φ) (payload : ObsidianSaveNote φ) (path newId : String) : String :=
  (((payload.noteId.filter (· ≠ "")).or (((vault.getByPath path).map (·.noteId)).filter (· ≠ ""))).or
    ((noteIdFromExistingFile env vault path).filter (· ≠ ""))).getD newId

/-- An identifier is used at one path only. -/
def uniqueTarget (vault : Vault φ) (noteId path : String) : Except String (String × String) :=
  match vault.getById noteId with
  | none => .ok (noteId, path)
  | some other =>
    if other.relativePath = path then .ok (noteId, path)
    else .error ("DUPLICATE_CONTEXT_ID: " ++ noteId ++ " is already used by " ++ other.relativePath)

theorem uniqueTarget_ok {vault : Vault φ} {noteId path : String} {target : String × String}
    (h : uniqueTarget vault noteId path = .ok target) : target = (noteId, path) ∧
      ∀ other, vault.getById noteId = some other → other.relativePath = path := by
  unfold uniqueTarget at h
  cases hother : vault.getById noteId with
  | none =>
    rw [hother] at h
    cases h
    exact ⟨rfl, fun _ h => absurd h (by simp)⟩
  | some other =>
    rw [hother] at h
    simp only at h
    split at h
    · rename_i hpath
      cases h
      refine ⟨rfl, ?_⟩
      intro other' hother'
      cases hother'
      exact hpath
    · cases h

/-- The identifier and the path a save writes to. -/
def saveTarget (vault : Vault φ) (payload : ObsidianSaveNote φ) (title newId : String) : Except String (String × String) := do
  let path ← env.safeRelativePath
    (((payload.relativePath).filter (· ≠ "")).getD (env.defaultNotePath payload.alexandriaType title))
  validateExpectedContentHash env vault payload (vault.getByPath path) path
  if (vault.getByPath path).any fun row => payload.noteId.any fun noteId => row.noteId ≠ noteId then
    .error ("Obsidian path is already indexed with a different id: " ++ path)
  else uniqueTarget vault (saveNoteId env vault payload path newId) path

/-- The frontmatter a save asks for, before the policy of Contexts. -/
def desiredFrontmatter (payload : ObsidianSaveNote φ) (existing : Option (ObsidianNote φ))
    (mode : Option ObsidianFrontmatterMode) (noteId title : String) (warnings : List String) (now : String) :
    Except String (JsonObject φ) :=
  match mode with
  | none => frontmatterForSave env payload payload.frontmatter noteId title warnings now
  | some mode => frontmatterForSave env payload (mergedFrontmatter env payload existing mode) noteId title warnings now

def prepareSave (str : NestedText φ) (vault : Vault φ) (payload : ObsidianSaveNote φ) (existing : Option (ObsidianNote φ))
    (mode : Option ObsidianFrontmatterMode) (newId now : String) : Except String (PreparedSave φ) := do
  let title := pythonStrip payload.title
  if title = "" then .error "title is required"
  else if (env.redactSecretText payload.body).blocked then .error "high-risk secret content cannot be saved"
  else
    let redacted ← redactedFrontmatter env.redactSecretText payload.frontmatter
    let payload := { payload with frontmatter := redacted.1 }
    let target ← saveTarget env vault payload title newId
    let fields ← desiredFrontmatter env payload existing mode target.1 title
      ((env.redactSecretText payload.body).warnings ++ redacted.2) now
    let body := env.addOrUpdateLinksSection (env.redactSecretText payload.body).redactedContent fields
    match (if mode.isSome then existing else none).filter fun existing => writeIsUnchanged env existing fields body with
    | some unchanged => .ok (.existing unchanged)
    | none =>
      let dated := if mode.isSome then applyWriteHistory env fields existing body now else fields
      if payload.alexandriaType = .context then
        let policy ← applyContextSavePolicy env vault payload target.1 dated body
        match policy.duplicate with
        | some duplicate => .ok (.existing duplicate)
        | none =>
          .ok (.document
            ⟨target.1, target.2, renderDocument env str policy.frontmatter body, policy.supersedesContextId⟩)
      else .ok (.document ⟨target.1, target.2, renderDocument env str dated body, none⟩)

def saveNoteSerialized (str : NestedText φ) (vault : Vault φ) (payload : ObsidianSaveNote φ)
    (existing : Option (ObsidianNote φ)) (mode : Option ObsidianFrontmatterMode) (newId now : String) :
    Outcome φ (ObsidianNote φ) :=
  match prepareSave env str vault payload existing mode newId now with
  | .error text => (.error text, vault)
  | .ok (.existing note) => (.ok note, vault)
  | .ok (.document save) =>
    match persistAndIndex env "saved note is missing Alexandria frontmatter" vault save.path save.document now with
    | (.error text, after) => (.error text, after)
    | (.ok note, after) =>
      match save.supersedesContextId with
      | none => (.ok note, after)
      | some target =>
        let (answer, marked) := markSuperseded env after target note.noteId now
        (answer.map fun _ => note, marked)

def saveNote (str : NestedText φ) (vault : Vault φ) (payload : ObsidianSaveNote φ) (newId now : String) :
    Outcome φ (ObsidianNote φ) :=
  saveNoteSerialized env str vault payload none none newId now

/-! ## Explicit writes -/

inductive ObsidianWriteMode
  | create
  | update
  | upsert
  deriving DecidableEq

inductive ObsidianWriteMatchBy
  | noteId
  | path
  deriving DecidableEq

structure ObsidianWriteNote (φ : Type) where
  note : ObsidianSaveNote φ
  writeMode : ObsidianWriteMode
  matchBy : ObsidianWriteMatchBy
  frontmatterMode : ObsidianFrontmatterMode
  providedFields : Option (List String)

/-- Fields the caller did not provide keep the values of the note. -/
def preserveOmittedUpdateFields (payload : ObsidianSaveNote φ) (existing : ObsidianNote φ)
    (providedFields : Option (List String)) : ObsidianSaveNote φ :=
  match providedFields with
  | none => payload
  | some provided =>
    { payload with
      tags := if provided.contains "tags" then payload.tags else existing.tags
      status := if provided.contains "status" then payload.status else existing.status
      project := if provided.contains "project" then payload.project else existing.project
      source := if provided.contains "source" then payload.source
        else (existing.source.filter (· ≠ "")).getD payload.source }

def identityConflict (path : String) : String := "OBSIDIAN_IDENTITY_CONFLICT: " ++ path

/-- The payload with its target and the note that is there. The refresh of the index is left out, which does not change
an index that agrees with the files. -/
def resolveWriteTarget (vault : Vault φ) (command : ObsidianWriteNote φ) :
    Except String (ObsidianSaveNote φ × Option (ObsidianNote φ)) := do
  let payload := command.note
  let title := pythonStrip payload.title
  if command.matchBy = .noteId ∧ payload.noteId.isNone then .error "note_id is required when match_by=note_id"
  else if command.matchBy = .path ∧ payload.relativePath.isNone then .error "path is required when match_by=path"
  else if title = "" then .error "title is required"
  else
    let path ← env.safeRelativePath
      ((payload.relativePath.filter (· ≠ "")).getD (env.defaultNotePath payload.alexandriaType title))
    let byPath := vault.getByPath path
    let byId := payload.noteId.bind vault.getById
    let occupied := byId.isSome ∨ byPath.isSome ∨ (vault.file path).isSome
    if (payload.relativePath.isSome ∨ command.matchBy = .path ∨ command.writeMode = .create) ∧
        (byId.any fun note => byPath.any fun other => note.noteId ≠ other.noteId) then .error (identityConflict path)
    else if command.writeMode = .create then
      if occupied then .error (identityConflict path) else .ok ({ payload with relativePath := some path }, none)
    else
      match (if command.matchBy = .noteId then byId else byPath) with
      | some target =>
        if (payload.relativePath.isSome ∧ target.relativePath ≠ path) ∨ (payload.noteId.any fun noteId => target.noteId ≠ noteId)
        then .error (identityConflict path)
        else
          .ok ({ preserveOmittedUpdateFields payload target command.providedFields with
            noteId := some target.noteId, relativePath := some target.relativePath }, some target)
      | none =>
        if command.writeMode = .update then .error ("Obsidian write target not found: " ++ path)
        else if occupied then .error (identityConflict path)
        else .ok ({ payload with relativePath := some path }, none)

def writeNote (str : NestedText φ) (vault : Vault φ) (command : ObsidianWriteNote φ) (newId now : String) :
    Outcome φ (ObsidianNote φ) :=
  match resolveWriteTarget env vault command with
  | .error text => (.error text, vault)
  | .ok (payload, existing) =>
    saveNoteSerialized env str vault payload existing (some command.frontmatterMode) newId now

end Service

end Alexandria.Notes
