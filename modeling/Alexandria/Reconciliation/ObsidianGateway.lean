import Alexandria.Notes.Supersession
import Alexandria.Reconciliation.ConflictIds
import Alexandria.Reconciliation.Copies

/-! # The canonical gateway over the vault

The gateway writes Contexts through the note service: a candidate becomes a note with the candidate's claims and source
references in its frontmatter, evidence is merged by reading a note and saving it again. A relation to an existing Context
stands in the frontmatter as a list with a mapping. The field `supersedes` is one of the known collections of texts, so a
save with a mapping in it is refused before anything is written.
-/

namespace Alexandria.Reconciliation
set_option autoImplicit false
open Text Phases
open Notes (JsonValue JsonObject Vault AuthoritativeNote)

/-- The note service with what the gateway and the recall take from pydantic, the clock and the identifiers. Pydantic reads
a data class from a mapping only. -/
structure ObsidianEnvironment (φ : Type) where
  notes : Notes.NoteEnvironment φ
  /-- `str` of a nested value. -/
  nested : Notes.NestedText φ
  isoformat : Instant → String
  dumpSourceRef : MemorySourceReference → JsonObject φ
  dumpClaim : CanonicalClaim → JsonObject φ
  validateSourceRef : JsonObject φ → Option MemorySourceReference
  validateClaim : JsonObject φ → Option CanonicalClaim
  loadsJson : String → Option (JsonValue φ)
  clock : ℕ → String
  newId : ℕ → String

/-- The vault, and how many writes there have been. -/
structure VaultWorld (φ : Type) where
  vault : Vault φ
  writes : ℕ

inductive ReadFailure
  | notFound (text : String)
  | raised (text : String)

def ReadFailure.text : ReadFailure → String
  | .notFound text => text
  | .raised text => text

variable {φ : Type}

/-! ## Claims and references as JSON -/

/-- A tuple of data classes, from a list of mappings. -/
def validated {α : Type} (validate : JsonObject φ → Option α) (items : List (JsonValue φ)) : Option (List α) :=
  items.mapM fun item =>
    match item with
    | .object fields => validate fields
    | _ => none

def dumped {α : Type} (dump : α → JsonObject φ) (values : List α) : JsonValue φ := .list (values.map fun value => .object (dump value))

/-- Texts that are not blank. -/
def stringList : JsonValue φ → List String
  | .list items => (items.filterMap JsonValue.text?).filter fun text => !isBlank isPythonWhitespace text
  | _ => []

def MemorySourceReference.key (ref : MemorySourceReference) : String × String × String :=
  (ref.sourceType, ref.sourceId, ref.detailPath)

local instance lawfulBEq_sourceRefKey : LawfulBEq (String × String × String) := inferInstance

/-- The first reference of every key, in order. -/
def mergeSourceRefs (existing incoming : List MemorySourceReference) : List MemorySourceReference :=
  (existing ++ incoming).foldl (fun merged item => if item.key ∈ merged.map (·.key) then merged else merged ++ [item]) []

namespace ObsidianGateway
variable (env : ObsidianEnvironment φ)

def sourceRefs : JsonValue φ → List MemorySourceReference
  | .list items => (validated env.validateSourceRef items).getD []
  | _ => []

/-- `_candidate_frontmatter` as the mapping that is saved. -/
def frontmatterFields (frontmatter : CandidateFrontmatter) : JsonObject φ :=
  let fields : JsonObject φ :=
    [("scope", .str frontmatter.scope.value),
      ("visibility", .str frontmatter.scope.value),
      ("project", .ofText frontmatter.identity.project),
      ("workspace_id", .ofText frontmatter.identity.workspaceId),
      ("agent_id", .ofText frontmatter.identity.agentId),
      ("user_id", .ofText frontmatter.identity.userId),
      ("session_id", .ofText frontmatter.identity.sessionId),
      ("source_actor_id", .str "memory-reconciliation"),
      ("source_actor_type", .str "SYSTEM"),
      ("evidence_refs", .ofTexts frontmatter.evidenceRefs),
      ("memory_source_refs", dumped env.dumpSourceRef frontmatter.memorySourceRefs),
      ("canonical_claims", dumped env.dumpClaim frontmatter.canonicalClaims),
      ("context_kind", .str "MEMORY"),
      ("recorded_at", .str (env.isoformat frontmatter.recordedAt)),
      ("observed_at", .ofText (frontmatter.observedAt.map env.isoformat)),
      ("valid_from", .ofText (frontmatter.validFrom.map env.isoformat)),
      ("valid_to", .ofText (frontmatter.validTo.map env.isoformat)),
      ("reconciliation_candidate_id", .str frontmatter.reconciliationCandidateId),
      ("conflict_set_ids", .ofTexts frontmatter.conflictSetIds),
      ("supersedes_context_id", .ofText frontmatter.supersedesContextId)]
  match frontmatter.related with
  | none => fields
  | some (field, noteId, path) =>
    fields.set field (.list [.object [("id", .str noteId), ("path", .str path), ("relation", .str field)]])

def notePayload (save : ObsidianSaveNote) : Notes.ObsidianSaveNote φ where
  title := save.title
  body := save.body
  alexandriaType := .context
  noteId := some save.noteId
  relativePath := none
  tags := save.tags
  status := save.status
  project := save.project
  source := save.source
  frontmatter := frontmatterFields env save.frontmatter
  expectedContentHash := none

/-! ## The calls -/

def readContext (world : VaultWorld φ) (contextId : String) : Except ReadFailure (AuthoritativeNote φ) :=
  match contextNoteId contextId with
  | none => .error (.notFound ("Context not found: " ++ contextId))
  | some noteId =>
    match Notes.readNote env.notes world.vault noteId with
    | .error text =>
      if text = Notes.notFound noteId then .error (.notFound ("Context not found: " ++ contextId)) else .error (.raised text)
    | .ok found =>
      if found.note.alexandriaType = .context then .ok found
      else .error (.raised ("Canonical note is not a Context: " ++ contextId))

def vaultNote (found : AuthoritativeNote φ) : VaultNote :=
  ⟨found.note.noteId, found.note.relativePath, found.note.alexandriaType = .context⟩

/-- The note of the Context that the new one is related to. -/
def relatedContext (world : VaultWorld φ) (creation : ContextCreation) : Except ReadFailure (Option VaultNote) :=
  match creation.relation, creation.relatedContextId with
  | some _, some contextId => (readContext env world contextId).map fun found => some (vaultNote found)
  | _, _ => .ok none

/-- Save the note and answer with the identifier of its Context. -/
def savedContext (world : VaultWorld φ) (payload : Notes.ObsidianSaveNote φ) : Except String String × VaultWorld φ :=
  let (answer, vault) :=
    Notes.saveNote env.notes env.nested world.vault payload (env.newId world.writes) (env.clock world.writes)
  (answer.map fun note => qualifiedContextId note.noteId, ⟨vault, world.writes + 1⟩)

def createContext (world : VaultWorld φ) (creation : ContextCreation) : Except String String × VaultWorld φ :=
  match lifecycleStatus creation.lifecycleStatus, relatedContext env world creation with
  | .error text, _ => (.error text, world)
  | .ok _, .error failure => (.error failure.text, world)
  | .ok status, .ok related => savedContext env world (notePayload env (savePayload creation status related))

/-- `version + 1 if isinstance(version, int) else 1`; a flag counts as a number. -/
def mergedVersion : JsonValue φ → ℤ
  | .int version => version + 1
  | .bool flag => if flag then 2 else 1
  | _ => 1

def evidenceFrontmatter (fields : JsonObject φ) (evidence : List MemorySourceReference) (now : String) : JsonObject φ :=
  fields.update
    [("evidence_refs", .ofTexts (dedupe (stringList (fields.get "evidence_refs") ++ evidence.map (·.detailPath)))),
      ("memory_source_refs",
        dumped env.dumpSourceRef (mergeSourceRefs (sourceRefs env (fields.get "memory_source_refs")) evidence)),
      ("updated_at", .str now),
      ("version", .int (mergedVersion (fields.get "version")))]

def evidencePayload (note : Notes.ObsidianNote φ) (evidence : List MemorySourceReference) (now : String) :
    Notes.ObsidianSaveNote φ where
  title := note.title
  body := note.body
  alexandriaType := .context
  noteId := some note.noteId
  relativePath := some note.relativePath
  tags := note.tags
  status := note.status
  project := note.project
  source := (note.source.filter (· ≠ "")).getD "memory-reconciliation"
  frontmatter := evidenceFrontmatter env note.frontmatter evidence now
  expectedContentHash := none

def mergeEvidence (world : VaultWorld φ) (contextId : String) (evidence : List MemorySourceReference) :
    Except String String × VaultWorld φ :=
  match readContext env world contextId with
  | .error failure => (.error failure.text, world)
  | .ok found => savedContext env world (evidencePayload env found.note evidence (env.clock world.writes))

def supersede (world : VaultWorld φ) (contextId replacementContextId : String) :
    Except String Unit × VaultWorld φ :=
  match contextNoteId contextId, contextNoteId replacementContextId with
  | some noteId, some replacementNoteId =>
    let (answer, vault) := Notes.supersede env.notes world.vault noteId replacementNoteId (env.clock world.writes)
    let translated := answer.mapError fun text =>
      if text = Notes.notFound noteId ∨ text = Notes.notFound replacementNoteId then
        "Superseded or replacement Context was not found"
      else text
    (translated, ⟨vault, world.writes + 1⟩)
  | _, _ => (.error "Supersede requires source-qualified Obsidian Context identifiers", world)

/-- A Context that is not found is not verified. -/
def verify (world : VaultWorld φ) (contextId : String) : Except String Bool :=
  match readContext env world contextId with
  | .error (.notFound _) => .ok false
  | .error (.raised text) => .error text
  | .ok found => .ok found.indexed

end ObsidianGateway

def obsidianGateway (env : ObsidianEnvironment φ) : CanonicalGateway (VaultWorld φ) where
  createContext := ObsidianGateway.createContext env
  mergeEvidence := ObsidianGateway.mergeEvidence env
  supersede := ObsidianGateway.supersede env
  verify world contextId := (ObsidianGateway.verify env world contextId, world)

/-! ## A sample -/

/-- The text of the claim that the sample candidate makes. -/
def sampleClaimText : String :=
  "\x7b'subject': 'service', 'predicate': 'port', 'object': '8080', 'qualifiers': [], 'scope': 'PROJECT', " ++
    "'project': None, 'valid_from': None, 'valid_to': None, 'polarity': 'POSITIVE'\x7d"

def dumpPositiveClaim (claim : CanonicalClaim) : JsonObject Unit :=
  [("subject", .str claim.subject), ("predicate", .str claim.predicate), ("object", .str claim.object),
    ("qualifiers", .list []), ("scope", .str "PROJECT"), ("project", .null), ("valid_from", .null), ("valid_to", .null),
    ("polarity", .str "POSITIVE")]

def validatePositiveClaim (fields : JsonObject Unit) : Option CanonicalClaim := do
  let subject ← (fields.get "subject").text?
  let predicate ← (fields.get "predicate").text?
  let claimed ← (fields.get "object").text?
  return ⟨subject, predicate, claimed, [], .positive⟩

def dumpUnobservedRef (ref : MemorySourceReference) : JsonObject Unit :=
  [("source_type", .str ref.sourceType), ("source_id", .str ref.sourceId), ("title", .str ref.title),
    ("detail_path", .str ref.detailPath), ("source_hash", .ofText ref.sourceHash), ("observed_at", .null)]

def validateUnobservedRef (fields : JsonObject Unit) : Option MemorySourceReference := do
  let sourceType ← (fields.get "source_type").text?
  let sourceId ← (fields.get "source_id").text?
  let title ← (fields.get "title").text?
  let detailPath ← (fields.get "detail_path").text?
  return ⟨sourceType, sourceId, title, detailPath, (fields.get "source_hash").text?, none⟩

/-- A vault whose timestamps are kept as they are, if they are one line. -/
def sampleObsidian : ObsidianEnvironment Unit where
  notes := { Notes.plainEnvironment with
    text := { Notes.plainEnvironment.text with
      timestamp := fun text => if text.toList.any Markdown.Native.isLineBreak then none else some text }
    defaultNotePath := fun _ title => "Alexandria/Contexts/Projects/" ++ title ++ ".md" }
  nested _ := sampleClaimText
  isoformat _ := "2026-01-01T00:00:00+00:00"
  dumpSourceRef := dumpUnobservedRef
  dumpClaim := dumpPositiveClaim
  validateSourceRef := validateUnobservedRef
  validateClaim := validatePositiveClaim
  loadsJson _ := none
  clock _ := "2026-01-01T00:00:00Z"
  newId _ := "note"

end Alexandria.Reconciliation
