import Alexandria.Graph.RelationMutation
import Alexandria.Reconciliation.StoredEvidence

/-! # Metadata operations and the body

Evidence is merged and notes are related by reading a note, changing its frontmatter and saving it with the body that was read.
Such a round writes the body again and reads it back. It keeps the text outside the links section when the operation takes off
the line break that reading put there, and nothing else at the ends of the body is trimmed.
-/

namespace Alexandria.Reconciliation
set_option autoImplicit false
open Text
open Graph (StructuredText RelateRequest SameOutside BodyKept compensated outsideBlock)
open Notes (JsonValue JsonObject ObsidianFrontmatterMode PreparedSave OneLineText LineText UnbrokenFields UnbrokenField
  UnbrokenNote PayloadLines lineValue_ofTexts reread)

variable {φ : Type}

/-- The service renders the links of a frontmatter into the body. Where the substitution raises nothing is saved; the body
stands for it. -/
def withLinks (structured : StructuredText φ) (env : ObsidianEnvironment φ) : ObsidianEnvironment φ :=
  { env with
    notes := { env.notes with
      addOrUpdateLinksSection := fun body fields =>
        ((Graph.addOrUpdateAlexandriaLinksSection structured body.toList fields).map String.ofList).getD body } }

theorem LinesKept.withLinks {env : ObsidianEnvironment φ} (h : LinesKept env) (structured : StructuredText φ) :
    LinesKept (withLinks structured env) where
  notes := ⟨h.notes.redacts, h.notes.hash, h.notes.timestamp⟩
  nested := h.nested
  isoformat := h.isoformat
  clock := h.clock

/-! ## Operations -/

inductive MetadataOperation (φ : Type)
  | mergeEvidence (evidence : List MemorySourceReference)
  | relate (request : RelateRequest φ)

namespace MetadataOperation

/-- Whether the operation takes the first line break off the body. -/
def relating : MetadataOperation φ → Bool
  | .mergeEvidence _ => false
  | .relate _ => true

/-- The texts that an operation brings into the frontmatter as they are. -/
def Lines : MetadataOperation φ → Prop
  | .mergeEvidence evidence => ∀ ref ∈ evidence, OneLineText ref.detailPath
  | .relate request => OneLineText request.operationSource

end MetadataOperation

/-- What an operation hands to the save. -/
structure SaveRequest (φ : Type) where
  payload : Notes.ObsidianSaveNote φ
  existing : Option (Notes.ObsidianNote φ)
  mode : Option ObsidianFrontmatterMode

section Rounds
variable (env : ObsidianEnvironment φ) (structured : StructuredText φ) (world : VaultWorld φ)

def saveRequest (note : Notes.ObsidianNote φ) : MetadataOperation φ → Except String (SaveRequest φ)
  | .mergeEvidence evidence =>
    if note.alexandriaType = .context then
      .ok ⟨ObsidianGateway.evidencePayload env note evidence (env.clock world.writes), none, none⟩
    else .error ("Canonical note is not a Context: " ++ qualifiedContextId note.noteId)
  | .relate request =>
    (Graph.relateCommand structured note request).bind fun command =>
      (Notes.resolveWriteTarget env.notes world.vault command).map fun target =>
        ⟨target.1, target.2, some command.frontmatterMode⟩

def SaveRequest.prepare (request : SaveRequest φ) : Except String (PreparedSave φ) :=
  Notes.prepareSave env.notes env.nested world.vault request.payload request.existing request.mode (env.newId world.writes)
    (env.clock world.writes)

/-- The frontmatter that the links section is rendered from. -/
def requestedFields (note : Notes.ObsidianNote φ) (operation : MetadataOperation φ) : Except String (JsonObject φ) :=
  (saveRequest env structured world note operation).bind fun request =>
    Notes.requestedFrontmatter env.notes request.payload request.existing request.mode note.noteId (env.clock world.writes)

/-- The note is read from the world, and the rows of the index are what files have read as. -/
structure Reads (note : Notes.ObsidianNote φ) : Prop where
  found : ∃ indexed, Notes.readNote env.notes world.vault note.noteId = .ok ⟨note, indexed⟩
  projected : ∀ row ∈ world.vault.index, OneLineText row.modifiedAt ∧
    ∃ path file, Notes.noteIndexFromFile env.notes path file = .ok (some row)

/-- One operation, from the note that is read to the note that is read back. Nothing is written when the operation is refused,
when the note is unchanged, and when there is a Context of the same content. -/
inductive Round (operation : MetadataOperation φ) (note : Notes.ObsidianNote φ) : Notes.ObsidianNote φ → Prop
  | kept (h : ∀ save, (saveRequest env structured world note operation).bind (SaveRequest.prepare env world) ≠
      .ok (.document save)) : Round operation note note
  | written {request : SaveRequest φ} {save : Notes.SaveDocument} {next : Notes.ObsidianNote φ}
      (hrequest : saveRequest env structured world note operation = .ok request)
      (hprepared : request.prepare env world = .ok (.document save))
      (hread : Notes.noteIndexFromFile env.notes save.path ⟨save.document, env.clock world.writes⟩ = .ok (some next)) :
      Round operation note next

/-- No target of the frontmatter that is saved has a path. -/
def Unrelated (note : Notes.ObsidianNote φ) (operation : MetadataOperation φ) : Prop :=
  ∀ fields, requestedFields env structured world note operation = .ok fields → Graph.allTargets structured fields = []

/-- What an operation needs of the note that it reads. -/
structure KeepsBody (note : Notes.ObsidianNote φ) (operation : MetadataOperation φ) : Prop where
  title : OneLineText note.title
  texts : operation.Lines
  /-- There is nothing to redact in the body. -/
  redaction : (env.notes.redactSecretText (String.ofList (compensated operation.relating note.body.toList))).redactedContent =
    String.ofList (compensated operation.relating note.body.toList)
  body : ∀ fields, requestedFields env structured world note operation = .ok fields →
    BodyKept operation.relating (Graph.renderLinksSection structured fields) note.body.toList

end Rounds

/-- Rounds one after another, in any worlds. -/
def Rounds (env : ObsidianEnvironment φ) (structured : StructuredText φ) : Notes.ObsidianNote φ → Notes.ObsidianNote φ → Prop :=
  Relation.ReflTransGen fun note next => ∃ world operation, Reads env world note ∧ KeepsBody env structured world note operation ∧
    Round env structured world operation note next

/-! ## One round -/

section Round
variable {env : ObsidianEnvironment φ} {structured : StructuredText φ} {world : VaultWorld φ} {note next : Notes.ObsidianNote φ}
  {operation : MetadataOperation φ}

theorem requestedFields_of_request {request : SaveRequest φ} (h : saveRequest env structured world note operation = .ok request) :
    requestedFields env structured world note operation =
      Notes.requestedFrontmatter env.notes request.payload request.existing request.mode note.noteId (env.clock world.writes) := by
  unfold requestedFields
  rw [h]
  rfl

theorem Reads.unbroken (henv : LinesKept env) (h : Reads env world note) :
    UnbrokenNote note ∧ note.noteId ≠ "" ∧ OneLineText note.noteId ∧ LineFeeds note.body.toList := by
  obtain ⟨indexed, hfound⟩ := h.found
  obtain ⟨path, file, hfile⟩ := Notes.readNote_source hfound
  obtain ⟨hunbroken, hne, hline⟩ := Notes.noteIndexFromFile_unbroken henv.notes hfile
  exact ⟨hunbroken, hne, hline, Notes.noteIndexFromFile_lineFeeds hfile⟩

theorem evidenceFrontmatter_unbroken {fields : JsonObject φ} (h : UnbrokenFields fields)
    {evidence : List MemorySourceReference} (hevidence : ∀ ref ∈ evidence, OneLineText ref.detailPath) {now : String}
    (hnow : OneLineText now) : UnbrokenFields (ObsidianGateway.evidenceFrontmatter env fields evidence now) := by
  have htexts : ∀ text ∈ dedupe (stringList (fields.get "evidence_refs") ++ evidence.map (·.detailPath)), OneLineText text := by
    intro text htext
    obtain htext | htext := List.mem_append.mp (mem_dedupe.mp htext)
    · have hvalue := h.get "evidence_refs"
      cases hrefs : fields.get "evidence_refs" with
      | list items =>
        rw [hrefs] at htext hvalue
        obtain ⟨item, hitem, hread⟩ := List.mem_filterMap.mp (List.mem_filter.mp htext).1
        have hline := hvalue item hitem
        cases item with
        | str found =>
          cases hread
          exact hline
        | _ => cases hread
      | null => rw [hrefs] at htext; cases htext
      | bool flag => rw [hrefs] at htext; cases htext
      | int n => rw [hrefs] at htext; cases htext
      | float x => rw [hrefs] at htext; cases htext
      | str text => rw [hrefs] at htext; cases htext
      | object inner => rw [hrefs] at htext; cases htext
    · obtain ⟨ref, href, rfl⟩ := List.mem_map.mp htext
      exact hevidence ref href
  refine h.update (Notes.unbroken_of_parts ?_ ?_)
  · simp only [List.map_cons, List.map_nil]
    decide
  · simp only [List.map_cons, List.map_nil, List.forall_mem_cons, List.not_mem_nil, false_implies, implies_true, and_true]
    exact ⟨(lineValue_ofTexts htexts).unbroken, (lineValue_dumped env.dumpSourceRef _).unbroken, hnow, trivial⟩

theorem source_line {source : Option String} (h : LineText source) {default : String} (hdefault : OneLineText default) :
    OneLineText ((source.filter (· ≠ "")).getD default) := by
  cases hfound : source.filter (· ≠ "") with
  | none => exact hdefault
  | some text => exact h text (Option.mem_filter_iff.mp hfound).1

/-- What is handed to the save: the body of the operation, and texts without line breaks. -/
structure Requested (env : ObsidianEnvironment φ) (note : Notes.ObsidianNote φ) (operation : MetadataOperation φ)
    (request : SaveRequest φ) : Prop where
  body : request.payload.body = String.ofList (compensated operation.relating note.body.toList)
  noteId : request.payload.noteId = some note.noteId
  lines : PayloadLines request.payload
  fields : UnbrokenFields request.payload.frontmatter
  existing : ∀ row ∈ request.existing, UnbrokenNote row ∧ OneLineText row.modifiedAt

theorem saveRequest_requested (henv : LinesKept env) (hreads : Reads env world note) (htitle : OneLineText note.title)
    (hoperation : operation.Lines) {request : SaveRequest φ}
    (h : saveRequest env structured world note operation = .ok request) : Requested env note operation request := by
  obtain ⟨hnote, -, -, -⟩ := hreads.unbroken henv
  cases operation with
  | mergeEvidence evidence =>
    rw [saveRequest] at h
    split at h
    · cases h
      refine ⟨?_, rfl, ⟨htitle, hnote.tags, hnote.status, hnote.project, source_line hnote.source memoryReconciliation_line⟩,
        evidenceFrontmatter_unbroken hnote.fields hoperation (henv.clock world.writes), fun row hrow => by cases hrow⟩
      exact (String.ofList_toList).symm
    · cases h
  | relate relation =>
    obtain ⟨command, hcommand, h⟩ := Keyed.bind_eq_ok h
    obtain ⟨target, htarget, rfl⟩ := Keyed.map_eq_ok h
    unfold Graph.relateCommand at hcommand
    split at hcommand
    · cases hcommand
    · split at hcommand
      · cases hcommand
      · obtain ⟨field, hfield, rfl⟩ := Keyed.map_eq_ok hcommand
        obtain ⟨row, hrow, hexisting, hpayload⟩ := Graph.resolveWriteTarget_update rfl rfl rfl rfl htarget
        obtain ⟨hplain, hflat⟩ := Graph.relationField_plain hfield
        obtain ⟨hmodified, path, file, hfile⟩ := hreads.projected row hrow
        obtain ⟨hrowUnbroken, -, -⟩ := Notes.noteIndexFromFile_unbroken henv.notes hfile
        have hfields : UnbrokenFields [(field, .list (Graph.relatedValues structured note relation field))] := by
          intro entry hentry
          rw [List.mem_singleton.mp hentry]
          exact ⟨(Notes.isFieldName_validKey hplain).1.oneLine, fun heq => absurd heq hflat,
            Graph.relatedValues_unbroken hnote.fields field⟩
        constructor
        · simp only [hpayload]
          rfl
        · simp only [hpayload]
        · simp only [hpayload]
          exact ⟨htitle, hnote.tags, hnote.status, hnote.project, source_line hnote.source hoperation⟩
        · simp only [hpayload]
          exact hfields
        · intro other hother
          simp only [hexisting] at hother
          cases hother
          exact ⟨hrowUnbroken, hmodified⟩

/-- The body that is read back is the one that was written, with the section of the links. -/
theorem written_body (henv : LinesKept env) (hfloats : ∀ x, OneLineText (env.notes.floats.str x))
    (hreads : Reads (withLinks structured env) world note)
    (hkeeps : KeepsBody (withLinks structured env) structured world note operation) {request : SaveRequest φ}
    {save : Notes.SaveDocument} (hrequest : saveRequest (withLinks structured env) structured world note operation = .ok request)
    (hprepared : request.prepare (withLinks structured env) world = .ok (.document save))
    (hread : Notes.noteIndexFromFile (withLinks structured env).notes save.path ⟨save.document, env.clock world.writes⟩ =
      .ok (some next)) :
    ∃ fields out, requestedFields (withLinks structured env) structured world note operation = .ok fields ∧
      Graph.updateSection (Graph.renderLinksSection structured fields) (compensated operation.relating note.body.toList) =
        some out ∧
      SameOutside note.body.toList (reread out) ∧ next.body.toList = reread out := by
  have hlinked := henv.withLinks structured
  have hrequested := saveRequest_requested hlinked hreads hkeeps.title hkeeps.texts hrequest
  obtain ⟨-, hne, hline, hfeeds⟩ := hreads.unbroken hlinked
  obtain ⟨fields, written, hfields, hwritten, hdocument⟩ := Notes.prepareSave_unbroken hlinked.notes hrequested.lines
    hrequested.fields hrequested.noteId hne hline hrequested.existing (hlinked.clock world.writes) hprepared
  have hasked : requestedFields (withLinks structured env) structured world note operation = .ok fields :=
    (requestedFields_of_request hrequest).trans hfields
  obtain ⟨out, hout, houtLines, houtside⟩ := (hkeeps.body fields hasked).keeps hfeeds
  have hsection : (withLinks structured env).notes.addOrUpdateLinksSection
      ((withLinks structured env).notes.redactSecretText request.payload.body).redactedContent fields = String.ofList out := by
    rw [hrequested.body, hkeeps.redaction]
    show ((Graph.addOrUpdateAlexandriaLinksSection structured (String.ofList _).toList fields).map String.ofList).getD _ = _
    rw [String.toList_ofList, Graph.addOrUpdateAlexandriaLinksSection, hout]
    rfl
  rw [hsection] at hdocument
  rw [hdocument] at hread
  have houtText : LineFeeds (String.ofList out).toList := by
    rw [String.toList_ofList]
    exact houtLines
  have hbody := Notes.noteIndexFromFile_reread hfloats henv.nested hwritten houtText hread
  rw [String.toList_ofList] at hbody
  exact ⟨fields, out, hasked, hout, houtside, hbody⟩

theorem Round.outside (henv : LinesKept env) (hfloats : ∀ x, OneLineText (env.notes.floats.str x))
    (hreads : Reads (withLinks structured env) world note)
    (hkeeps : KeepsBody (withLinks structured env) structured world note operation)
    (h : Round (withLinks structured env) structured world operation note next) :
    SameOutside note.body.toList next.body.toList := by
  cases h with
  | kept => exact .refl _
  | written hrequest hprepared hread =>
    obtain ⟨-, out, -, -, houtside, hbody⟩ := written_body henv hfloats hreads hkeeps hrequest hprepared hread
    rw [hbody]
    exact houtside

/-- Evidence that is merged into a note without relations. -/
theorem Round.unchanged (henv : LinesKept env) (hfloats : ∀ x, OneLineText (env.notes.floats.str x))
    {evidence : List MemorySourceReference} (hreads : Reads (withLinks structured env) world note)
    (hkeeps : KeepsBody (withLinks structured env) structured world note (.mergeEvidence evidence))
    (hunrelated : Unrelated (withLinks structured env) structured world note (.mergeEvidence evidence))
    (h : Round (withLinks structured env) structured world (.mergeEvidence evidence) note next) : next.body = note.body := by
  cases h with
  | kept => rfl
  | written hrequest hprepared hread =>
    obtain ⟨fields, out, hfields, hout, -, hbody⟩ := written_body henv hfloats hreads hkeeps hrequest hprepared hread
    have hrendered : Graph.renderLinksSection structured fields = [] :=
      Graph.renderLinksSection_eq_nil.mpr (hunrelated fields hfields)
    have hkept := hkeeps.body fields hfields
    rw [hrendered] at hkept hout
    obtain ⟨-, hsame⟩ := hkept.unchanged
    cases hout
    rw [← String.toList_inj, hbody]
    exact hsame

/-! ## Any number of rounds -/

/-- Operations one after another keep the text outside the links section, and a merge of evidence into a note without
relations leaves the body as it is. -/
theorem metadata_operations_keep_body (env : ObsidianEnvironment φ) (structured : StructuredText φ) (henv : LinesKept env)
    (hfloats : ∀ x, OneLineText (env.notes.floats.str x)) (first last : Notes.ObsidianNote φ)
    (hrounds : Rounds (withLinks structured env) structured first last) :
    SameOutside first.body.toList last.body.toList ∧
      ∀ world evidence next, Reads (withLinks structured env) world last →
        KeepsBody (withLinks structured env) structured world last (.mergeEvidence evidence) →
        Unrelated (withLinks structured env) structured world last (.mergeEvidence evidence) →
        Round (withLinks structured env) structured world (.mergeEvidence evidence) last next → next.body = last.body := by
  refine ⟨?_, fun world evidence next hreads hkeeps hunrelated h => h.unchanged henv hfloats hreads hkeeps hunrelated⟩
  induction hrounds with
  | refl => exact .refl _
  | tail _ hstep ih =>
    obtain ⟨world, operation, hreads, hkeeps, hround⟩ := hstep
    exact ih.trans (hround.outside henv hfloats hreads hkeeps)

end Round

/-! ## A Context without relations -/

/-- Notes have the title of their frontmatter. -/
def titledObsidian : ObsidianEnvironment Unit :=
  { sampleObsidian with
    notes := { sampleObsidian.notes with
      titleFromParts := fun frontmatter _ path =>
        ((Notes.frontmatterText (Notes.frontmatterJson frontmatter) "title").filter (· ≠ "")).getD path } }

theorem titledObsidian_line : LinesKept titledObsidian where
  notes := ⟨sampleObsidian_line.notes.redacts, sampleObsidian_line.notes.hash, sampleObsidian_line.notes.timestamp⟩
  nested := sampleObsidian_line.nested
  isoformat := sampleObsidian_line.isoformat
  clock := sampleObsidian_line.clock

def linkedObsidian : ObsidianEnvironment Unit := withLinks Graph.plainTexts titledObsidian

/-- A Context that was written by hand. -/
def handwritten : JsonObject Unit :=
  [("alexandria_type", .str "context"), ("id", .str "a"), ("title", .str "a"), ("scope", .str "GLOBAL")]

/-- Its fields after evidence was merged. -/
def mergedFields : JsonObject Unit :=
  handwritten ++
    ([("project", .null), ("workspace_id", .null), ("agent_id", .null), ("user_id", .null), ("session_id", .null),
      ("visibility", .str "GLOBAL"), ("status", .str "active"), ("source_actor_id", .null), ("source_actor_type", .null),
      ("source_run_id", .null), ("external_run_id", .null), ("artifact_refs", .list []), ("evidence_refs", .list []),
      ("confidence", .null), ("version", .int 2), ("supersedes_context_id", .null), ("superseded_by_context_id", .null),
      ("context_kind", .str "MEMORY"), ("memory_function", .null), ("created_at", .str "2026-01-01T00:00:00Z"),
      ("updated_at", .str "2026-01-01T00:00:00Z"), ("recorded_at", .null), ("observed_at", .null), ("valid_from", .null),
      ("valid_to", .null), ("reconciliation_candidate_id", .null), ("conflict_set_ids", .list []),
      ("memory_source_refs", .list []), ("tags", .list []), ("source", .str "memory-reconciliation"),
      ("content_hash", .str (linkedObsidian.notes.hashText ""))] : JsonObject Unit)

def handwrittenIdentity (version : ℕ) (writtenAt : Option String) : Notes.ObsidianContextIdentity where
  scope := .global
  identity := ⟨none, none, none, none, none⟩
  visibility := .global
  status := .active
  provenance := ⟨none, none, none, none, [], [], none⟩
  contentHash := linkedObsidian.notes.hashText ""
  version := version
  supersedesContextId := none
  supersededByContextId := none
  contextKind := .memory
  memoryFunction := none
  createdAt := writtenAt
  updatedAt := writtenAt
  recordedAt := none
  observedAt := none
  validFrom := none
  validTo := none
  reconciliationCandidateId := none
  conflictSetIds := []

/-- Both files of the Context read back. -/
theorem handwritten_checks :
    FieldChecks linkedObsidian handwritten "a" (linkedObsidian.notes.hashText "") (handwrittenIdentity 1 none) ∧
      FieldChecks linkedObsidian mergedFields "a" (linkedObsidian.notes.hashText "")
        (handwrittenIdentity 2 (some "2026-01-01T00:00:00Z")) :=
  ⟨⟨FieldChecks.written_of_printable (fun _ => sampleClaimText_printable) (by decide) (by decide),
      by decide, by decide⟩,
    ⟨FieldChecks.written_of_printable (fun _ => sampleClaimText_printable) (by decide) (by decide),
      by decide, by decide⟩⟩

section Handwritten
variable (body : String)

def handwrittenNote : Notes.ObsidianNote Unit :=
  contextOfFields linkedObsidian handwritten "a" (handwrittenIdentity 1 none) body "a.md" "2026-01-01T00:00:00Z"

def handwrittenWorld : VaultWorld Unit where
  vault :=
    ⟨[("a.md", ⟨Notes.renderDocument linkedObsidian.notes linkedObsidian.nested handwritten body, "2026-01-01T00:00:00Z"⟩)],
      [handwrittenNote body]⟩
  writes := 1

def mergePayload : Notes.ObsidianSaveNote Unit :=
  ObsidianGateway.evidencePayload linkedObsidian (handwrittenNote body) [] (linkedObsidian.clock 1)

def mergeFields : Except String (JsonObject Unit) :=
  Notes.desiredFrontmatter linkedObsidian.notes (mergePayload body) none none "a" (pythonStrip (mergePayload body).title) []
    (linkedObsidian.clock 1)

/-- The note after the merge. -/
def mergedNote : Notes.ObsidianNote Unit :=
  contextOfFields linkedObsidian mergedFields "a" (handwrittenIdentity 2 (some "2026-01-01T00:00:00Z"))
    (handwrittenNote body).body "a.md" (linkedObsidian.clock 1)

/-- What is evaluated of the merge: the texts that are read and the fields that are saved. -/
structure MergeChecks : Prop where
  lines : LineFeeds body.toList
  lengths : Markdown.Native.byteLength body.toList ≤ 4096 ∧
    Markdown.Native.byteLength (handwrittenNote body).body.toList ≤ 4096
  hashes : Notes.contextContentHash linkedObsidian.notes (String.ofList (reread body.toList)) =
      linkedObsidian.notes.hashText "" ∧
    Notes.contextContentHash linkedObsidian.notes (String.ofList (reread (handwrittenNote body).body.toList)) =
      linkedObsidian.notes.hashText ""
  title : pythonStrip (mergePayload body).title ≠ ""
  redacted : Notes.redactedFrontmatter linkedObsidian.notes.redactSecretText (mergePayload body).frontmatter =
    .ok ((mergePayload body).frontmatter, [])
  target : Notes.saveTarget linkedObsidian.notes (handwrittenWorld body).vault (mergePayload body)
    (pythonStrip (mergePayload body).title) "note" = .ok ("a", "a.md")
  unrelated : ((mergeFields body).toOption.all fun fields =>
    Graph.frontmatterRelations.all fun field => (fields.get field.1).isNull) = true
  policy : (mergeFields body >>= fun fields =>
    Notes.applyContextSavePolicy linkedObsidian.notes (handwrittenWorld body).vault (mergePayload body) "a" fields
      (mergePayload body).body) = .ok ⟨mergedFields, none, none⟩

end Handwritten

/-- Fields that name no note have no targets. -/
theorem allTargets_of_null {structured : StructuredText φ} {fields : JsonObject φ}
    (h : (Graph.frontmatterRelations.all fun field => (fields.get field.1).isNull) = true) :
    Graph.allTargets structured fields = [] := by
  refine List.flatMap_eq_nil_iff.mpr fun field hfield => ?_
  have hnull := List.all_eq_true.mp h field hfield
  unfold Graph.pathTargets
  cases hvalue : fields.get field.1 with
  | null =>
    have hnone : Graph.relationTargets structured (.null : JsonValue φ) = [] := by simp [Graph.relationTargets]
    rw [hnone]
    rfl
  | _ =>
    rw [hvalue] at hnull
    cases hnull

namespace MergeChecks
variable {body : String}

theorem file (h : MergeChecks body) : Notes.noteIndexFromFile linkedObsidian.notes "a.md"
    ⟨Notes.renderDocument linkedObsidian.notes linkedObsidian.nested handwritten body, "2026-01-01T00:00:00Z"⟩ =
      .ok (some (handwrittenNote body)) :=
  handwritten_checks.1.read titledObsidian_line.nested (fun _ => rfl) h.lines h.lengths.1 h.hashes.1 _ _

theorem reads (h : MergeChecks body) : Reads linkedObsidian (handwrittenWorld body) (handwrittenNote body) := by
  have hfile := h.file
  constructor
  · have hrow : (handwrittenWorld body).vault.getById (handwrittenNote body).noteId = some (handwrittenNote body) := rfl
    have hstored : (handwrittenWorld body).vault.file (handwrittenNote body).relativePath = some
        ⟨Notes.renderDocument linkedObsidian.notes linkedObsidian.nested handwritten body, "2026-01-01T00:00:00Z"⟩ := rfl
    have hpath : (handwrittenNote body).relativePath = "a.md" := rfl
    unfold Notes.readNote
    rw [hrow]
    simp only
    rw [hstored]
    simp only
    rw [hpath, hfile]
    exact ⟨_, if_neg (not_not_intro rfl)⟩
  · intro row hrow
    rw [List.mem_singleton.mp hrow]
    have hline : OneLineText "2026-01-01T00:00:00Z" := titledObsidian_line.clock 0
    exact ⟨hline, _, _, hfile⟩

theorem request : saveRequest linkedObsidian Graph.plainTexts (handwrittenWorld body) (handwrittenNote body)
    (.mergeEvidence []) = .ok ⟨mergePayload body, none, none⟩ := by
  unfold saveRequest
  exact if_pos rfl

theorem asked (h : MergeChecks body) :
    requestedFields linkedObsidian Graph.plainTexts (handwrittenWorld body) (handwrittenNote body) (.mergeEvidence []) =
      mergeFields body :=
  (requestedFields_of_request request).trans (Notes.requestedFrontmatter_of_clear h.redacted rfl)

theorem unrelated_fields (h : MergeChecks body) :
    Unrelated linkedObsidian Graph.plainTexts (handwrittenWorld body) (handwrittenNote body) (.mergeEvidence []) := by
  intro fields hfields
  rw [h.asked] at hfields
  have hnull := h.unrelated
  rw [hfields] at hnull
  exact allTargets_of_null hnull

/-- The merge is saved and read back. -/
theorem round (h : MergeChecks body) :
    Round linkedObsidian Graph.plainTexts (handwrittenWorld body) (.mergeEvidence []) (handwrittenNote body)
      (mergedNote body) := by
  have hbody : ∀ fields, mergeFields body = .ok fields →
      linkedObsidian.notes.addOrUpdateLinksSection (mergePayload body).body fields = (mergePayload body).body := by
    intro fields hfields
    have hnone : Graph.renderLinksSection (Graph.plainTexts : StructuredText Unit) fields = [] :=
      Graph.renderLinksSection_eq_nil.mpr (h.unrelated_fields fields (h.asked.trans hfields))
    show ((Graph.addOrUpdateAlexandriaLinksSection Graph.plainTexts _ fields).map String.ofList).getD _ = _
    unfold Graph.addOrUpdateAlexandriaLinksSection Graph.updateSection
    rw [if_pos hnone]
    exact String.ofList_toList
  have hread := handwritten_checks.2.read titledObsidian_line.nested (fun _ => rfl) (Notes.noteIndexFromFile_lineFeeds h.file)
    h.lengths.2 h.hashes.2 "a.md" (linkedObsidian.clock 1)
  refine .written request (Notes.preparedDocument_context h.title rfl rfl h.redacted h.target hbody h.policy rfl) hread

end MergeChecks

/-- The merge of a text and of none. -/
theorem merge_checks : MergeChecks "service on 8080." ∧ MergeChecks "" where
  left := ⟨lineFeeds_of_all (by decide +kernel), by decide +kernel, by decide +kernel, by decide +kernel,
    Notes.redactedFrontmatter_clear (fun _ => rfl) (by decide +kernel), by decide +kernel, by decide +kernel, by decide +kernel⟩
  right := ⟨lineFeeds_of_all (by decide +kernel), by decide +kernel, by decide +kernel, by decide +kernel,
    Notes.redactedFrontmatter_clear (fun _ => rfl) (by decide +kernel), by decide +kernel, by decide +kernel, by decide +kernel⟩

theorem blank_keeps :
    KeepsBody linkedObsidian Graph.plainTexts (handwrittenWorld "") (handwrittenNote "") (.mergeEvidence []) where
  title := by
    have htitle : (handwrittenNote "").title = "a" := rfl
    rw [htitle]
    exact Markdown.Native.oneLine_of_all (by decide)
  texts := fun ref href => absurd href List.not_mem_nil
  redaction := rfl
  body := by
    have hblank : (handwrittenNote "").body.toList = ['\n', '\n'] := by
      show (String.ofList (reread _)).toList = _
      rw [String.toList_ofList]
      rfl
    intro fields hfields
    exact .blank rfl (Graph.renderLinksSection_eq_nil.mpr (merge_checks.2.unrelated_fields fields hfields)) hblank

theorem metadata_operations_keep_body_blank :
    Round linkedObsidian Graph.plainTexts (handwrittenWorld "") (.mergeEvidence []) (handwrittenNote "") (mergedNote "") ∧
      SameOutside (handwrittenNote "").body.toList (mergedNote "").body.toList ∧
      ∀ world evidence next, Reads linkedObsidian world (mergedNote "") →
        KeepsBody linkedObsidian Graph.plainTexts world (mergedNote "") (.mergeEvidence evidence) →
        Unrelated linkedObsidian Graph.plainTexts world (mergedNote "") (.mergeEvidence evidence) →
        Round linkedObsidian Graph.plainTexts world (.mergeEvidence evidence) (mergedNote "") next →
          next.body = (mergedNote "").body := by
  have hfloats : ∀ x, OneLineText (titledObsidian.notes.floats.str x) := by
    have hline : OneLineText "0.0" := Markdown.Native.oneLine_of_all (by decide)
    exact fun _ => hline
  have hstep : Rounds linkedObsidian Graph.plainTexts (handwrittenNote "") (mergedNote "") :=
    .single ⟨_, _, merge_checks.2.reads, blank_keeps, merge_checks.2.round⟩
  exact ⟨merge_checks.2.round,
    metadata_operations_keep_body titledObsidian Graph.plainTexts titledObsidian_line hfloats _ _ hstep⟩

/-- A merge into a Context without relations puts a blank line before its text. -/
theorem merge_adds_blank_line :
    ∃ note next, Reads linkedObsidian (handwrittenWorld "service on 8080.") note ∧
      Unrelated linkedObsidian Graph.plainTexts (handwrittenWorld "service on 8080.") note (.mergeEvidence []) ∧
      Round linkedObsidian Graph.plainTexts (handwrittenWorld "service on 8080.") (.mergeEvidence []) note next ∧
      note.body.toList = "\nservice on 8080.\n".toList ∧ next.body.toList = "\n\nservice on 8080.\n".toList ∧
      ¬ SameOutside note.body.toList next.body.toList := by
  have hbefore : (handwrittenNote "service on 8080.").body.toList = "\nservice on 8080.\n".toList := by decide
  have hafter : (mergedNote "service on 8080.").body.toList = "\n\nservice on 8080.\n".toList := by decide
  refine ⟨_, _, merge_checks.1.reads, merge_checks.1.unrelated_fields, merge_checks.1.round, hbefore, hafter, ?_⟩
  have hnone : Graph.alexandriaLinks.find "\nservice on 8080.\n".toList = none ∧
      Graph.alexandriaLinks.find "\n\nservice on 8080.\n".toList = none := by decide
  rw [hbefore, hafter]
  rintro (hsame | ⟨before, after, n, -, hparts⟩)
  · rw [Graph.outsideBlock_none hnone.1, Graph.outsideBlock_none hnone.2] at hsame
    exact absurd hsame (by decide)
  · rw [Graph.outsideBlock_none hnone.2] at hparts
    cases hparts

end Alexandria.Reconciliation
