import Alexandria.Notes.Repair

/-! # Calls that interleave

Saves hold shared leases and repairs hold none, so the steps of calls may come in any order. A step looks at the vault, replaces
one file, or writes one row of the index. A save locates its note, checks its identifier, replaces the file, reads it back and
indexes it, and then does the same with the Context it supersedes; a repair checks the file, replaces it, reads it back, and
indexes it or writes back the text it had read.
-/

namespace Alexandria.Notes
set_option autoImplicit false
open Text

variable {φ : Type}

inductive Call (φ : Type)
  | save (payload : ObsidianSaveNote φ) (newId : String)
  | repair (request : RepairRequest)

/-- A save that knows its path and its identifier. -/
structure LocatedSave (φ : Type) where
  payload : ObsidianSaveNote φ
  title : String
  warnings : List String
  noteId : String
  path : String

/-- What follows when the file is replaced and indexed. -/
inductive Purpose (φ : Type)
  | save (supersedesContextId : Option String)
  | mark (answer : ObsidianNote φ)
  /-- With the text that was read. -/
  | repair (currentText : List Char)

structure Writing (φ : Type) where
  path : String
  document : List Char
  purpose : Purpose φ

inductive Phase (φ : Type)
  | ready
  | located (save : LocatedSave φ)
  | writing (job : Writing φ)
  | replaced (job : Writing φ)
  | restoring (path : String) (document currentText : List Char) (text : String)
  | indexed (job : Writing φ) (note : ObsidianNote φ)
  | marking (answer : ObsidianNote φ) (target : String)
  | finished (answer : Except String (ObsidianNote φ))

/-- What a step does to the vault. -/
inductive Effect (φ : Type)
  | idle
  | replace (path : String) (text : List Char)
  | upsert (note : ObsidianNote φ)

def Effect.apply (now : String) (vault : Vault φ) : Effect φ → Vault φ
  | .idle => vault
  | .replace path text => vault.writeFile path ⟨text, now⟩
  | .upsert note => vault.upsertNote note

section Steps
variable (env : NoteEnvironment φ) (str : NestedText φ)

/-! ## The steps of a save -/

/-- What a save reads first: the row of its path, and the file there when it needs its identifier. -/
def locateSave (vault : Vault φ) (payload : ObsidianSaveNote φ) (newId : String) : Except String (LocatedSave φ) := do
  let title := pythonStrip payload.title
  if title = "" then .error "title is required"
  else if (env.redactSecretText payload.body).blocked then .error "high-risk secret content cannot be saved"
  else
    let redacted ← redactedFrontmatter env.redactSecretText payload.frontmatter
    let payload := { payload with frontmatter := redacted.1 }
    let path ← env.safeRelativePath
      (((payload.relativePath).filter (· ≠ "")).getD (env.defaultNotePath payload.alexandriaType title))
    validateExpectedContentHash env vault payload (vault.getByPath path) path
    if (vault.getByPath path).any fun row => payload.noteId.any fun noteId => row.noteId ≠ noteId then
      .error ("Obsidian path is already indexed with a different id: " ++ path)
    else
      .ok ⟨payload, title, (env.redactSecretText payload.body).warnings ++ redacted.2,
        saveNoteId env vault payload path newId, path⟩

/-- Check the identifier and build the document. -/
def decideSave (vault : Vault φ) (save : LocatedSave φ) (now : String) : Except String (PreparedSave φ) := do
  let target ← uniqueTarget vault save.noteId save.path
  let fields ← frontmatterForSave env save.payload save.payload.frontmatter target.1 save.title save.warnings now
  let body := env.addOrUpdateLinksSection (env.redactSecretText save.payload.body).redactedContent fields
  if save.payload.alexandriaType = .context then
    let policy ← applyContextSavePolicy env vault save.payload target.1 fields body
    match policy.duplicate with
    | some duplicate => .ok (.existing duplicate)
    | none =>
      .ok (.document ⟨target.1, target.2, renderDocument env str policy.frontmatter body, policy.supersedesContextId⟩)
  else .ok (.document ⟨target.1, target.2, renderDocument env str fields body, none⟩)

/-- The patch of the superseded Context; `none` when it is marked already. -/
def markDocument (vault : Vault φ) (supersededId replacementId now : String) : Except String (Option (String × List Char)) :=
  match vault.getById supersededId with
  | none => .error "INVALID_SUPERSEDE: superseded Context disappeared during save"
  | some superseded =>
    let existing := superseded.frontmatter.get "superseded_by_context_id"
    if !existing.isNullOr replacementId then .error "INVALID_SUPERSEDE: Context already has a different replacement"
    else if existing.text? = some replacementId ∧ superseded.status = "superseded" then .ok none
    else
      match vault.file superseded.relativePath with
      | none => .error "SOURCE_READ_FAILED"
      | some file =>
        (updateFrontmatterScalars (universalNewlines file.text)
          (markReplacements superseded replacementId ++ [("updated_at", now)])).map fun document =>
            some (superseded.relativePath, document)

/-! ## One step -/

def Purpose.missing : Purpose φ → String
  | .save _ => "saved note is missing Alexandria frontmatter"
  | .mark _ => "updated Context lost managed frontmatter"
  | .repair _ => "repaired note is missing Alexandria frontmatter"

/-- The indexer refuses the file; only a repair writes back what it has read. -/
def refuse (job : Writing φ) (text : String) : Phase φ :=
  match job.purpose with
  | .repair current => .restoring job.path job.document current text
  | _ => .finished (.error text)

def refusal (job : Writing φ) (text : String) : String :=
  match job.purpose with
  | .repair _ => "REPAIR_CONTENT_INVALID: " ++ text
  | _ => text

def afterIndexing (job : Writing φ) (note : ObsidianNote φ) : Phase φ :=
  match job.purpose with
  | .save (some target) => .marking note target
  | .mark answer => .finished (.ok answer)
  | _ => .finished (.ok note)

def begin (vault : Vault φ) : Call φ → Phase φ
  | .save payload newId =>
    match locateSave env vault payload newId with
    | .error text => .finished (.error text)
    | .ok save => .located save
  | .repair request =>
    match checkRepair env vault request false with
    | .error error => .finished (.error error.text)
    | .ok repair => .writing ⟨repair.path, repair.content, .repair repair.currentText⟩

def prepared : Except String (PreparedSave φ) → Phase φ
  | .error text => .finished (.error text)
  | .ok (.existing note) => .finished (.ok note)
  | .ok (.document save) => .writing ⟨save.path, save.document, .save save.supersedesContextId⟩

/-- What the indexer makes of the file as it is now. -/
def readReplaced (vault : Vault φ) (job : Writing φ) : Phase φ :=
  match vault.file job.path with
  | none => .finished (.error "SOURCE_READ_FAILED")
  | some file =>
    match noteIndexFromFile env job.path file with
    | .error text => refuse job (refusal job text)
    | .ok none => refuse job job.purpose.missing
    | .ok (some note) => .indexed job note

def marked (answer : ObsidianNote φ) : Except String (Option (String × List Char)) → Phase φ
  | .error text => .finished (.error text)
  | .ok none => .finished (.ok answer)
  | .ok (some (path, document)) => .writing ⟨path, document, .mark answer⟩

/-- The next step of a call. -/
def advance (call : Call φ) (now : String) (vault : Vault φ) : Phase φ → Option (Effect φ × Phase φ)
  | .ready => some (.idle, begin env vault call)
  | .located save => some (.idle, prepared (decideSave env str vault save now))
  | .writing job => some (.replace job.path job.document, .replaced job)
  | .replaced job => some (.idle, readReplaced env vault job)
  | .restoring path _ current text => some (.replace path current, .finished (.error text))
  | .indexed job note => some (.upsert note, afterIndexing job note)
  | .marking answer target => some (.idle, marked answer (markDocument vault target answer.noteId now))
  | .finished _ => none

end Steps

/-! ## All calls -/

/-- A file replaced by a call. -/
structure Replacement (ι : Type) where
  call : ι
  path : String
  before : Option (List Char)
  text : List Char

structure Interleaved (ι φ : Type) where
  vault : Vault φ
  phase : ι → Phase φ
  /-- The files that were replaced so far. -/
  log : List (Replacement ι)

structure Move (ι : Type) where
  call : ι
  now : String

variable {ι : Type} [DecidableEq ι]

def Interleaved.start (vault : Vault φ) : Interleaved ι φ := ⟨vault, fun _ => .ready, []⟩

/-- The replacement that the effect is. -/
def replacement (vault : Vault φ) (call : ι) : Effect φ → List (Replacement ι)
  | .replace path text => [⟨call, path, (vault.file path).map SourceFile.text, text⟩]
  | _ => []

def interleave (env : NoteEnvironment φ) (str : NestedText φ) (calls : ι → Call φ) (state : Interleaved ι φ) (move : Move ι) :
    Option (Interleaved ι φ) :=
  (advance env str (calls move.call) move.now state.vault (state.phase move.call)).map fun next =>
    { vault := next.1.apply move.now state.vault
      phase := Function.update state.phase move.call next.2
      log := state.log ++ replacement state.vault move.call next.1 }

/-! ## A call that runs alone -/

/-- Let one call take its steps. -/
def runAlone (env : NoteEnvironment φ) (str : NestedText φ) (call : Call φ) (now : String) : ℕ → Phase φ × Vault φ → Phase φ × Vault φ
  | 0, state => state
  | n + 1, (phase, vault) =>
    match advance env str call now vault phase with
    | none => (phase, vault)
    | some (effect, next) => runAlone env str call now n (next, effect.apply now vault)

variable {env : NoteEnvironment φ} {str : NestedText φ} {vault : Vault φ}

theorem runAlone_finished (call : Call φ) (now : String) (n : ℕ) (answer : Except String (ObsidianNote φ)) (vault : Vault φ) :
    runAlone env str call now n (.finished answer, vault) = (.finished answer, vault) := by
  cases n <;> rfl

/-- A save decides in two steps what it decides at once when nothing happens in between. -/
theorem prepareSave_eq (payload : ObsidianSaveNote φ) (newId now : String) :
    prepareSave env str vault payload none none newId now =
      (locateSave env vault payload newId).bind fun save => decideSave env str vault save now := by
  unfold prepareSave locateSave
  simp only
  split
  · rfl
  · split
    · rfl
    · cases hredacted : redactedFrontmatter env.redactSecretText payload.frontmatter with
      | error text => rfl
      | ok redacted =>
        simp only [saveTarget, bind, Except.bind]
        generalize env.safeRelativePath _ = location
        cases location with
        | error text => rfl
        | ok path =>
          simp only
          generalize validateExpectedContentHash env vault _ _ _ = expected
          cases expected with
          | error text => rfl
          | ok _ =>
            simp only
            generalize Option.any _ (vault.getByPath path) = taken
            cases taken with
            | true => rfl
            | false => rfl

theorem runAlone_repair (request : RepairRequest) (now : String) :
    runAlone env str (.repair request) now 5 (.ready, vault) =
      (.finished ((repairNoteRaw env .none vault request now).1.mapError RepairError.text),
        (repairNoteRaw env .none vault request now).2) := by
  unfold repairNoteRaw
  simp only [runAlone, advance, begin, Effect.apply]
  cases hcheck : checkRepair env vault request false with
  | error error => simp only [RepairFaults.none, hcheck, Except.mapError]
  | ok repair =>
    have hfile : (vault.writeFile repair.path ⟨repair.content, now⟩).file repair.path = some ⟨repair.content, now⟩ := by
      rw [file_writeFile, if_pos rfl]
    simp only [RepairFaults.none, hcheck, readReplaced, hfile, indexRepaired]
    cases hread : noteIndexFromFile env repair.path ⟨repair.content, now⟩ with
    | error text => simp only [refuse, refusal, Except.mapError]
    | ok read =>
      cases read with
      | none => simp only [refuse, Purpose.missing, Except.mapError]
      | some note => simp [afterIndexing, Except.mapError]

/-- Replacing, reading back and indexing a file that is no repair's. -/
theorem runAlone_persist (call : Call φ) {job : Writing φ} (hjob : ∀ current, job.purpose ≠ .repair current) (now : String)
    (n : ℕ) :
    runAlone env str call now (n + 3) (.writing job, vault) =
      match persistAndIndex env job.purpose.missing vault job.path job.document now with
      | (.error text, after) => (.finished (.error text), after)
      | (.ok note, after) => runAlone env str call now n (afterIndexing job note, after) := by
  have hfile : (vault.writeFile job.path ⟨job.document, now⟩).file job.path = some ⟨job.document, now⟩ := by
    rw [file_writeFile, if_pos rfl]
  have hrefuse : ∀ text, refuse job (refusal job text) = .finished (.error text) ∧ refuse job text = .finished (.error text) := by
    intro text
    unfold refuse refusal
    cases hpurpose : job.purpose with
    | save target => exact ⟨rfl, rfl⟩
    | mark answer => exact ⟨rfl, rfl⟩
    | repair current => exact absurd hpurpose (hjob current)
  simp only [runAlone, advance, Effect.apply, readReplaced, hfile, persistAndIndex]
  cases hread : noteIndexFromFile env job.path ⟨job.document, now⟩ with
  | error text => simp only [(hrefuse text).1]
  | ok read =>
    cases read with
    | none => simp only [(hrefuse _).2]
    | some note => rfl

theorem runAlone_mark (call : Call φ) (answer : ObsidianNote φ) (target now : String) :
    runAlone env str call now 4 (.marking answer target, vault) =
      (.finished ((markSuperseded env vault target answer.noteId now).1.map fun _ => answer),
        (markSuperseded env vault target answer.noteId now).2) := by
  rw [runAlone]
  simp only [advance, Effect.apply, markDocument, markSuperseded, updateScalars]
  cases vault.getById target with
  | none => rfl
  | some superseded =>
    simp only
    split
    · rfl
    · split
      · rfl
      · cases vault.file superseded.relativePath with
        | none => rfl
        | some file =>
          simp only
          cases updateFrontmatterScalars (universalNewlines file.text)
              (markReplacements superseded answer.noteId ++ [("updated_at", now)]) with
          | error text => rfl
          | ok document =>
            simp only [Except.map, marked]
            rw [runAlone_persist call (by simp)]
            simp only [Purpose.missing]
            cases persistAndIndex env "updated Context lost managed frontmatter" vault superseded.relativePath document now with
            | mk read after =>
              cases read with
              | error text => rfl
              | ok note => rfl

theorem runAlone_save (payload : ObsidianSaveNote φ) (newId now : String) :
    runAlone env str (.save payload newId) now 9 (.ready, vault) =
      (.finished (saveNote env str vault payload newId now).1, (saveNote env str vault payload newId now).2) := by
  unfold saveNote saveNoteSerialized
  rw [prepareSave_eq, runAlone]
  simp only [advance, begin, Effect.apply]
  cases locateSave env vault payload newId with
  | error text => rfl
  | ok save =>
    simp only [Except.bind]
    rw [runAlone]
    simp only [advance, Effect.apply]
    cases decideSave env str vault save now with
    | error text => rfl
    | ok decided =>
      cases decided with
      | existing note => rfl
      | document document =>
        simp only [prepared]
        rw [runAlone_persist (n := 4) _ (by simp)]
        simp only [Purpose.missing]
        cases persistAndIndex env "saved note is missing Alexandria frontmatter" vault document.path document.document now with
        | mk read after =>
          cases read with
          | error text => rfl
          | ok note =>
            simp only [afterIndexing]
            cases document.supersedesContextId with
            | none => rfl
            | some target => exact runAlone_mark _ note target now

end Alexandria.Notes
