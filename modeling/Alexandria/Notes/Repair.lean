import Alexandria.Notes.ReadBack
import Alexandria.Notes.Supersession

/-! # Raw repair

A repair replaces the whole source of a note, also of one that does not parse. It compares the hash of the text it reads,
checks the new text, replaces the file, and indexes what the file reads back as. When the indexer refuses that, it writes the
text it has read back. A failed write of the index leaves the new file for the next reindex.
-/

namespace Alexandria.Notes
set_option autoImplicit false
open Text

variable {φ : Type} {env : NoteEnvironment φ} {vault after : Vault φ}

structure RepairRequest where
  path : String
  expectedContentHash : String
  rawContent : String

/-- Where a repair raises. -/
inductive RepairStage
  | path
  | target
  | source
  | compare
  | content
  /-- The file cannot be replaced. -/
  | replace
  /-- The replaced file cannot be read. -/
  | readBack
  /-- The indexer refuses what the file reads back as. -/
  | refused
  | restore
  | index
  deriving DecidableEq

/-- The file has not been replaced. -/
def RepairStage.beforeReplacement : RepairStage → Bool
  | .path | .target | .source | .compare | .content | .replace => true
  | .readBack | .refused | .restore | .index => false

structure RepairError where
  stage : RepairStage
  text : String

/-- Where the operating system fails to replace a file: before the file is the new one, or after it. -/
inductive ReplaceFault
  | before
  | after

/-- What fails around a repair. -/
structure RepairFaults where
  source : Bool
  replace : Option ReplaceFault
  restore : Option ReplaceFault
  index : Bool

def RepairFaults.none : RepairFaults := ⟨false, .none, .none, false⟩

/-- A repair that has passed its checks. -/
structure CheckedRepair where
  path : String
  /-- The text that was read, with universal newlines. -/
  currentText : List Char
  content : List Char

section Repair
variable (env)

/-- What a repair checks before it writes. -/
def checkRepair (vault : Vault φ) (request : RepairRequest) (unreadable : Bool) : Except RepairError CheckedRepair :=
  match env.safeRelativePath request.path with
  | .error text => .error ⟨.path, text⟩
  | .ok path =>
    match vault.file path with
    | none => .error ⟨.target, notFound path⟩
    | some file =>
      let current := universalNewlines file.text
      if unreadable then .error ⟨.source, "SOURCE_READ_FAILED"⟩
      else if env.hashText (String.ofList current) ≠ request.expectedContentHash then
        .error ⟨.compare, writeConflict "expected content hash does not match the current note" path⟩
      else if (env.redactSecretText request.rawContent).blocked then
        .error ⟨.content, "high-risk secret content cannot be saved"⟩
      else
        let content := (env.redactSecretText request.rawContent).redactedContent.toList
        match Markdown.parseMarkdownDocument env.floats content with
        | .error text => .error ⟨.content, "REPAIR_CONTENT_INVALID: repaired source must parse: " ++ text⟩
        | .ok _ => .ok ⟨path, current, content⟩

def raisedStage {α : Type} : Except RepairError α → Option RepairStage
  | .error error => some error.stage
  | .ok _ => none

/-- What the indexer makes of the repaired file. -/
def indexRepaired (path : String) (file : SourceFile) : Except RepairError (ObsidianNote φ) :=
  match noteIndexFromFile env path file with
  | .error text => .error ⟨.refused, "REPAIR_CONTENT_INVALID: " ++ text⟩
  | .ok none => .error ⟨.refused, "repaired note is missing Alexandria frontmatter"⟩
  | .ok (some note) => .ok note

def repairNoteRaw (faults : RepairFaults) (vault : Vault φ) (request : RepairRequest) (now : String) :
    Except RepairError (ObsidianNote φ) × Vault φ :=
  match checkRepair env vault request faults.source with
  | .error error => (.error error, vault)
  | .ok repair =>
    let written := vault.writeFile repair.path ⟨repair.content, now⟩
    let restored := written.writeFile repair.path ⟨repair.currentText, now⟩
    match faults.replace with
    | some .before => (.error ⟨.replace, "OSError"⟩, vault)
    | some .after => (.error ⟨.readBack, "OSError"⟩, written)
    | none =>
      match indexRepaired env repair.path ⟨repair.content, now⟩ with
      | .error error =>
        match faults.restore with
        | some .before => (.error ⟨.restore, "OSError"⟩, written)
        | some .after => (.error ⟨.restore, "OSError"⟩, restored)
        | none => (.error error, restored)
      | .ok note =>
        if faults.index then (.error ⟨.index, "INDEX_WRITE_FAILED: canonical Markdown was preserved for reindex"⟩, written)
        else (.ok note, written.upsertNote note)

end Repair

/-! ## What a failed repair leaves -/

/-- A check that raises does so before the file is replaced. -/
theorem checkRepair_error {request : RepairRequest} {unreadable : Bool} {error : RepairError}
    (h : checkRepair env vault request unreadable = .error error) : error.stage.beforeReplacement = true := by
  unfold checkRepair at h
  split at h
  · cases h
    rfl
  · split at h
    · cases h
      rfl
    · simp only at h
      split at h
      · cases h
        rfl
      · split at h
        · cases h
          rfl
        · split at h
          · cases h
            rfl
          · split at h
            · cases h
              rfl
            · cases h

/-- A repair that passes its checks has read the text with the expected hash, and writes the redacted content. -/
theorem checkRepair_ok {request : RepairRequest} {unreadable : Bool} {repair : CheckedRepair}
    (h : checkRepair env vault request unreadable = .ok repair) :
    env.safeRelativePath request.path = .ok repair.path ∧
      (∃ file, vault.file repair.path = some file ∧ repair.currentText = universalNewlines file.text) ∧
      env.hashText (String.ofList repair.currentText) = request.expectedContentHash ∧
      repair.content = (env.redactSecretText request.rawContent).redactedContent.toList := by
  unfold checkRepair at h
  split at h
  · cases h
  · rename_i path hpath
    split at h
    · cases h
    · rename_i file hfile
      simp only at h
      split at h
      · cases h
      · split at h
        · cases h
        · rename_i hhash
          split at h
          · cases h
          · split at h
            · cases h
            · cases h
              exact ⟨hpath, ⟨file, hfile, rfl⟩, not_not.mp hhash, rfl⟩

theorem indexRepaired_error {path : String} {file : SourceFile} {error : RepairError}
    (h : indexRepaired env path file = .error error) : error.stage = .refused := by
  unfold indexRepaired at h
  split at h <;> cases h <;> rfl

/-- Writing the text back undoes a replacement of a file that has no carriage return. -/
theorem restored_text {repair : CheckedRepair} {file : SourceFile} (hfile : vault.file repair.path = some file)
    (htext : repair.currentText = universalNewlines file.text) (hreturns : '\r' ∉ file.text) (now path : String) :
    (((vault.writeFile repair.path ⟨repair.content, now⟩).writeFile repair.path ⟨repair.currentText, now⟩).file path).map
        SourceFile.text = (vault.file path).map SourceFile.text := by
  rw [file_writeFile, file_writeFile]
  by_cases hpath : repair.path = path
  · subst hpath
    rw [if_pos rfl, hfile, Option.map_some, Option.map_some, htext, universalNewlines_eq_self hreturns]
  · rw [if_neg hpath, if_neg hpath]

/-- What a repair that raises leaves: the vault as it was, when the file was not replaced; the bytes of every file, when the
indexer refuses the text and the file had no carriage return; the repaired text, when the index cannot be written. -/
theorem failed_repair_leaves (env : NoteEnvironment φ) (faults : RepairFaults) (vault : Vault φ) (request : RepairRequest)
    (now : String) {error : RepairError} {after : Vault φ}
    (hrun : repairNoteRaw env faults vault request now = (.error error, after)) :
    (error.stage.beforeReplacement = true → after = vault) ∧
      (error.stage = .refused →
        (∀ path file, env.safeRelativePath request.path = .ok path → vault.file path = some file → '\r' ∉ file.text) →
          ∀ path, (after.file path).map SourceFile.text = (vault.file path).map SourceFile.text) ∧
      (error.stage = .index → ∃ path, env.safeRelativePath request.path = .ok path ∧
        (after.file path).map SourceFile.text = some (env.redactSecretText request.rawContent).redactedContent.toList ∧
        ∀ other, other ≠ path → after.file other = vault.file other) := by
  unfold repairNoteRaw at hrun
  cases hcheck : checkRepair env vault request faults.source with
  | error raised =>
    have hstage := checkRepair_error hcheck
    rw [hcheck] at hrun
    cases hrun
    refine ⟨fun _ => rfl, ?_, ?_⟩
    · intro hrefused
      rw [hrefused] at hstage
      cases hstage
    · intro hindex
      rw [hindex] at hstage
      cases hstage
  | ok repair =>
    obtain ⟨hpath, ⟨file, hfile, htext⟩, -, hcontent⟩ := checkRepair_ok hcheck
    rw [hcheck] at hrun
    simp only at hrun
    split at hrun
    · cases hrun
      exact ⟨fun _ => rfl, nofun, nofun⟩
    · cases hrun
      exact ⟨nofun, nofun, nofun⟩
    · split at hrun
      · rename_i raised hindex
        have hrefused := indexRepaired_error hindex
        split at hrun
        · cases hrun
          exact ⟨nofun, nofun, nofun⟩
        · cases hrun
          exact ⟨nofun, nofun, nofun⟩
        · cases hrun
          rw [hrefused]
          refine ⟨nofun, ?_, nofun⟩
          intro _ hreturns path
          exact restored_text hfile htext (hreturns _ _ hpath hfile) now path
      · split at hrun
        · cases hrun
          refine ⟨nofun, nofun, ?_⟩
          intro _
          refine ⟨repair.path, hpath, ?_, ?_⟩
          · rw [file_writeFile, if_pos rfl, Option.map_some, hcontent]
          · intro other hother
            rw [file_writeFile, if_neg (Ne.symm hother)]
        · cases hrun

theorem raisedStage_eq_some {α : Type} {answer : Except RepairError α} {stage : RepairStage}
    (h : raisedStage answer = some stage) : ∃ error, answer = .error error ∧ error.stage = stage := by
  cases answer with
  | error error => exact ⟨error, rfl, Option.some.inj h⟩
  | ok _ => cases h

/-- A skill of one line. -/
def skillVault : Vault Unit := ⟨[("a.md", ⟨"---\nalexandria_type: skill\nid: a\n---\nold".toList, ""⟩)], []⟩

def skillRepair (rawContent : String) : RepairRequest where
  path := "a.md"
  expectedContentHash := plainEnvironment.hashText "---\nalexandria_type: skill\nid: a\n---\nold"
  rawContent := rawContent

/-- A repair that takes the type away is refused, and the note is as it was. -/
theorem failed_repair_leaves_refused :
    raisedStage (repairNoteRaw plainEnvironment .none skillVault (skillRepair "---\nid: a\n---\nnew") "").1 = some .refused ∧
      ∀ path, ((repairNoteRaw plainEnvironment .none skillVault (skillRepair "---\nid: a\n---\nnew") "").2.file path).map
        SourceFile.text = (skillVault.file path).map SourceFile.text := by
  have hstage : raisedStage
      (repairNoteRaw plainEnvironment .none skillVault (skillRepair "---\nid: a\n---\nnew") "").1 = some .refused := by
    decide
  have hreturns : ∀ file ∈ skillVault.file "a.md", '\r' ∉ file.text := by decide
  obtain ⟨error, herror, hrefused⟩ := raisedStage_eq_some hstage
  refine ⟨hstage, (failed_repair_leaves plainEnvironment .none skillVault (skillRepair "---\nid: a\n---\nnew") ""
    (Prod.ext herror rfl)).2.1 hrefused ?_⟩
  intro path file hpath hfile
  cases hpath
  exact hreturns file hfile

/-- When the index cannot be written, the repair raises and the new text stays. -/
theorem failed_repair_keeps_new_text :
    raisedStage (repairNoteRaw plainEnvironment ⟨false, none, none, true⟩ skillVault
        (skillRepair "---\nalexandria_type: skill\nid: a\n---\nnew") "").1 = some .index ∧
      ((repairNoteRaw plainEnvironment ⟨false, none, none, true⟩ skillVault
        (skillRepair "---\nalexandria_type: skill\nid: a\n---\nnew") "").2.file "a.md").map SourceFile.text ≠
        (skillVault.file "a.md").map SourceFile.text := by
  decide

end Alexandria.Notes
