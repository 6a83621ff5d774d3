import Alexandria.Notes.Supersession

/-! # What a save overwrites

A save asks the index whose note is at its target path, not the file that is there. The path of a request without one is made
from the characters of the title that a filename may have, so that titles with the same ones share a file.
-/

namespace Alexandria.Notes
set_option autoImplicit false
open Text

/-! ## Paths of titles -/

/-- `[A-Za-z0-9가-힣._ -]` -/
def isFilenameChar (c : Char) : Bool :=
  ('A' ≤ c && c ≤ 'Z') || ('a' ≤ c && c ≤ 'z') || ('0' ≤ c && c ≤ '9') || ('가' ≤ c && c ≤ '힣') || c = '.' || c = '_' ||
    c = ' ' || c = '-'

def noteSuffix : List Char := ".md".toList

/-- `safe_filename` without the suffix that it adds. -/
def cleanedTitle (title : String) : List Char :=
  let cleaned := trimBy (fun c => c = ' ' || c = '.') (title.toList.filter isFilenameChar)
  if cleaned = [] then "Untitled".toList else cleaned

def safeFilename (title : String) : String :=
  String.ofList (if noteSuffix.isSuffixOf (cleanedTitle title) then cleanedTitle title else cleanedTitle title ++ noteSuffix)

def defaultFolder : AlexandriaNoteType → String
  | .context => "Contexts/Projects"
  | .memoryCompact => "Memory Compacts"
  | .skill => "Skills/Drafts"
  | .prompt => "Prompts/Task Prompts"
  | .jobPlan => "Jobs"
  | .implementationHistory => "Implementation History"

def defaultNotePath (root : String) (noteType : AlexandriaNoteType) (title : String) : String :=
  root ++ "/" ++ defaultFolder noteType ++ "/" ++ safeFilename title

/-- The cleaned title up to the suffix, which decides the file. -/
def titleStem (title : String) : List Char :=
  if noteSuffix.isSuffixOf (cleanedTitle title) then (cleanedTitle title).take ((cleanedTitle title).length - noteSuffix.length)
  else cleanedTitle title

theorem safeFilename_eq (title : String) : safeFilename title = String.ofList (titleStem title ++ noteSuffix) := by
  unfold safeFilename titleStem
  split
  · rename_i hsuffix
    rw [List.isSuffixOf_iff_suffix] at hsuffix
    obtain ⟨stem, hstem⟩ := hsuffix
    rw [← hstem]
    simp
  · rfl

/-- Two titles share the file of a type exactly if they share the stem. -/
theorem defaultNotePath_eq_iff (root : String) (noteType : AlexandriaNoteType) (title other : String) :
    defaultNotePath root noteType title = defaultNotePath root noteType other ↔ titleStem title = titleStem other := by
  unfold defaultNotePath
  rw [String.append_right_inj, safeFilename_eq, safeFilename_eq, String.ofList_inj]
  exact List.append_left_inj noteSuffix

/-- Characters that no filename has do not matter. -/
theorem titleStem_filter (title : String) : titleStem (String.ofList (title.toList.filter isFilenameChar)) = titleStem title := by
  have hcleaned : cleanedTitle (String.ofList (title.toList.filter isFilenameChar)) = cleanedTitle title := by
    unfold cleanedTitle
    rw [String.toList_ofList, List.filter_filter]
    simp only [Bool.and_self]
  unfold titleStem
  rw [hcleaned]

section Overwrite
variable {φ : Type} {env : NoteEnvironment φ} {str : NestedText φ} {vault : Vault φ} {payload : ObsidianSaveNote φ}

/-! ## The files that a save writes -/

/-- The file is as it was, or scalars of its frontmatter were updated. -/
def Survives (after : Vault φ) (path : String) (file : SourceFile) : Prop :=
  after.file path = some file ∨ ∃ replacements document modifiedAt,
    updateFrontmatterScalars (universalNewlines file.text) replacements = .ok document ∧
      after.file path = some ⟨document, modifiedAt⟩

/-- The path whose file a save replaces by its document. -/
def replacedPath (env : NoteEnvironment φ) (str : NestedText φ) (vault : Vault φ) (payload : ObsidianSaveNote φ)
    (newId now : String) : Option String :=
  match prepareSave env str vault payload none none newId now with
  | .ok (.document save) => some save.path
  | _ => none

theorem persistAndIndex_file (env : NoteEnvironment φ) (vault : Vault φ) (missing path : String) (document : List Char) (now other : String) :
    (persistAndIndex env missing vault path document now).2.file other =
      if path = other then some ⟨document, now⟩ else vault.file other := by
  have hwrite := file_writeFile vault path ⟨document, now⟩ other
  unfold persistAndIndex
  simp only
  split
  · exact hwrite
  · exact hwrite
  · exact hwrite

theorem updateScalars_survives {note : ObsidianNote φ} {replacements : List (String × String)} {now path : String}
    {file : SourceFile} (hfile : vault.file path = some file) :
    Survives (updateScalars env vault note replacements now).2 path file := by
  unfold updateScalars
  cases hnote : vault.file note.relativePath with
  | none => exact .inl hfile
  | some source =>
    simp only
    cases hupdate : updateFrontmatterScalars (universalNewlines source.text) (replacements ++ [("updated_at", now)]) with
    | error text => exact .inl hfile
    | ok document =>
      by_cases hpath : note.relativePath = path
      · subst hpath
        rw [hfile] at hnote
        cases hnote
        refine .inr ⟨_, document, now, hupdate, ?_⟩
        simp only [persistAndIndex_file, if_true]
      · left
        simp only [persistAndIndex_file]
        rw [if_neg hpath]
        exact hfile

theorem markSuperseded_survives {supersededId replacementId now path : String} {file : SourceFile}
    (hfile : vault.file path = some file) : Survives (markSuperseded env vault supersededId replacementId now).2 path file := by
  unfold markSuperseded
  cases vault.getById supersededId with
  | none => exact .inl hfile
  | some superseded =>
    simp only
    split
    · exact .inl hfile
    · split
      · exact .inl hfile
      · exact updateScalars_survives hfile

/-- Every other file survives a save. -/
theorem saveNote_survives {newId now path : String} {file : SourceFile} (hfile : vault.file path = some file)
    (hother : replacedPath env str vault payload newId now ≠ some path) :
    Survives (saveNote env str vault payload newId now).2 path file := by
  unfold replacedPath at hother
  unfold saveNote saveNoteSerialized
  cases hprepared : prepareSave env str vault payload none none newId now with
  | error text => exact .inl hfile
  | ok prepared =>
    cases prepared with
    | existing note => exact .inl hfile
    | document save =>
      rw [hprepared] at hother
      have hpath : save.path ≠ path := fun heq => hother (congrArg some heq)
      have hkept := persistAndIndex_file env vault "saved note is missing Alexandria frontmatter" save.path
        save.document now path
      simp only
      generalize persistAndIndex env "saved note is missing Alexandria frontmatter" vault save.path save.document now = result at hkept
      obtain ⟨answer, after⟩ := result
      simp only [if_neg hpath] at hkept
      rw [hfile] at hkept
      cases answer with
      | error text => exact .inl hkept
      | ok note =>
        simp only
        cases save.supersedesContextId with
        | none => exact .inl hkept
        | some target => exact markSuperseded_survives hkept

/-- The file of a save holds its document, up to scalars that are updated afterwards. -/
theorem saveNote_replaces {newId now : String} {save : SaveDocument}
    (h : prepareSave env str vault payload none none newId now = .ok (.document save)) :
    Survives (saveNote env str vault payload newId now).2 save.path ⟨save.document, now⟩ := by
  unfold saveNote saveNoteSerialized
  rw [h]
  have hwritten := persistAndIndex_file env vault "saved note is missing Alexandria frontmatter" save.path
    save.document now save.path
  simp only
  generalize persistAndIndex env "saved note is missing Alexandria frontmatter" vault save.path save.document now = result at hwritten
  obtain ⟨answer, after⟩ := result
  rw [if_pos rfl] at hwritten
  cases answer with
  | error text => exact .inl hwritten
  | ok note =>
    simp only
    cases save.supersedesContextId with
    | none => exact .inl hwritten
    | some target => exact markSuperseded_survives hwritten

/-! ## The requests that are carried out -/

def requestedPath (env : NoteEnvironment φ) (payload : ObsidianSaveNote φ) : String :=
  (payload.relativePath.filter (· ≠ "")).getD (env.defaultNotePath payload.alexandriaType (pythonStrip payload.title))

/-- The request passes all checks but those of identity, for a note and a path. -/
structure Accepted (env : NoteEnvironment φ) (vault : Vault φ) (payload : ObsidianSaveNote φ) (noteId path now : String) : Prop where
  title : pythonStrip payload.title ≠ ""
  body : (env.redactSecretText payload.body).blocked = false
  location : env.safeRelativePath (requestedPath env payload) = .ok path
  expected : validateExpectedContentHash env vault payload (vault.getByPath path) path = .ok ()
  metadata : ∃ redacted fields, redactedFrontmatter env.redactSecretText payload.frontmatter = .ok redacted ∧
    frontmatterForSave env { payload with frontmatter := redacted.1 } redacted.1 noteId (pythonStrip payload.title)
      ((env.redactSecretText payload.body).warnings ++ redacted.2) now = .ok fields ∧
    (payload.alexandriaType = .context → ∃ policy,
      applyContextSavePolicy env vault { payload with frontmatter := redacted.1 } noteId fields
        (env.addOrUpdateLinksSection (env.redactSecretText payload.body).redactedContent fields) = .ok policy ∧
      policy.duplicate = none)

/-- The index has another note at the path, or the note elsewhere. -/
def IndexRefuses (vault : Vault φ) (payload : ObsidianSaveNote φ) (noteId path : String) : Prop :=
  (∃ row given, vault.getByPath path = some row ∧ payload.noteId = some given ∧ row.noteId ≠ given) ∨
    ∃ other, vault.getById noteId = some other ∧ other.relativePath ≠ path

theorem saveTarget_ok_iff {title newId : String} {target : String × String} :
    saveTarget env vault payload title newId = .ok target ↔
      env.safeRelativePath ((payload.relativePath.filter (· ≠ "")).getD (env.defaultNotePath payload.alexandriaType title)) =
        .ok target.2 ∧
      validateExpectedContentHash env vault payload (vault.getByPath target.2) target.2 = .ok () ∧
      target.1 = saveNoteId env vault payload target.2 newId ∧
      ¬ IndexRefuses vault payload (saveNoteId env vault payload target.2 newId) target.2 := by
  unfold saveTarget
  constructor
  · intro hok
    obtain ⟨path, hpath, hok⟩ := Keyed.bind_eq_ok hok
    obtain ⟨checked, hchecked, hok⟩ := Keyed.bind_eq_ok hok
    split at hok
    · cases hok
    · rename_i hrow
      obtain ⟨rfl, hunique⟩ := uniqueTarget_ok hok
      refine ⟨hpath, hchecked, rfl, ?_⟩
      rintro (⟨row, given, hrow', hgiven, hne⟩ | ⟨other, hother, hne⟩)
      · apply hrow
        rw [hrow', hgiven]
        simpa using hne
      · exact hne (hunique other hother)
  · rintro ⟨hpath, hchecked, hnote, hrefuses⟩
    obtain ⟨noteId, path⟩ := target
    simp only at hpath hchecked hnote hrefuses
    subst hnote
    rw [hpath]
    simp only [bind, Except.bind]
    rw [hchecked]
    simp only
    rw [if_neg]
    · unfold uniqueTarget
      cases hother : vault.getById (saveNoteId env vault payload path newId) with
      | none => rfl
      | some other =>
        simp only
        rw [if_pos]
        by_contra hne
        exact hrefuses (.inr ⟨other, hother, hne⟩)
    · intro hany
      simp only [Option.any_eq_true, decide_eq_true_eq] at hany
      obtain ⟨row, hrow, given, hgiven, hne⟩ := hany
      exact hrefuses (.inl ⟨row, given, hrow, hgiven, hne⟩)

/-- A save replaces the file at a path exactly if its request is accepted for it and the index does not refuse it. -/
theorem replacedPath_iff {newId now path : String} : replacedPath env str vault payload newId now = some path ↔
    Accepted env vault payload (saveNoteId env vault payload path newId) path now ∧
      ¬ IndexRefuses vault payload (saveNoteId env vault payload path newId) path := by
  unfold replacedPath
  constructor
  · intro h
    split at h
    · rename_i save hok
      cases h
      unfold prepareSave at hok
      simp only at hok
      split at hok
      · cases hok
      · rename_i htitle
        split at hok
        · cases hok
        · rename_i hbody
          obtain ⟨redacted, hredacted, hok⟩ := Keyed.bind_eq_ok hok
          obtain ⟨target, htarget, hok⟩ := Keyed.bind_eq_ok hok
          obtain ⟨fields, hfields, hok⟩ := Keyed.bind_eq_ok hok
          obtain ⟨hlocation, hexpected, hnote, hrefuses⟩ := saveTarget_ok_iff.mp htarget
          have hfields' := hfields
          rw [hnote] at hfields'
          simp only [Option.isSome_none, Bool.false_eq_true, if_false, Option.filter_none] at hok
          by_cases hcontext : payload.alexandriaType = .context
          · rw [if_pos hcontext] at hok
            obtain ⟨policy, hpolicy, hok⟩ := Keyed.bind_eq_ok hok
            cases hduplicate : policy.duplicate with
            | some duplicate =>
              rw [hduplicate] at hok
              cases hok
            | none =>
              rw [hduplicate] at hok
              cases hok
              rw [hnote] at hpolicy
              exact ⟨⟨htitle, Bool.eq_false_iff.mpr hbody, hlocation, hexpected, redacted, fields, hredacted, hfields', fun _ =>
                ⟨policy, hpolicy, hduplicate⟩⟩, hrefuses⟩
          · rw [if_neg hcontext] at hok
            cases hok
            exact ⟨⟨htitle, Bool.eq_false_iff.mpr hbody, hlocation, hexpected, redacted, fields, hredacted, hfields', fun h =>
              absurd h hcontext⟩, hrefuses⟩
    · cases h
  · rintro ⟨⟨htitle, hbody, hlocation, hexpected, redacted, fields, hredacted, hfields, hpolicy⟩, hrefuses⟩
    have htarget : saveTarget env vault { payload with frontmatter := redacted.1 } (pythonStrip payload.title) newId =
        .ok (saveNoteId env vault payload path newId, path) := saveTarget_ok_iff.mpr ⟨hlocation, hexpected, rfl, hrefuses⟩
    unfold prepareSave
    simp only
    rw [if_neg htitle, if_neg (by rw [hbody]; exact Bool.false_ne_true), hredacted]
    simp only [bind, Except.bind]
    rw [htarget]
    simp only [desiredFrontmatter]
    rw [hfields]
    simp only [Option.isSome_none, Bool.false_eq_true, if_false, Option.filter_none]
    by_cases hcontext : payload.alexandriaType = .context
    · obtain ⟨policy, hok, hduplicate⟩ := hpolicy hcontext
      rw [if_pos hcontext, hok]
      simp only
      rw [hduplicate]
    · rw [if_neg hcontext]

/-! ## Notes that are kept apart -/

def givenId (payload : ObsidianSaveNote φ) : Option String := payload.noteId.filter (· ≠ "")

def givenPath (payload : ObsidianSaveNote φ) : Option String := payload.relativePath.filter (· ≠ "")

/-- The file is that of the note which the request means: it carries no other identifier than a given one, and, where the request
gives neither identifier nor path, no other title. -/
def Meant (env : NoteEnvironment φ) (vault : Vault φ) (payload : ObsidianSaveNote φ) (path : String) (file : SourceFile) : Prop :=
  (∀ given, givenId payload = some given → ∀ carried,
    (noteIdFromExistingFile env vault path).filter (· ≠ "") = some carried → carried = given) ∧
  (givenId payload = none → givenPath payload = none → ∀ note, noteIndexFromFile env path file = .ok (some note) →
    note.title = pythonStrip payload.title)

/-- A save replaces only files of the note that it means. -/
def KeepsOthers (env : NoteEnvironment φ) (str : NestedText φ) (vault : Vault φ) (payload : ObsidianSaveNote φ)
    (newId now : String) : Prop :=
  ∀ path file, vault.file path = some file → replacedPath env str vault payload newId now = some path →
    Meant env vault payload path file

/-- A save keeps other notes exactly if, wherever its request is accepted and finds the file of another one, the index refuses it. -/
theorem save_keeps_others_iff (env : NoteEnvironment φ) (str : NestedText φ) (vault : Vault φ) (payload : ObsidianSaveNote φ)
    (newId now : String) : KeepsOthers env str vault payload newId now ↔
      ∀ path file, vault.file path = some file → Accepted env vault payload (saveNoteId env vault payload path newId) path now →
        ¬ Meant env vault payload path file → IndexRefuses vault payload (saveNoteId env vault payload path newId) path := by
  constructor
  · intro h path file hfile haccepted hother
    by_contra hrefuses
    exact hother (h path file hfile (replacedPath_iff.mpr ⟨haccepted, hrefuses⟩))
  · intro h path file hfile hreplaced
    obtain ⟨haccepted, hrefuses⟩ := replacedPath_iff.mp hreplaced
    by_contra hother
    exact hrefuses (h path file hfile haccepted hother)

end Overwrite

/-! ## A file that is not indexed, and two titles -/

def titledEnvironment : NoteEnvironment Unit :=
  { plainEnvironment with
    titleFromParts := fun frontmatter _ path => (frontmatterText (frontmatterJson frontmatter) "title").getD path
    defaultNotePath := defaultNotePath "Alexandria" }

def skillOf (title : String) (noteId relativePath : Option String) : ObsidianSaveNote Unit where
  title := title
  body := "text"
  alexandriaType := .skill
  noteId := noteId
  relativePath := relativePath
  tags := []
  status := "active"
  project := none
  source := "mcp"
  frontmatter := []
  expectedContentHash := none

def unindexedSkill : Vault Unit := ⟨[("a.md", ⟨"---\nalexandria_type: skill\nid: b\n---\n\nold\n".toList, ""⟩)], []⟩

def questionSkill : Vault Unit := (saveNote titledEnvironment noNestedText Vault.empty (skillOf "What?" none none) "n" "t").2

/-- The index does not know the first file; the second title leaves the same filename. -/
theorem save_replaces_others :
    ¬ KeepsOthers titledEnvironment noNestedText unindexedSkill (skillOf "a" (some "a") (some "a.md")) "n" "t" ∧
      ¬ KeepsOthers titledEnvironment noNestedText questionSkill (skillOf "What" none none) "m" "t" := by
  constructor
  · intro h
    have hcarried : (noteIdFromExistingFile titledEnvironment unindexedSkill "a.md").filter (· ≠ "") = some "b" := by decide +kernel
    have hreplaced : replacedPath titledEnvironment noNestedText unindexedSkill (skillOf "a" (some "a") (some "a.md")) "n" "t" =
        some "a.md" := by decide +kernel
    have hfile : (unindexedSkill.file "a.md").isSome = true := by decide
    obtain ⟨file, hfile⟩ := Option.isSome_iff_exists.mp hfile
    exact absurd ((h "a.md" file hfile hreplaced).1 "a" rfl "b" hcarried) (by decide)
  · intro h
    have hreplaced : replacedPath titledEnvironment noNestedText questionSkill (skillOf "What" none none) "m" "t" =
        some "Alexandria/Skills/Drafts/What.md" := by decide +kernel
    have htitle : ((questionSkill.file "Alexandria/Skills/Drafts/What.md").bind fun file =>
        (noteIndexFromFile titledEnvironment "Alexandria/Skills/Drafts/What.md" file).toOption.join).map (·.title) =
          some "What?" := by decide +kernel
    obtain ⟨note, hread, htitle⟩ := Option.map_eq_some_iff.mp htitle
    obtain ⟨file, hfile, hread⟩ := Option.bind_eq_some_iff.mp hread
    cases hindexed : noteIndexFromFile titledEnvironment "Alexandria/Skills/Drafts/What.md" file with
    | error text =>
      rw [hindexed] at hread
      cases hread
    | ok read =>
      rw [hindexed] at hread
      have hsame := (h _ file hfile hreplaced).2 rfl rfl note (by
        rw [hindexed]
        simpa [Except.toOption] using hread)
      rw [htitle] at hsame
      exact absurd hsame (by decide +kernel)

end Alexandria.Notes
