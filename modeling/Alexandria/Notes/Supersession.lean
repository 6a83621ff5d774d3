import Alexandria.Foundations.Run
import Alexandria.Foundations.Successor
import Alexandria.Notes.Rendered

/-! # The supersede graph over whole histories

Both directions of a supersession are fields of notes that are written by separate saves. The invariant is kept by
every operation that writes documents which read back with the links they were given, that takes no link away, and that
adds a link only to a note from which the newly superseding one is not reached.
-/

namespace Alexandria.Notes
set_option autoImplicit false
open Successor Run Text

variable {φ : Type} {env : NoteEnvironment φ} {str : NestedText φ} {vault after : Vault φ}

/-! ## Links -/

/-- A link field of a Context. -/
def ObsidianNote.link (note : ObsidianNote φ) (field : String) : Option String :=
  if note.alexandriaType = .context then (note.frontmatter.get field).text? else none

def Vault.link (vault : Vault φ) (field noteId : String) : Option String :=
  (vault.getById noteId).bind fun note => note.link field

/-- The Context that a Context supersedes. -/
def Vault.supersedes (vault : Vault φ) : String → Option String := vault.link "supersedes_context_id"

def Vault.supersededBy (vault : Vault φ) : String → Option String := vault.link "superseded_by_context_id"

structure SupersedeInvariant (vault : Vault φ) : Prop where
  acyclic : ∀ a, ¬ OnCycle vault.supersedes a
  unique : ∀ a b c, vault.supersedes b = some a → vault.supersedes c = some a → b = c
  mirrored : ∀ a b, vault.supersededBy a = some b ↔ vault.supersedes b = some a

theorem SupersedeInvariant.of_mirrored (hacyclic : ∀ a, ¬ OnCycle vault.supersedes a)
    (hmirrored : Mirrored vault.supersedes vault.supersededBy) : SupersedeInvariant vault where
  acyclic := hacyclic
  unique _ _ _ hb hc := hmirrored.injective hb hc
  mirrored := hmirrored

/-! ## The index is the projection of the files -/

structure Projected (env : NoteEnvironment φ) (vault : Vault φ) : Prop where
  paths : (vault.files.map Prod.fst).Nodup
  ids : (vault.index.map ObsidianNote.noteId).Nodup
  note_iff : ∀ note, note ∈ vault.index ↔
    ∃ file, vault.file note.relativePath = some file ∧ noteIndexFromFile env note.relativePath file = .ok (some note)

theorem projected_empty (env : NoteEnvironment φ) : Projected env (Vault.empty : Vault φ) where
  paths := List.nodup_nil
  ids := List.nodup_nil
  note_iff note := by simp [Vault.empty, Vault.file, Keyed.lookup]

theorem noteIndexFromFile_some {path : String} {file : SourceFile} {note : ObsidianNote φ}
    (h : noteIndexFromFile env path file = .ok (some note)) : note.relativePath = path ∧ note.noteId ≠ "" := by
  unfold noteIndexFromFile at h
  simp only at h
  split at h
  · cases h
  · obtain ⟨document, -, hdocument⟩ := Keyed.bind_eq_ok h
    obtain ⟨noteType, -, htype⟩ := Keyed.bind_eq_ok hdocument
    cases noteType with
    | none => cases htype
    | some noteType =>
      simp only at htype
      cases hid : (frontmatterText (frontmatterJson document.frontmatter) "id").filter (· ≠ "") with
      | none =>
        rw [hid] at htype
        cases htype
      | some noteId =>
        have hne : noteId ≠ "" := by
          have := (Option.filter_eq_some_iff.mp hid).2
          simpa using this
        rw [hid] at htype
        simp only at htype
        split at htype
        · obtain ⟨identity, -, hnote⟩ := Keyed.bind_eq_ok htype
          cases hnote
          exact ⟨rfl, hne⟩
        · cases htype
          exact ⟨rfl, hne⟩

/-- The Context that a file with readable frontmatter has. -/
theorem noteIndexFromFile_context {path now noteId : String} {text : List Char} {document : Markdown.MarkdownDocument φ}
    {fields : JsonObject φ} {identity : ObsidianContextIdentity}
    (hsafe : env.containsSecretField (universalNewlines text) = false)
    (hparse : Markdown.parseMarkdownDocument env.floats (universalNewlines text) = .ok document)
    (hjson : frontmatterJson document.frontmatter = fields)
    (htype : noteTypeFromFrontmatter env fields = .ok (some .context))
    (hid : (frontmatterText fields "id").filter (· ≠ "") = some noteId)
    (hidentity : contextIdentityFromFrontmatter env.text (fields.set "alexandria_type" (.str "context"))
      (frontmatterText fields "project") (((frontmatterText fields "status").filter (· ≠ "")).getD "active")
      (contextContentHash env document.body) = .ok identity) :
    noteIndexFromFile env path ⟨text, now⟩ = .ok (some
      { noteId := noteId
        relativePath := path
        alexandriaType := .context
        title := env.titleFromParts document.frontmatter document.body path
        status := identity.status.value
        tags := frontmatterList fields "tags"
        project := identity.identity.project
        source := frontmatterText fields "source"
        contentHash := identity.contentHash
        sourceHash := env.hashText (String.ofList (universalNewlines text))
        frontmatter := ((fields.set "alexandria_type" (.str "context")).update
          (normalizedContextFrontmatter identity)).erase "provenance"
        body := document.body
        modifiedAt := now }) := by
  subst hjson
  unfold noteIndexFromFile
  simp only [hsafe, hparse, htype, hid, bind, Except.bind, Bool.false_eq_true, if_false, if_true, AlexandriaNoteType.value,
    hidentity]

namespace Projected

variable {note : ObsidianNote φ}

theorem getById_iff (h : Projected env vault) {noteId : String} :
    vault.getById noteId = some note ↔ note ∈ vault.index ∧ note.noteId = noteId := Keyed.lookup_eq_some h.ids

theorem exists_file (h : Projected env vault) (hnote : note ∈ vault.index) :
    ∃ file, vault.file note.relativePath = some file ∧ noteIndexFromFile env note.relativePath file = .ok (some note) :=
  (h.note_iff note).mp hnote

/-- Two notes at one path are the same. -/
theorem eq_of_path (h : Projected env vault) {other : ObsidianNote φ} (hnote : note ∈ vault.index)
    (hother : other ∈ vault.index) (hpath : other.relativePath = note.relativePath) : other = note := by
  obtain ⟨file, hfile, hread⟩ := h.exists_file hnote
  obtain ⟨file', hfile', hread'⟩ := h.exists_file hother
  rw [hpath] at hfile' hread'
  cases hfile.symm.trans hfile'
  rw [hread] at hread'
  exact (Option.some.inj (Except.ok.inj hread')).symm

theorem eq_of_id (h : Projected env vault) {other : ObsidianNote φ} (hnote : note ∈ vault.index)
    (hother : other ∈ vault.index) (hid : other.noteId = note.noteId) : other = note :=
  List.inj_on_of_nodup_map h.ids hother hnote hid

/-- A note that is read is the indexed one. -/
theorem readNote_ok (h : Projected env vault) {noteId : String} {found : AuthoritativeNote φ}
    (hread : readNote env vault noteId = .ok found) : vault.getById noteId = some found.note := by
  unfold readNote at hread
  cases hrow : vault.getById noteId with
  | some row =>
    rw [hrow] at hread
    obtain ⟨file, hfile, hnote⟩ := h.exists_file (h.getById_iff.mp hrow).1
    simp only [hfile, hnote] at hread
    unfold authoritativeNote at hread
    split at hread
    · cases hread
    · cases hread
      rfl
  | none =>
    rw [hrow] at hread
    simp only [readNoteFromSourceSnapshot] at hread
    cases hall : vault.files.mapM fun file => noteIndexFromFile env file.1 file.2 with
    | error text =>
      rw [hall] at hread
      cases hread
    | ok payloads =>
      rw [hall] at hread
      simp only at hread
      split at hread
      · cases hread
      · split at hread
        · cases hread
        · rename_i payload hpayload
          -- the only note with the identifier would be indexed
          have hmem : payload ∈ (payloads.filterMap id).filter fun payload => payload.noteId = noteId := by
            rw [hpayload]
            exact List.mem_singleton_self payload
          obtain ⟨hmem, hid⟩ := List.mem_filter.mp hmem
          obtain ⟨entry, hentry, heq⟩ := List.mem_filterMap.mp hmem
          obtain ⟨file, hfile, hnote⟩ := Keyed.mapM_ok_source hall hentry
          simp only [id] at heq
          subst heq
          have hpath := (noteIndexFromFile_some hnote).1
          have hlookup : vault.file payload.relativePath = some file.2 := by
            rw [Vault.file, hpath, (Keyed.lookup_eq_some h.paths).mpr ⟨hfile, rfl⟩]
            rfl
          have hindexed := (h.note_iff payload).mpr ⟨file.2, hlookup, by rw [hpath]; exact hnote⟩
          exact absurd (by simpa using hid) (Keyed.lookup_eq_none.mp hrow payload hindexed)
        · cases hread

end Projected

/-! ## Writing one note -/

/-- The notes under the identifier are those at the path. -/
def CanStore (vault : Vault φ) (noteId path : String) : Prop :=
  ∀ row ∈ vault.index, row.noteId = noteId ↔ row.relativePath = path

theorem Projected.canStore (h : Projected env vault) {note : ObsidianNote φ} (hnote : note ∈ vault.index) :
    CanStore vault note.noteId note.relativePath := by
  intro row hrow
  constructor
  · intro hid
    rw [h.eq_of_id hnote hrow hid]
  · intro hpath
    rw [h.eq_of_path hnote hrow hpath]

theorem file_writeFile (vault : Vault φ) (path : String) (file : SourceFile) (other : String) :
    (vault.writeFile path file).file other = if path = other then some file else vault.file other := by
  unfold Vault.file Vault.writeFile
  simp only [Keyed.lookup_put]
  split <;> rfl

/-- What a write that reads back as `note` leaves. -/
structure Stored (env : NoteEnvironment φ) (vault : Vault φ) (note : ObsidianNote φ) (after : Vault φ) : Prop where
  projected : Projected env after
  getById : ∀ noteId, after.getById noteId = if note.noteId = noteId then some note else vault.getById noteId
  file : ∀ path, path ≠ note.relativePath → after.file path = vault.file path

theorem persistAndIndex_ok {missing path now : String} {document : List Char} {note : ObsidianNote φ}
    (h : persistAndIndex env missing vault path document now = (.ok note, after)) :
    noteIndexFromFile env path ⟨document, now⟩ = .ok (some note) ∧
      after = (vault.writeFile path ⟨document, now⟩).upsertNote note := by
  unfold persistAndIndex at h
  simp only at h
  split at h
  · cases h
  · cases h
  · rename_i hread
    cases h
    exact ⟨hread, rfl⟩

theorem stored_of_persist (h : Projected env vault) {missing path now : String} {document : List Char}
    {note : ObsidianNote φ} (hpersist : persistAndIndex env missing vault path document now = (.ok note, after))
    (hstore : CanStore vault note.noteId path) : Stored env vault note after := by
  obtain ⟨hread, rfl⟩ := persistAndIndex_ok hpersist
  obtain ⟨hpath, -⟩ := noteIndexFromFile_some hread
  have hkept : (vault.index.filter fun row => row.relativePath ≠ note.relativePath || row.noteId = note.noteId) =
      vault.index := by
    rw [List.filter_eq_self]
    intro row hrow
    have hiff := hstore row hrow
    rw [hpath]
    by_cases hid : row.noteId = note.noteId
    · simp [hid]
    · simp [hid, mt hiff.mpr hid]
  have hindex : ((vault.writeFile path ⟨document, now⟩).upsertNote note).index =
      Keyed.put ObsidianNote.noteId note vault.index := by
    unfold Vault.upsertNote Vault.writeFile
    simp only [hkept]
  have hfile : ∀ other, ((vault.writeFile path ⟨document, now⟩).upsertNote note).file other =
      if path = other then some ⟨document, now⟩ else vault.file other := file_writeFile vault path ⟨document, now⟩
  refine ⟨⟨Keyed.nodup_put h.paths, ?_, ?_⟩, ?_, ?_⟩
  · rw [hindex]
    exact Keyed.nodup_put h.ids
  · intro other
    rw [hindex, Keyed.mem_put, hfile]
    by_cases hother : other = note
    · subst hother
      rw [hpath]
      simp [hread]
    · by_cases hsame : path = other.relativePath
      · rw [← hsame, if_pos rfl]
        constructor
        · rintro (rfl | ⟨hmem, hid⟩)
          · exact absurd rfl hother
          · exact absurd ((hstore other hmem).mpr hsame.symm) hid
        · rintro ⟨file, hfile', hread'⟩
          cases hfile'
          rw [hread] at hread'
          exact absurd (Option.some.inj (Except.ok.inj hread')).symm hother
      · rw [if_neg hsame, ← h.note_iff]
        constructor
        · rintro (rfl | ⟨hmem, -⟩)
          · exact absurd rfl hother
          · exact hmem
        · intro hmem
          exact .inr ⟨hmem, fun hid => hsame ((hstore other hmem).mp hid).symm⟩
  · intro noteId
    unfold Vault.getById
    rw [hindex, Keyed.lookup_put]
  · intro other hne
    rw [hfile, if_neg]
    rintro rfl
    exact hne hpath.symm

theorem Stored.link {note : ObsidianNote φ} (h : Stored env vault note after) (field : String) :
    after.link field = Function.update (vault.link field) note.noteId (note.link field) := by
  funext noteId
  unfold Vault.link
  rw [h.getById]
  by_cases hid : noteId = note.noteId
  · subst hid
    simp
  · rw [Function.update_of_ne hid, if_neg (Ne.symm hid)]

theorem updateScalars_ok {note written : ObsidianNote φ} {replacements : List (String × String)} {now : String}
    (h : updateScalars env vault note replacements now = (.ok written, after)) :
    ∃ file document, vault.file note.relativePath = some file ∧
      updateFrontmatterScalars (universalNewlines file.text) (replacements ++ [("updated_at", now)]) = .ok document ∧
      persistAndIndex env "updated Context lost managed frontmatter" vault note.relativePath document now =
        (.ok written, after) := by
  unfold updateScalars at h
  cases hfile : vault.file note.relativePath with
  | none =>
    rw [hfile] at h
    cases h
  | some file =>
    rw [hfile] at h
    simp only at h
    cases hdocument : updateFrontmatterScalars (universalNewlines file.text) (replacements ++ [("updated_at", now)]) with
    | error text =>
      rw [hdocument] at h
      cases h
    | ok document =>
      rw [hdocument] at h
      exact ⟨file, document, rfl, hdocument, h⟩

/-! ## The condition on one operation -/

/-- The note that a written document reads back as. -/
def readBack (env : NoteEnvironment φ) (path : String) (document : List Char) (now : String) : Option (ObsidianNote φ) :=
  (noteIndexFromFile env path ⟨document, now⟩).toOption.join

theorem readBack_ok {path now : String} {document : List Char} {note : ObsidianNote φ}
    (h : readBack env path document now = some note) : noteIndexFromFile env path ⟨document, now⟩ = .ok (some note) := by
  unfold readBack at h
  cases hfound : noteIndexFromFile env path ⟨document, now⟩ with
  | error text =>
    rw [hfound] at h
    cases h
  | ok found =>
    rw [hfound] at h
    exact congrArg Except.ok h

/-- The note that a patched document reads back as. -/
def patched (env : NoteEnvironment φ) (vault : Vault φ) (note : ObsidianNote φ) (replacements : List (String × String))
    (now : String) : Option (ObsidianNote φ) := do
  let file ← vault.file note.relativePath
  let document ←
    (updateFrontmatterScalars (universalNewlines file.text) (replacements ++ [("updated_at", now)])).toOption
  readBack env note.relativePath document now

/-- The patched document reads back as the note, with the links. -/
def PatchKeeps (env : NoteEnvironment φ) (vault : Vault φ) (note : ObsidianNote φ) (replacements : List (String × String))
    (now : String) (next prev : Option String) : Prop :=
  ∀ after ∈ patched env vault note replacements now,
    after.noteId = note.noteId ∧ after.link "supersedes_context_id" = next ∧ after.link "superseded_by_context_id" = prev

/-- Marking the Context as superseded reads back. -/
def MarkKeeps (env : NoteEnvironment φ) (vault : Vault φ) (supersededId replacementId now : String) : Prop :=
  ∀ superseded ∈ vault.getById supersededId,
    PatchKeeps env vault superseded (markReplacements superseded replacementId) now (vault.supersedes supersededId)
      (some replacementId)

/-- A link to the target may be added: it is there, or there is none and the target does not lead back. -/
def MayLink (vault : Vault φ) (noteId target : String) : Prop :=
  vault.supersedes noteId = some target ∨ vault.supersedes noteId = none ∧ ¬ Reaches vault.supersedes target noteId

/-- The document that a save has prepared. -/
def preparedDocument : Except String (PreparedSave φ) → Option SaveDocument
  | .ok (.document save) => some save
  | _ => none

section Condition
variable (may : Vault φ → String → String → Prop)

/-- The document of a save reads back with its identifier and its forward link, and the note keeps its links. -/
def SaveKeeps (env : NoteEnvironment φ) (vault : Vault φ) (prepared : Except String (PreparedSave φ)) (now : String) :
    Prop :=
  ∀ save ∈ preparedDocument prepared,
    (∀ note ∈ readBack env save.path save.document now,
      note.noteId = save.noteId ∧ note.link "supersedes_context_id" = save.supersedesContextId ∧
        note.link "superseded_by_context_id" = vault.supersededBy save.noteId) ∧
    (save.supersedesContextId = none → vault.supersedes save.noteId = none) ∧
    ∀ target ∈ save.supersedesContextId, may vault save.noteId target ∧ MarkKeeps env vault target save.noteId now

inductive NoteOperation (φ : Type)
  | save (payload : ObsidianSaveNote φ) (newId now : String)
  | write (command : ObsidianWriteNote φ) (newId now : String)
  | supersede (noteId replacementNoteId now : String)
  | archive (noteId now : String)

/-- The vault after an operation that succeeds. -/
def succeeded {α : Type} : Outcome φ α → Option (Vault φ)
  | (.ok _, after) => some after
  | (.error _, _) => none

def operate (env : NoteEnvironment φ) (str : NestedText φ) (vault : Vault φ) : NoteOperation φ → Option (Vault φ)
  | .save payload newId now => succeeded (saveNote env str vault payload newId now)
  | .write command newId now => succeeded (writeNote env str vault command newId now)
  | .supersede noteId replacementNoteId now => succeeded (supersede env vault noteId replacementNoteId now)
  | .archive noteId now => succeeded (archive env vault noteId now)

def OperationKeeps (env : NoteEnvironment φ) (str : NestedText φ) (vault : Vault φ) : NoteOperation φ → Prop
  | .save payload newId now => SaveKeeps may env vault (prepareSave env str vault payload none none newId now) now
  | .write command newId now =>
    ∀ resolved ∈ (resolveWriteTarget env vault command).toOption,
      SaveKeeps may env vault
        (prepareSave env str vault resolved.1 resolved.2 (some command.frontmatterMode) newId now) now
  | .supersede noteId replacementNoteId now =>
    may vault replacementNoteId noteId ∧ MarkKeeps env vault noteId replacementNoteId now ∧
      ∀ superseded ∈ vault.getById noteId, ∀ replacement ∈ vault.getById replacementNoteId,
        PatchKeeps env vault replacement (linkReplacements superseded replacement) now (some noteId)
          (vault.supersededBy replacementNoteId)
  | .archive noteId now =>
    ∀ note ∈ vault.getById noteId,
      PatchKeeps env vault note [("status", "archived")] now (vault.supersedes noteId) (vault.supersededBy noteId)

end Condition

/-- The condition under which an operation keeps the supersede graph in order. -/
def KeepsLinks (env : NoteEnvironment φ) (str : NestedText φ) (vault : Vault φ) (operation : NoteOperation φ) : Prop :=
  OperationKeeps MayLink env str vault operation

/-! ## One operation -/

theorem Vault.link_of_getById {note : ObsidianNote φ} {noteId : String} (h : vault.getById noteId = some note)
    (field : String) : vault.link field noteId = note.link field := by
  unfold Vault.link
  rw [h, Option.bind_some]

/-- A patch of a note that reads back with the links. -/
theorem PatchKeeps.stored (h : Projected env vault) {note written : ObsidianNote φ} {replacements : List (String × String)}
    {now : String} {next prev : Option String} (hpatch : PatchKeeps env vault note replacements now next prev)
    (hnote : note ∈ vault.index) (hrun : updateScalars env vault note replacements now = (.ok written, after)) :
    Stored env vault written after ∧ written.noteId = note.noteId ∧ written.relativePath = note.relativePath ∧
      written.link "supersedes_context_id" = next ∧ written.link "superseded_by_context_id" = prev := by
  obtain ⟨file, document, hfile, hdocument, hpersist⟩ := updateScalars_ok hrun
  have hread := (persistAndIndex_ok hpersist).1
  obtain ⟨hid, hlinks⟩ := hpatch written (by simp [patched, hfile, hdocument, readBack, hread, Except.toOption])
  exact ⟨stored_of_persist h hpersist (by rw [hid]; exact h.canStore hnote), hid, (noteIndexFromFile_some hread).1, hlinks⟩

/-- Marking a Context that has no other replacement sets its backward link and nothing else. -/
theorem markSuperseded_ok (h : Projected env vault) {supersededId replacementId now : String} {marked : ObsidianNote φ}
    (hmark : MarkKeeps env vault supersededId replacementId now)
    (hrun : markSuperseded env vault supersededId replacementId now = (.ok marked, after))
    (hcontext : ∀ row, vault.getById supersededId = some row → row.alexandriaType = .context) :
    Projected env after ∧ after.supersedes = vault.supersedes ∧
      (vault.supersededBy supersededId = none ∨ vault.supersededBy supersededId = some replacementId) ∧
      after.supersededBy = Function.update vault.supersededBy supersededId (some replacementId) := by
  unfold markSuperseded at hrun
  cases hrow : vault.getById supersededId with
  | none =>
    rw [hrow] at hrun
    cases hrun
  | some superseded =>
    obtain ⟨hmem, hid⟩ := h.getById_iff.mp hrow
    have hlink : vault.supersededBy supersededId = (superseded.frontmatter.get "superseded_by_context_id").text? := by
      rw [Vault.supersededBy, Vault.link_of_getById hrow, ObsidianNote.link, if_pos (hcontext superseded hrow)]
    rw [hrow] at hrun
    simp only at hrun
    split at hrun
    · cases hrun
    · rename_i hallowed
      have hvalue := JsonValue.isNullOr_cases (by simpa using hallowed)
      have hprev : vault.supersededBy supersededId = none ∨ vault.supersededBy supersededId = some replacementId := by
        rw [hlink]
        obtain hvalue | hvalue := hvalue
        · rw [hvalue]
          exact .inl rfl
        · rw [hvalue]
          exact .inr rfl
      split at hrun
      · rename_i hdone
        cases hrun
        refine ⟨h, rfl, hprev, ?_⟩
        rw [← hdone.1, ← hlink, Function.update_eq_self]
      · obtain ⟨hstored, hwritten, -, hnext, hback⟩ := (hmark superseded (Option.mem_def.mpr hrow)).stored h hmem hrun
        rw [hid] at hwritten
        refine ⟨hstored.projected, ?_, hprev, ?_⟩
        · rw [Vault.supersedes, hstored.link, hwritten, hnext]
          exact Function.update_eq_self supersededId vault.supersedes
        · rw [Vault.supersededBy, hstored.link, hwritten, hback]
          rfl

/-- A save writes where the index allows it. -/
theorem saveTarget_ok (h : Projected env vault) {payload : ObsidianSaveNote φ} {title newId : String}
    {target : String × String} (hrun : saveTarget env vault payload title newId = .ok target) :
    CanStore vault target.1 target.2 := by
  unfold saveTarget at hrun
  obtain ⟨path, -, hrun⟩ := Keyed.bind_eq_ok hrun
  obtain ⟨-, -, hrun⟩ := Keyed.bind_eq_ok hrun
  split at hrun
  · cases hrun
  · rename_i hsame
    obtain ⟨rfl, hother⟩ := uniqueTarget_ok hrun
    simp only
    have hforward : ∀ row ∈ vault.index, row.noteId = saveNoteId env vault payload path newId → row.relativePath = path :=
      fun row hmem hid => hother row (h.getById_iff.mpr ⟨hmem, hid⟩)
    intro row hmem
    refine ⟨hforward row hmem, ?_⟩
    intro hpath
    cases hrow : vault.getByPath path with
    | none => exact absurd hpath (Keyed.lookup_eq_none.mp hrow row hmem)
    | some indexed =>
      obtain ⟨hindexed, hindexedPath⟩ := Keyed.lookup_mem hrow
      rw [h.eq_of_path hindexed hmem (hpath.trans hindexedPath.symm)]
      -- the note at the path has the identifier that was asked for, or none was
      have hnonempty : indexed.noteId ≠ "" := by
        obtain ⟨file, -, hread⟩ := h.exists_file hindexed
        exact (noteIndexFromFile_some hread).2
      rw [hrow] at hsame
      unfold saveNoteId
      rw [hrow]
      cases hrequest : payload.noteId with
      | none => simp [Option.filter, hnonempty]
      | some noteId =>
        have hid : indexed.noteId = noteId := by simpa [hrequest] using hsame
        simp [Option.filter, ← hid, hnonempty]

theorem validateSupersedeRelations_ok {identity : ObsidianContextIdentity} {noteId target : String} {checked : Unit}
    (h : validateSupersedeRelations vault identity noteId = .ok checked) (htarget : identity.supersedesContextId = some target) :
    ∃ row, vault.getById target = some row ∧ row.alexandriaType = .context := by
  unfold validateSupersedeRelations at h
  rw [htarget] at h
  simp only at h
  cases hrow : (vault.getById target).filter fun row => row.alexandriaType = .context with
  | none =>
    rw [hrow] at h
    cases h
  | some row =>
    obtain ⟨hget, hcontext⟩ := Option.filter_eq_some_iff.mp hrow
    exact ⟨row, hget, by simpa using hcontext⟩

/-- The target of a Context that may be saved is a Context. -/
theorem applyContextSavePolicy_target {payload : ObsidianSaveNote φ} {noteId body target : String}
    {fields : JsonObject φ} {policy : ContextSavePolicyResult φ}
    (h : applyContextSavePolicy env vault payload noteId fields body = .ok policy)
    (htarget : policy.supersedesContextId = some target) :
    ∃ row, vault.getById target = some row ∧ row.alexandriaType = .context := by
  unfold applyContextSavePolicy at h
  split at h
  · cases h
  · obtain ⟨identity, -, h⟩ := Keyed.bind_eq_ok h
    obtain ⟨checked, hchecked, h⟩ := Keyed.bind_eq_ok h
    have htarget' : identity.supersedesContextId = some target := by
      rw [← htarget, ← Except.ok.inj h]
    exact validateSupersedeRelations_ok hchecked htarget'

/-- What a save has checked before it writes a document. -/
theorem prepareSave_document (h : Projected env vault) {payload : ObsidianSaveNote φ}
    {existing : Option (ObsidianNote φ)} {mode : Option ObsidianFrontmatterMode} {newId now : String} {save : SaveDocument}
    (hrun : prepareSave env str vault payload existing mode newId now = .ok (.document save)) :
    CanStore vault save.noteId save.path ∧
      ∀ other, save.supersedesContextId = some other →
        ∃ row, vault.getById other = some row ∧ row.alexandriaType = .context := by
  unfold prepareSave at hrun
  simp only at hrun
  split at hrun
  · cases hrun
  · split at hrun
    · cases hrun
    · obtain ⟨redacted, -, hrun⟩ := Keyed.bind_eq_ok hrun
      obtain ⟨place, hplace, hrun⟩ := Keyed.bind_eq_ok hrun
      obtain ⟨fields, -, hrun⟩ := Keyed.bind_eq_ok hrun
      split at hrun
      · cases hrun
      · split at hrun
        · obtain ⟨policy, hpolicy, hrun⟩ := Keyed.bind_eq_ok hrun
          split at hrun
          · cases hrun
          · cases hrun
            exact ⟨saveTarget_ok h hplace, fun other hother => applyContextSavePolicy_target hpolicy hother⟩
        · cases hrun
          exact ⟨saveTarget_ok h hplace, fun other hother => absurd hother (by simp)⟩

/-! ## The invariant through one operation -/

theorem SupersedeInvariant.same (h : SupersedeInvariant vault) (hnext : after.supersedes = vault.supersedes)
    (hprev : after.supersededBy = vault.supersededBy) : SupersedeInvariant after := by
  constructor
  · rw [hnext]
    exact h.acyclic
  · rw [hnext]
    exact h.unique
  · rw [hnext, hprev]
    exact h.mirrored

/-- Both sides of a link that may be added, or is there already. -/
theorem SupersedeInvariant.link (h : SupersedeInvariant vault) {noteId target : String} (hmay : MayLink vault noteId target)
    (hfree : vault.supersededBy target = none ∨ vault.supersededBy target = some noteId)
    (hnext : after.supersedes = Function.update vault.supersedes noteId (some target))
    (hprev : after.supersededBy = Function.update vault.supersededBy target (some noteId)) : SupersedeInvariant after := by
  obtain hlinked | ⟨hunlinked, hout⟩ := hmay
  · have hback : vault.supersededBy target = some noteId := (h.mirrored target noteId).mpr hlinked
    apply h.same
    · rw [hnext, ← hlinked, Function.update_eq_self]
    · rw [hprev, ← hback, Function.update_eq_self]
  · have hnone : vault.supersededBy target = none := by
      refine hfree.resolve_right fun hback => ?_
      rw [(h.mirrored target noteId).mp hback] at hunlinked
      cases hunlinked
    apply SupersedeInvariant.of_mirrored
    · rw [hnext]
      exact acyclic_update h.acyclic hout
    · rw [hnext, hprev]
      exact Mirrored.link h.mirrored hunlinked hnone

/-- A Context and its target are different. -/
theorem SupersedeInvariant.target_ne (h : SupersedeInvariant vault) {noteId target : String}
    (hmay : MayLink vault noteId target) : target ≠ noteId := by
  rintro rfl
  obtain hself | ⟨-, hout⟩ := hmay
  · exact h.acyclic target (.single hself)
  · exact hout .refl

/-- Writing a note does not touch the file of another. -/
theorem Stored.markKeeps (h : Projected env vault) {note : ObsidianNote φ} (hstored : Stored env vault note after)
    (hstore : CanStore vault note.noteId note.relativePath) {supersededId replacementId now : String}
    (hne : supersededId ≠ note.noteId) (hmark : MarkKeeps env vault supersededId replacementId now) :
    MarkKeeps env after supersededId replacementId now := by
  intro superseded hget
  rw [hstored.getById, if_neg (Ne.symm hne)] at hget
  obtain ⟨hmem, hid⟩ := h.getById_iff.mp hget
  have hpath : superseded.relativePath ≠ note.relativePath := by
    intro hpath
    exact hne (hid.symm.trans ((hstore superseded hmem).mpr hpath))
  have hnext : after.supersedes supersededId = vault.supersedes supersededId := by
    rw [Vault.supersedes, hstored.link, Function.update_of_ne hne]
    rfl
  have hpatched : ∀ replacements now, patched env after superseded replacements now =
      patched env vault superseded replacements now := by
    intro replacements now
    unfold patched
    rw [hstored.file _ hpath]
  unfold PatchKeeps
  rw [hnext, hpatched]
  exact hmark superseded hget

/-- A note whose forward link is new, and the mark of its target after it. -/
theorem mark_keeps (h : Projected env vault) (hinv : SupersedeInvariant vault) {note marked : ObsidianNote φ}
    {target now : String} {middle : Vault φ} (hstored : Stored env vault note middle)
    (hstore : CanStore vault note.noteId note.relativePath) (hmay : MayLink vault note.noteId target)
    (hmark : MarkKeeps env vault target note.noteId now)
    (hnext : note.link "supersedes_context_id" = some target)
    (hprev : note.link "superseded_by_context_id" = vault.supersededBy note.noteId)
    (hcontext : ∀ row, vault.getById target = some row → row.alexandriaType = .context)
    (hrun : markSuperseded env middle target note.noteId now = (.ok marked, after)) :
    Projected env after ∧ SupersedeInvariant after := by
  have hne := hinv.target_ne hmay
  have hmiddle : middle.supersededBy = vault.supersededBy := by
    have hlink := hstored.link "superseded_by_context_id"
    rw [hprev] at hlink
    exact hlink.trans (Function.update_eq_self note.noteId _)
  have hcontext' : ∀ row, middle.getById target = some row → row.alexandriaType = .context := by
    intro row hrow
    rw [hstored.getById, if_neg (Ne.symm hne)] at hrow
    exact hcontext row hrow
  obtain ⟨hprojected, hsupersedes, hfree, hback⟩ :=
    markSuperseded_ok hstored.projected (hstored.markKeeps h hstore hne hmark) hrun hcontext'
  rw [hmiddle] at hfree hback
  have hforward : after.supersedes = Function.update vault.supersedes note.noteId (some target) := by
    rw [hsupersedes, ← hnext]
    exact hstored.link "supersedes_context_id"
  exact ⟨hprojected, hinv.link hmay hfree hforward hback⟩

theorem saveNoteSerialized_keeps (h : Projected env vault) (hinv : SupersedeInvariant vault)
    {payload : ObsidianSaveNote φ} {existing : Option (ObsidianNote φ)} {mode : Option ObsidianFrontmatterMode}
    {newId now : String} {saved : ObsidianNote φ}
    (hkeeps : SaveKeeps MayLink env vault (prepareSave env str vault payload existing mode newId now) now)
    (hrun : saveNoteSerialized env str vault payload existing mode newId now = (.ok saved, after)) :
    Projected env after ∧ SupersedeInvariant after := by
  unfold saveNoteSerialized at hrun
  split at hrun
  · cases hrun
  · cases hrun
    exact ⟨h, hinv⟩
  · rename_i save hprepared
    obtain ⟨hstore, hcontext⟩ := prepareSave_document h hprepared
    obtain ⟨hreads, hunlinked, hlinked⟩ := hkeeps save (by rw [hprepared]; rfl)
    split at hrun
    · cases hrun
    · rename_i note middle hpersist
      have hread := (persistAndIndex_ok hpersist).1
      obtain ⟨hid, hnext, hprev⟩ := hreads note (by simp [readBack, hread, Except.toOption])
      rw [← hid] at hstore hunlinked hlinked hprev
      have hpath := (noteIndexFromFile_some hread).1
      have hstored := stored_of_persist h hpersist hstore
      cases htarget : save.supersedesContextId with
      | none =>
        rw [htarget] at hrun hnext
        cases hrun
        refine ⟨hstored.projected, hinv.same ?_ ?_⟩
        · have hlink := hstored.link "supersedes_context_id"
          rw [hnext, ← hunlinked htarget] at hlink
          exact hlink.trans (Function.update_eq_self _ _)
        · have hlink := hstored.link "superseded_by_context_id"
          rw [hprev] at hlink
          exact hlink.trans (Function.update_eq_self _ _)
      | some target =>
        rw [htarget] at hrun hnext
        simp only at hrun
        cases hmarked : markSuperseded env middle target note.noteId now with
        | mk answer marked =>
          rw [hmarked] at hrun
          cases answer with
          | error text => cases hrun
          | ok row =>
            cases hrun
            obtain ⟨hmay, hmark⟩ := hlinked target htarget
            obtain ⟨other, hother, hotherContext⟩ := hcontext target htarget
            refine mark_keeps h hinv hstored (by rw [hpath]; exact hstore) hmay hmark hnext hprev ?_ hmarked
            intro row' hrow'
            rw [hother] at hrow'
            cases hrow'
            exact hotherContext

theorem marked_ok {middle : Vault φ} {supersededId replacementId now : String} {done : Unit}
    (h : ((markSuperseded env middle supersededId replacementId now).1.map fun _ => (),
      (markSuperseded env middle supersededId replacementId now).2) = (.ok done, after)) :
    ∃ marked, markSuperseded env middle supersededId replacementId now = (.ok marked, after) := by
  obtain ⟨hanswer, hafter⟩ := Prod.ext_iff.mp h
  obtain ⟨marked, hmarked, -⟩ := Keyed.map_eq_ok hanswer
  exact ⟨marked, Prod.ext hmarked hafter⟩

theorem supersede_keeps (h : Projected env vault) (hinv : SupersedeInvariant vault) {noteId replacementNoteId now : String}
    {done : Unit} (hmay : MayLink vault replacementNoteId noteId) (hmark : MarkKeeps env vault noteId replacementNoteId now)
    (hpatch : ∀ superseded ∈ vault.getById noteId, ∀ replacement ∈ vault.getById replacementNoteId,
      PatchKeeps env vault replacement (linkReplacements superseded replacement) now (some noteId)
        (vault.supersededBy replacementNoteId))
    (hrun : supersede env vault noteId replacementNoteId now = (.ok done, after)) :
    Projected env after ∧ SupersedeInvariant after := by
  unfold supersede at hrun
  split at hrun
  · cases hrun
  · cases hrun
  · rename_i superseded replacement hsuperseded hreplacement
    have holder := h.readNote_ok hsuperseded
    have hnewer := h.readNote_ok hreplacement
    obtain ⟨-, rfl⟩ := h.getById_iff.mp holder
    obtain ⟨hmem, rfl⟩ := h.getById_iff.mp hnewer
    unfold supersedeNotes at hrun
    simp only at hrun
    split at hrun
    · cases hrun
    · rename_i htype
      have hcontext : ∀ row, vault.getById superseded.note.noteId = some row → row.alexandriaType = .context := by
        intro row hrow
        rw [holder] at hrow
        cases hrow
        simpa using htype
      iterate 4 (split at hrun; · cases hrun)
      rename_i hnewType _ _ htarget
      split at hrun
      · cases hrun
        exact ⟨h, hinv⟩
      · split at hrun
        · -- the forward link is written first
          split at hrun
          · cases hrun
          · rename_i written middle hlinked
            obtain ⟨hstored, hid, hpath, hnext, hprev⟩ :=
              (hpatch superseded.note holder replacement.note hnewer).stored h hmem hlinked
            obtain ⟨marked, hmarked⟩ := marked_ok hrun
            rw [← hid] at hmay hmark hprev hmarked
            exact mark_keeps h hinv hstored (by rw [hid, hpath]; exact h.canStore hmem) hmay hmark hnext hprev hcontext
              hmarked
        · -- the forward link is there already
          rename_i hlinked
          obtain ⟨marked, hmarked⟩ := marked_ok hrun
          obtain ⟨hprojected, hnext, hfree, hback⟩ := markSuperseded_ok h hmark hmarked hcontext
          have hforward : vault.supersedes replacement.note.noteId = some superseded.note.noteId := by
            rw [Vault.supersedes, Vault.link_of_getById hnewer, ObsidianNote.link, if_pos (by simpa using hnewType)]
            obtain hnull | hnamed := JsonValue.isNullOr_cases (by simpa using htarget)
            · rw [hnull] at hlinked
              exact absurd rfl hlinked
            · rw [hnamed]
              rfl
          refine ⟨hprojected, hinv.link hmay hfree ?_ hback⟩
          rw [hnext, ← hforward, Function.update_eq_self]

theorem archive_keeps (h : Projected env vault) (hinv : SupersedeInvariant vault) {noteId now : String}
    {archived : ObsidianNote φ}
    (hpatch : ∀ note ∈ vault.getById noteId,
      PatchKeeps env vault note [("status", "archived")] now (vault.supersedes noteId) (vault.supersededBy noteId))
    (hrun : archive env vault noteId now = (.ok archived, after)) : Projected env after ∧ SupersedeInvariant after := by
  unfold archive at hrun
  split at hrun
  · cases hrun
  · rename_i found hfound
    have hget := h.readNote_ok hfound
    obtain ⟨hmem, rfl⟩ := h.getById_iff.mp hget
    unfold archiveNote at hrun
    split at hrun
    · cases hrun
    · obtain ⟨hstored, hid, -, hnext, hprev⟩ := (hpatch found.note hget).stored h hmem hrun
      refine ⟨hstored.projected, hinv.same ?_ ?_⟩
      · rw [Vault.supersedes, hstored.link, hid, hnext]
        exact Function.update_eq_self found.note.noteId vault.supersedes
      · rw [Vault.supersededBy, hstored.link, hid, hprev]
        exact Function.update_eq_self found.note.noteId vault.supersededBy

theorem succeeded_eq_some {α : Type} {outcome : Outcome φ α} (h : succeeded outcome = some after) :
    ∃ answer, outcome = (.ok answer, after) := by
  obtain ⟨result, left⟩ := outcome
  cases result with
  | error text => cases h
  | ok answer =>
    cases h
    exact ⟨answer, rfl⟩

theorem operate_keeps (h : Projected env vault) (hinv : SupersedeInvariant vault) {operation : NoteOperation φ}
    (hkeeps : KeepsLinks env str vault operation) (hrun : operate env str vault operation = some after) :
    Projected env after ∧ SupersedeInvariant after := by
  cases operation with
  | save payload newId now =>
    obtain ⟨saved, hsaved⟩ := succeeded_eq_some hrun
    exact saveNoteSerialized_keeps h hinv hkeeps hsaved
  | write command newId now =>
    obtain ⟨saved, hsaved⟩ := succeeded_eq_some hrun
    unfold writeNote at hsaved
    split at hsaved
    · cases hsaved
    · rename_i payload existing hresolved
      exact saveNoteSerialized_keeps h hinv (hkeeps (payload, existing) (by simp [hresolved, Except.toOption])) hsaved
  | supersede noteId replacementNoteId now =>
    obtain ⟨done, hdone⟩ := succeeded_eq_some hrun
    exact supersede_keeps h hinv hkeeps.1 hkeeps.2.1 hkeeps.2.2 hdone
  | archive noteId now =>
    obtain ⟨archived, harchived⟩ := succeeded_eq_some hrun
    exact archive_keeps h hinv hkeeps harchived

/-! ## Histories -/

/-- Every history whose operations meet the condition keeps the supersede graph in order. -/
theorem supersede_graph_invariant (start : Vault φ) (hstart : Projected env start) (hinv : SupersedeInvariant start)
    (final : Vault φ) (hrun : Guarded (operate env str) (KeepsLinks env str) start final) : SupersedeInvariant final := by
  have hboth := hrun.invariant (P := fun vault => Projected env vault ∧ SupersedeInvariant vault) ⟨hstart, hinv⟩
    fun vault operation after h hkeeps hstep => operate_keeps h.1 h.2 hkeeps hstep
  exact hboth.2

/-! ## Runs that meet the condition -/

/-- The target is not yet part of a chain, so that nothing is reached from it. -/
def FreeLink (vault : Vault φ) (noteId target : String) : Prop :=
  vault.supersedes noteId = none ∧ vault.supersedes target = none ∧ target ≠ noteId

theorem FreeLink.mayLink {noteId target : String} (h : FreeLink vault noteId target) : MayLink vault noteId target := by
  obtain ⟨hnote, htarget, hne⟩ := h
  refine .inr ⟨hnote, ?_⟩
  intro hreach
  exact hne (eq_of_reaches_end htarget hreach).symm

instance (note : ObsidianNote φ) (replacements : List (String × String)) (now : String) (next prev : Option String) :
    Decidable (PatchKeeps env vault note replacements now next prev) := by
  unfold PatchKeeps
  infer_instance

instance (supersededId replacementId now : String) : Decidable (MarkKeeps env vault supersededId replacementId now) := by
  unfold MarkKeeps
  infer_instance

instance (noteId target : String) : Decidable (FreeLink vault noteId target) := by
  unfold FreeLink
  infer_instance

instance (prepared : Except String (PreparedSave φ)) (now : String) : Decidable (SaveKeeps FreeLink env vault prepared now) := by
  unfold SaveKeeps
  infer_instance

instance (operation : NoteOperation φ) : Decidable (OperationKeeps FreeLink env str vault operation) := by
  cases operation <;> (unfold OperationKeeps; infer_instance)

theorem supersedeInvariant_empty : SupersedeInvariant (Vault.empty : Vault φ) where
  acyclic a hcycle := by
    obtain ⟨b, hb, -⟩ := hcycle.exists_follows
    cases hb
  unique a b c hb := by cases hb
  mirrored a b := by simp [Vault.supersededBy, Vault.supersedes, Vault.link, Vault.getById, Vault.empty, Keyed.lookup]

/-! ## Two histories -/

def decimalText (text : String) : Option ℕ :=
  if text ≠ "" ∧ text.toList.all Char.isDigit then some (Markdown.naturalOf text.toList) else none

/-- An environment for texts without secrets whose letters have the case they are read in. -/
def plainEnvironment : NoteEnvironment Unit where
  floats := ⟨fun _ => "0.0", fun _ => ()⟩
  isZero _ := true
  text := ⟨id, id, id, decimalText, some⟩
  hashText text := String.ofList (List.replicate 63 '0' ++ [hexDigits.getD (text.length % 16) '0'])
  redactSecretText text := ⟨false, text, []⟩
  addOrUpdateLinksSection body _ := body
  containsSecretField _ := false
  sameObject _ _ := false
  titleFromParts _ _ path := path
  defaultNotePath _ title := title
  safeRelativePath := .ok

def noNestedText : NestedText Unit := fun _ => ""

theorem noNestedText_line (value : JsonValue Unit) : OneLineText (noNestedText value) :=
  fun _ hc => absurd hc List.not_mem_nil

def globalContext (noteId body : String) (links : JsonObject Unit) : ObsidianSaveNote Unit where
  title := noteId
  body := body
  alexandriaType := .context
  noteId := some noteId
  relativePath := some (noteId ++ ".md")
  tags := []
  status := "active"
  project := none
  source := "mcp"
  frontmatter := ("scope", .str "GLOBAL") :: links
  expectedContentHash := none

/-- A Context, and one that supersedes it. -/
def replacedContext : List (NoteOperation Unit) :=
  [.save (globalContext "a" "one" []) "n" "2026-01-01T00:00:00Z",
    .save (globalContext "b" "first" [("supersedes_context_id", .str "a")]) "n" "2026-01-01T00:00:00Z"]

/-- A Context that the plain environment has written; `asked` are the fields of the request, which come first. -/
structure PlainContext where
  noteId : String
  body : String
  status : ObsidianContextLifecycleStatus
  updatedAt : String
  version : ℕ
  asked : JsonObject Unit
  supersedes : Option String
  supersededBy : Option String

namespace PlainContext
variable (context : PlainContext)

def path : String := context.noteId ++ ".md"

/-- The links that are not asked for. -/
def links : JsonObject Unit :=
  if context.asked = [] then
    [("supersedes_context_id", .ofText context.supersedes), ("superseded_by_context_id", .ofText context.supersededBy)]
  else [("superseded_by_context_id", .ofText context.supersededBy)]

def fields (version : JsonValue Unit) : JsonObject Unit :=
  ("scope", .str "GLOBAL") :: context.asked ++
    ([("alexandria_type", .str "context"), ("id", .str context.noteId), ("title", .str context.noteId), ("tags", .list []),
      ("status", .str context.status.value), ("created_at", .str "2026-01-01T00:00:00Z"),
      ("updated_at", .str context.updatedAt), ("source", .str "mcp"), ("project", .null), ("workspace_id", .null),
      ("agent_id", .null), ("user_id", .null), ("session_id", .null), ("visibility", .str "GLOBAL"),
      ("source_actor_id", .null), ("source_actor_type", .null), ("source_run_id", .null), ("external_run_id", .null),
      ("artifact_refs", .list []), ("evidence_refs", .list []), ("confidence", .null),
      ("content_hash", .str (plainEnvironment.hashText context.body)), ("version", version)] :
      List (String × JsonValue Unit)) ++
    context.links ++
    [("context_kind", .str "MEMORY"), ("memory_function", .null), ("recorded_at", .null), ("observed_at", .null),
      ("valid_from", .null), ("valid_to", .null), ("reconciliation_candidate_id", .null), ("conflict_set_ids", .list [])]

/-- A patch writes the version as a text. -/
def writtenFields : JsonObject Unit :=
  context.fields (if context.version = 1 then .int 1 else .str (intString context.version))

def document : List Char := renderDocument plainEnvironment noNestedText context.writtenFields context.body

def identity : ObsidianContextIdentity where
  scope := .global
  identity := ⟨none, none, none, none, none⟩
  visibility := .global
  status := context.status
  provenance := ⟨none, none, none, none, [], [], none⟩
  contentHash := plainEnvironment.hashText context.body
  version := context.version
  supersedesContextId := context.supersedes
  supersededByContextId := context.supersededBy
  contextKind := .memory
  memoryFunction := none
  createdAt := some "2026-01-01T00:00:00Z"
  updatedAt := some context.updatedAt
  recordedAt := none
  observedAt := none
  validFrom := none
  validTo := none
  reconciliationCandidateId := none
  conflictSetIds := []

/-- The note that the document reads as. -/
def note : ObsidianNote Unit where
  noteId := context.noteId
  relativePath := context.path
  alexandriaType := .context
  title := context.path
  status := context.status.value
  tags := []
  project := none
  source := some "mcp"
  contentHash := plainEnvironment.hashText context.body
  sourceHash := plainEnvironment.hashText (String.ofList (universalNewlines context.document))
  frontmatter := context.fields (.int context.version)
  body := "\n" ++ context.body ++ "\n"
  modifiedAt := context.updatedAt

/-- What is evaluated of a document: its frontmatter and body, and the fields and the identity that are read from these. -/
structure Reads : Prop where
  parsed : Markdown.parseMarkdownDocument plainEnvironment.floats (universalNewlines context.document) =
    .ok ⟨context.writtenFields.map fun field => (field.1, frontmatterValue noNestedText field.2),
      "\n" ++ context.body ++ "\n"⟩
  json : frontmatterJson (context.writtenFields.map fun field => (field.1, frontmatterValue noNestedText field.2)) =
    context.writtenFields
  type : noteTypeFromFrontmatter plainEnvironment context.writtenFields = .ok (some .context)
  texts : ["id", "status", "project", "source"].map (frontmatterText context.writtenFields) =
    [some context.noteId, some context.status.value, none, some "mcp"]
  named : context.noteId ≠ "" ∧ context.status.value ≠ ""
  tags : frontmatterList context.writtenFields "tags" = []
  identified : contextIdentityFromFrontmatter plainEnvironment.text
    (context.writtenFields.set "alexandria_type" (.str "context")) none context.status.value
    (contextContentHash plainEnvironment ("\n" ++ context.body ++ "\n")) = .ok context.identity
  normalized : ((context.writtenFields.set "alexandria_type" (.str "context")).update
    (normalizedContextFrontmatter context.identity)).erase "provenance" = context.fields (.int context.version)

/-- The text of a Context is parsed as its fields. -/
theorem parsed_of_plain {context : PlainContext} (h : PlainFields context.writtenFields)
    (hbody : LineFeeds context.body.toList)
    (hsize : ((renderedMapping noNestedText context.writtenFields).map (itemSize plainEnvironment.floats)).sum +
      context.body.utf8ByteSize + 11 ≤ Markdown.Native.maxDocumentBytes)
    (hread : String.ofList ('\n' :: (context.body.toList.rdropWhile (· = '\n') ++ ['\n'])) = "\n" ++ context.body ++ "\n") :
    Markdown.parseMarkdownDocument plainEnvironment.floats (universalNewlines context.document) =
      .ok ⟨context.writtenFields.map fun field => (field.1, frontmatterValue noNestedText field.2),
        "\n" ++ context.body ++ "\n"⟩ := by
  rw [← hread]
  exact parseMarkdownDocument_rendered noNestedText_line h.writable h.settled hbody
    ((byteLength_renderMarkdownDocument_le _ _).trans hsize)

/-- An update of a Context writes its updated fields. -/
theorem update_eq {before after : PlainContext} (h : PlainFields before.writtenFields) (hbody : LineFeeds before.body.toList)
    (replacements : Replacements) (hscalars : before.writtenFields.all (isReplaceable replacements) = true)
    (hpresent : replacements.items.all (fun entry => (before.writtenFields.map Prod.fst).contains entry.1) = true)
    (hafter : after.writtenFields = before.writtenFields.map replacements.field) (hsame : after.body = before.body) :
    updateFrontmatterScalars (universalNewlines before.document) replacements.items = .ok after.document := by
  have hdocument : after.document = renderDocument plainEnvironment noNestedText after.writtenFields after.body := rfl
  rw [hdocument, hafter, hsame]
  exact (h.updatable hscalars hpresent).update noNestedText_line hbody

namespace Reads
variable {context} {before : PlainContext} {vault after : Vault Unit}

theorem noteIndexFromFile_eq (h : context.Reads) :
    noteIndexFromFile plainEnvironment context.path ⟨context.document, context.updatedAt⟩ = .ok (some context.note) := by
  have htexts := h.texts
  simp only [List.map_cons, List.map_nil, List.cons.injEq, and_true] at htexts
  obtain ⟨hid, hstatus, hproject, hsource⟩ := htexts
  have hnamed : (frontmatterText context.writtenFields "id").filter (· ≠ "") = some context.noteId := by
    rw [hid, Option.filter_some, if_pos (by simpa using h.named.1)]
  have hlive : ((frontmatterText context.writtenFields "status").filter (· ≠ "")).getD "active" = context.status.value := by
    rw [hstatus, Option.filter_some, if_pos (by simpa using h.named.2), Option.getD_some]
  have hidentity := h.identified
  rw [← hproject, ← hlive] at hidentity
  rw [noteIndexFromFile_context rfl h.parsed h.json h.type hnamed hidentity, h.tags, hsource, h.normalized]
  rfl

theorem readBack_eq (h : context.Reads) :
    readBack plainEnvironment context.path context.document context.updatedAt = some context.note := by
  unfold readBack
  rw [h.noteIndexFromFile_eq]
  rfl

theorem persist (h : context.Reads) (missing : String)
    (hafter : (vault.writeFile context.path ⟨context.document, context.updatedAt⟩).upsertNote context.note = after) :
    persistAndIndex plainEnvironment missing vault context.path context.document context.updatedAt =
      (.ok context.note, after) := by
  unfold persistAndIndex
  simp only [h.noteIndexFromFile_eq, hafter]

theorem patched_eq (h : context.Reads) (hpath : before.path = context.path) {replacements : List (String × String)}
    (hfile : vault.file before.path = some ⟨before.document, before.updatedAt⟩)
    (hpatch : updateFrontmatterScalars (universalNewlines before.document)
      (replacements ++ [("updated_at", context.updatedAt)]) = .ok context.document) :
    patched plainEnvironment vault before.note replacements context.updatedAt = some context.note := by
  unfold patched
  rw [show before.note.relativePath = before.path from rfl, hfile, Option.bind_eq_bind, Option.bind_some, hpatch,
    Except.toOption, Option.bind_eq_bind, Option.bind_some, hpath, h.readBack_eq]

theorem updateScalars_eq (h : context.Reads) (hpath : before.path = context.path) {replacements : List (String × String)}
    (hfile : vault.file before.path = some ⟨before.document, before.updatedAt⟩)
    (hpatch : updateFrontmatterScalars (universalNewlines before.document)
      (replacements ++ [("updated_at", context.updatedAt)]) = .ok context.document)
    (hafter : (vault.writeFile context.path ⟨context.document, context.updatedAt⟩).upsertNote context.note = after) :
    updateScalars plainEnvironment vault before.note replacements context.updatedAt = (.ok context.note, after) := by
  unfold updateScalars
  rw [show before.note.relativePath = before.path from rfl, hfile]
  simp only [hpatch]
  rw [hpath]
  exact h.persist _ hafter

theorem readNote_eq (h : context.Reads) (hrow : vault.getById context.noteId = some context.note)
    (hfile : vault.file context.path = some ⟨context.document, context.updatedAt⟩) :
    ∃ found, readNote plainEnvironment vault context.noteId = .ok found ∧ found.note = context.note := by
  unfold readNote
  rw [hrow]
  simp only
  rw [show context.note.relativePath = context.path from rfl, hfile]
  simp only [h.noteIndexFromFile_eq]
  unfold authoritativeNote
  rw [if_neg (by simp [note])]
  exact ⟨_, rfl, rfl⟩

end Reads

end PlainContext

/-- A save whose frontmatter and policy are known has prepared the rendered document. -/
theorem preparedDocument_context {payload : ObsidianSaveNote φ} {newId now : String} {target : String × String}
    {policy : ContextSavePolicyResult φ} (htitle : pythonStrip payload.title ≠ "") (hcontext : payload.alexandriaType = .context)
    (hclear : env.redactSecretText payload.body = ⟨false, payload.body, []⟩)
    (hredacted : redactedFrontmatter env.redactSecretText payload.frontmatter = .ok (payload.frontmatter, []))
    (htarget : saveTarget env vault payload (pythonStrip payload.title) newId = .ok target)
    (hbody : ∀ fields, desiredFrontmatter env payload none none target.1 (pythonStrip payload.title) [] now = .ok fields →
      env.addOrUpdateLinksSection payload.body fields = payload.body)
    (hpolicy : (desiredFrontmatter env payload none none target.1 (pythonStrip payload.title) [] now >>= fun fields =>
      applyContextSavePolicy env vault payload target.1 fields payload.body) = .ok policy)
    (hnew : policy.duplicate = none) :
    prepareSave env str vault payload none none newId now =
      .ok (.document ⟨target.1, target.2, renderDocument env str policy.frontmatter payload.body,
        policy.supersedesContextId⟩) := by
  obtain ⟨fields, hfields, happlied⟩ := Keyed.bind_eq_ok hpolicy
  unfold prepareSave
  simp only [hclear, hredacted, bind, Except.bind, htarget, List.append_nil, hfields, hbody fields hfields, Option.filter_none,
    Option.isSome_none, Bool.false_eq_true, if_false, if_neg htitle, if_pos hcontext, happlied, hnew]

section Outcomes
variable {payload : ObsidianSaveNote φ} {newId now : String} {save : SaveDocument} {note marked row : ObsidianNote φ}
  {stored : Vault φ}

theorem operate_save (hprepared : prepareSave env str vault payload none none newId now = .ok (.document save))
    (hpersist : persistAndIndex env "saved note is missing Alexandria frontmatter" vault save.path save.document now =
      (.ok note, after)) (hlink : save.supersedesContextId = none) :
    operate env str vault (.save payload newId now) = some after := by
  unfold operate saveNote saveNoteSerialized
  simp only [hprepared, hpersist, hlink]
  rfl

theorem operate_save_linked {target : String}
    (hprepared : prepareSave env str vault payload none none newId now = .ok (.document save))
    (hpersist : persistAndIndex env "saved note is missing Alexandria frontmatter" vault save.path save.document now =
      (.ok note, stored)) (hlink : save.supersedesContextId = some target)
    (hmark : markSuperseded env stored target note.noteId now = (.ok marked, after)) :
    operate env str vault (.save payload newId now) = some after := by
  unfold operate saveNote saveNoteSerialized
  simp only [hprepared, hpersist, hlink, hmark]
  rfl

theorem markSuperseded_eq {supersededId replacementId : String} (hrow : vault.getById supersededId = some row)
    (hfree : row.frontmatter.get "superseded_by_context_id" = .null)
    (hpatch : updateScalars env vault row (markReplacements row replacementId) now = (.ok marked, after)) :
    markSuperseded env vault supersededId replacementId now = (.ok marked, after) := by
  unfold markSuperseded
  simp only [hrow, hfree, hpatch]
  rfl

theorem supersedeNotes_eq {superseded replacement linked : ObsidianNote φ} (htype : superseded.alexandriaType = .context)
    (hnewType : replacement.alexandriaType = .context) (hne : superseded.noteId ≠ replacement.noteId)
    (hfree : superseded.frontmatter.get "superseded_by_context_id" = .null)
    (hunlinked : replacement.frontmatter.get "supersedes_context_id" = .null)
    (hlink : updateScalars env vault replacement (linkReplacements superseded replacement) now = (.ok linked, stored))
    (hmark : markSuperseded env stored superseded.noteId replacement.noteId now = (.ok marked, after)) :
    supersedeNotes env vault superseded replacement now = (.ok (), after) := by
  unfold supersedeNotes
  simp only [htype, hnewType, hne, hfree, hunlinked, hlink, hmark, JsonValue.isNullOr, JsonValue.isNull, JsonValue.text?]
  rfl

theorem operate_supersede {noteId replacementNoteId : String} {superseded replacement : AuthoritativeNote φ}
    (hread : readNote env vault noteId = .ok superseded) (hnew : readNote env vault replacementNoteId = .ok replacement)
    (hrun : supersedeNotes env vault superseded.note replacement.note now = (.ok (), after)) :
    operate env str vault (.supersede noteId replacementNoteId now) = some after := by
  unfold operate supersede
  simp only [hread, hnew, hrun]
  rfl

end Outcomes

def plainVault (contexts : List PlainContext) : Vault Unit where
  files := contexts.map fun context => (context.path, ⟨context.document, context.updatedAt⟩)
  index := contexts.map PlainContext.note

def older : PlainContext := ⟨"a", "one", .active, "2026-01-01T00:00:00Z", 1, [], none, none⟩

def newer : PlainContext :=
  ⟨"b", "first", .active, "2026-01-01T00:00:00Z", 1, [("supersedes_context_id", .str "a")], some "a", none⟩

/-- The older Context once the newer one has replaced it. -/
def replaced : PlainContext := { older with status := .superseded, version := 2, supersededBy := some "b" }

/-- The older Context as it is to replace the newer one in turn. -/
def returned : PlainContext := { replaced with updatedAt := "2026-01-02T00:00:00Z", version := 3, supersedes := some "b" }

def replacedBack : PlainContext :=
  { newer with status := .superseded, updatedAt := "2026-01-02T00:00:00Z", version := 2, supersededBy := some "a" }

theorem plain_fields : PlainFields older.writtenFields ∧ PlainFields newer.writtenFields ∧
    PlainFields replaced.writtenFields ∧ PlainFields returned.writtenFields ∧ PlainFields replacedBack.writtenFields := by
  refine ⟨⟨?_, ?_⟩, ⟨?_, ?_⟩, ⟨?_, ?_⟩, ⟨?_, ?_⟩, ⟨?_, ?_⟩⟩ <;> decide

theorem plain_bodies : LineFeeds older.body.toList ∧ LineFeeds newer.body.toList :=
  ⟨lineFeeds_of_all (by decide), lineFeeds_of_all (by decide)⟩

theorem plain_reads : older.Reads ∧ newer.Reads ∧ replaced.Reads ∧ returned.Reads ∧ replacedBack.Reads := by
  obtain ⟨holder, hnewer, hreplaced, hreturned, hback⟩ := plain_fields
  refine ⟨⟨PlainContext.parsed_of_plain holder plain_bodies.1 ?_ ?_, ?_, ?_, ?_, ?_, ?_, ?_, ?_⟩,
    ⟨PlainContext.parsed_of_plain hnewer plain_bodies.2 ?_ ?_, ?_, ?_, ?_, ?_, ?_, ?_, ?_⟩,
    ⟨PlainContext.parsed_of_plain hreplaced plain_bodies.1 ?_ ?_, ?_, ?_, ?_, ?_, ?_, ?_, ?_⟩,
    ⟨PlainContext.parsed_of_plain hreturned plain_bodies.1 ?_ ?_, ?_, ?_, ?_, ?_, ?_, ?_, ?_⟩,
    ⟨PlainContext.parsed_of_plain hback plain_bodies.2 ?_ ?_, ?_, ?_, ?_, ?_, ?_, ?_, ?_⟩⟩ <;> decide +kernel

/-- The texts that a patch puts in place. -/
def plainReplacements (items : List (String × String)) (hkeys : items.all (fun item => isLowerName item.1) = true)
    (hdistinct : (items.map Prod.fst).Nodup) : Replacements :=
  ⟨items, fun item hitem => isFieldName_plainKey (isFieldName_of_lower (List.all_eq_true.mp hkeys item hitem)), hdistinct⟩

theorem plain_patches :
    updateFrontmatterScalars (universalNewlines older.document)
      (markReplacements older.note "b" ++ [("updated_at", replaced.updatedAt)]) = .ok replaced.document ∧
    updateFrontmatterScalars (universalNewlines replaced.document)
      (linkReplacements newer.note replaced.note ++ [("updated_at", returned.updatedAt)]) = .ok returned.document ∧
    updateFrontmatterScalars (universalNewlines newer.document)
      (markReplacements newer.note "a" ++ [("updated_at", replacedBack.updatedAt)]) = .ok replacedBack.document := by
  refine ⟨?_, ?_, ?_⟩
  · exact PlainContext.update_eq plain_fields.1 plain_bodies.1
      (plainReplacements (markReplacements older.note "b" ++ [("updated_at", replaced.updatedAt)]) (by decide)
        (by decide)) (by decide) (by decide) (by decide) rfl
  · exact PlainContext.update_eq plain_fields.2.2.1 plain_bodies.1
      (plainReplacements (linkReplacements newer.note replaced.note ++ [("updated_at", returned.updatedAt)]) (by decide)
        (by decide)) (by decide) (by decide) (by decide) rfl
  · exact PlainContext.update_eq plain_fields.2.1 plain_bodies.2
      (plainReplacements (markReplacements newer.note "a" ++ [("updated_at", replacedBack.updatedAt)]) (by decide)
        (by decide)) (by decide) (by decide) (by decide) rfl

/-- The first two Contexts are prepared as they are written. -/
theorem plain_prepared :
    prepareSave plainEnvironment noNestedText Vault.empty (globalContext "a" "one" []) none none "n"
        "2026-01-01T00:00:00Z" = .ok (.document ⟨"a", "a.md", older.document, none⟩) ∧
      prepareSave plainEnvironment noNestedText (plainVault [older])
        (globalContext "b" "first" [("supersedes_context_id", .str "a")]) none none "n" "2026-01-01T00:00:00Z" =
          .ok (.document ⟨"b", "b.md", newer.document, some "a"⟩) := by
  constructor
  · have htarget : saveTarget plainEnvironment Vault.empty (globalContext "a" "one" []) (pythonStrip "a") "n" =
        .ok ("a", "a.md") := by decide
    have hpolicy : (desiredFrontmatter plainEnvironment (globalContext "a" "one" []) none none "a" (pythonStrip "a") []
        "2026-01-01T00:00:00Z" >>= fun fields =>
          applyContextSavePolicy plainEnvironment Vault.empty (globalContext "a" "one" []) "a" fields "one") =
        .ok ⟨older.writtenFields, none, none⟩ := by decide
    exact preparedDocument_context (by decide) rfl rfl rfl htarget (fun _ _ => rfl) hpolicy rfl
  · have htarget : saveTarget plainEnvironment (plainVault [older])
        (globalContext "b" "first" [("supersedes_context_id", .str "a")]) (pythonStrip "b") "n" = .ok ("b", "b.md") := by
      decide
    have hpolicy : (desiredFrontmatter plainEnvironment (globalContext "b" "first" [("supersedes_context_id", .str "a")])
        none none "b" (pythonStrip "b") [] "2026-01-01T00:00:00Z" >>= fun fields =>
          applyContextSavePolicy plainEnvironment (plainVault [older])
            (globalContext "b" "first" [("supersedes_context_id", .str "a")]) "b" fields "first") =
        .ok ⟨newer.writtenFields, some "a", none⟩ := by decide
    exact preparedDocument_context (by decide) rfl rfl rfl htarget (fun _ _ => rfl) hpolicy rfl

theorem operate_older : operate plainEnvironment noNestedText Vault.empty
    (.save (globalContext "a" "one" []) "n" "2026-01-01T00:00:00Z") = some (plainVault [older]) :=
  operate_save plain_prepared.1 (plain_reads.1.persist _ rfl) rfl

theorem older_patched : patched plainEnvironment (plainVault [older]) older.note (markReplacements older.note "b")
    replaced.updatedAt = some replaced.note := by
  have hpath : older.path = replaced.path := rfl
  have hfile : (plainVault [older]).file older.path = some ⟨older.document, older.updatedAt⟩ := rfl
  exact plain_reads.2.2.1.patched_eq hpath hfile plain_patches.1

theorem older_marked : updateScalars plainEnvironment (plainVault [older, newer]) older.note (markReplacements older.note "b")
    replaced.updatedAt = (.ok replaced.note, plainVault [replaced, newer]) := by
  have hpath : older.path = replaced.path := rfl
  have hfile : (plainVault [older, newer]).file older.path = some ⟨older.document, older.updatedAt⟩ := rfl
  have hafter : ((plainVault [older, newer]).writeFile replaced.path
      ⟨replaced.document, replaced.updatedAt⟩).upsertNote replaced.note = plainVault [replaced, newer] := rfl
  exact plain_reads.2.2.1.updateScalars_eq hpath hfile plain_patches.1 hafter

theorem operate_newer : operate plainEnvironment noNestedText (plainVault [older])
    (.save (globalContext "b" "first" [("supersedes_context_id", .str "a")]) "n" "2026-01-01T00:00:00Z") =
      some (plainVault [replaced, newer]) := by
  have hpersist : persistAndIndex plainEnvironment "saved note is missing Alexandria frontmatter" (plainVault [older]) "b.md"
      newer.document "2026-01-01T00:00:00Z" = (.ok newer.note, plainVault [older, newer]) := plain_reads.2.1.persist _ rfl
  have hrow : (plainVault [older, newer]).getById "a" = some older.note := rfl
  have hfree : older.note.frontmatter.get "superseded_by_context_id" = .null := rfl
  exact operate_save_linked plain_prepared.2 hpersist rfl (markSuperseded_eq hrow hfree older_marked)

theorem replaced_linked : updateScalars plainEnvironment (plainVault [replaced, newer]) replaced.note
    (linkReplacements newer.note replaced.note) returned.updatedAt = (.ok returned.note, plainVault [returned, newer]) := by
  have hpath : replaced.path = returned.path := rfl
  have hfile : (plainVault [replaced, newer]).file replaced.path = some ⟨replaced.document, replaced.updatedAt⟩ := rfl
  have hafter : ((plainVault [replaced, newer]).writeFile returned.path
      ⟨returned.document, returned.updatedAt⟩).upsertNote returned.note = plainVault [returned, newer] := rfl
  exact plain_reads.2.2.2.1.updateScalars_eq hpath hfile plain_patches.2.1 hafter

theorem newer_marked : updateScalars plainEnvironment (plainVault [returned, newer]) newer.note
    (markReplacements newer.note "a") replacedBack.updatedAt = (.ok replacedBack.note, plainVault [returned, replacedBack]) := by
  have hpath : newer.path = replacedBack.path := rfl
  have hfile : (plainVault [returned, newer]).file newer.path = some ⟨newer.document, newer.updatedAt⟩ := rfl
  have hafter : ((plainVault [returned, newer]).writeFile replacedBack.path
      ⟨replacedBack.document, replacedBack.updatedAt⟩).upsertNote replacedBack.note =
        plainVault [returned, replacedBack] := rfl
  exact plain_reads.2.2.2.2.updateScalars_eq hpath hfile plain_patches.2.2 hafter

theorem operate_back : operate plainEnvironment noNestedText (plainVault [replaced, newer])
    (.supersede "b" "a" "2026-01-02T00:00:00Z") = some (plainVault [returned, replacedBack]) := by
  have holder : (plainVault [replaced, newer]).getById newer.noteId = some newer.note := rfl
  have hnewer : (plainVault [replaced, newer]).getById replaced.noteId = some replaced.note := rfl
  obtain ⟨superseded, hread, hsuperseded⟩ := plain_reads.2.1.readNote_eq holder rfl
  obtain ⟨replacement, hnew, hreplacement⟩ := plain_reads.2.2.1.readNote_eq hnewer rfl
  have hfree : newer.note.frontmatter.get "superseded_by_context_id" = .null := rfl
  have hunlinked : replaced.note.frontmatter.get "supersedes_context_id" = .null := rfl
  have hrow : (plainVault [returned, newer]).getById "b" = some newer.note := rfl
  have hrun : supersedeNotes plainEnvironment (plainVault [replaced, newer]) newer.note replaced.note
      "2026-01-02T00:00:00Z" = (.ok (), plainVault [returned, replacedBack]) :=
    supersedeNotes_eq rfl rfl (by decide) hfree hunlinked replaced_linked (markSuperseded_eq hrow hfree newer_marked)
  exact operate_supersede hread hnew (by rw [hsuperseded, hreplacement]; exact hrun)

/-- The replacement may be superseded by the Context it replaced. -/
theorem superseding_back_cycle : ∃ final : Vault Unit,
    Runs (operate plainEnvironment noNestedText) Vault.empty final ∧ ¬ SupersedeInvariant final := by
  have hrun : Runs (operate plainEnvironment noNestedText) Vault.empty (plainVault [returned, replacedBack]) :=
    ((Guarded.refl.next trivial operate_older).next trivial operate_newer).next trivial operate_back
  have hforward : (plainVault [returned, replacedBack]).supersedes "a" = some "b" := rfl
  have hback : (plainVault [returned, replacedBack]).supersedes "b" = some "a" := rfl
  refine ⟨_, hrun, ?_⟩
  intro hinv
  exact hinv.acyclic "a" (.tail (.single hforward) hback)

/-- The condition is met when a new Context supersedes another new one. -/
theorem supersede_graph_invariant_replaced : ∃ final : Vault Unit,
    final.supersedes "b" = some "a" ∧ SupersedeInvariant final := by
  have hfirst : KeepsLinks plainEnvironment noNestedText Vault.empty
      (.save (globalContext "a" "one" []) "n" "2026-01-01T00:00:00Z") := by
    intro save hsave
    rw [plain_prepared.1] at hsave
    cases hsave
    refine ⟨?_, fun _ => rfl, fun target htarget => absurd htarget (by simp)⟩
    intro note hnote
    cases plain_reads.1.readBack_eq.symm.trans hnote
    exact ⟨rfl, rfl, rfl⟩
  have hsecond : KeepsLinks plainEnvironment noNestedText (plainVault [older])
      (.save (globalContext "b" "first" [("supersedes_context_id", .str "a")]) "n" "2026-01-01T00:00:00Z") := by
    intro save hsave
    rw [plain_prepared.2] at hsave
    cases hsave
    refine ⟨?_, fun h => absurd h (by simp), ?_⟩
    · intro note hnote
      cases plain_reads.2.1.readBack_eq.symm.trans hnote
      exact ⟨rfl, rfl, rfl⟩
    · intro target htarget
      cases htarget
      have hfree : FreeLink (plainVault [older]) "b" "a" := ⟨rfl, rfl, by decide⟩
      refine ⟨hfree.mayLink, ?_⟩
      intro superseded hrow
      have holder : (plainVault [older]).getById "a" = some older.note := rfl
      obtain rfl := Option.some.inj (holder.symm.trans hrow)
      intro after hafter
      obtain rfl := Option.some.inj (older_patched.symm.trans hafter)
      exact ⟨rfl, rfl, rfl⟩
  have hrun : Guarded (operate plainEnvironment noNestedText) (KeepsLinks plainEnvironment noNestedText) Vault.empty
      (plainVault [replaced, newer]) := (Guarded.refl.next hfirst operate_older).next hsecond operate_newer
  have hlink : (plainVault [replaced, newer]).supersedes "b" = some "a" := rfl
  exact ⟨_, hlink, supersede_graph_invariant Vault.empty (projected_empty plainEnvironment) supersedeInvariant_empty _ hrun⟩

end Alexandria.Notes
