import Alexandria.Foundations.Lists
import Alexandria.Notes.Overwrite
import Alexandria.Vault.Moves

/-! # The target of an explicit write

`ObsidianWriteTargetResolver.resolve` on the index and the files: a note is looked up by its identifier and by its path, after a
refresh of the index if the first lookups miss what should be there, and every disagreement of the two is refused. A path leads
to its place in the vault through symbolic links, which a refresh leaves as they are.
-/

namespace Alexandria.Notes
set_option autoImplicit false

open Text FileTree
open Alexandria.Vault (NotePath VaultError pathParts)

variable {φ : Type}

/-! ## Paths -/

/-- `str` of a `Path`. -/
def pathText (parts : NotePath) : String := if parts = [] then "." else "/".intercalate parts

/-- `safe_relative_path` and `resolve_note_path`: the path as it is looked up, and the place it leads to. -/
def locate (links : NotePath → Except VaultError NotePath) (path : String) : Except VaultError (String × NotePath) :=
  match Alexandria.Vault.resolveNotePath path with
  | .error error => .error error
  | .ok parts => (links parts).map fun place => (pathText parts, place)

/-! ## The resolver -/

inductive ObsidianWriteOperation
  | created
  | updated
  | unchanged
deriving DecidableEq

def ObsidianWriteMode.value : ObsidianWriteMode → String
  | .create => "create"
  | .update => "update"
  | .upsert => "upsert"

structure IdentityConflict where
  operation : String
  requestedNoteId : Option String
  requestedPath : String
  idTargetPath : Option String
  pathTargetId : Option String
  recommendedOperation : String
deriving DecidableEq

inductive WriteTargetError
  | validation (message : String)
  | location (error : VaultError)
  | identityConflict (detail : IdentityConflict)
  | targetNotFound (requestedNoteId requestedPath : Option String)
deriving DecidableEq

/-- The index and what is below the vault. -/
structure VaultView (φ : Type) where
  index : List (ObsidianNote φ)
  disk : Tree String SourceFile

def VaultView.getById (view : VaultView φ) (noteId : String) : Option (ObsidianNote φ) :=
  Keyed.lookup ObsidianNote.noteId noteId view.index

def VaultView.getByPath (view : VaultView φ) (path : String) : Option (ObsidianNote φ) :=
  Keyed.lookup ObsidianNote.relativePath path view.index

/-- The path of the request, or the one made from its title. -/
def namedPath (root : String) (payload : ObsidianSaveNote φ) : String :=
  (payload.relativePath.filter (· ≠ "")).getD (defaultNotePath root payload.alexandriaType (pythonStrip payload.title))

def pathSelectorRelevant (command : ObsidianWriteNote φ) : Bool :=
  command.note.relativePath.isSome || command.matchBy = .path || command.writeMode = .create

def needsRefresh (view : VaultView φ) (command : ObsidianWriteNote φ) (safePath : String) (absolute : NotePath) : Bool :=
  (pathSelectorRelevant command && view.disk.exist absolute && (view.getByPath safePath).isNone) ||
    command.note.noteId.any fun noteId => (view.getById noteId).isNone

/-- `_raise_identity_conflict` -/
def identityConflictOf (command : ObsidianWriteNote φ) (safePath : String) (byId byPath : Option (ObsidianNote φ)) :
    WriteTargetError :=
  .identityConflict
    { operation := command.writeMode.value
      requestedNoteId := command.note.noteId
      requestedPath := safePath
      idTargetPath := byId.map ObsidianNote.relativePath
      pathTargetId := byPath.map ObsidianNote.noteId
      recommendedOperation := if command.writeMode = .create then "update" else "resolve_identity" }

abbrev WriteTarget (φ : Type) := ObsidianSaveNote φ × Option (ObsidianNote φ) × ObsidianWriteOperation

section Choice
variable (command : ObsidianWriteNote φ) (safePath : String) (occupied : Bool) (byId byPath : Option (ObsidianNote φ))

/-- A new note, unless something is there. -/
def createTarget : Except WriteTargetError (WriteTarget φ) :=
  if byId.isSome ∨ byPath.isSome ∨ occupied then .error (identityConflictOf command safePath byId byPath)
  else .ok ({ command.note with relativePath := some safePath }, none, .created)

/-- The note that was found, unless the other selector contradicts it. -/
def updateTarget (target : ObsidianNote φ) : Except WriteTargetError (WriteTarget φ) :=
  let payload := command.note
  if payload.relativePath.isSome ∧ target.relativePath ≠ safePath then
    .error (identityConflictOf command safePath byId byPath)
  else if payload.noteId.any fun noteId => target.noteId ≠ noteId then
    .error (identityConflictOf command safePath byId byPath)
  else
    .ok ({ preserveOmittedUpdateFields payload target command.providedFields with
      noteId := some target.noteId, relativePath := some target.relativePath }, some target, .updated)

/-- What `resolve` does with what it has looked up. -/
def chooseTarget : Except WriteTargetError (WriteTarget φ) :=
  if pathSelectorRelevant command ∧ (byId.any fun note => byPath.any fun other => note.noteId ≠ other.noteId) then
    .error (identityConflictOf command safePath byId byPath)
  else if command.writeMode = .create then createTarget command safePath occupied byId byPath
  else
    match if command.matchBy = .noteId then byId else byPath with
    | some target => updateTarget command safePath byId byPath target
    | none =>
      if command.writeMode = .update then .error (.targetNotFound command.note.noteId command.note.relativePath)
      else createTarget command safePath occupied byId byPath

end Choice

section Resolve
variable (links : NotePath → Except VaultError NotePath) (root : String) (reindex : VaultView φ → VaultView φ)
  (view : VaultView φ) (command : ObsidianWriteNote φ)

/-- The index and the files after the refresh that the resolver itself asks for. -/
def consulted : VaultView φ :=
  match locate links (namedPath root command.note) with
  | .error _ => view
  | .ok (safePath, absolute) => if needsRefresh view command safePath absolute then reindex view else view

def resolve : Except WriteTargetError (WriteTarget φ) :=
  let payload := command.note
  if command.matchBy = .noteId ∧ payload.noteId.isNone then .error (.validation "note_id is required when match_by=note_id")
  else if command.matchBy = .path ∧ payload.relativePath.isNone then
    .error (.validation "path is required when match_by=path")
  else if pythonStrip payload.title = "" then .error (.validation "title is required")
  else
    match locate links (namedPath root payload) with
    | .error error => .error (.location error)
    | .ok (safePath, absolute) =>
      let current := if needsRefresh view command safePath absolute then reindex view else view
      chooseTarget command safePath (current.disk.exist absolute) (payload.noteId.bind current.getById)
        (current.getByPath safePath)

end Resolve

/-! ## What a command denotes -/

/-- The file of the note is one that the scan of the vault finds, under the path that the scan gives it. -/
structure OnDisk (env : NoteEnvironment φ) (links : NotePath → Except VaultError NotePath) (managed : NotePath → Prop)
    (disk : Tree String SourceFile) (note : ObsidianNote φ) : Prop where
  managed : managed (pathParts note.relativePath)
  spelled : pathText (pathParts note.relativePath) = note.relativePath
  direct : links (pathParts note.relativePath) = .ok (pathParts note.relativePath)
  reads : ∃ file, disk.content (pathParts note.relativePath) = some file ∧
    noteIndexFromFile env note.relativePath file = .ok (some note)

/-- The rows are the notes in the files, one for an identifier. -/
structure VaultView.Agrees (env : NoteEnvironment φ) (links : NotePath → Except VaultError NotePath)
    (managed : NotePath → Prop) (view : VaultView φ) : Prop where
  rows : ∀ note, note ∈ view.index ↔ OnDisk env links managed view.disk note
  ids : (view.index.map ObsidianNote.noteId).Nodup

/-- The path leads to the file of the note. -/
def DenotesPath (links : NotePath → Except VaultError NotePath) (path : String) (note : ObsidianNote φ) : Prop :=
  ∃ place, links (pathParts path) = .ok place ∧ links (pathParts note.relativePath) = .ok place

/-- The selector of the command leads to the note. -/
def Selects (links : NotePath → Except VaultError NotePath) (root : String) (command : ObsidianWriteNote φ)
    (note : ObsidianNote φ) : Prop :=
  match command.matchBy with
  | .noteId => command.note.noteId = some note.noteId
  | .path => DenotesPath links (namedPath root command.note) note

/-- Of a supplied identifier and a supplied path one denotes the note and the other does not. -/
def Contradicted (links : NotePath → Except VaultError NotePath) (root : String) (command : ObsidianWriteNote φ)
    (note : ObsidianNote φ) : Prop :=
  command.note.relativePath.isSome = true ∧
    ∃ noteId, command.note.noteId = some noteId ∧
      ¬ (noteId = note.noteId ↔ DenotesPath links (namedPath root command.note) note)

/-! ## Spelling -/

theorem pathParts_plain {path part : String} (h : part ∈ pathParts path) :
    part ≠ "" ∧ part ≠ "." ∧ '/' ∉ part.toList := by
  unfold pathParts at h
  rw [List.mem_filter, decide_eq_true_iff] at h
  obtain ⟨hmem, hempty, hdot⟩ := h
  obtain ⟨characters, hcharacters, rfl⟩ := List.mem_map.mp hmem
  refine ⟨hempty, hdot, ?_⟩
  rw [String.toList_ofList]
  exact Lists.sep_not_mem_splitOn hcharacters

/-- A path that is printed has the components it was read with. -/
theorem pathParts_pathText {parts : NotePath} (h : ∀ part ∈ parts, part ≠ "" ∧ part ≠ "." ∧ '/' ∉ part.toList) :
    pathParts (pathText parts) = parts := by
  unfold pathText
  split_ifs with hnil
  · rw [hnil]
    decide
  · have hsplit : ("/".intercalate parts).toList.splitOn '/' = parts.map String.toList := by
      rw [String.toList_intercalate]
      apply List.splitOn_intercalate
      · intro characters hcharacters
        obtain ⟨part, hpart, rfl⟩ := List.mem_map.mp hcharacters
        exact (h part hpart).2.2
      · exact fun hmap => hnil (List.map_eq_nil_iff.mp hmap)
    unfold pathParts
    rw [hsplit, List.map_map, List.filter_eq_self.mpr]
    · exact (List.map_congr_left fun part _ => String.ofList_toList).trans (List.map_id parts)
    · intro part hpart
      obtain ⟨part, hmem, rfl⟩ := List.mem_map.mp hpart
      have hplain := h part hmem
      simp only [Function.comp_apply, String.ofList_toList, decide_eq_true_iff]
      exact ⟨hplain.1, hplain.2.1⟩

variable {env : NoteEnvironment φ} {links : NotePath → Except VaultError NotePath} {managed : NotePath → Prop}
  {root : String} {reindex : VaultView φ → VaultView φ} {view : VaultView φ} {command : ObsidianWriteNote φ}

/-- The path as it is looked up has the components of the path, and leads to the same place. -/
theorem locate_ok {path safePath : String} {absolute : NotePath} (h : locate links path = .ok (safePath, absolute)) :
    safePath = pathText (pathParts path) ∧ pathParts safePath = pathParts path ∧ links (pathParts path) = .ok absolute := by
  unfold locate Alexandria.Vault.resolveNotePath Alexandria.Vault.safeRelativePath at h
  split at h
  · cases h
  · rename_i parts hparts
    split at hparts
    · cases hparts
    · rename_i relative hrelative
      split_ifs at hrelative hparts
      cases hrelative
      cases hparts
      cases hplace : links (pathParts path) with
      | error e =>
        rw [hplace] at h
        cases h
      | ok place =>
        rw [hplace] at h
        cases h
        exact ⟨rfl, pathParts_pathText fun part => pathParts_plain, rfl⟩

/-! ## Rows of an index that agrees with the files -/

/-- Two rows whose paths lead to one place are one row. -/
theorem VaultView.Agrees.eq_of_place (h : view.Agrees env links managed) {note other : ObsidianNote φ}
    (hnote : note ∈ view.index) (hother : other ∈ view.index) {place : NotePath}
    (hplace : links (pathParts note.relativePath) = .ok place) (hplace' : links (pathParts other.relativePath) = .ok place) :
    note = other := by
  have hstored := (h.rows note).mp hnote
  have hstored' := (h.rows other).mp hother
  have hparts : pathParts note.relativePath = pathParts other.relativePath := by
    rw [hstored.direct] at hplace
    rw [hstored'.direct] at hplace'
    exact Except.ok.inj (hplace.trans hplace'.symm)
  have hpath : note.relativePath = other.relativePath := by rw [← hstored.spelled, hparts, hstored'.spelled]
  obtain ⟨file, hfile, hread⟩ := hstored.reads
  obtain ⟨file', hfile', hread'⟩ := hstored'.reads
  rw [hparts] at hfile
  rw [hpath] at hread
  cases hfile.symm.trans hfile'
  rw [hread] at hread'
  exact Option.some.inj (Except.ok.inj hread')

theorem VaultView.Agrees.paths (h : view.Agrees env links managed) :
    (view.index.map ObsidianNote.relativePath).Nodup := by
  refine List.Nodup.map_on ?_ (List.Nodup.of_map _ h.ids)
  intro note hnote other hother hsame
  have hdirect := ((h.rows other).mp hother).direct
  exact h.eq_of_place hnote hother (hsame ▸ hdirect) hdirect

theorem VaultView.Agrees.getById (h : view.Agrees env links managed) {noteId : String} {note : ObsidianNote φ} :
    view.getById noteId = some note ↔ note ∈ view.index ∧ note.noteId = noteId :=
  Keyed.lookup_eq_some h.ids

theorem VaultView.Agrees.getByPath (h : view.Agrees env links managed) {path : String} {note : ObsidianNote φ} :
    view.getByPath path = some note ↔ note ∈ view.index ∧ note.relativePath = path :=
  Keyed.lookup_eq_some h.paths

/-- The row at the path as it is looked up is the note that the path leads to. -/
theorem VaultView.Agrees.getByPath_denotes (h : view.Agrees env links managed) {path safePath : String}
    {absolute : NotePath} (hlocate : locate links path = .ok (safePath, absolute)) {note : ObsidianNote φ}
    (hnote : view.getByPath safePath = some note) : DenotesPath links path note := by
  obtain ⟨-, hparts, hplace⟩ := locate_ok hlocate
  obtain ⟨-, hpath⟩ := h.getByPath.mp hnote
  refine ⟨absolute, hplace, ?_⟩
  rw [hpath, hparts]
  exact hplace

/-- A note that a path leads to occupies the place, and is the row at the path if there is one. -/
theorem VaultView.Agrees.denotes (h : view.Agrees env links managed) {path safePath : String} {absolute : NotePath}
    (hlocate : locate links path = .ok (safePath, absolute)) {note : ObsidianNote φ} (hnote : note ∈ view.index)
    (hdenotes : DenotesPath links path note) :
    view.disk.exist absolute = true ∧ ∀ other ∈ view.getByPath safePath, other = note := by
  obtain ⟨-, -, hplace⟩ := locate_ok hlocate
  obtain ⟨place, hpath, hrow⟩ := hdenotes
  obtain rfl : absolute = place := Except.ok.inj (hplace.symm.trans hpath)
  constructor
  · have hstored := (h.rows note).mp hnote
    rw [hstored.direct] at hrow
    obtain rfl := Except.ok.inj hrow
    obtain ⟨file, hfile, -⟩ := hstored.reads
    obtain ⟨node, hentry, -⟩ := Option.bind_eq_some_iff.mp hfile
    unfold Tree.exist
    rw [hentry]
    rfl
  · intro other hother
    obtain ⟨place, hpath', hrow'⟩ := h.getByPath_denotes hlocate hother
    obtain rfl : absolute = place := Except.ok.inj (hplace.symm.trans hpath')
    exact h.eq_of_place (h.getByPath.mp hother).1 hnote hrow' hrow

/-! ## The choice -/

section Choice
variable {safePath : String} {occupied : Bool} {byId byPath : Option (ObsidianNote φ)} {result : WriteTarget φ}

theorem createTarget_ok (h : createTarget command safePath occupied byId byPath = .ok result) :
    (byId = none ∧ byPath = none ∧ occupied = false) ∧
      result = ({ command.note with relativePath := some safePath }, none, .created) := by
  unfold createTarget at h
  split_ifs at h with hthere
  rw [not_or, not_or, Bool.not_eq_true, Bool.not_eq_true, Bool.not_eq_true, Option.isSome_eq_false_iff,
    Option.isSome_eq_false_iff, Option.isNone_iff_eq_none, Option.isNone_iff_eq_none] at hthere
  exact ⟨hthere, (Except.ok.inj h).symm⟩

theorem updateTarget_ok {target : ObsidianNote φ} (h : updateTarget command safePath byId byPath target = .ok result) :
    (command.note.relativePath.isSome = true → target.relativePath = safePath) ∧
      (∀ noteId ∈ command.note.noteId, target.noteId = noteId) ∧
      result.1.noteId = some target.noteId ∧ result.1.relativePath = some target.relativePath ∧
      result.2 = (some target, .updated) := by
  unfold updateTarget at h
  simp only at h
  split_ifs at h with hpath hid
  refine ⟨fun hsome => ?_, fun noteId hnoteId => ?_, ?_⟩
  · by_contra hne
    exact hpath ⟨hsome, hne⟩
  · by_contra hne
    rw [Option.mem_def.mp hnoteId] at hid
    exact hid (decide_eq_true hne)
  · cases h
    exact ⟨rfl, rfl, rfl⟩

/-- A command is accepted for a new note where there is nothing, or for the note that its selector found. -/
theorem chooseTarget_ok (h : chooseTarget command safePath occupied byId byPath = .ok result) :
    createTarget command safePath occupied byId byPath = .ok result ∨
      ∃ target, (if command.matchBy = .noteId then byId else byPath) = some target ∧
        updateTarget command safePath byId byPath target = .ok result := by
  unfold chooseTarget at h
  by_cases hdiffer : pathSelectorRelevant command ∧ (byId.any fun note => byPath.any fun other => note.noteId ≠ other.noteId)
  · rw [if_pos hdiffer] at h
    cases h
  · rw [if_neg hdiffer] at h
    by_cases hcreate : command.writeMode = .create
    · rw [if_pos hcreate] at h
      exact .inl h
    · rw [if_neg hcreate] at h
      generalize (if command.matchBy = .noteId then byId else byPath) = selected at h ⊢
      cases selected with
      | some target => exact .inr ⟨target, rfl, h⟩
      | none =>
        simp only at h
        split_ifs at h
        exact .inl h

end Choice

/-! ## Without links and refresh -/

/-- `safe_relative_path` in a vault without links. -/
def directPath (path : String) : Except String String :=
  match locate .ok path with
  | .error _ => .error "Obsidian path must stay inside the vault"
  | .ok (safePath, _) => .ok safePath

/-- The resolution on a vault of files only is this one, where no directory is at the path and the index is refreshed. -/
theorem resolveWriteTarget_of_resolve (env : NoteEnvironment φ) (vault : Vault φ)
    (hindex : (consulted .ok root reindex view command).index = vault.index)
    (hfile : ∀ safePath absolute, locate .ok (namedPath root command.note) = .ok (safePath, absolute) →
      (consulted .ok root reindex view command).disk.exist absolute = (vault.file safePath).isSome) :
    (resolveWriteTarget { env with safeRelativePath := directPath, defaultNotePath := defaultNotePath root } vault
        command).toOption =
      (resolve .ok root reindex view command).toOption.map fun target => (target.1, target.2.1) := by
  unfold resolveWriteTarget resolve
  simp only
  by_cases hid : command.matchBy = .noteId ∧ command.note.noteId.isNone
  · rw [if_pos hid, if_pos hid]
    rfl
  rw [if_neg hid, if_neg hid]
  by_cases hpath : command.matchBy = .path ∧ command.note.relativePath.isNone
  · rw [if_pos hpath, if_pos hpath]
    rfl
  rw [if_neg hpath, if_neg hpath]
  by_cases htitle : pythonStrip command.note.title = ""
  · rw [if_pos htitle, if_pos htitle]
    rfl
  rw [if_neg htitle, if_neg htitle]
  have hnamed : (command.note.relativePath.filter (· ≠ "")).getD
      (defaultNotePath root command.note.alexandriaType (pythonStrip command.note.title)) = namedPath root command.note := rfl
  rw [hnamed]
  unfold directPath
  unfold consulted at hindex hfile
  cases hlocate : locate .ok (namedPath root command.note) with
  | error e => rfl
  | ok located =>
    have hoccupied := hfile located.1 located.2 hlocate
    rw [hlocate] at hindex hoccupied
    simp only at hindex hoccupied ⊢
    generalize (if needsRefresh view command located.1 located.2 then reindex view else view) = current at hindex hoccupied ⊢
    have hid : current.getById = vault.getById := by
      unfold VaultView.getById Vault.getById
      rw [hindex]
    have hpath : current.getByPath located.1 = vault.getByPath located.1 := by
      unfold VaultView.getByPath Vault.getByPath
      rw [hindex]
    rw [hid, hpath, hoccupied]
    show Except.toOption (ite _ _ _) = _
    unfold chooseTarget pathSelectorRelevant
    simp only [Bool.or_eq_true, decide_eq_true_eq, or_assoc]
    generalize command.note.noteId.bind vault.getById = byId
    generalize vault.getByPath located.1 = byPath
    split
    · rfl
    · split
      · unfold createTarget
        split
        · rfl
        · rfl
      · generalize (if command.matchBy = .noteId then byId else byPath) = selected
        cases selected with
        | some target =>
          unfold updateTarget
          simp only
          by_cases hplace : command.note.relativePath.isSome ∧ target.relativePath ≠ located.1
          · rw [if_pos (.inl hplace), if_pos hplace]
            rfl
          · rw [if_neg hplace]
            by_cases hother : (command.note.noteId.any fun noteId => target.noteId ≠ noteId) = true
            · rw [if_pos (.inr hother), if_pos hother]
              rfl
            · rw [if_neg (not_or.mpr ⟨hplace, hother⟩), if_neg hother]
              rfl
        | none =>
          simp only
          split
          · rfl
          · unfold createTarget
            split
            · rfl
            · rfl

/-! ## Exact resolution -/

/-- A command that is accepted was decided on the view after the refresh. -/
theorem resolve_ok {result : WriteTarget φ} (h : resolve links root reindex view command = .ok result) :
    ∃ safePath absolute, locate links (namedPath root command.note) = .ok (safePath, absolute) ∧
      chooseTarget command safePath ((consulted links root reindex view command).disk.exist absolute)
        (command.note.noteId.bind (consulted links root reindex view command).getById)
        ((consulted links root reindex view command).getByPath safePath) = .ok result := by
  unfold resolve at h
  simp only at h
  split_ifs at h
  cases hlocate : locate links (namedPath root command.note) with
  | error e =>
    rw [hlocate] at h
    cases h
  | ok located =>
    rw [hlocate] at h
    unfold consulted
    rw [hlocate]
    exact ⟨located.1, located.2, rfl, h⟩

/-- The command names a new note: a place where nothing is, by the path of the command, and no identifier of a row. -/
structure NamesNew (links : NotePath → Except VaultError NotePath) (root : String) (view : VaultView φ)
    (command : ObsidianWriteNote φ) (payload : ObsidianSaveNote φ) : Prop where
  path : ∃ path place, payload.relativePath = some path ∧ pathParts path = pathParts (namedPath root command.note) ∧
    links (pathParts path) = .ok place ∧ view.disk.exist place = false
  noteId : payload.noteId = command.note.noteId ∧ ∀ note ∈ view.index, payload.noteId ≠ some note.noteId

/-- The command names the one note that its selector denotes. -/
structure NamesSelected (links : NotePath → Except VaultError NotePath) (root : String) (view : VaultView φ)
    (command : ObsidianWriteNote φ) (payload : ObsidianSaveNote φ) (note : ObsidianNote φ) : Prop where
  row : note ∈ view.index
  selected : ∀ other ∈ view.index, Selects links root command other ↔ other = note
  noteId : payload.noteId = some note.noteId
  path : payload.relativePath = some note.relativePath

section Accepted
variable {result : WriteTarget φ}

/-- Two rows that one selector denotes are one row. -/
theorem VaultView.Agrees.selects_unique (h : view.Agrees env links managed) {note other : ObsidianNote φ}
    (hnote : note ∈ view.index) (hother : other ∈ view.index) (hselects : Selects links root command note)
    (hselects' : Selects links root command other) : other = note := by
  unfold Selects at hselects hselects'
  cases hmatch : command.matchBy with
  | noteId =>
    rw [hmatch] at hselects hselects'
    have hid : other.noteId = note.noteId := Option.some.inj (hselects'.symm.trans hselects)
    exact List.inj_on_of_nodup_map h.ids hother hnote hid
  | path =>
    rw [hmatch] at hselects hselects'
    obtain ⟨place, hpath, hrow⟩ := hselects
    obtain ⟨place', hpath', hrow'⟩ := hselects'
    obtain rfl := Except.ok.inj (hpath.symm.trans hpath')
    exact h.eq_of_place hother hnote hrow' hrow

/-- What is found for the selector is a row that it denotes. -/
theorem VaultView.Agrees.selected (h : view.Agrees env links managed) {safePath : String} {absolute : NotePath}
    (hlocate : locate links (namedPath root command.note) = .ok (safePath, absolute)) {target : ObsidianNote φ}
    (htarget : (if command.matchBy = .noteId then command.note.noteId.bind view.getById else view.getByPath safePath) =
      some target) : target ∈ view.index ∧ Selects links root command target := by
  unfold Selects
  cases hmatch : command.matchBy with
  | noteId =>
    rw [hmatch, if_pos rfl] at htarget
    obtain ⟨noteId, hnoteId, hrow⟩ := Option.bind_eq_some_iff.mp htarget
    obtain ⟨hmem, rfl⟩ := h.getById.mp hrow
    exact ⟨hmem, hnoteId⟩
  | path =>
    rw [hmatch, if_neg (by decide)] at htarget
    exact ⟨(h.getByPath.mp htarget).1, h.getByPath_denotes hlocate htarget⟩

/-- The command is accepted for a new note and denotes none, or for a note that all its selectors denote. -/
theorem resolve_accepts (hagrees : (consulted links root reindex view command).Agrees env links managed)
    (h : resolve links root reindex view command = .ok result) :
    ((∀ note ∈ (consulted links root reindex view command).index, command.note.noteId ≠ some note.noteId ∧
        ¬ DenotesPath links (namedPath root command.note) note) ∧
      NamesNew links root (consulted links root reindex view command) command result.1 ∧ result.2 = (none, .created)) ∨
    ∃ note, NamesSelected links root (consulted links root reindex view command) command result.1 note ∧
      result.2 = (some note, .updated) ∧ (∀ noteId ∈ command.note.noteId, note.noteId = noteId) ∧
      (command.note.relativePath.isSome = true → DenotesPath links (namedPath root command.note) note) := by
  obtain ⟨safePath, absolute, hlocate, hchoice⟩ := resolve_ok h
  generalize consulted links root reindex view command = current at hagrees hchoice ⊢
  obtain ⟨-, hparts, hplace⟩ := locate_ok hlocate
  obtain hcreate | ⟨target, hselected, hupdate⟩ := chooseTarget_ok hchoice
  · obtain ⟨⟨hid, -, hvacant⟩, rfl⟩ := createTarget_ok hcreate
    have hnone : ∀ note ∈ current.index, command.note.noteId ≠ some note.noteId := by
      intro note hnote hsame
      rw [hsame, Option.bind_some, hagrees.getById.mpr ⟨hnote, rfl⟩] at hid
      cases hid
    refine .inl ⟨fun note hnote => ⟨hnone note hnote, fun hdenotes => ?_⟩, ⟨?_, rfl, hnone⟩, rfl⟩
    · rw [(hagrees.denotes hlocate hnote hdenotes).1] at hvacant
      cases hvacant
    · exact ⟨safePath, absolute, rfl, hparts, hparts ▸ hplace, hvacant⟩
  · obtain ⟨hpath, hid, hnoteId, hrelativePath, houtcome⟩ := updateTarget_ok hupdate
    obtain ⟨hmem, hselects⟩ := hagrees.selected hlocate hselected
    refine .inr ⟨target, ⟨hmem, fun other hother => ?_, hnoteId, hrelativePath⟩, houtcome, hid, fun hsome => ?_⟩
    · constructor
      · exact fun hselects' => hagrees.selects_unique hmem hother hselects hselects'
      · rintro rfl
        exact hselects
    · exact hagrees.getByPath_denotes hlocate (hagrees.getByPath.mpr ⟨hmem, hpath hsome⟩)

end Accepted

/-- A new note is named where there is none, an update names the one note of its selector, and a command whose identifier and
path disagree is refused. -/
theorem resolve_exact (env : NoteEnvironment φ) (links : NotePath → Except VaultError NotePath) (managed : NotePath → Prop)
    (root : String) (reindex : VaultView φ → VaultView φ) (view : VaultView φ) (command : ObsidianWriteNote φ)
    (hagrees : (consulted links root reindex view command).Agrees env links managed) :
    (∀ payload existing, resolve links root reindex view command = .ok (payload, existing, .created) →
        existing = none ∧ NamesNew links root (consulted links root reindex view command) command payload) ∧
      (∀ payload existing, resolve links root reindex view command = .ok (payload, existing, .updated) →
        ∃ note, existing = some note ∧
          NamesSelected links root (consulted links root reindex view command) command payload note) ∧
      ((∃ note ∈ (consulted links root reindex view command).index, Contradicted links root command note) →
        ∃ error, resolve links root reindex view command = .error error) := by
  refine ⟨fun payload existing h => ?_, fun payload existing h => ?_, ?_⟩
  · obtain ⟨-, hnew, houtcome⟩ | ⟨note, -, houtcome, -⟩ := resolve_accepts hagrees h
    · cases houtcome
      exact ⟨rfl, hnew⟩
    · cases houtcome
  · obtain ⟨-, -, houtcome⟩ | ⟨note, hselected, houtcome, -⟩ := resolve_accepts hagrees h
    · cases houtcome
    · cases houtcome
      exact ⟨note, rfl, hselected⟩
  · rintro ⟨note, hnote, hpath, noteId, hnoteId, hdisagree⟩
    cases hresolve : resolve links root reindex view command with
    | error error => exact ⟨error, rfl⟩
    | ok result =>
      refine absurd ?_ hdisagree
      obtain ⟨hnone, -⟩ | ⟨target, hselected, -, hid, hdenotes⟩ := resolve_accepts hagrees hresolve
      · refine iff_of_false ?_ (hnone note hnote).2
        rintro rfl
        exact (hnone note hnote).1 hnoteId
      · obtain rfl := hid noteId hnoteId
        obtain ⟨place, hplace, hrow⟩ := hdenotes hpath
        constructor
        · intro hsame
          rw [← List.inj_on_of_nodup_map hagrees.ids hselected.row hnote hsame]
          exact ⟨place, hplace, hrow⟩
        · rintro ⟨place', hplace', hrow'⟩
          obtain rfl := Except.ok.inj (hplace.symm.trans hplace')
          rw [hagrees.eq_of_place hselected.row hnote hrow hrow']

def skillFile : SourceFile := ⟨"---\nalexandria_type: skill\nid: b\n---\n\nold\n".toList, ""⟩

/-- One file at the root of the vault, and its row. -/
def oneSkill : VaultView Unit where
  index := (noteIndexFromFile titledEnvironment "a.md" skillFile).toOption.join.toList
  disk := ⟨AList.singleton ["a.md"] (.file skillFile)⟩

theorem oneSkill_row (note : ObsidianNote Unit) :
    note ∈ oneSkill.index ↔ noteIndexFromFile titledEnvironment "a.md" skillFile = .ok (some note) := by
  unfold oneSkill
  simp only [Option.mem_toList]
  cases noteIndexFromFile titledEnvironment "a.md" skillFile with
  | error text => exact iff_of_false (fun h => (nomatch h)) (fun h => (nomatch h))
  | ok read =>
    show read = some note ↔ Except.ok read = Except.ok (some note)
    exact ⟨congrArg _, Except.ok.inj⟩

theorem oneSkill_content {place : NotePath} {file : SourceFile} (h : oneSkill.disk.content place = some file) :
    place = ["a.md"] ∧ file = skillFile := by
  obtain ⟨node, hentry, hnode⟩ := Option.bind_eq_some_iff.mp h
  unfold Tree.entry at hentry
  split_ifs at hentry with hroot
  · cases hentry
    cases hnode
  · have hlookup := AList.mem_lookup_iff.mp hentry
    have hmem : (⟨place, node⟩ : Sigma fun _ : List String => Node SourceFile) = ⟨["a.md"], .file skillFile⟩ :=
      List.mem_singleton.mp hlookup
    cases hmem
    cases hnode
    exact ⟨rfl, rfl⟩

theorem oneSkill_agrees : oneSkill.Agrees titledEnvironment .ok (fun _ => True) where
  rows note := by
    rw [oneSkill_row]
    constructor
    · intro hread
      have hpath := (noteIndexFromFile_some hread).1
      refine ⟨trivial, ?_, rfl, skillFile, ?_, ?_⟩
      · rw [hpath]
        decide
      · rw [hpath]
        rfl
      · rw [hpath]
        exact hread
    · rintro ⟨-, hspelled, -, file, hfile, hread⟩
      obtain ⟨hplace, rfl⟩ := oneSkill_content hfile
      rw [hplace] at hspelled
      have hpath : note.relativePath = "a.md" := hspelled.symm.trans (by decide)
      rw [hpath] at hread
      exact hread
  ids := by
    unfold oneSkill
    simp only
    cases (noteIndexFromFile titledEnvironment "a.md" skillFile).toOption.join with
    | none => exact List.nodup_nil
    | some note => exact List.nodup_singleton _

/-- A write by the path of the file in another spelling, with an identifier that is not the one in it. -/
def strayWrite : ObsidianWriteNote Unit := ⟨skillOf "a" (some "x") (some "./a.md"), .upsert, .path, .merge, none⟩

/-- The row is missing until the refresh. -/
theorem strayWrite_refused :
    ∃ error, resolve .ok "Alexandria" (fun _ => oneSkill) ⟨[], oneSkill.disk⟩ strayWrite = .error error := by
  have hread : (noteIndexFromFile titledEnvironment "a.md" skillFile).toOption.join.isSome = true := by decide
  have hid : (noteIndexFromFile titledEnvironment "a.md" skillFile).toOption.join.all fun note => note.noteId = "b" := by
    decide
  obtain ⟨note, hnote⟩ := Option.isSome_iff_exists.mp hread
  rw [hnote] at hid
  have hid : note.noteId = "b" := of_decide_eq_true hid
  have hrow : note ∈ oneSkill.index := Option.mem_toList.mpr hnote
  have hpath : note.relativePath = "a.md" := (noteIndexFromFile_some ((oneSkill_row note).mp hrow)).1
  have hdenotes : DenotesPath .ok "./a.md" note := by
    refine ⟨["a.md"], by decide, ?_⟩
    rw [hpath]
    decide
  refine (resolve_exact titledEnvironment .ok (fun _ => True) "Alexandria" (fun _ => oneSkill) ⟨[], oneSkill.disk⟩ strayWrite
    oneSkill_agrees).2.2 ⟨note, hrow, rfl, "x", rfl, fun h => ?_⟩
  have hsame : "x" = note.noteId := h.mpr hdenotes
  rw [hid] at hsame
  exact absurd hsame (by decide)

end Alexandria.Notes
