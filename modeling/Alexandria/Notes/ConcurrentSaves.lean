import Alexandria.Foundations.Run
import Alexandria.Notes.Interleaving

/-! # Index and files under concurrent saves

Between the write of its file and the write of its row a call has left the index behind the file. The index is the projection of
the files again when every call has indexed its file, if no file was written at a path or with an identifier that another call
had not indexed yet, nor with one that the index had given away since the check.
-/

namespace Alexandria.Notes
set_option autoImplicit false
open Run

variable {φ ι : Type} {env : NoteEnvironment φ} {str : NestedText φ} {vault : Vault φ}
  {calls : ι → Call φ} {state after : Interleaved ι φ}

/-! ## Files that are not indexed yet -/

/-- The file of the note reads as the note. -/
def Reads (env : NoteEnvironment φ) (vault : Vault φ) (note : ObsidianNote φ) : Prop :=
  ∃ file, vault.file note.relativePath = some file ∧ noteIndexFromFile env note.relativePath file = .ok (some note)

theorem Reads.eq {note other : ObsidianNote φ} (h : Reads env vault note) (hother : Reads env vault other)
    (hpath : note.relativePath = other.relativePath) : note = other := by
  obtain ⟨file, hfile, hread⟩ := h
  obtain ⟨file', hfile', hread'⟩ := hother
  rw [hpath] at hfile hread
  cases hfile.symm.trans hfile'
  rw [hread] at hread'
  exact Option.some.inj (Except.ok.inj hread')

/-- The call has written the file of the note and not its row. -/
def Pending (phase : Phase φ) (note : ObsidianNote φ) : Prop :=
  ∃ job, (phase = .replaced job ∧ job.path = note.relativePath) ∨ phase = .indexed job note

def Unindexed (env : NoteEnvironment φ) (state : Interleaved ι φ) (call : ι) (note : ObsidianNote φ) : Prop :=
  Reads env state.vault note ∧ Pending (state.phase call) note

/-- A file may be written: it reads as a note, the index gives the path and the identifier to no other note, and no other call
has left a file at the path or with the identifier unindexed. -/
def Clear (env : NoteEnvironment φ) (state : Interleaved ι φ) (move : Move ι) : Prop :=
  ∀ job, state.phase move.call = .writing job →
    ∃ note, noteIndexFromFile env job.path ⟨job.document, move.now⟩ = .ok (some note) ∧
      CanStore state.vault note.noteId job.path ∧
      ∀ other, other ≠ move.call → ∀ pending, Unindexed env state other pending →
        pending.relativePath ≠ job.path ∧ pending.noteId ≠ note.noteId

/-! ## The invariant -/

structure Synced (env : NoteEnvironment φ) (state : Interleaved ι φ) : Prop where
  paths : (state.vault.files.map Prod.fst).Nodup
  ids : (state.vault.index.map ObsidianNote.noteId).Nodup
  rows : ∀ note ∈ state.vault.index, Reads env state.vault note ∨
    ∃ call pending, Unindexed env state call pending ∧ pending.relativePath = note.relativePath
  files : ∀ note, Reads env state.vault note → note ∈ state.vault.index ∨ ∃ call, Unindexed env state call note
  replaced : ∀ call job, state.phase call = .replaced job → ∃ note, Unindexed env state call note
  indexed : ∀ call job note, state.phase call = .indexed job note → Unindexed env state call note
  store : ∀ call note, Unindexed env state call note → CanStore state.vault note.noteId note.relativePath
  apart : ∀ call other note pending, other ≠ call → Unindexed env state call note → Unindexed env state other pending →
    pending.relativePath ≠ note.relativePath ∧ pending.noteId ≠ note.noteId
  restoring : ∀ call path document current text, state.phase call ≠ .restoring path document current text

theorem Synced.start (h : Projected env vault) : Synced env (Interleaved.start vault : Interleaved ι φ) where
  paths := h.paths
  ids := h.ids
  rows note hnote := .inl (h.exists_file hnote)
  files note hread := .inl ((h.note_iff note).mpr hread)
  replaced call job hphase := by cases hphase
  indexed call job note hphase := by cases hphase
  store call note hnote := by
    obtain ⟨-, job, ⟨hphase, -⟩ | hphase⟩ := hnote <;> cases hphase
  apart call other note pending _ hnote := by
    obtain ⟨-, job, ⟨hphase, -⟩ | hphase⟩ := hnote <;> cases hphase
  restoring call path document current text hphase := by cases hphase

/-- Without unindexed files the index is the projection of the files. -/
theorem Synced.projected (h : Synced env state) (hsettled : ∀ call note, ¬ Unindexed env state call note) :
    Projected env state.vault where
  paths := h.paths
  ids := h.ids
  note_iff note := by
    constructor
    · intro hnote
      obtain hread | ⟨call, pending, hpending, -⟩ := h.rows note hnote
      · exact hread
      · exact absurd hpending (hsettled call pending)
    · intro hread
      obtain hnote | ⟨call, hpending⟩ := h.files note hread
      · exact hnote
      · exact absurd hpending (hsettled call note)

/-- A step that leaves the vault and what is unindexed as they are. -/
theorem Synced.same (h : Synced env state) (hvault : after.vault = state.vault)
    (hpending : ∀ call note, Unindexed env after call note ↔ Unindexed env state call note)
    (hreplaced : ∀ call job, after.phase call = .replaced job → state.phase call = .replaced job)
    (hindexed : ∀ call job note, after.phase call = .indexed job note → Unindexed env state call note)
    (hrestoring : ∀ call path document current text, after.phase call ≠ .restoring path document current text) :
    Synced env after where
  paths := hvault ▸ h.paths
  ids := hvault ▸ h.ids
  rows := by
    simp only [hvault, hpending]
    exact h.rows
  files := by
    simp only [hvault, hpending]
    exact h.files
  replaced call job hphase := by
    simp only [hpending]
    exact h.replaced call job (hreplaced call job hphase)
  indexed call job note hphase := (hpending call note).mpr (hindexed call job note hphase)
  store := by
    simp only [hvault, hpending]
    exact h.store
  apart := by
    simp only [hpending]
    exact h.apart
  restoring := hrestoring

/-! ## The steps -/

/-- The phase has no file that is not indexed, and none to write back. -/
def Quiet (phase : Phase φ) : Prop :=
  (∀ job, phase ≠ .replaced job) ∧ (∀ job note, phase ≠ .indexed job note) ∧
    ∀ path document current text, phase ≠ .restoring path document current text

theorem Quiet.not_pending {phase : Phase φ} (h : Quiet phase) (note : ObsidianNote φ) : ¬ Pending phase note := by
  rintro ⟨job, ⟨hphase, -⟩ | hphase⟩
  · exact h.1 job hphase
  · exact h.2.1 job note hphase

theorem quiet_begin (vault : Vault φ) (call : Call φ) : Quiet (begin env vault call) := by
  unfold begin
  cases call with
  | save payload newId =>
    simp only
    split <;> simp [Quiet]
  | repair request =>
    simp only
    split <;> simp [Quiet]

theorem quiet_prepared (decided : Except String (PreparedSave φ)) : Quiet (prepared decided) := by
  unfold prepared
  split <;> simp [Quiet]

theorem quiet_marked (answer : ObsidianNote φ) (document : Except String (Option (String × List Char))) :
    Quiet (marked answer document) := by
  unfold marked
  split <;> simp [Quiet]

theorem quiet_afterIndexing (job : Writing φ) (note : ObsidianNote φ) : Quiet (afterIndexing job note) := by
  unfold afterIndexing
  split <;> simp [Quiet]

/-- The file that was written is read back as the note it is. -/
theorem readReplaced_unindexed {call : ι} {job : Writing φ} {note : ObsidianNote φ} (hphase : state.phase call = .replaced job)
    (hnote : Unindexed env state call note) : readReplaced env state.vault job = .indexed job note ∧
      job.path = note.relativePath := by
  obtain ⟨⟨file, hfile, hread⟩, job', ⟨hjob, hpath⟩ | hjob⟩ := hnote
  · cases hphase.symm.trans hjob
    unfold readReplaced
    rw [hpath, hfile]
    simp only [hread, and_true]
  · cases hphase.symm.trans hjob

variable [DecidableEq ι]

/-- From a phase without a file to one without. -/
theorem Synced.quiet (h : Synced env state) {call : ι} {next : Phase φ} (hphase : Quiet (state.phase call)) (hnext : Quiet next)
    (log : List (Replacement ι)) : Synced env ⟨state.vault, Function.update state.phase call next, log⟩ := by
  have hpending : ∀ other note, Pending (Function.update state.phase call next other) note ↔ Pending (state.phase other) note := by
    intro other note
    by_cases hother : other = call
    · subst hother
      rw [Function.update_self]
      exact ⟨fun hpending => absurd hpending (hnext.not_pending note), fun hpending => absurd hpending (hphase.not_pending note)⟩
    · rw [Function.update_of_ne hother]
  refine h.same rfl (fun other note => and_congr_right fun _ => hpending other note) ?_ ?_ ?_
  · intro other job hreplaced
    obtain ⟨-, hreplaced⟩ | ⟨-, hreplaced⟩ := of_update (f := state.phase)
      (fun phase : Phase φ => phase = .replaced job) hreplaced
    · exact absurd hreplaced (hnext.1 job)
    · exact hreplaced
  · intro other job note hindexed
    obtain ⟨-, hindexed⟩ | ⟨-, hindexed⟩ := of_update (f := state.phase)
      (fun phase : Phase φ => phase = .indexed job note) hindexed
    · exact absurd hindexed (hnext.2.1 job note)
    · exact h.indexed other job note hindexed
  · intro other path document current text hrestoring
    obtain ⟨-, hrestoring⟩ | ⟨-, hrestoring⟩ := of_update (f := state.phase)
      (fun phase : Phase φ => phase = .restoring path document current text) hrestoring
    · exact hnext.2.2 path document current text hrestoring
    · exact h.restoring other path document current text hrestoring

theorem Synced.readBack (h : Synced env state) {call : ι} {job : Writing φ} (hphase : state.phase call = .replaced job)
    (log : List (Replacement ι)) :
    Synced env ⟨state.vault, Function.update state.phase call (readReplaced env state.vault job), log⟩ := by
  obtain ⟨note, hnote⟩ := h.replaced call job hphase
  obtain ⟨hread, hpath⟩ := readReplaced_unindexed hphase hnote
  rw [hread]
  refine h.same rfl ?_ ?_ ?_ ?_
  · intro other found
    by_cases hother : other = call
    · subst hother
      constructor
      · rintro ⟨hreads, job', ⟨hjob, -⟩ | hjob⟩
        · simp only [Function.update_self] at hjob
          cases hjob
        · simp only [Function.update_self] at hjob
          cases hjob
          exact hnote
      · rintro ⟨hreads, job', ⟨hjob, hfound⟩ | hjob⟩
        · cases hphase.symm.trans hjob
          obtain rfl := hreads.eq hnote.1 (hfound.symm.trans hpath)
          exact ⟨hreads, job, .inr (Function.update_self ..)⟩
        · cases hphase.symm.trans hjob
    · simp only [Unindexed, Function.update_of_ne hother]
  · intro other job' hreplaced
    obtain ⟨-, hreplaced⟩ | ⟨-, hreplaced⟩ := of_update (f := state.phase) (x := .indexed job note)
      (fun phase : Phase φ => phase = .replaced job') hreplaced
    · cases hreplaced
    · exact hreplaced
  · intro other job' found hindexed
    by_cases hother : other = call
    · subst hother
      simp only [Function.update_self] at hindexed
      cases hindexed
      exact hnote
    · simp only [Function.update_of_ne hother] at hindexed
      exact h.indexed other job' found hindexed
  · intro other path document current text hrestoring
    obtain ⟨-, hrestoring⟩ | ⟨-, hrestoring⟩ := of_update (f := state.phase) (x := .indexed job note)
      (fun phase : Phase φ => phase = .restoring path document current text) hrestoring
    · cases hrestoring
    · exact h.restoring other path document current text hrestoring

theorem reads_writeFile {path : String} {file : SourceFile} {note : ObsidianNote φ}
    (hread : noteIndexFromFile env path file = .ok (some note)) (found : ObsidianNote φ) :
    Reads env (vault.writeFile path file) found ↔ found = note ∨ found.relativePath ≠ path ∧ Reads env vault found := by
  have hpath := (noteIndexFromFile_some hread).1
  unfold Reads
  rw [file_writeFile]
  by_cases hfound : path = found.relativePath
  · rw [if_pos hfound]
    constructor
    · rintro ⟨_, hfile, hread'⟩
      cases hfile
      rw [← hfound, hread] at hread'
      exact .inl (Option.some.inj (Except.ok.inj hread')).symm
    · rintro (rfl | ⟨hne, -⟩)
      · exact ⟨file, rfl, by rw [hpath]; exact hread⟩
      · exact absurd hfound.symm hne
  · rw [if_neg hfound]
    constructor
    · exact fun hreads => .inr ⟨Ne.symm hfound, hreads⟩
    · rintro (rfl | ⟨-, hreads⟩)
      · exact absurd hpath.symm hfound
      · exact hreads

/-- A file is written where no other call has left one unindexed. -/
theorem Synced.write (h : Synced env state) {move : Move ι} {job : Writing φ} (hclear : Clear env state move)
    (hphase : state.phase move.call = .writing job) (log : List (Replacement ι)) :
    Synced env ⟨state.vault.writeFile job.path ⟨job.document, move.now⟩,
      Function.update state.phase move.call (.replaced job), log⟩ := by
  obtain ⟨note, hread, hstore, hapart⟩ := hclear job hphase
  have hpath := (noteIndexFromFile_some hread).1
  have hreads : ∀ found : ObsidianNote φ, Reads env (state.vault.writeFile job.path ⟨job.document, move.now⟩) found ↔
      found = note ∨ found.relativePath ≠ job.path ∧ Reads env state.vault found := reads_writeFile hread
  have hself : ∀ found, Pending (Function.update state.phase move.call (.replaced job) move.call) found ↔
      job.path = found.relativePath := by
    intro found
    rw [Function.update_self]
    constructor
    · rintro ⟨job', ⟨hjob, hfound⟩ | hjob⟩
      · cases hjob
        exact hfound
      · cases hjob
    · exact fun hfound => ⟨job, .inl ⟨rfl, hfound⟩⟩
  -- what another call has left unindexed stays so, and nothing is added to it
  have hother : ∀ call, call ≠ move.call → ∀ found,
      Unindexed env ⟨state.vault.writeFile job.path ⟨job.document, move.now⟩,
        Function.update state.phase move.call (.replaced job), log⟩ call found ↔ Unindexed env state call found := by
    intro call hcall found
    simp only [Unindexed, hreads, Function.update_of_ne hcall]
    constructor
    · rintro ⟨rfl | ⟨-, hfound⟩, hpending⟩
      · obtain ⟨job', ⟨hjob, hpath'⟩ | hjob⟩ := hpending
        · obtain ⟨pending, hpending⟩ := h.replaced call job' hjob
          obtain ⟨-, hjobpath⟩ := readReplaced_unindexed hjob hpending
          exact absurd (hjobpath.symm.trans (hpath'.trans hpath)) (hapart call hcall pending hpending).1
        · exact absurd hpath (hapart call hcall _ (h.indexed call job' _ hjob)).1
      · exact ⟨hfound, hpending⟩
    · rintro ⟨hfound, hpending⟩
      exact ⟨.inr ⟨(hapart call hcall found ⟨hfound, hpending⟩).1, hfound⟩, hpending⟩
  have hmover : ∀ found, Unindexed env ⟨state.vault.writeFile job.path ⟨job.document, move.now⟩,
      Function.update state.phase move.call (.replaced job), log⟩ move.call found ↔ found = note := by
    intro found
    unfold Unindexed
    rw [hreads, hself]
    constructor
    · rintro ⟨rfl | ⟨hne, -⟩, hfound⟩
      · rfl
      · exact absurd hfound.symm hne
    · rintro rfl
      exact ⟨.inl rfl, hpath.symm⟩
  have hcases : ∀ call found, Unindexed env ⟨state.vault.writeFile job.path ⟨job.document, move.now⟩,
      Function.update state.phase move.call (.replaced job), log⟩ call found →
        (call = move.call ∧ found = note) ∨ (call ≠ move.call ∧ Unindexed env state call found) := by
    intro call found hfound
    by_cases hcall : call = move.call
    · subst hcall
      exact .inl ⟨rfl, (hmover found).mp hfound⟩
    · exact .inr ⟨hcall, (hother call hcall found).mp hfound⟩
  constructor
  case paths => exact Keyed.nodup_put h.paths
  case ids => exact h.ids
  case rows =>
    intro row hrow
    by_cases hrowpath : row.relativePath = job.path
    · exact .inr ⟨move.call, note, (hmover note).mpr rfl, hpath.trans hrowpath.symm⟩
    · obtain hread' | ⟨call, pending, hpending, hsame⟩ := h.rows row hrow
      · exact .inl ((hreads row).mpr (.inr ⟨hrowpath, hread'⟩))
      · have hcall : call ≠ move.call := by
          rintro rfl
          obtain ⟨-, job', ⟨hjob, -⟩ | hjob⟩ := hpending <;> cases hphase.symm.trans hjob
        exact .inr ⟨call, pending, (hother call hcall pending).mpr hpending, hsame⟩
  case files =>
    intro found hfound
    obtain rfl | ⟨-, hfound⟩ := (hreads found).mp hfound
    · exact .inr ⟨move.call, (hmover found).mpr rfl⟩
    · obtain hrow | ⟨call, hpending⟩ := h.files found hfound
      · exact .inl hrow
      · have hcall : call ≠ move.call := by
          rintro rfl
          obtain ⟨-, job', ⟨hjob, -⟩ | hjob⟩ := hpending <;> cases hphase.symm.trans hjob
        exact .inr ⟨call, (hother call hcall found).mpr hpending⟩
  case replaced =>
    intro call job' hjob
    by_cases hcall : call = move.call
    · subst hcall
      exact ⟨note, (hmover note).mpr rfl⟩
    · simp only [Function.update_of_ne hcall] at hjob
      obtain ⟨found, hfound⟩ := h.replaced call job' hjob
      exact ⟨found, (hother call hcall found).mpr hfound⟩
  case indexed =>
    intro call job' found hjob
    by_cases hcall : call = move.call
    · subst hcall
      simp only [Function.update_self] at hjob
      cases hjob
    · simp only [Function.update_of_ne hcall] at hjob
      exact (hother call hcall found).mpr (h.indexed call job' found hjob)
  case store =>
    intro call found hfound
    obtain ⟨-, rfl⟩ | ⟨-, hfound⟩ := hcases call found hfound
    · rw [hpath]
      exact hstore
    · exact h.store call found hfound
  case apart =>
    intro call other found pending hne hfound hpending
    obtain ⟨rfl, rfl⟩ | ⟨hcall, hfound⟩ := hcases call found hfound
    · obtain ⟨rfl, -⟩ | ⟨hcall, hpending⟩ := hcases other pending hpending
      · exact absurd rfl hne
      · rw [hpath]
        exact hapart other hcall pending hpending
    · obtain ⟨rfl, rfl⟩ | ⟨-, hpending⟩ := hcases other pending hpending
      · obtain ⟨hfoundpath, hfoundid⟩ := hapart call hcall found hfound
        rw [hpath]
        exact ⟨Ne.symm hfoundpath, Ne.symm hfoundid⟩
      · exact h.apart call other found pending hne hfound hpending
  case restoring =>
    intro call path document current text hrestoring
    obtain ⟨-, hrestoring⟩ | ⟨-, hrestoring⟩ := of_update (f := state.phase) (x := .replaced job)
      (fun phase : Phase φ => phase = .restoring path document current text) hrestoring
    · cases hrestoring
    · exact h.restoring call path document current text hrestoring

/-- The row of the file that a call has written. -/
theorem upsertNote_index {note : ObsidianNote φ} (hstore : CanStore vault note.noteId note.relativePath) :
    (vault.upsertNote note).index = Keyed.put ObsidianNote.noteId note vault.index := by
  have hkept : (vault.index.filter fun row => row.relativePath ≠ note.relativePath || row.noteId = note.noteId) = vault.index := by
    rw [List.filter_eq_self]
    intro row hrow
    have hiff := hstore row hrow
    by_cases hid : row.noteId = note.noteId
    · simp [hid]
    · simp [hid, mt hiff.mpr hid]
  unfold Vault.upsertNote
  simp only [hkept]

theorem Synced.index (h : Synced env state) {call : ι} {job : Writing φ} {note : ObsidianNote φ} {next : Phase φ}
    (hphase : state.phase call = .indexed job note) (hnext : Quiet next) (log : List (Replacement ι)) :
    Synced env ⟨state.vault.upsertNote note, Function.update state.phase call next, log⟩ := by
  have hnote := h.indexed call job note hphase
  have hstore := h.store call note hnote
  have hindex := upsertNote_index hstore
  have honly : ∀ found, Unindexed env state call found → found = note := by
    rintro found ⟨-, job', ⟨hjob, -⟩ | hjob⟩
    · cases hphase.symm.trans hjob
    · cases hphase.symm.trans hjob
      rfl
  have hother : ∀ other found, Unindexed env ⟨state.vault.upsertNote note, Function.update state.phase call next, log⟩ other found ↔
      other ≠ call ∧ Unindexed env state other found := by
    intro other found
    by_cases hcall : other = call
    · subst hcall
      simp only [Unindexed, Function.update_self, ne_eq, not_true_eq_false, false_and, iff_false]
      exact fun hfound => hnext.not_pending found hfound.2
    · simp only [Unindexed, Function.update_of_ne hcall, ne_eq, hcall, not_false_eq_true, true_and]
      rfl
  constructor
  case paths => exact h.paths
  case ids =>
    simp only [hindex]
    exact Keyed.nodup_put h.ids
  case rows =>
    intro row hrow
    rw [hindex, Keyed.mem_put] at hrow
    obtain rfl | ⟨hrow, hid⟩ := hrow
    · exact .inl hnote.1
    · obtain hread | ⟨other, pending, hpending, hsame⟩ := h.rows row hrow
      · exact .inl hread
      · refine .inr ⟨other, pending, (hother other pending).mpr ⟨?_, hpending⟩, hsame⟩
        rintro rfl
        obtain rfl := honly pending hpending
        exact hid ((hstore row hrow).mpr hsame.symm)
  case files =>
    intro found hfound
    rw [hindex, Keyed.mem_put]
    obtain hrow | ⟨other, hpending⟩ := h.files found hfound
    · by_cases hid : found.noteId = note.noteId
      · exact .inl (.inl (Reads.eq hfound hnote.1 ((hstore found hrow).mp hid)))
      · exact .inl (.inr ⟨hrow, hid⟩)
    · by_cases hcall : other = call
      · subst hcall
        exact .inl (.inl (honly found hpending))
      · exact .inr ⟨other, (hother other found).mpr ⟨hcall, hpending⟩⟩
  case replaced =>
    intro other job' hjob
    obtain ⟨-, hjob⟩ | ⟨hcall, hjob⟩ := of_update (f := state.phase) (x := next) (fun phase : Phase φ => phase = .replaced job') hjob
    · exact absurd hjob (hnext.1 job')
    · obtain ⟨found, hfound⟩ := h.replaced other job' hjob
      exact ⟨found, (hother other found).mpr ⟨hcall, hfound⟩⟩
  case indexed =>
    intro other job' found hjob
    obtain ⟨-, hjob⟩ | ⟨hcall, hjob⟩ := of_update (f := state.phase) (x := next)
      (fun phase : Phase φ => phase = .indexed job' found) hjob
    · exact absurd hjob (hnext.2.1 job' found)
    · exact (hother other found).mpr ⟨hcall, h.indexed other job' found hjob⟩
  case store =>
    intro other found hfound
    obtain ⟨hcall, hfound⟩ := (hother other found).mp hfound
    obtain ⟨hpaths, hids⟩ := h.apart call other note found hcall hnote hfound
    intro row hrow
    rw [hindex, Keyed.mem_put] at hrow
    obtain rfl | ⟨hrow, -⟩ := hrow
    · exact ⟨fun hid => absurd hid.symm hids, fun hpath => absurd hpath.symm hpaths⟩
    · exact h.store other found hfound row hrow
  case apart =>
    intro first second found pending hne hfound hpending
    exact h.apart first second found pending hne ((hother first found).mp hfound).2 ((hother second pending).mp hpending).2
  case restoring =>
    intro other path document current text hrestoring
    obtain ⟨-, hrestoring⟩ | ⟨-, hrestoring⟩ := of_update (f := state.phase) (x := next)
      (fun phase : Phase φ => phase = .restoring path document current text) hrestoring
    · exact hnext.2.2 path document current text hrestoring
    · exact h.restoring other path document current text hrestoring

/-- What one permitted step keeps. -/
theorem Synced.step (h : Synced env state) {move : Move ι} (hclear : Clear env state move)
    (hstep : interleave env str calls state move = some after) : Synced env after := by
  obtain ⟨⟨effect, next⟩, hadvance, rfl⟩ := Option.map_eq_some_iff.mp hstep
  cases hphase : state.phase move.call with
  | ready =>
    rw [hphase] at hadvance
    cases hadvance
    exact h.quiet (by rw [hphase]; simp [Quiet]) (quiet_begin _ _) _
  | located save =>
    rw [hphase] at hadvance
    cases hadvance
    exact h.quiet (by rw [hphase]; simp [Quiet]) (quiet_prepared _) _
  | writing job =>
    rw [hphase] at hadvance
    cases hadvance
    exact h.write hclear hphase _
  | replaced job =>
    rw [hphase] at hadvance
    cases hadvance
    exact h.readBack hphase _
  | restoring path document current text => exact absurd hphase (h.restoring move.call path document current text)
  | indexed job note =>
    rw [hphase] at hadvance
    cases hadvance
    exact h.index hphase (quiet_afterIndexing job note) _
  | marking answer target =>
    rw [hphase] at hadvance
    cases hadvance
    exact h.quiet (by rw [hphase]; simp [Quiet]) (quiet_marked _ _) _
  | finished answer =>
    rw [hphase] at hadvance
    cases hadvance

/-! ## Whole runs -/

/-- The row of every path is what its file reads as, and no two files read as notes with one identifier. -/
structure Agrees (env : NoteEnvironment φ) (vault : Vault φ) : Prop where
  row : ∀ path, vault.getByPath path = (vault.file path).bind fun file => (noteIndexFromFile env path file).toOption.join
  ids : ∀ note other, Reads env vault note → Reads env vault other → note.noteId = other.noteId →
    note.relativePath = other.relativePath

theorem Projected.agrees (h : Projected env vault) : Agrees env vault where
  row path := by
    have hpaths : (vault.index.map ObsidianNote.relativePath).Nodup := by
      refine List.Nodup.map_on ?_ (List.Nodup.of_map _ h.ids)
      intro note hnote other hother hsame
      exact (h.eq_of_path hnote hother hsame.symm).symm
    ext note
    rw [Vault.getByPath, Keyed.lookup_eq_some hpaths, h.note_iff, Option.bind_eq_some_iff]
    constructor
    · rintro ⟨⟨file, hfile, hread⟩, rfl⟩
      exact ⟨file, hfile, by rw [hread]; rfl⟩
    · rintro ⟨file, hfile, hread⟩
      cases hindexed : noteIndexFromFile env path file with
      | error text =>
        rw [hindexed] at hread
        cases hread
      | ok read =>
        rw [hindexed] at hread
        obtain rfl : read = some note := by simpa [Except.toOption] using hread
        have hpath := (noteIndexFromFile_some hindexed).1
        exact ⟨⟨file, by rw [hpath]; exact hfile, by rw [hpath]; exact hindexed⟩, hpath⟩
  ids note other hnote hother hid := by
    rw [h.eq_of_id ((h.note_iff other).mpr hother) ((h.note_iff note).mpr hnote) hid]

/-- When no call is between its file and its row, the index agrees with the files. -/
theorem concurrent_saves_agree (env : NoteEnvironment φ) (str : NestedText φ) (calls : ι → Call φ) (vault : Vault φ)
    (hstart : Projected env vault) (final : Interleaved ι φ)
    (hrun : Guarded (interleave env str calls) (Clear env) (.start vault) final)
    (hdone : ∀ call, final.phase call = .ready ∨ ∃ answer, final.phase call = .finished answer) :
    Agrees env final.vault := by
  have hsynced : Synced env final := hrun.invariant (Synced.start hstart) fun _ _ _ h hclear hstep => h.step hclear hstep
  refine (hsynced.projected ?_).agrees
  rintro call note ⟨-, job, ⟨hjob, -⟩ | hjob⟩
  · obtain hready | ⟨answer, hfinished⟩ := hdone call
    · cases hready.symm.trans hjob
    · cases hfinished.symm.trans hjob
  · obtain hready | ⟨answer, hfinished⟩ := hdone call
    · cases hready.symm.trans hjob
    · cases hfinished.symm.trans hjob

/-! ## Two saves on one path -/

def skillSave (body : String) : ObsidianSaveNote Unit where
  title := "a"
  body := body
  alexandriaType := .skill
  noteId := some "a"
  relativePath := some "a.md"
  tags := []
  status := "active"
  project := none
  source := "mcp"
  frontmatter := []
  expectedContentHash := none

def twoSaves : Bool → Call Unit
  | false => .save (skillSave "one") "n"
  | true => .save (skillSave "two") "m"

def movesOf (call : Bool) (n : ℕ) : List (Move Bool) := List.replicate n ⟨call, "t"⟩

def Phase.isFinished : Phase φ → Bool
  | .finished _ => true
  | _ => false

/-- No file of the phase waits for its row. -/
def Phase.isSettled : Phase φ → Bool
  | .replaced _ => false
  | .indexed _ _ => false
  | _ => true

theorem finished_of_isFinished {phase : Phase φ} (h : phase.isFinished = true) : ∃ answer, phase = .finished answer := by
  cases phase with
  | finished answer => exact ⟨answer, rfl⟩
  | _ => cases h

/-- A row that is written after the file of another save describes the replaced text. -/
theorem interleaved_saves_disagree : ∃ final : Interleaved Bool Unit,
    Runs (interleave plainEnvironment noNestedText twoSaves) (.start Vault.empty) final ∧
      (∀ call, ∃ answer, final.phase call = .finished answer) ∧ ¬ Agrees plainEnvironment final.vault := by
  have hend : ((exec (interleave plainEnvironment noNestedText twoSaves) (.start Vault.empty)
      (movesOf false 4 ++ movesOf true 5 ++ movesOf false 1)).map fun final =>
        (((final.phase false).isFinished, (final.phase true).isFinished), (final.vault.getByPath "a.md").map (·.body),
          ((final.vault.file "a.md").bind fun file =>
            (noteIndexFromFile plainEnvironment "a.md" file).toOption.join).map (·.body))) =
      some ((true, true), some "\none\n", some "\ntwo\n") := by decide +kernel
  obtain ⟨final, hfinal, hend⟩ := Option.map_eq_some_iff.mp hend
  obtain ⟨hfinished, hbodies⟩ := Prod.ext_iff.mp hend
  obtain ⟨hfirst, hsecond⟩ := Prod.ext_iff.mp hfinished
  obtain ⟨hrow, hfile⟩ := Prod.ext_iff.mp hbodies
  refine ⟨final, Runs.of_exec _ hfinal, ?_, ?_⟩
  · intro call
    cases call with
    | false => exact finished_of_isFinished hfirst
    | true => exact finished_of_isFinished hsecond
  · intro hagrees
    simp only at hrow hfile
    rw [hagrees.row, hfile] at hrow
    exact absurd hrow (by decide)

instance (vault : Vault φ) (noteId path : String) : Decidable (CanStore vault noteId path) := by
  unfold CanStore
  infer_instance

/-- The check of the condition for two saves: the other one has no file that is not indexed. -/
def clearCheck (state : Interleaved Bool Unit) (move : Move Bool) : Bool :=
  match state.phase move.call with
  | .writing job =>
    ((noteIndexFromFile plainEnvironment job.path ⟨job.document, move.now⟩).toOption.join.any fun note =>
      decide (CanStore state.vault note.noteId job.path)) && (state.phase !move.call).isSettled
  | _ => true

theorem clear_of_check {state : Interleaved Bool Unit} {move : Move Bool} (h : clearCheck state move = true) :
    Clear plainEnvironment state move := by
  intro job hjob
  simp only [clearCheck, hjob, Bool.and_eq_true, Option.any_eq_true, decide_eq_true_eq] at h
  obtain ⟨⟨note, hread, hstore⟩, hsettled⟩ := h
  refine ⟨note, ?_, hstore, ?_⟩
  · cases hindexed : noteIndexFromFile plainEnvironment job.path ⟨job.document, move.now⟩ with
    | error text =>
      rw [hindexed] at hread
      cases hread
    | ok read =>
      rw [hindexed] at hread
      simpa [Except.toOption] using hread
  · intro other hother pending hpending
    obtain rfl : other = !move.call := Bool.eq_not_of_ne hother
    obtain ⟨-, job', ⟨hphase, -⟩ | hphase⟩ := hpending <;> rw [hphase] at hsettled <;> cases hsettled

/-- Two saves that look first and write one after the other. -/
theorem concurrent_saves_agree_in_turn : ∃ final : Interleaved Bool Unit,
    (final.vault.getByPath "a.md").map (·.body) = some "\ntwo\n" ∧ Agrees plainEnvironment final.vault := by
  have hend : ((exec (checked (interleave plainEnvironment noNestedText twoSaves) clearCheck) (.start Vault.empty)
      (movesOf false 2 ++ movesOf true 2 ++ movesOf false 3 ++ movesOf true 3)).map fun final =>
        (((final.phase false).isFinished, (final.phase true).isFinished), (final.vault.getByPath "a.md").map (·.body))) =
      some ((true, true), some "\ntwo\n") := by decide +kernel
  obtain ⟨final, hfinal, hend⟩ := Option.map_eq_some_iff.mp hend
  obtain ⟨hfinished, hrow⟩ := Prod.ext_iff.mp hend
  obtain ⟨hfirst, hsecond⟩ := Prod.ext_iff.mp hfinished
  refine ⟨final, hrow, concurrent_saves_agree plainEnvironment noNestedText twoSaves Vault.empty
    (projected_empty plainEnvironment) final (Guarded.of_exec (fun _ _ => clear_of_check) _ hfinal) ?_⟩
  intro call
  cases call with
  | false => exact .inr (finished_of_isFinished hfirst)
  | true => exact .inr (finished_of_isFinished hsecond)

end Alexandria.Notes
