import Alexandria.Foundations.Keyed
import Alexandria.Foundations.Run
import Alexandria.Notes.Service

/-! # The Context change log

An upsert writes one row of the note index and, in the same transaction, appends what it observed of a Context to the
change log. What it observed is a comparison with the row of the same id as it was before the write: whether there was
one, its status and its content hash. A write that fails leaves both as they were. Rows go away when an upsert takes
over their path and when a scan no longer finds their file; the log says nothing of either.
-/

namespace Alexandria.Index
set_option autoImplicit false

open Notes (AlexandriaNoteType)

/-! ## `bytes.fromhex` -/

def hexValue (c : Char) : Option ℕ :=
  if '0' ≤ c ∧ c ≤ '9' then some (c.toNat - '0'.toNat)
  else if 'a' ≤ c ∧ c ≤ 'f' then some (c.toNat - 'a'.toNat + 10)
  else if 'A' ≤ c ∧ c ≤ 'F' then some (c.toNat - 'A'.toNat + 10)
  else none

def isAsciiSpace (c : Char) : Bool := c ∈ [' ', '\t', '\n', '\r', '\x0b', '\x0c']

/-- Two digits make a byte; blanks may stand between bytes and not inside one. -/
def bytesFromHex : List Char → Option (List UInt8)
  | [] => some []
  | [c] => if isAsciiSpace c then some [] else none
  | c :: d :: rest =>
    if isAsciiSpace c then bytesFromHex (d :: rest)
    else do
      let top ← hexValue c
      let bot ← hexValue d
      let bytes ← bytesFromHex rest
      return UInt8.ofNat (16 * top + bot) :: bytes

/-! ## The rows of the index -/

/-- `ObsidianNoteIndex` -/
structure ObsidianNoteIndex where
  noteId : String
  relativePath : String
  alexandriaType : AlexandriaNoteType
  status : String
  contentHash : String

/-- `ObsidianFileORM` -/
structure ObsidianFile where
  noteId : String
  relativePath : String
  alexandriaType : String
  status : String
  contentHash : String
  deriving DecidableEq

def ObsidianNoteIndex.row (payload : ObsidianNoteIndex) : ObsidianFile where
  noteId := payload.noteId
  relativePath := payload.relativePath
  alexandriaType := payload.alexandriaType.value
  status := payload.status
  contentHash := payload.contentHash

/-- The table, with its primary key and its unique constraint. -/
structure ObsidianFiles where
  rows : List ObsidianFile
  ids : (rows.map ObsidianFile.noteId).Nodup
  paths : (rows.map ObsidianFile.relativePath).Nodup

namespace ObsidianFiles

def empty : ObsidianFiles := ⟨[], List.nodup_nil, List.nodup_nil⟩

def get (files : ObsidianFiles) (noteId : String) : Option ObsidianFile :=
  Keyed.lookup ObsidianFile.noteId noteId files.rows

/-- `get_obsidian_file_by_path` -/
def byPath (files : ObsidianFiles) (relativePath : String) : Option ObsidianFile :=
  Keyed.lookup ObsidianFile.relativePath relativePath files.rows

def keep (files : ObsidianFiles) (kept : ObsidianFile → Bool) : ObsidianFiles where
  rows := files.rows.filter kept
  ids := files.ids.sublist (List.filter_sublist.map _)
  paths := files.paths.sublist (List.filter_sublist.map _)

def delete (files : ObsidianFiles) (noteId : String) : ObsidianFiles := files.keep fun row => row.noteId ≠ noteId

/-- The row that holds the path goes when another note is written there. -/
def takeOver (files : ObsidianFiles) (payload : ObsidianNoteIndex) : ObsidianFiles :=
  match files.byPath payload.relativePath with
  | some pathModel => if pathModel.noteId ≠ payload.noteId then files.delete pathModel.noteId else files
  | none => files

theorem takeOver_free (files : ObsidianFiles) (payload : ObsidianNoteIndex) :
    ∀ row ∈ (files.takeOver payload).rows, row.relativePath = payload.row.relativePath → row.noteId = payload.row.noteId := by
  intro row hrow hpath
  unfold takeOver at hrow
  cases hheld : files.byPath payload.relativePath with
  | none =>
    rw [hheld] at hrow
    exact absurd hpath (Keyed.lookup_eq_none.mp hheld row hrow)
  | some pathModel =>
    simp only [hheld] at hrow
    obtain ⟨hmem, hkey⟩ := Keyed.lookup_mem hheld
    have single : ∀ r ∈ files.rows, r.relativePath = payload.relativePath → r = pathModel := by
      intro r hr hrp
      exact List.inj_on_of_nodup_map files.paths hr hmem (hrp.trans hkey.symm)
    by_cases hid : pathModel.noteId = payload.noteId
    · rw [if_neg (not_not_intro hid)] at hrow
      rw [single row hrow hpath]
      exact hid
    · rw [if_pos hid] at hrow
      obtain ⟨hin, hne⟩ := List.mem_filter.mp hrow
      rw [single row hin hpath] at hne
      simp at hne

/-- Write the row under its id; no other row holds its path. -/
def put (files : ObsidianFiles) (row : ObsidianFile)
    (free : ∀ r ∈ files.rows, r.relativePath = row.relativePath → r.noteId = row.noteId) : ObsidianFiles where
  rows := Keyed.put ObsidianFile.noteId row files.rows
  ids := Keyed.nodup_put files.ids
  paths := Keyed.nodup_map_put files.ids files.paths free

def write (files : ObsidianFiles) (payload : ObsidianNoteIndex) : ObsidianFiles :=
  (files.takeOver payload).put payload.row (files.takeOver_free payload)

theorem get_keep (files : ObsidianFiles) (kept : ObsidianFile → Bool) {noteId : String} {row : ObsidianFile}
    (h : (files.keep kept).get noteId = some row) : files.get noteId = some row := by
  obtain ⟨hmem, hkey⟩ := Keyed.lookup_mem h
  exact (Keyed.lookup_eq_some files.ids).mpr ⟨(List.mem_filter.mp hmem).1, hkey⟩

theorem get_takeOver (files : ObsidianFiles) (payload : ObsidianNoteIndex) {noteId : String} {row : ObsidianFile}
    (h : (files.takeOver payload).get noteId = some row) : files.get noteId = some row := by
  unfold takeOver at h
  split at h
  · split at h
    · exact get_keep files _ h
    · exact h
  · exact h

@[simp] theorem get_write_self (files : ObsidianFiles) (payload : ObsidianNoteIndex) :
    (files.write payload).get payload.noteId = some payload.row := by
  unfold get write put
  rw [Keyed.lookup_put]
  exact if_pos rfl

theorem get_write_of_ne (files : ObsidianFiles) (payload : ObsidianNoteIndex) {noteId : String} {row : ObsidianFile}
    (hne : noteId ≠ payload.noteId) (h : (files.write payload).get noteId = some row) :
    files.get noteId = some row := by
  unfold get write put at h
  have hrow : payload.row.noteId ≠ noteId := Ne.symm hne
  rw [Keyed.lookup_put, if_neg hrow] at h
  exact get_takeOver files payload h

end ObsidianFiles

/-! ## The log -/

inductive ContextChangeKind
  | created
  | updated
  | superseded
  | archived
  | deleted
  deriving DecidableEq

/-- `_CHANGE_KINDS` -/
def changeKinds : List (String × ContextChangeKind) :=
  [("created", .created), ("updated", .updated), ("superseded", .superseded), ("archived", .archived),
    ("deleted", .deleted)]

structure ContextChange where
  sequence : ℕ
  contextId : String
  changeKind : ContextChangeKind
  contentHash : List UInt8
  recordedAt : ℕ
  deriving DecidableEq

/-- The records in the order in which they were appended, and the number the last one was given. -/
structure ContextChangeLog where
  highWaterSeq : ℕ
  changes : List ContextChange
  ordered : changes.Pairwise fun a b => a.sequence < b.sequence
  bounded : ∀ change ∈ changes, change.sequence ≤ highWaterSeq

namespace ContextChangeLog

def empty : ContextChangeLog := ⟨0, [], List.Pairwise.nil, by simp⟩

/-- `record_context_change` -/
def recordContextChange (log : ContextChangeLog) (contextId : String) (changeKind : ContextChangeKind)
    (contentHash : List UInt8) (recordedAt : ℕ) : ContextChangeLog where
  highWaterSeq := log.highWaterSeq + 1
  changes := log.changes ++ [⟨log.highWaterSeq + 1, contextId, changeKind, contentHash, recordedAt⟩]
  ordered := by
    refine List.pairwise_append.mpr ⟨log.ordered, List.pairwise_singleton _ _, ?_⟩
    intro a ha b hb
    rw [List.mem_singleton.mp hb]
    exact Nat.lt_succ_of_le (log.bounded a ha)
  bounded := by
    intro change hchange
    obtain hold | hnew := List.mem_append.mp hchange
    · exact Nat.le_succ_of_le (log.bounded change hold)
    · rw [List.mem_singleton.mp hnew]

/-- The record of the Context with the greatest number. -/
def MostRecent (log : ContextChangeLog) (contextId : String) (change : ContextChange) : Prop :=
  change ∈ log.changes ∧ change.contextId = contextId ∧
    ∀ other ∈ log.changes, other.contextId = contextId → other.sequence ≤ change.sequence

/-- An appended record is the most recent one of its Context, and of the others the most recent one is as it was. -/
theorem mostRecent_record (log : ContextChangeLog) (contextId : String) (changeKind : ContextChangeKind)
    (contentHash : List UInt8) (recordedAt : ℕ) :
    (log.recordContextChange contextId changeKind contentHash recordedAt).MostRecent contextId
      ⟨log.highWaterSeq + 1, contextId, changeKind, contentHash, recordedAt⟩ := by
  refine ⟨List.mem_append_right _ (List.mem_singleton_self _), rfl, ?_⟩
  intro other hother _
  exact (log.recordContextChange contextId changeKind contentHash recordedAt).bounded other hother

theorem MostRecent.record {log : ContextChangeLog} {contextId other : String} {change : ContextChange}
    (h : log.MostRecent contextId change) (hne : other ≠ contextId) (changeKind : ContextChangeKind)
    (contentHash : List UInt8) (recordedAt : ℕ) :
    (log.recordContextChange other changeKind contentHash recordedAt).MostRecent contextId change := by
  obtain ⟨hmem, hid, hmax⟩ := h
  refine ⟨List.mem_append_left _ hmem, hid, ?_⟩
  intro r hr hrid
  obtain hold | hnew := List.mem_append.mp hr
  · exact hmax r hold hrid
  · rw [List.mem_singleton.mp hnew] at hrid
    exact absurd hrid hne

end ContextChangeLog

/-! ## The upsert -/

inductive IndexWriteFailure
  | nonHexadecimalHash
  | unknownChangeKind (changeKind : String)

/-- The observer the store is built with. -/
abbrev ChangeRecorder :=
  ContextChangeLog → String → String → List UInt8 → ℕ → Except IndexWriteFailure ContextChangeLog

/-- `record_obsidian_context_change` -/
def recordObsidianContextChange : ChangeRecorder := fun log contextId changeKind contentHash recordedAt =>
  match changeKinds.lookup changeKind with
  | none => .error (.unknownChangeKind changeKind)
  | some kind => .ok (log.recordContextChange contextId kind contentHash recordedAt)

/-- `_ContextChangeObservation` -/
structure ContextChangeObservation where
  changeKind : String
  contentHash : List UInt8

/-- `_observed_context_change` -/
def observedContextChange (payload : ObsidianNoteIndex) (existed : Bool) (previousStatus previousContentHash : Option String) :
    Except IndexWriteFailure (Option ContextChangeObservation) :=
  match bytesFromHex payload.contentHash.toList with
  | none => .error .nonHexadecimalHash
  | some contentHash =>
    if ¬existed then .ok (some ⟨"created", contentHash⟩)
    else if previousStatus ≠ some payload.status ∧ payload.status = "superseded" then
      .ok (some ⟨"superseded", contentHash⟩)
    else if previousStatus ≠ some payload.status ∧ payload.status = "archived" then .ok (some ⟨"archived", contentHash⟩)
    else if some payload.contentHash = previousContentHash then .ok none
    else .ok (some ⟨"updated", contentHash⟩)

/-- `_record_context_change` -/
def recordIfObserved (recorder : Option ChangeRecorder) (log : ContextChangeLog) (payload : ObsidianNoteIndex) (existed : Bool)
    (previousStatus previousContentHash : Option String) (recordedAt : ℕ) : Except IndexWriteFailure ContextChangeLog :=
  match recorder with
  | none => .ok log
  | some record =>
    if payload.alexandriaType ≠ .context then .ok log
    else do
      match ← observedContextChange payload existed previousStatus previousContentHash with
      | none => return log
      | some observation => record log payload.noteId observation.changeKind observation.contentHash recordedAt

structure IndexState where
  files : ObsidianFiles
  log : ContextChangeLog

def IndexState.empty : IndexState := ⟨.empty, .empty⟩

/-- `_upsert_note`. What it reads of the row it is about to change is read before the first write. -/
def IndexState.upsertNote (recorder : Option ChangeRecorder) (s : IndexState) (payload : ObsidianNoteIndex) (now : ℕ) :
    Except IndexWriteFailure IndexState := do
  let model := s.files.get payload.noteId
  let log ← recordIfObserved recorder s.log payload model.isSome (model.map ObsidianFile.status)
    (model.map ObsidianFile.contentHash) now
  return { files := s.files.write payload, log }

/-- `mark_documents_stale` -/
def IndexState.markDocumentsStale (s : IndexState) (relativePaths : List String) : IndexState :=
  { s with files := s.files.keep fun row => row.relativePath ∉ relativePaths }

/-! ## Runs -/

inductive IndexWrite
  | upsert (payload : ObsidianNoteIndex) (now : ℕ)
  | discard (relativePaths : List String)

/-- A write that raises is rolled back, so it is no step. -/
def IndexWrite.step (recorder : Option ChangeRecorder) (s : IndexState) : IndexWrite → Option IndexState
  | .upsert payload now => (s.upsertNote recorder payload now).toOption
  | .discard relativePaths => some (s.markDocumentsStale relativePaths)

section Observed
variable {s s' : IndexState} {payload : ObsidianNoteIndex} {now : ℕ}

/-- The statuses of which the log has a kind: it records a move into them, whatever it comes from. -/
def transitionKind (status : String) : Option ContextChangeKind :=
  if status = "superseded" then some .superseded else if status = "archived" then some .archived else none

/-- The kind of record an upsert of a Context leads to, from the row as it was. -/
def changeOf (model : Option ObsidianFile) (payload : ObsidianNoteIndex) : Option ContextChangeKind :=
  match model with
  | none => some .created
  | some row =>
    if row.status ≠ payload.status ∧ (transitionKind payload.status).isSome then transitionKind payload.status
    else if row.contentHash = payload.contentHash then none
    else some .updated

def ContextChangeLog.append (log : ContextChangeLog) (contextId : String) (contentHash : List UInt8) (recordedAt : ℕ) :
    Option ContextChangeKind → ContextChangeLog
  | none => log
  | some kind => log.recordContextChange contextId kind contentHash recordedAt

/-- The observer is never handed a kind it does not know, and a Context whose hash is hexadecimal is always written. -/
theorem recordIfObserved_context {log : ContextChangeLog} {contentHash : List UInt8} (model : Option ObsidianFile)
    (hcontext : payload.alexandriaType = .context) (hhash : bytesFromHex payload.contentHash.toList = some contentHash) :
    recordIfObserved (some recordObsidianContextChange) log payload model.isSome (model.map ObsidianFile.status)
      (model.map ObsidianFile.contentHash) now =
      .ok (log.append payload.noteId contentHash now (changeOf model payload)) := by
  unfold recordIfObserved observedContextChange
  simp only [hcontext, hhash]
  cases model with
  | none => rfl
  | some row =>
    have hprior : (some row.status ≠ some payload.status) = (row.status ≠ payload.status) := by simp
    have hsame : (some payload.contentHash = some row.contentHash) = (row.contentHash = payload.contentHash) := by
      simp [eq_comm]
    simp only [Option.isSome_some, Option.map_some, hprior, hsame, not_true_eq_false, if_false, ne_eq]
    by_cases hstatus : row.status = payload.status
    · by_cases hhashes : row.contentHash = payload.contentHash
      · simp [changeOf, hstatus, hhashes]
        rfl
      · simp [changeOf, hstatus, hhashes]
        rfl
    · by_cases hsuperseded : payload.status = "superseded"
      · simp [changeOf, transitionKind, hsuperseded, hsuperseded ▸ hstatus]
        rfl
      · by_cases harchived : payload.status = "archived"
        · simp [changeOf, transitionKind, harchived, harchived ▸ hstatus]
          rfl
        · by_cases hhashes : row.contentHash = payload.contentHash
          · simp [changeOf, transitionKind, hsuperseded, harchived, hhashes]
            rfl
          · simp [changeOf, transitionKind, hsuperseded, harchived, hhashes]
            rfl

/-- Of a note that is no Context nothing is recorded. -/
theorem recordIfObserved_other {log : ContextChangeLog} (model : Option ObsidianFile)
    (hother : payload.alexandriaType ≠ .context) :
    recordIfObserved (some recordObsidianContextChange) log payload model.isSome (model.map ObsidianFile.status)
      (model.map ObsidianFile.contentHash) now = .ok log := if_pos hother

/-- What an upsert leaves. -/
theorem upsertNote_cases (h : s.upsertNote (some recordObsidianContextChange) payload now = .ok s') :
    s'.files = s.files.write payload ∧
      ((payload.alexandriaType ≠ .context ∧ s'.log = s.log) ∨
        (payload.alexandriaType = .context ∧ ∃ contentHash, bytesFromHex payload.contentHash.toList = some contentHash ∧
          s'.log = s.log.append payload.noteId contentHash now (changeOf (s.files.get payload.noteId) payload))) := by
  obtain ⟨log, hlog, hrest⟩ := Keyed.bind_eq_ok h
  cases hrest
  refine ⟨rfl, ?_⟩
  by_cases hcontext : payload.alexandriaType = .context
  · refine .inr ⟨hcontext, ?_⟩
    cases hhash : bytesFromHex payload.contentHash.toList with
    | none =>
      unfold recordIfObserved observedContextChange at hlog
      simp only [hcontext, hhash] at hlog
      cases hlog
    | some contentHash =>
      rw [recordIfObserved_context (s.files.get payload.noteId) hcontext hhash] at hlog
      cases hlog
      exact ⟨contentHash, rfl, rfl⟩
  · refine .inl ⟨hcontext, ?_⟩
    rw [recordIfObserved_other _ hcontext] at hlog
    cases hlog
    rfl

/-- Of another Context an upsert changes nothing in the log. -/
theorem mostRecent_append {log : ContextChangeLog} {contextId other : String} {change : ContextChange}
    (h : log.MostRecent contextId change) (hne : other ≠ contextId) (contentHash : List UInt8)
    (kind : Option ContextChangeKind) : (log.append other contentHash now kind).MostRecent contextId change := by
  cases kind with
  | none => exact h
  | some kind => exact h.record hne kind contentHash now

/-! ## What the log is held to -/

/-- The last record of the Context carries the content hash of its row. -/
def Carries (s : IndexState) (contextId : String) : Prop :=
  ∃ row change, s.files.get contextId = some row ∧ s.log.MostRecent contextId change ∧
    bytesFromHex row.contentHash.toList = some change.contentHash

/-- So it is for every Context that is in the index. -/
def Tracked (contextId : String) (s : IndexState) : Prop :=
  ∀ row, s.files.get contextId = some row → row.alexandriaType = AlexandriaNoteType.context.value → Carries s contextId

/-- The upsert makes a Context of a row that was none, without a change the log takes note of. -/
def Converts (s : IndexState) (payload : ObsidianNoteIndex) : Prop :=
  payload.alexandriaType = .context ∧ ∃ row, s.files.get payload.noteId = some row ∧
    row.alexandriaType ≠ AlexandriaNoteType.context.value ∧ changeOf (some row) payload = none

/-- The write makes no Context of the note in that way. -/
def KeepsTypes (contextId : String) (s : IndexState) : IndexWrite → Prop
  | .upsert payload _ => payload.noteId = contextId → ¬ Converts s payload
  | .discard _ => True

theorem noteType_value_inj {a b : AlexandriaNoteType} (h : a.value = b.value) : a = b := by
  cases a <;> cases b <;> first | rfl | exact absurd h (by decide)

theorem changeOf_some (row : ObsidianFile) (payload : ObsidianNoteIndex) : changeOf (some row) payload =
    if row.status ≠ payload.status ∧ (transitionKind payload.status).isSome then transitionKind payload.status
    else if row.contentHash = payload.contentHash then none
    else some .updated := rfl

theorem changeOf_none {row : ObsidianFile} (h : changeOf (some row) payload = none) :
    row.contentHash = payload.contentHash := by
  rw [changeOf_some] at h
  by_cases hmove : row.status ≠ payload.status ∧ (transitionKind payload.status).isSome
  · rw [if_pos hmove] at h
    rw [h] at hmove
    simp at hmove
  · rw [if_neg hmove] at h
    by_contra hne
    rw [if_neg hne] at h
    cases h

/-- One upsert: a Context that the write does not convert unnoticed has its hash in the log afterwards. -/
theorem Tracked.upsert {contextId : String} (h : Tracked contextId s)
    (hkeeps : payload.noteId = contextId → ¬ Converts s payload)
    (hstep : s.upsertNote (some recordObsidianContextChange) payload now = .ok s') : Tracked contextId s' := by
  obtain ⟨hfiles, hlog⟩ := upsertNote_cases hstep
  intro row hrow htype
  by_cases hid : payload.noteId = contextId
  · subst hid
    rw [hfiles, ObsidianFiles.get_write_self] at hrow
    cases hrow
    have hcontext : payload.alexandriaType = .context := noteType_value_inj htype
    obtain ⟨hnot, -⟩ | ⟨-, contentHash, hhash, hlog⟩ := hlog
    · exact absurd hcontext hnot
    · cases hkind : changeOf (s.files.get payload.noteId) payload with
      | some kind =>
        rw [hkind] at hlog
        refine ⟨payload.row, ⟨s.log.highWaterSeq + 1, payload.noteId, kind, contentHash, now⟩,
          by rw [hfiles, ObsidianFiles.get_write_self], ?_, hhash⟩
        rw [hlog]
        exact s.log.mostRecent_record payload.noteId kind contentHash now
      | none =>
        rw [hkind] at hlog
        cases hmodel : s.files.get payload.noteId with
        | none =>
          rw [hmodel] at hkind
          cases hkind
        | some prior =>
          rw [hmodel] at hkind
          have hprior : prior.alexandriaType = AlexandriaNoteType.context.value := by
            by_contra hne
            exact hkeeps rfl ⟨hcontext, prior, hmodel, hne, hkind⟩
          obtain ⟨stored, change, hstored, hrecent, hcarried⟩ := h prior hmodel hprior
          rw [hmodel] at hstored
          cases hstored
          rw [changeOf_none hkind] at hcarried
          refine ⟨payload.row, change, by rw [hfiles, ObsidianFiles.get_write_self], ?_, hcarried⟩
          rw [hlog]
          exact hrecent
  · rw [hfiles] at hrow
    have hbefore := s.files.get_write_of_ne payload (Ne.symm hid) hrow
    obtain ⟨stored, change, hstored, hrecent, hcarried⟩ := h row hbefore htype
    rw [hbefore] at hstored
    cases hstored
    refine ⟨row, change, by rw [hfiles]; exact hrow, ?_, hcarried⟩
    obtain ⟨-, hlog⟩ | ⟨-, contentHash, -, hlog⟩ := hlog
    · rw [hlog]
      exact hrecent
    · rw [hlog]
      exact mostRecent_append hrecent hid contentHash _

theorem Tracked.discard {contextId : String} (h : Tracked contextId s) (relativePaths : List String) :
    Tracked contextId (s.markDocumentsStale relativePaths) := by
  intro row hrow htype
  obtain ⟨stored, change, hstored, hrecent, hcarried⟩ := h row (s.files.get_keep _ hrow) htype
  rw [s.files.get_keep _ hrow] at hstored
  cases hstored
  exact ⟨row, change, hrow, hrecent, hcarried⟩

/-- A run from the empty index. -/
theorem tracked_of_run {contextId : String} (h : Run.Guarded (IndexWrite.step (some recordObsidianContextChange))
    (KeepsTypes contextId) .empty s) : Tracked contextId s := by
  refine h.invariant ?_ ?_
  · intro row hrow
    cases hrow
  · intro a write b ha hkeeps hstep
    cases write with
    | upsert payload now =>
      cases hresult : a.upsertNote (some recordObsidianContextChange) payload now with
      | error failure =>
        simp only [IndexWrite.step, hresult, Except.toOption] at hstep
        cases hstep
      | ok t =>
        simp only [IndexWrite.step, hresult, Except.toOption, Option.some.injEq] at hstep
        subst hstep
        exact ha.upsert hkeeps hresult
    | discard relativePaths =>
      cases hstep
      exact ha.discard relativePaths

/-- The change the upsert is about has a record, of the given kind and with the content hash of the row. -/
def Recorded (s s' : IndexState) (payload : ObsidianNoteIndex) (kind : ContextChangeKind) : Prop :=
  ∃ change, s'.log.MostRecent payload.noteId change ∧ change ∉ s.log.changes ∧ change.changeKind = kind ∧
    bytesFromHex payload.contentHash.toList = some change.contentHash

theorem recorded_of_change {kind : ContextChangeKind} (hcontext : payload.alexandriaType = .context)
    (hkind : changeOf (s.files.get payload.noteId) payload = some kind)
    (hstep : s.upsertNote (some recordObsidianContextChange) payload now = .ok s') : Recorded s s' payload kind := by
  obtain ⟨-, ⟨hnot, -⟩ | ⟨-, contentHash, hhash, hlog⟩⟩ := upsertNote_cases hstep
  · exact absurd hcontext hnot
  · rw [hkind] at hlog
    refine ⟨⟨s.log.highWaterSeq + 1, payload.noteId, kind, contentHash, now⟩, ?_, ?_, rfl, hhash⟩
    · rw [hlog]
      exact s.log.mostRecent_record payload.noteId kind contentHash now
    · intro hold
      have hle := s.log.bounded _ hold
      dsimp only at hle
      omega

theorem log_of_no_change (hkind : changeOf (s.files.get payload.noteId) payload = none)
    (hstep : s.upsertNote (some recordObsidianContextChange) payload now = .ok s') : s'.log = s.log := by
  obtain ⟨-, ⟨-, hlog⟩ | ⟨-, contentHash, -, hlog⟩⟩ := upsertNote_cases hstep
  · exact hlog
  · rw [hkind] at hlog
    exact hlog

/-- After the upsert of a Context: its last record carries the hash of its row, unless a row of it was made a Context
without a change the log takes note of; a move into a status the log knows is recorded as that; any other change of the
status is in the log exactly when the content hash changed too; and a write that changes nothing records nothing. -/
theorem change_log_tracks_index (hstep : s.upsertNote (some recordObsidianContextChange) payload now = .ok s')
    (hcontext : payload.alexandriaType = .context) :
    (Run.Guarded (IndexWrite.step (some recordObsidianContextChange)) (KeepsTypes payload.noteId) .empty s →
        ¬ Converts s payload → Carries s' payload.noteId) ∧
      (s.files.get payload.noteId = none → Recorded s s' payload .created) ∧
      ∀ row, s.files.get payload.noteId = some row →
        (∀ kind, row.status ≠ payload.status → transitionKind payload.status = some kind → Recorded s s' payload kind) ∧
        ((row.status = payload.status ∨ transitionKind payload.status = none) →
          (row.contentHash ≠ payload.contentHash → Recorded s s' payload .updated) ∧
          (row.alexandriaType = payload.alexandriaType.value → row.contentHash = payload.contentHash →
            s'.log = s.log)) := by
  refine ⟨?_, ?_, ?_⟩
  · intro hrun hkeeps
    have htracked := (tracked_of_run hrun).upsert (fun _ => hkeeps) hstep
    refine htracked payload.row ?_ (congrArg AlexandriaNoteType.value hcontext)
    rw [(upsertNote_cases hstep).1, ObsidianFiles.get_write_self]
  · intro hnone
    refine recorded_of_change hcontext ?_ hstep
    rw [hnone]
    rfl
  · intro row hrow
    refine ⟨?_, ?_⟩
    · intro kind hmoved hkind
      refine recorded_of_change hcontext ?_ hstep
      rw [hrow, changeOf_some, hkind, if_pos ⟨hmoved, rfl⟩]
    · intro hstays
      have hmove : ¬ (row.status ≠ payload.status ∧ (transitionKind payload.status).isSome) := by
        obtain hsame | hnone := hstays
        · exact fun hmoved => hmoved.1 hsame
        · rw [hnone]
          simp
      refine ⟨?_, ?_⟩
      · intro hhash
        refine recorded_of_change hcontext ?_ hstep
        rw [hrow, changeOf_some, if_neg hmove, if_neg hhash]
      · intro _ hhash
        refine log_of_no_change ?_ hstep
        rw [hrow, changeOf_some, if_neg hmove, if_pos hhash]

end Observed

/-! ## Runs on one note -/

/-- The note as a given type, with a given status. -/
def sampleNote (alexandriaType : AlexandriaNoteType) (status : String) : ObsidianNoteIndex :=
  ⟨"n", "n.md", alexandriaType, status, "0a"⟩

/-- The first upsert of a note is a run. -/
theorem run_of_first {s : IndexState} {payload : ObsidianNoteIndex} {now : ℕ}
    (h : IndexState.empty.upsertNote (some recordObsidianContextChange) payload now = .ok s) :
    Run.Guarded (IndexWrite.step (some recordObsidianContextChange)) (KeepsTypes payload.noteId) .empty s := by
  refine Run.Guarded.refl.next (l := .upsert payload now) ?_ ?_
  · intro _ hconverts
    obtain ⟨-, row, hrow, -⟩ := hconverts
    cases hrow
  · simp [IndexWrite.step, h, Except.toOption]

/-- A Context is archived: the last record says so and carries the hash of the row. -/
theorem change_log_tracks_archived :
    ∃ s s', IndexState.empty.upsertNote (some recordObsidianContextChange) (sampleNote .context "active") 0 = .ok s ∧
      s.upsertNote (some recordObsidianContextChange) (sampleNote .context "archived") 1 = .ok s' ∧ Carries s' "n" ∧
      Recorded s s' (sampleNote .context "archived") .archived := by
  obtain ⟨s, s', hfirst, hsecond⟩ : ∃ s s',
      IndexState.empty.upsertNote (some recordObsidianContextChange) (sampleNote .context "active") 0 = .ok s ∧
        s.upsertNote (some recordObsidianContextChange) (sampleNote .context "archived") 1 = .ok s' :=
    ⟨_, _, rfl, rfl⟩
  have hrow : s.files.get "n" = some (sampleNote .context "active").row := by
    rw [(upsertNote_cases hfirst).1]
    exact ObsidianFiles.get_write_self _ (sampleNote .context "active")
  have hrun := run_of_first hfirst
  have htracks := change_log_tracks_index hsecond rfl
  refine ⟨s, s', hfirst, hsecond, htracks.1 hrun ?_, ?_⟩
  · rintro ⟨-, row, hstored, htype, -⟩
    cases hrow.symm.trans hstored
    exact htype rfl
  · exact (htracks.2.2 _ hrow).1 .archived (by decide) rfl

/-- An archived Context becomes active again, and a prompt becomes a Context: the log stays as it was, in the second run
without a single record. -/
theorem reactivation_unrecorded :
    (∃ s s', IndexState.empty.upsertNote (some recordObsidianContextChange) (sampleNote .context "archived") 0 = .ok s ∧
        s.files.get "n" = some (sampleNote .context "archived").row ∧
        s.upsertNote (some recordObsidianContextChange) (sampleNote .context "active") 1 = .ok s' ∧ s'.log = s.log) ∧
      ∃ s s', IndexState.empty.upsertNote (some recordObsidianContextChange) (sampleNote .prompt "active") 0 = .ok s ∧
        s.upsertNote (some recordObsidianContextChange) (sampleNote .context "active") 1 = .ok s' ∧
        s'.files.get "n" = some (sampleNote .context "active").row ∧ s'.log.changes = [] :=
  ⟨⟨_, _, rfl, rfl, rfl, rfl⟩, ⟨_, _, rfl, rfl, rfl, rfl⟩⟩

end Alexandria.Index
