import Alexandria.Notes.ConcurrentSaves

/-! # Repairs as compare-and-swap

A repair compares the file once, when it reads it. What it replaces later is what it compared, and at most one repair of one
expected hash reports success, when no other call replaces or compares the file before the repair is done with it and no call
writes a text with a hash that a repair of the file expects.
-/

namespace Alexandria.Notes
set_option autoImplicit false
open Run

variable {φ ι : Type} {env : NoteEnvironment φ} {str : NestedText φ} {calls : ι → Call φ} {state after : Interleaved ι φ}

/-! ## Open repairs -/

/-- The hash that a repair compares. -/
def sourceHash (env : NoteEnvironment φ) (text : List Char) : String := env.hashText (String.ofList (universalNewlines text))

/-- The call is a repair of the path. -/
def Repairs (env : NoteEnvironment φ) (calls : ι → Call φ) (call : ι) (request : RepairRequest) (path : String) : Prop :=
  calls call = .repair request ∧ env.safeRelativePath request.path = .ok path

/-- The text that a repair writes. -/
def repairedText (env : NoteEnvironment φ) (request : RepairRequest) : List Char :=
  (env.redactSecretText request.rawContent).redactedContent.toList

/-- The path that a repair has compared and will still write to, or has written and may write back. -/
def openPath : Phase φ → Option String
  | .writing ⟨path, _, .repair _⟩ => some path
  | .replaced ⟨path, _, .repair _⟩ => some path
  | .restoring path _ _ _ => some path
  | _ => none

/-- The repair has stored its text. -/
def Spent : Phase φ → Prop
  | .indexed _ _ => True
  | .finished (.ok _) => True
  | _ => False

/-- The path whose file the call compares or replaces with its next step. -/
def touches (env : NoteEnvironment φ) (call : Call φ) : Phase φ → Option String
  | .ready =>
    match call with
    | .repair request => (env.safeRelativePath request.path).toOption
    | .save _ _ => none
  | .writing job => some job.path
  | .restoring path _ _ _ => some path
  | _ => none

/-- No other repair is open on the file that the step compares or replaces, and no text is written that has a hash which a repair
of the file expects. -/
structure Undisturbed (env : NoteEnvironment φ) (calls : ι → Call φ) (state : Interleaved ι φ) (move : Move ι) : Prop where
  alone : ∀ path ∈ touches env (calls move.call) (state.phase move.call), ∀ other, other ≠ move.call →
    openPath (state.phase other) ≠ some path
  fresh : ∀ job, state.phase move.call = .writing job → ∀ other request, Repairs env calls other request job.path →
    sourceHash env job.document ≠ request.expectedContentHash

/-- The caller of the repair has seen the text: it is the one with the hash it gave, or its own. -/
def Seen (env : NoteEnvironment φ) (request : RepairRequest) (text : List Char) : Prop :=
  sourceHash env text = request.expectedContentHash ∨ text = repairedText env request

/-! ## The invariant -/

/-- What a repair knows about its file. -/
def Holds (env : NoteEnvironment φ) (vault : Vault φ) (request : RepairRequest) : Phase φ → Prop
  | .writing job => env.safeRelativePath request.path = .ok job.path ∧ job.document = repairedText env request ∧
      ∃ current, job.purpose = .repair current ∧ env.hashText (String.ofList current) = request.expectedContentHash ∧
        (vault.file job.path).map (fun file => universalNewlines file.text) = some current
  | .replaced job => env.safeRelativePath request.path = .ok job.path ∧ job.document = repairedText env request ∧
      ∃ current, job.purpose = .repair current ∧ env.hashText (String.ofList (universalNewlines current)) = request.expectedContentHash ∧
        (vault.file job.path).map SourceFile.text = some job.document ∧
        sourceHash env job.document ≠ request.expectedContentHash
  | .restoring path document current _ => env.safeRelativePath request.path = .ok path ∧ document = repairedText env request ∧
      env.hashText (String.ofList (universalNewlines current)) = request.expectedContentHash ∧
        (vault.file path).map SourceFile.text = some document
  | .indexed job _ => ∃ current, job.purpose = .repair current
  | .located _ => False
  | .marking _ _ => False
  | _ => True

/-- Saves are never open. -/
def Knows (env : NoteEnvironment φ) (vault : Vault φ) : Call φ → Phase φ → Prop
  | .save _ _, phase => openPath phase = none
  | .repair request, phase => Holds env vault request phase

structure Swapped (env : NoteEnvironment φ) (calls : ι → Call φ) (state : Interleaved ι φ) : Prop where
  knows : ∀ call, Knows env state.vault (calls call) (state.phase call)
  alone : ∀ call other path, other ≠ call → openPath (state.phase call) = some path → openPath (state.phase other) ≠ some path
  changed : ∀ call request path, Repairs env calls call request path → Spent (state.phase call) →
    ∀ file, state.vault.file path = some file → sourceHash env file.text ≠ request.expectedContentHash
  once : ∀ call request path, Repairs env calls call request path → Spent (state.phase call) →
    ∀ other request', other ≠ call → Repairs env calls other request' path →
      request'.expectedContentHash = request.expectedContentHash →
        openPath (state.phase other) ≠ some path ∧ ¬ Spent (state.phase other)
  log : ∀ entry ∈ state.log, ∀ request, calls entry.call = .repair request →
    ∃ text, entry.before = some text ∧ Seen env request text

theorem Swapped.start (vault : Vault φ) : Swapped env calls (Interleaved.start vault) where
  knows call := by
    cases hcall : calls call <;> simp [Knows, Holds, Interleaved.start, openPath]
  alone call other path _ hopen := by cases hopen
  changed call request path _ hspent := hspent.elim
  once call request path _ hspent := hspent.elim
  log entry hentry := by cases hentry

/-- What is known about a file stays known while the file is as it is. -/
theorem Knows.congr {vault vault' : Vault φ} {call : Call φ} {phase : Phase φ} (h : Knows env vault call phase)
    (hfile : ∀ path, openPath phase = some path → vault'.file path = vault.file path) : Knows env vault' call phase := by
  cases call with
  | save payload newId => exact h
  | repair request =>
    cases phase with
    | writing job =>
      obtain ⟨hpath, hdocument, current, hpurpose, hhash, hcurrent⟩ := h
      obtain ⟨path, document, purpose⟩ := job
      subst hpurpose
      exact ⟨hpath, hdocument, current, rfl, hhash, by rw [hfile path rfl]; exact hcurrent⟩
    | replaced job =>
      obtain ⟨hpath, hdocument, current, hpurpose, hhash, hwritten, hfresh⟩ := h
      obtain ⟨path, document, purpose⟩ := job
      subst hpurpose
      exact ⟨hpath, hdocument, current, rfl, hhash, by rw [hfile path rfl]; exact hwritten, hfresh⟩
    | restoring path document current text =>
      obtain ⟨hpath, hdocument, hhash, hwritten⟩ := h
      exact ⟨hpath, hdocument, hhash, by rw [hfile path rfl]; exact hwritten⟩
    | _ => exact h

/-! ## The steps -/

variable [DecidableEq ι]

/-- A step that replaces no file. A repair that opens has compared the file; one that is spent has replaced it. -/
theorem Swapped.keep (h : Swapped env calls state) {call : ι} {next : Phase φ} {vault : Vault φ}
    (hfile : ∀ path, vault.file path = state.vault.file path) (hknows : Knows env state.vault (calls call) next)
    (hopen : ∀ path, openPath next = some path → openPath (state.phase call) = some path ∨
      (∀ other, other ≠ call → openPath (state.phase other) ≠ some path) ∧
        ∀ request, Repairs env calls call request path →
          ∃ file, state.vault.file path = some file ∧ sourceHash env file.text = request.expectedContentHash)
    (hspent : ∀ request path, Repairs env calls call request path → Spent next → Spent (state.phase call) ∨
      openPath (state.phase call) = some path ∧
        ∀ file, state.vault.file path = some file → sourceHash env file.text ≠ request.expectedContentHash) :
    Swapped env calls ⟨vault, Function.update state.phase call next, state.log ++ []⟩ := by
  constructor
  case knows =>
    intro other
    by_cases hother : other = call
    · subst hother
      simp only [Function.update_self]
      exact hknows.congr fun path _ => hfile path
    · simp only [Function.update_of_ne hother]
      exact (h.knows other).congr fun path _ => hfile path
  case alone =>
    intro first second path hne hfirst
    obtain ⟨rfl, hnow⟩ | ⟨hcall, hold⟩ := of_update (f := state.phase) (x := next)
      (fun phase : Phase φ => openPath phase = some path) hfirst
    · simp only [Function.update_of_ne hne]
      obtain hwas | ⟨halone, -⟩ := hopen path hnow
      · exact h.alone first second path hne hwas
      · exact halone second hne
    · intro hsecond
      obtain ⟨rfl, hnow⟩ | ⟨-, hwas⟩ := of_update (f := state.phase) (x := next)
        (fun phase : Phase φ => openPath phase = some path) hsecond
      · obtain hwas | ⟨halone, -⟩ := hopen path hnow
        · exact h.alone first second path hne hold hwas
        · exact halone first hcall hold
      · exact h.alone first second path hne hold hwas
  case changed =>
    intro other request path hrepairs hother file hread
    rw [hfile] at hread
    obtain ⟨rfl, hnow⟩ | ⟨-, hold⟩ := of_update (f := state.phase) (x := next) Spent hother
    · obtain hwas | ⟨-, hchanged⟩ := hspent request path hrepairs hnow
      · exact h.changed other request path hrepairs hwas file hread
      · exact hchanged file hread
    · exact h.changed other request path hrepairs hold file hread
  case once =>
    intro first request path hrepairs hfirst second request' hne hrepairs' hsame
    obtain ⟨rfl, hnow⟩ | ⟨hcall, hold⟩ := of_update (f := state.phase) (x := next) Spent hfirst
    · simp only [Function.update_of_ne hne]
      obtain hwas | ⟨hwas, -⟩ := hspent request path hrepairs hnow
      · exact h.once first request path hrepairs hwas second request' hne hrepairs' hsame
      · exact ⟨h.alone first second path hne hwas, fun hsecond =>
          (h.once second request' path hrepairs' hsecond first request (Ne.symm hne) hrepairs hsame.symm).1 hwas⟩
    · obtain ⟨hnot, hunspent⟩ := h.once first request path hrepairs hold second request' hne hrepairs' hsame
      by_cases hsecond : second = call
      · subst hsecond
        simp only [Function.update_self]
        refine ⟨?_, ?_⟩
        · intro hnow
          obtain hwas | ⟨-, hread⟩ := hopen path hnow
          · exact hnot hwas
          · obtain ⟨file, hread, hhash⟩ := hread request' hrepairs'
            exact h.changed first request path hrepairs hold file hread (hhash.trans hsame)
        · intro hnow
          obtain hwas | ⟨hwas, -⟩ := hspent request' path hrepairs' hnow
          · exact hunspent hwas
          · exact hnot hwas
      · simp only [Function.update_of_ne hsecond]
        exact ⟨hnot, hunspent⟩
  case log =>
    intro entry hentry
    rw [List.append_nil] at hentry
    exact h.log entry hentry

/-- A step that replaces a file on which no other repair is open, by a text that no spent repair expects. -/
theorem Swapped.replace (h : Swapped env calls state) {call : ι} {next : Phase φ} {path : String} {text : List Char}
    (now : String) (halone : ∀ other, other ≠ call → openPath (state.phase other) ≠ some path)
    (hfresh : ∀ other request, other ≠ call → Repairs env calls other request path → Spent (state.phase other) →
      sourceHash env text ≠ request.expectedContentHash)
    (hknows : Knows env (state.vault.writeFile path ⟨text, now⟩) (calls call) next) (hspent : ¬ Spent next)
    (hopen : ∀ path', openPath next = some path' → openPath (state.phase call) = some path')
    (hseen : ∀ request, calls call = .repair request →
      ∃ before, (state.vault.file path).map SourceFile.text = some before ∧ Seen env request before) :
    Swapped env calls ⟨state.vault.writeFile path ⟨text, now⟩, Function.update state.phase call next,
      state.log ++ [⟨call, path, (state.vault.file path).map SourceFile.text, text⟩]⟩ := by
  constructor
  case knows =>
    intro other
    by_cases hother : other = call
    · subst hother
      simp only [Function.update_self]
      exact hknows
    · simp only [Function.update_of_ne hother]
      refine (h.knows other).congr ?_
      intro path' hpath'
      rw [file_writeFile, if_neg]
      rintro rfl
      exact halone other hother hpath'
  case alone =>
    intro first second path' hne hfirst hsecond
    have hwas : ∀ other, openPath (Function.update state.phase call next other) = some path' →
        openPath (state.phase other) = some path' := by
      intro other hother
      obtain ⟨rfl, hnow⟩ | ⟨-, hwas⟩ := of_update (f := state.phase) (x := next)
        (fun phase : Phase φ => openPath phase = some path') hother
      · exact hopen path' hnow
      · exact hwas
    exact h.alone first second path' hne (hwas first hfirst) (hwas second hsecond)
  case changed =>
    intro other request path' hrepairs hother file hread
    obtain ⟨-, hother⟩ | ⟨hcall, hother⟩ := of_update (f := state.phase) (x := next) Spent hother
    · exact absurd hother hspent
    · rw [file_writeFile] at hread
      split at hread
      · rename_i hpath
        subst hpath
        cases hread
        exact hfresh other request hcall hrepairs hother
      · exact h.changed other request path' hrepairs hother file hread
  case once =>
    intro first request path' hrepairs hfirst second request' hne hrepairs' hsame
    obtain ⟨-, hfirst⟩ | ⟨-, hfirst⟩ := of_update (f := state.phase) (x := next) Spent hfirst
    · exact absurd hfirst hspent
    · obtain ⟨hnot, hunspent⟩ := h.once first request path' hrepairs hfirst second request' hne hrepairs' hsame
      by_cases hsecond : second = call
      · subst hsecond
        simp only [Function.update_self]
        exact ⟨fun hnow => hnot (hopen path' hnow), hspent⟩
      · simp only [Function.update_of_ne hsecond]
        exact ⟨hnot, hunspent⟩
  case log =>
    intro entry hentry request hcall
    obtain hentry | hentry := List.mem_append.mp hentry
    · exact h.log entry hentry request hcall
    · obtain rfl := List.mem_singleton.mp hentry
      exact hseen request hcall

theorem return_not_mem_universalNewlines (text : List Char) : '\r' ∉ universalNewlines text := by
  induction text using universalNewlines.induct with
  | case1 rest ih =>
    rw [universalNewlines]
    simpa using ih
  | case2 rest _ ih =>
    rw [universalNewlines]
    · simpa using ih
    · assumption
  | case3 c rest _ hc ih =>
    rw [universalNewlines]
    · have hne : '\r' ≠ c := fun h => hc (by rw [h])
      simpa [hne] using ih
    · assumption
    · assumption
  | case4 =>
    rw [universalNewlines]
    exact List.not_mem_nil

theorem openPath_begin_save (vault : Vault φ) (payload : ObsidianSaveNote φ) (newId : String) :
    openPath (begin env vault (.save payload newId)) = none := by
  unfold begin
  simp only
  split <;> rfl

theorem openPath_prepared (decided : Except String (PreparedSave φ)) : openPath (prepared decided) = none := by
  unfold prepared
  split <;> rfl

theorem openPath_marked (answer : ObsidianNote φ) (document : Except String (Option (String × List Char))) :
    openPath (marked answer document) = none := by
  unfold marked
  split <;> rfl

theorem openPath_afterIndexing (job : Writing φ) (note : ObsidianNote φ) : openPath (afterIndexing job note) = none := by
  unfold afterIndexing
  split <;> rfl

theorem openPath_readReplaced {vault : Vault φ} {job : Writing φ} (h : openPath (.replaced job) = none) :
    openPath (readReplaced env vault job) = none := by
  obtain ⟨path, document, purpose⟩ := job
  cases purpose with
  | repair current => cases h
  | save target =>
    unfold readReplaced
    split
    · rfl
    · split <;> rfl
  | mark answer =>
    unfold readReplaced
    split
    · rfl
    · split <;> rfl

/-- A step of a save that replaces no file. -/
theorem Swapped.keepSave (h : Swapped env calls state) {call : ι} {payload : ObsidianSaveNote φ} {newId : String}
    (hcall : calls call = .save payload newId) {next : Phase φ} (hnext : openPath next = none) {vault : Vault φ}
    (hfile : ∀ path, vault.file path = state.vault.file path) :
    Swapped env calls ⟨vault, Function.update state.phase call next, state.log ++ []⟩ := by
  refine h.keep hfile ?_ ?_ ?_
  · rw [hcall]
    exact hnext
  · intro path hpath
    cases hnext.symm.trans hpath
  · intro request path hrepairs
    cases hcall.symm.trans hrepairs.1

theorem Swapped.begin (h : Swapped env calls state) {move : Move ι} (hmove : Undisturbed env calls state move)
    (hphase : state.phase move.call = .ready) :
    Swapped env calls ⟨state.vault, Function.update state.phase move.call (begin env state.vault (calls move.call)),
      state.log ++ []⟩ := by
  cases hcall : calls move.call with
  | save payload newId => exact h.keepSave hcall (openPath_begin_save ..) fun _ => rfl
  | repair request =>
    cases hcheck : checkRepair env state.vault request false with
    | error error =>
      have hbegin : Notes.begin env state.vault (.repair request) = .finished (.error error.text) := by
        simp only [Notes.begin, hcheck]
      rw [hbegin]
      refine h.keep (fun _ => rfl) ?_ ?_ ?_
      · rw [hcall]
        exact trivial
      · intro path hpath
        cases hpath
      · intro _ _ _ hspent
        exact hspent.elim
    | ok repair =>
      have hbegin : Notes.begin env state.vault (.repair request) =
          .writing ⟨repair.path, repair.content, .repair repair.currentText⟩ := by
        simp only [Notes.begin, hcheck]
      obtain ⟨hpath, ⟨file, hfile, htext⟩, hhash, hcontent⟩ := checkRepair_ok hcheck
      rw [hbegin]
      refine h.keep (fun _ => rfl) ?_ ?_ ?_
      · rw [hcall]
        exact ⟨hpath, hcontent, repair.currentText, rfl, hhash, by rw [hfile, htext]; rfl⟩
      · intro path hopen
        cases hopen
        refine .inr ⟨?_, ?_⟩
        · refine hmove.alone repair.path ?_
          rw [hphase, hcall]
          simp [touches, hpath, Except.toOption]
        · intro request' hrepairs
          cases hcall.symm.trans hrepairs.1
          exact ⟨file, hfile, by rw [sourceHash, ← htext]; exact hhash⟩
      · intro _ _ _ hspent
        exact hspent.elim

theorem Swapped.write (h : Swapped env calls state) {move : Move ι} (hmove : Undisturbed env calls state move) {job : Writing φ}
    (hphase : state.phase move.call = .writing job) :
    Swapped env calls ⟨state.vault.writeFile job.path ⟨job.document, move.now⟩,
      Function.update state.phase move.call (.replaced job),
      state.log ++ [⟨move.call, job.path, (state.vault.file job.path).map SourceFile.text, job.document⟩]⟩ := by
  have hknows := h.knows move.call
  rw [hphase] at hknows
  have hfresh := hmove.fresh job hphase
  have hopen : openPath (.replaced job) = openPath (.writing job) := by
    obtain ⟨path, document, purpose⟩ := job
    cases purpose <;> rfl
  refine h.replace move.now ?_ (fun other request _ hrepairs _ => hfresh other request hrepairs) ?_ id ?_ ?_
  · refine hmove.alone job.path ?_
    rw [hphase]
    exact rfl
  · cases hcall : calls move.call with
    | save payload newId =>
      rw [hcall] at hknows
      exact hopen.trans hknows
    | repair request =>
      rw [hcall] at hknows
      obtain ⟨hpath, hdocument, current, hpurpose, hhash, hcurrent⟩ := hknows
      obtain ⟨file, -, hfile⟩ := Option.map_eq_some_iff.mp hcurrent
      have hsame : universalNewlines current = current := by
        rw [← hfile]
        exact universalNewlines_eq_self (return_not_mem_universalNewlines file.text)
      refine ⟨hpath, hdocument, current, hpurpose, by rw [hsame]; exact hhash, ?_, hfresh move.call request ⟨hcall, hpath⟩⟩
      rw [file_writeFile, if_pos rfl]
      rfl
  · intro path hpath
    rw [hphase, ← hopen]
    exact hpath
  · intro request hcall
    rw [hcall] at hknows
    obtain ⟨-, -, current, -, hhash, hcurrent⟩ := hknows
    obtain ⟨file, hfile, hread⟩ := Option.map_eq_some_iff.mp hcurrent
    refine ⟨file.text, by rw [hfile]; rfl, .inl ?_⟩
    rw [sourceHash, hread]
    exact hhash

theorem Swapped.readBack (h : Swapped env calls state) {call : ι} {job : Writing φ} (hphase : state.phase call = .replaced job) :
    Swapped env calls ⟨state.vault, Function.update state.phase call (readReplaced env state.vault job), state.log ++ []⟩ := by
  have hknows := h.knows call
  rw [hphase] at hknows
  cases hcall : calls call with
  | save payload newId =>
    rw [hcall] at hknows
    exact h.keepSave hcall (openPath_readReplaced hknows) fun _ => rfl
  | repair request =>
    rw [hcall] at hknows
    obtain ⟨hpath, hdocument, current, hpurpose, hhash, hwritten, hfresh⟩ := hknows
    obtain ⟨file, hfile, htext⟩ := Option.map_eq_some_iff.mp hwritten
    have hopen : openPath (state.phase call) = some job.path := by
      rw [hphase]
      obtain ⟨path, document, purpose⟩ := job
      subst hpurpose
      rfl
    have hrefuse : ∀ text, Swapped env calls
        ⟨state.vault, Function.update state.phase call (refuse job text), state.log ++ []⟩ := by
      intro text
      have hrestoring : refuse job text = .restoring job.path job.document current text := by
        unfold refuse
        rw [hpurpose]
      rw [hrestoring]
      refine h.keep (fun _ => rfl) ?_ ?_ ?_
      · rw [hcall]
        exact ⟨hpath, hdocument, hhash, hwritten⟩
      · intro path hpath'
        exact .inl (hopen.trans hpath')
      · intro _ _ _ hspent
        exact hspent.elim
    unfold readReplaced
    simp only [hfile]
    split
    · exact hrefuse _
    · exact hrefuse _
    · rename_i note _
      refine h.keep (fun _ => rfl) ?_ ?_ ?_
      · rw [hcall]
        exact ⟨current, hpurpose⟩
      · intro path hpath'
        cases hpath'
      · intro request' path hrepairs _
        cases hcall.symm.trans hrepairs.1
        cases hpath.symm.trans hrepairs.2
        refine .inr ⟨hopen, ?_⟩
        intro file' hfile'
        cases hfile.symm.trans hfile'
        rw [htext]
        exact hfresh

theorem Swapped.restore (h : Swapped env calls state) {move : Move ι} (hmove : Undisturbed env calls state move) {path : String}
    {document current : List Char} {text : String} (hphase : state.phase move.call = .restoring path document current text) :
    Swapped env calls ⟨state.vault.writeFile path ⟨current, move.now⟩,
      Function.update state.phase move.call (.finished (.error text)),
      state.log ++ [⟨move.call, path, (state.vault.file path).map SourceFile.text, current⟩]⟩ := by
  have hknows := h.knows move.call
  rw [hphase] at hknows
  have hopen : openPath (state.phase move.call) = some path := by
    rw [hphase]
    rfl
  cases hcall : calls move.call with
  | save payload newId =>
    rw [hcall] at hknows
    cases hknows
  | repair request =>
    rw [hcall] at hknows
    obtain ⟨hpath, hdocument, hhash, hwritten⟩ := hknows
    refine h.replace move.now ?_ ?_ ?_ id ?_ ?_
    · refine hmove.alone path ?_
      rw [hphase]
      exact rfl
    · intro other request' hother hrepairs hspent hsame
      exact (h.once other request' path hrepairs hspent move.call request (Ne.symm hother) ⟨hcall, hpath⟩
        (hhash.symm.trans hsame)).1 hopen
    · rw [hcall]
      exact trivial
    · intro path' hpath'
      cases hpath'
    · intro request' hcall'
      cases hcall.symm.trans hcall'
      exact ⟨document, hwritten, .inr hdocument⟩

theorem Swapped.index (h : Swapped env calls state) {call : ι} {job : Writing φ} {note : ObsidianNote φ}
    (hphase : state.phase call = .indexed job note) :
    Swapped env calls ⟨state.vault.upsertNote note, Function.update state.phase call (afterIndexing job note),
      state.log ++ []⟩ := by
  refine h.keep (fun _ => rfl) ?_ ?_ ?_
  · have hknows := h.knows call
    rw [hphase] at hknows
    cases hcall : calls call with
    | save payload newId => exact openPath_afterIndexing job note
    | repair request =>
      rw [hcall] at hknows
      obtain ⟨current, hpurpose⟩ := hknows
      unfold afterIndexing
      rw [hpurpose]
      exact trivial
  · intro path hpath
    rw [openPath_afterIndexing] at hpath
    cases hpath
  · intro _ _ _ _
    rw [hphase]
    exact .inl trivial

/-- What one undisturbed step keeps. -/
theorem Swapped.step (h : Swapped env calls state) {move : Move ι} (hmove : Undisturbed env calls state move)
    (hstep : interleave env str calls state move = some after) : Swapped env calls after := by
  obtain ⟨⟨effect, next⟩, hadvance, rfl⟩ := Option.map_eq_some_iff.mp hstep
  have hknows := h.knows move.call
  cases hphase : state.phase move.call with
  | ready =>
    rw [hphase] at hadvance
    cases hadvance
    exact h.begin hmove hphase
  | located save =>
    rw [hphase] at hadvance hknows
    cases hadvance
    cases hcall : calls move.call with
    | save payload newId => exact h.keepSave hcall (openPath_prepared _) fun _ => rfl
    | repair request =>
      rw [hcall] at hknows
      exact hknows.elim
  | writing job =>
    rw [hphase] at hadvance
    cases hadvance
    exact h.write hmove hphase
  | replaced job =>
    rw [hphase] at hadvance
    cases hadvance
    exact h.readBack hphase
  | restoring path document current text =>
    rw [hphase] at hadvance
    cases hadvance
    exact h.restore hmove hphase
  | indexed job note =>
    rw [hphase] at hadvance
    cases hadvance
    exact h.index hphase
  | marking answer target =>
    rw [hphase] at hadvance hknows
    cases hadvance
    cases hcall : calls move.call with
    | save payload newId => exact h.keepSave hcall (openPath_marked ..) fun _ => rfl
    | repair request =>
      rw [hcall] at hknows
      exact hknows.elim
  | finished answer =>
    rw [hphase] at hadvance
    cases hadvance

/-! ## Whole runs -/

/-- Of the repairs of a file with one expected hash at most one reports success, and no repair has replaced a text that its
caller had not seen. -/
theorem raw_repair_compares_and_swaps (env : NoteEnvironment φ) (str : NestedText φ) (calls : ι → Call φ) (vault : Vault φ)
    (final : Interleaved ι φ) (hrun : Guarded (interleave env str calls) (Undisturbed env calls) (.start vault) final) :
    (∀ call other request request' path note note', Repairs env calls call request path → Repairs env calls other request' path →
        request.expectedContentHash = request'.expectedContentHash →
          final.phase call = .finished (.ok note) → final.phase other = .finished (.ok note') → call = other) ∧
      ∀ entry ∈ final.log, ∀ request, calls entry.call = .repair request →
        ∃ text, entry.before = some text ∧ Seen env request text := by
  have hswapped : Swapped env calls final :=
    hrun.invariant (Swapped.start vault) fun _ _ _ h hmove hstep => h.step hmove hstep
  refine ⟨?_, hswapped.log⟩
  intro call other request request' path note note' hrepairs hrepairs' hsame hcall hother
  by_contra hne
  refine (hswapped.once call request path hrepairs (by rw [hcall]; exact trivial) other request' (Ne.symm hne) hrepairs'
    hsame.symm).2 ?_
  rw [hother]
  exact trivial

/-! ## Two repairs of one file -/

def repairRequests : Bool → RepairRequest
  | false => skillRepair "---\nalexandria_type: skill\nid: a\n---\nnewer"
  | true => skillRepair "---\nalexandria_type: skill\nid: a\n---\nnewest of all"

def twoRepairs (call : Bool) : Call Unit := .repair (repairRequests call)

def Phase.succeeded : Phase φ → Bool
  | .finished (.ok _) => true
  | _ => false

theorem ok_of_succeeded {phase : Phase φ} (h : phase.succeeded = true) : ∃ note, phase = .finished (.ok note) := by
  cases phase with
  | finished answer =>
    cases answer with
    | ok note => exact ⟨note, rfl⟩
    | error text => cases h
  | _ => cases h

instance (request : RepairRequest) (text : List Char) : Decidable (Seen plainEnvironment request text) := by
  unfold Seen
  infer_instance

/-- Two repairs that compare before either writes both succeed, and the second replaces the text of the first. -/
theorem overlapping_repairs_succeed : ∃ final : Interleaved Bool Unit,
    Runs (interleave plainEnvironment noNestedText twoRepairs) (.start skillVault) final ∧
      (∀ call, ∃ note, final.phase call = .finished (.ok note)) ∧
      ∃ entry ∈ final.log, ∀ text ∈ entry.before, ¬ Seen plainEnvironment (repairRequests entry.call) text := by
  have hend : ((exec (interleave plainEnvironment noNestedText twoRepairs) (.start skillVault)
      (movesOf false 1 ++ movesOf true 1 ++ movesOf false 3 ++ movesOf true 3)).map fun final =>
        (((final.phase false).succeeded, (final.phase true).succeeded),
          final.log.any fun entry => decide (∀ text ∈ entry.before, ¬ Seen plainEnvironment (repairRequests entry.call) text))) =
      some ((true, true), true) := by decide
  obtain ⟨final, hfinal, hend⟩ := Option.map_eq_some_iff.mp hend
  obtain ⟨hsucceeded, hunseen⟩ := Prod.ext_iff.mp hend
  obtain ⟨hfirst, hsecond⟩ := Prod.ext_iff.mp hsucceeded
  obtain ⟨entry, hentry, hunseen⟩ := List.any_eq_true.mp hunseen
  refine ⟨final, Runs.of_exec _ hfinal, ?_, entry, hentry, of_decide_eq_true hunseen⟩
  intro call
  cases call with
  | false => exact ok_of_succeeded hfirst
  | true => exact ok_of_succeeded hsecond

/-- The check of the condition for the two repairs. -/
def undisturbedCheck (state : Interleaved Bool Unit) (move : Move Bool) : Bool :=
  decide (∀ path ∈ touches plainEnvironment (twoRepairs move.call) (state.phase move.call),
    openPath (state.phase !move.call) ≠ some path) &&
      match state.phase move.call with
      | .writing job => [false, true].all fun other =>
        decide (sourceHash plainEnvironment job.document ≠ (repairRequests other).expectedContentHash)
      | _ => true

theorem undisturbed_of_check {state : Interleaved Bool Unit} {move : Move Bool} (h : undisturbedCheck state move = true) :
    Undisturbed plainEnvironment twoRepairs state move := by
  obtain ⟨halone, hfresh⟩ := Bool.and_eq_true_iff.mp h
  constructor
  · intro path hpath other hother
    obtain rfl : other = !move.call := Bool.eq_not_of_ne hother
    exact of_decide_eq_true halone path hpath
  · intro job hjob other request hrepairs
    rw [hjob] at hfresh
    cases hrepairs.1
    exact of_decide_eq_true (List.all_eq_true.mp hfresh other (by cases other <;> simp))

/-- Of two repairs that follow each other the second one is refused. -/
theorem raw_repair_compares_and_swaps_in_turn : ∃ final : Interleaved Bool Unit,
    (final.phase true).isFinished = true ∧ final.log.length = 1 ∧
      (∀ note note', final.phase false = .finished (.ok note) → final.phase true = .finished (.ok note') → false = true) ∧
      ∀ entry ∈ final.log, ∀ request, twoRepairs entry.call = .repair request →
        ∃ text, entry.before = some text ∧ Seen plainEnvironment request text := by
  have hend : ((exec (checked (interleave plainEnvironment noNestedText twoRepairs) undisturbedCheck) (.start skillVault)
      (movesOf false 4 ++ movesOf true 1)).map fun final => ((final.phase true).isFinished, final.log.length)) =
      some (true, 1) := by decide
  obtain ⟨final, hfinal, hend⟩ := Option.map_eq_some_iff.mp hend
  obtain ⟨hfinished, hlog⟩ := Prod.ext_iff.mp hend
  have hswapped := raw_repair_compares_and_swaps plainEnvironment noNestedText twoRepairs skillVault final
    (Guarded.of_exec (fun _ _ => undisturbed_of_check) _ hfinal)
  refine ⟨final, hfinished, hlog, ?_, hswapped.2⟩
  intro note note' hfirst hsecond
  exact absurd (hswapped.1 false true _ _ "a.md" note note' ⟨rfl, rfl⟩ ⟨rfl, rfl⟩ rfl hfirst hsecond) (by decide)

end Alexandria.Notes
