import Alexandria.Foundations.Run
import Alexandria.Reconciliation.Writes

/-! # Conflict resolutions over whole runs

Reviewers resolve a conflict set through the conflict service; applies write conflict sets by candidate and claim. An
apply always writes an open conflict without resolution, whatever row it finds. Resolutions are final in the runs in
which no apply finds a resolved row for the conflict set it is about to write.
-/

namespace Alexandria.Reconciliation
set_option autoImplicit false
open Text Phases

/-! ## The conflict service -/

def MemoryConflictStatus.resolved : MemoryConflictStatus → Bool
  | .opened => false
  | .reviewing => false
  | .resolvedKeepBoth => true
  | .resolvedSuperseded => true
  | .resolvedMerged => true
  | .resolvedInvalidSource => true

/-- The repository after a request of the service and the conflict set it has returned, or nothing when it raised. -/
abbrev ConflictAnswer := Option (MemoryConflictSet × Repository)

def Repository.upsertedConflict (r : Repository) (conflict : MemoryConflictSet) : ConflictAnswer :=
  (r.upsertConflict conflict).toOption

def markReviewing (r : Repository) (conflictSetId : String) : ConflictAnswer := do
  let conflict ← r.getConflict conflictSetId
  if conflict.status.resolved then none else r.upsertedConflict { conflict with status := .reviewing }

def resolve (r : Repository) (conflictSetId : String) (status : MemoryConflictStatus) (resolution : String)
    (now : Instant) : ConflictAnswer :=
  if status.resolved = false ∨ isBlank isPythonWhitespace resolution then none
  else do
    let conflict ← r.getConflict conflictSetId
    r.upsertedConflict
      { conflict with status := status, resolution := some (pythonStrip resolution), resolvedAt := some now }

/-! ## The system -/

structure Resolution where
  status : MemoryConflictStatus
  text : String
  deriving DecidableEq

/-- The state of the stores, with a record of what the service was last asked to write for each conflict set, and of
the Contexts that applies have created. -/
structure System (W : Type) where
  world : W
  repository : Repository
  resolutions : ConflictKey → Option Resolution
  creations : List ContextCreation

def System.start {W : Type} (world : W) : System W := ⟨world, Repository.empty, fun _ => none, []⟩

inductive Request (W : Type)
  /-- A preview builds a plan under a new identifier and stores it. -/
  | preview (planId : String) (candidate : MemoryCandidate) (decisions : List MemoryRelationDecision)
    (idempotencyKey : Option String)
  | apply (request : ApplyRequest)
  | markReviewing (conflictSetId : String)
  | resolve (conflictSetId : String) (status : MemoryConflictStatus) (resolution : String) (now : Instant)
  /-- The canonical world changes by other hands. -/
  | outside (world : W)

/-- The Contexts that the effects have created or tried to create. -/
def creationsOf (effects : List Effect) : List ContextCreation :=
  effects.filterMap fun effect =>
    match effect with
    | .createContext creation => some creation
    | _ => none

section Steps
variable {W : Type} (gateway : CanonicalGateway W) (platform : Platform)

/-- One request, each in a transaction of its own; one that raises leaves the repository as it was. -/
def step (s : System W) : Request W → Option (System W)
  | .preview planId candidate decisions idempotencyKey =>
    match s.repository.savePlan (buildPlan platform.hashText planId candidate decisions idempotencyKey) with
    | .ok (_, repository) => some { s with repository := repository }
    | .error _ => some s
  | .apply request =>
    let outcome := apply gateway platform request s.world s.repository
    some { s with
      world := outcome.world, repository := outcome.repository, creations := s.creations ++ creationsOf outcome.effects }
  | .markReviewing conflictSetId =>
    match markReviewing s.repository conflictSetId with
    | some (_, repository) => some { s with repository := repository }
    | none => some s
  | .resolve conflictSetId status resolution now =>
    match resolve s.repository conflictSetId status resolution now with
    | some (conflict, repository) =>
      some { s with
        repository := repository
        resolutions := Function.update s.resolutions conflict.key (some ⟨status, pythonStrip resolution⟩) }
    | none => some s
  | .outside world => some { s with world := world }

/-- The plan that an apply request goes on to execute. -/
def executedPlan (repository : Repository) (request : ApplyRequest) : Option MemoryReconciliationPlan :=
  match repository.getPlan request.planId with
  | none => none
  | some plan =>
    if (reusedResult repository request).isSome then none
    else if (validatedReviewer plan request).isNone then none
    else some plan

theorem apply_cases (request : ApplyRequest) (world : W) (repository : Repository) :
    (∃ plan reviewedBy, executedPlan repository request = some plan ∧
      repository.getPlan request.planId = some plan ∧
      apply gateway platform request world repository = applyPlan gateway platform plan reviewedBy world repository) ∨
    executedPlan repository request = none ∧
      (apply gateway platform request world repository).repository = repository ∧
      (apply gateway platform request world repository).effects = [] := by
  unfold apply executedPlan
  cases hplan : repository.getPlan request.planId with
  | none => exact .inr ⟨rfl, rfl, rfl⟩
  | some plan =>
    simp only
    cases reusedResult repository request with
    | some existing => exact .inr ⟨rfl, rfl, rfl⟩
    | none =>
      cases validatedReviewer plan request with
      | none => exact .inr ⟨rfl, rfl, rfl⟩
      | some reviewedBy => exact .inl ⟨plan, reviewedBy, rfl, rfl, rfl⟩

end Steps

/-! ## What a request does to the conflict table -/

section Table
variable {W : Type} {gateway : CanonicalGateway W} {platform : Platform} {s t : System W}

/-- What an upsert through the service has done. -/
theorem upsertedConflict_eq_some {r r' : Repository} {conflict stored : MemoryConflictSet}
    (h : r.upsertedConflict conflict = some (stored, r')) :
    stored = conflict ∧ ∃ rowId, RowIdFor r conflict rowId ∧ r' = r.putConflict ⟨rowId, conflict⟩ := by
  unfold Repository.upsertedConflict at h
  cases hupsert : r.upsertConflict conflict with
  | error exc =>
    rw [hupsert] at h
    cases h
  | ok answer =>
    rw [hupsert] at h
    cases h
    exact upsertConflict_eq_ok hupsert

/-- The service writes the row that it has read, with the new status. -/
theorem markReviewing_eq_some {r r' : Repository} {conflictSetId : String} {stored : MemoryConflictSet}
    (h : markReviewing r conflictSetId = some (stored, r')) :
    ∃ row rowId, row ∈ r.conflicts ∧ row.payload.status.resolved = false ∧
      RowIdFor r { row.payload with status := .reviewing } rowId ∧
      r' = r.putConflict ⟨rowId, { row.payload with status := .reviewing }⟩ := by
  unfold markReviewing at h
  obtain ⟨conflict, hconflict, h⟩ := Option.bind_eq_some_iff.mp h
  obtain ⟨row, hrow, rfl⟩ := Option.map_eq_some_iff.mp hconflict
  split at h
  · cases h
  · rename_i hopen
    obtain ⟨-, rowId, hid, rfl⟩ := upsertedConflict_eq_some h
    exact ⟨row, rowId, (Keyed.lookup_mem hrow).1, Bool.eq_false_iff.mpr hopen, hid, rfl⟩

theorem resolve_eq_some {r r' : Repository} {conflictSetId resolution : String} {status : MemoryConflictStatus}
    {now : Instant} {stored : MemoryConflictSet} (h : resolve r conflictSetId status resolution now = some (stored, r')) :
    status.resolved = true ∧ ∃ row rowId, row ∈ r.conflicts ∧
      stored = { row.payload with
        status := status, resolution := some (pythonStrip resolution), resolvedAt := some now } ∧
      RowIdFor r stored rowId ∧ r' = r.putConflict ⟨rowId, stored⟩ := by
  unfold resolve at h
  split at h
  · cases h
  · rename_i hinput
    rw [not_or] at hinput
    obtain ⟨conflict, hconflict, h⟩ := Option.bind_eq_some_iff.mp h
    obtain ⟨row, hrow, rfl⟩ := Option.map_eq_some_iff.mp hconflict
    obtain ⟨rfl, rowId, hid, rfl⟩ := upsertedConflict_eq_some h
    exact ⟨by simpa using hinput.1, row, rowId, (Keyed.lookup_mem hrow).1, rfl, hid, rfl⟩

theorem savePlan_frame {r r' : Repository} {plan stored : MemoryReconciliationPlan}
    (h : r.savePlan plan = .ok (stored, r')) :
    r'.conflicts = r.conflicts ∧ r'.temporal = r.temporal ∧ r'.results = r.results ∧
      ∀ other ∈ r'.plans, other ∈ r.plans ∨ other = plan := by
  unfold Repository.savePlan at h
  split at h
  · cases h
    exact ⟨rfl, rfl, rfl, fun other hother => .inl hother⟩
  · split at h
    · cases h
    · cases h
      refine ⟨rfl, rfl, rfl, ?_⟩
      intro other hother
      obtain hother | hother := List.mem_append.mp hother
      · exact .inl hother
      · exact .inr (List.mem_singleton.mp hother)

end Table

/-! ## Resolutions -/

section Final
variable {W : Type} {gateway : CanonicalGateway W} {platform : Platform} {s t : System W}

/-- The store holds the status and the text of the last resolution of every conflict set. -/
def ResolutionsKept (s : System W) : Prop :=
  ∀ key resolution, s.resolutions key = some resolution →
    ∃ row, Keyed.lookup ConflictRow.key key s.repository.conflicts = some row ∧
      row.payload.status = resolution.status ∧ row.payload.resolution = some resolution.text

/-- An apply that is about to write a conflict set does not find a resolved row for its candidate and claim. -/
def WritesUnresolved (s : System W) : Request W → Prop
  | .apply request =>
    ∀ plan decision row, executedPlan s.repository request = some plan → hasAction plan .createConflictSet = true →
      primaryDecision plan = some decision →
      Keyed.lookup ConflictRow.key (plan.candidate.candidateId, claimKey plan decision) s.repository.conflicts =
        some row → row.payload.status.resolved = false
  | _ => True

structure Reviewed (s : System W) : Prop where
  keys : (s.repository.conflicts.map ConflictRow.key).Nodup
  final : ∀ key resolution, s.resolutions key = some resolution → resolution.status.resolved = true
  kept : ResolutionsKept s

theorem reviewed_start (world : W) : Reviewed (System.start world) where
  keys := List.nodup_nil
  final := by
    intro key resolution h
    cases h
  kept := by
    intro key resolution h
    cases h

/-- A row written for another key, or over a row that is not resolved, leaves the resolutions in place. -/
theorem Reviewed.put {row : ConflictRow} {world : W} {repository : Repository} {creations : List ContextCreation}
    (h : Reviewed s) (hconflicts : repository.conflicts = Keyed.put ConflictRow.key row s.repository.conflicts)
    (hopen : ∀ stored, Keyed.lookup ConflictRow.key row.key s.repository.conflicts = some stored →
      stored.payload.status.resolved = false) :
    Reviewed { s with world := world, repository := repository, creations := creations } where
  keys := by
    simp only [hconflicts]
    exact Keyed.nodup_put h.keys
  final := h.final
  kept := by
    intro key resolution hresolution
    obtain ⟨stored, hstored, hstatus, htext⟩ := h.kept key resolution hresolution
    refine ⟨stored, ?_, hstatus, htext⟩
    simp only [hconflicts, Keyed.lookup_put]
    rw [if_neg, hstored]
    rintro rfl
    have hresolved := h.final _ _ hresolution
    rw [← hstatus, hopen stored hstored] at hresolved
    cases hresolved

theorem Reviewed.frame {world : W} {repository : Repository} {creations : List ContextCreation} (h : Reviewed s)
    (hconflicts : repository.conflicts = s.repository.conflicts) :
    Reviewed { s with world := world, repository := repository, creations := creations } where
  keys := by
    simp only [hconflicts]
    exact h.keys
  final := h.final
  kept := by
    intro key resolution hresolution
    simp only [hconflicts]
    exact h.kept key resolution hresolution

theorem Reviewed.apply {request : ApplyRequest} (h : Reviewed s) (hok : WritesUnresolved s (.apply request))
    (hstep : step gateway platform s (.apply request) = some t) : Reviewed t := by
  cases hstep
  obtain ⟨plan, reviewedBy, hexecuted, -, hoccurs⟩ | ⟨-, hrepository, -⟩ :=
    apply_cases gateway platform request s.world s.repository
  · rw [hoccurs]
    obtain hsame | ⟨haction, ids, decision, created, id, rest, rowId, hprimary, -, -, -, hconflicts⟩ :=
      applyPlan_conflicts gateway platform plan s.repository reviewedBy s.world
    · exact h.frame hsame
    · exact h.put hconflicts fun stored hstored => hok plan decision stored hexecuted haction hprimary hstored
  · refine h.frame ?_
    rw [hrepository]

theorem Reviewed.markReviewing {conflictSetId : String} (h : Reviewed s)
    (hstep : step gateway platform s (.markReviewing conflictSetId) = some t) : Reviewed t := by
  simp only [Reconciliation.step] at hstep
  split at hstep
  · rename_i hmark
    cases hstep
    obtain ⟨row, rowId, hrow, hopen, -, rfl⟩ := markReviewing_eq_some hmark
    refine h.put rfl ?_
    intro stored hstored
    -- the row that is written over is the one that was read
    obtain ⟨hmem, hkey⟩ := Keyed.lookup_mem hstored
    obtain rfl := List.inj_on_of_nodup_map h.keys hmem hrow hkey
    exact hopen
  · cases hstep
    exact h

theorem Reviewed.resolve {conflictSetId resolution : String} {status : MemoryConflictStatus} {now : Instant}
    (h : Reviewed s) (hstep : step gateway platform s (.resolve conflictSetId status resolution now) = some t) :
    Reviewed t := by
  simp only [Reconciliation.step] at hstep
  split at hstep
  · rename_i hresolve
    cases hstep
    obtain ⟨hstatus, row, rowId, -, rfl, -, rfl⟩ := resolve_eq_some hresolve
    refine ⟨Keyed.nodup_put h.keys, ?_, ?_⟩
    · intro key recorded hrecorded
      obtain ⟨-, hnew⟩ | ⟨-, hold⟩ := Run.of_update (fun found => found = some recorded) hrecorded
      · cases hnew
        exact hstatus
      · exact h.final key recorded hold
    · intro key recorded hrecorded
      simp only [Repository.putConflict, Keyed.lookup_put]
      obtain ⟨rfl, hnew⟩ | ⟨hkey, hold⟩ := Run.of_update (fun found => found = some recorded) hrecorded
      · cases hnew
        exact ⟨_, if_pos rfl, rfl, rfl⟩
      · obtain ⟨stored, hstored, hrest⟩ := h.kept key recorded hold
        exact ⟨stored, (if_neg (Ne.symm hkey)).trans hstored, hrest⟩
  · cases hstep
    exact h

theorem Reviewed.step {request : Request W} (h : Reviewed s) (hok : WritesUnresolved s request)
    (hstep : step gateway platform s request = some t) : Reviewed t := by
  cases request with
  | preview planId candidate decisions idempotencyKey =>
    simp only [Reconciliation.step] at hstep
    split at hstep
    · rename_i hsave
      cases hstep
      exact h.frame (savePlan_frame hsave).1
    · cases hstep
      exact h
  | apply request => exact h.apply hok hstep
  | markReviewing conflictSetId => exact h.markReviewing hstep
  | resolve conflictSetId status resolution now => exact h.resolve hstep
  | outside world =>
    cases hstep
    exact h.frame rfl

/-- In every run in which no apply writes a conflict set over a resolved row of its candidate and claim, every state
holds the resolution that the conflict service last recorded for each conflict set. -/
theorem resolution_final (world : W) (hrun : Run.Guarded (step gateway platform) WritesUnresolved (System.start world) s) :
    ResolutionsKept s := by
  have hreviewed : Reviewed s := hrun.invariant (reviewed_start world) fun _ _ _ ha hok hstep => ha.step hok hstep
  exact hreviewed.kept

end Final

/-! ## A resolution that is lost -/

def contradiction : List MemoryRelationDecision := [sampleDecision "obsidian:a" .contradicts (96 / 100)]

/-- The identifier of the conflict set of the first plan. -/
def firstConflictId : String := "66e6f2b4-9b17-550a-b598-69d45b5d1e7a"

/-- A contradiction is applied and resolved. -/
def resolvedRun : List (Request Unit) :=
  [.preview "plan-1" sampleCandidate contradiction (some "key-1"), .apply (approved "plan-1"),
    .resolve firstConflictId .resolvedKeepBoth "both hold" 30]

/-- Another plan for the same candidate and claim is applied afterwards. -/
def reopeningRun : List (Request Unit) :=
  resolvedRun ++ [.preview "plan-2" sampleCandidate contradiction (some "key-2"), .apply (approved "plan-2")]

/-- What is recorded and what is stored about the sample's claim. -/
def claimState (s : System Unit) : Option Resolution × Option (MemoryConflictStatus × Option String) :=
  (s.resolutions ("candidate-1", "service|port|8080"),
    (Keyed.lookup ConflictRow.key ("candidate-1", "service|port|8080") s.repository.conflicts).map fun row =>
      (row.payload.status, row.payload.resolution))

theorem reopeningRun_reopens :
    (Run.exec (step acceptingGateway samplePlatform) (System.start ()) reopeningRun).map claimState =
      some (some ⟨.resolvedKeepBoth, "both hold"⟩, some (.opened, none)) := by
  decide +kernel

/-- A resolved conflict set is opened again, without its resolution, by the apply of another plan. -/
theorem resolution_reopened :
    ¬ ∀ (W : Type) (gateway : CanonicalGateway W) (platform : Platform) (world : W) (s : System W),
      Run.Runs (step gateway platform) (System.start world) s → ResolutionsKept s := by
  intro final
  obtain ⟨s, hs, hclaim⟩ := Option.map_eq_some_iff.mp reopeningRun_reopens
  have hrecorded : s.resolutions ("candidate-1", "service|port|8080") = some ⟨.resolvedKeepBoth, "both hold"⟩ :=
    congrArg Prod.fst hclaim
  obtain ⟨row, hrow, hstatus, -⟩ := final Unit acceptingGateway samplePlatform () s (.of_exec _ hs) _ _ hrecorded
  have hstored := congrArg Prod.snd hclaim
  simp [claimState, hrow, hstatus] at hstored

/-- Applies only as long as no conflict set is stored. -/
def appliesFirst (s : System Unit) : Request Unit → Bool
  | .apply _ => s.repository.conflicts.isEmpty
  | _ => true

theorem writesUnresolved_of_appliesFirst (s : System Unit) (request : Request Unit)
    (h : appliesFirst s request = true) : WritesUnresolved s request := by
  cases request with
  | apply request =>
    intro plan decision row _ _ _ hrow
    have hempty : s.repository.conflicts = [] := List.isEmpty_iff.mp h
    rw [hempty] at hrow
    cases hrow
  | _ => trivial

theorem resolution_final_once :
    ∃ s : System Unit, claimState s = (some ⟨.resolvedKeepBoth, "both hold"⟩, some (.resolvedKeepBoth, some "both hold")) ∧
      ResolutionsKept s := by
  have hrun : (Run.exec (Run.checked (step acceptingGateway samplePlatform) appliesFirst) (System.start ())
      resolvedRun).map claimState =
      some (some ⟨.resolvedKeepBoth, "both hold"⟩, some (.resolvedKeepBoth, some "both hold")) := by
    decide +kernel
  obtain ⟨s, hs, hclaim⟩ := Option.map_eq_some_iff.mp hrun
  exact ⟨s, hclaim, resolution_final () (.of_exec writesUnresolved_of_appliesFirst _ hs)⟩

end Alexandria.Reconciliation
