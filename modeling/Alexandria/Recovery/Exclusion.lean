import Alexandria.Recovery.Runs
import Mathlib.Data.Fintype.Basic

/-! # Recovery runs side by side

`start`, `get` and `retry` of `RecoveryRunService` from several requests at once, with the records of
`recovery_run_manifest.py` as shared state. Each read or write of a record is one step; the steps under the record
guard (taking the lock, a checkpoint, clearing the lock) check and write at once. Of a manifest its origin is kept.
`executed` lists the idempotency keys whose runs were admitted. A crash ends one request.
-/

namespace Alexandria.Recovery
set_option autoImplicit false

inductive RecoveryManifest
  | blocked
  | finished (completed : Bool)
  | interrupted
deriving DecidableEq

structure RecoveryActiveLock where
  runId : String
  idempotencyKey : String
  currentStep : Option String
deriving DecidableEq

/-- Where a request stands. `next` is the start request that a retry goes on with. -/
inductive RecoveryPhase
  | idle
  | planning (request : RecoveryPlanRequest)
  | planned (plan : RecoveryPlan)
  | unrecorded (plan : RecoveryPlan)
  | unlocked (plan : RecoveryPlan)
  | running (plan : RecoveryPlan) (rest : List RecoveryPlanStep)
  | executing (plan : RecoveryPlan) (step : RecoveryPlanStep) (rest : List RecoveryPlanStep)
  | finished (plan : RecoveryPlan) (completed : Bool)
  | recorded (plan : RecoveryPlan)
  | reading (runId : String) (next : Option RecoveryPlanRequest)
  | unknown (runId : String) (next : Option RecoveryPlanRequest)
  | interrupting (runId : String) (next : Option RecoveryPlanRequest)
  | interrupted (runId : String) (next : Option RecoveryPlanRequest)
  | crashed

structure RecoverySystem (T : Type) where
  lock : Option RecoveryActiveLock
  manifests : String → Option RecoveryManifest
  phases : T → RecoveryPhase
  executed : List String

def RecoverySystem.start (T : Type) : RecoverySystem T := ⟨none, fun _ => none, fun _ => .idle, []⟩

/-- `torn`: the lock file goes away between the check that it exists and the read, which makes it unreadable. -/
inductive RecoveryLabel (T : Type)
  | start (t : T) (request : RecoveryPlanRequest)
  | get (t : T) (runId : String)
  | retry (t : T) (parentRunId : String) (request : RecoveryPlanRequest)
  | plan (t : T) (readiness : OperationalReadinessSnapshot) (source : RecoverySourceSnapshot)
  | lookup (t : T)
  | readLock (t : T) (torn : Bool)
  | acquire (t : T)
  | checkpoint (t : T)
  | endStep (t : T) (succeeded : Bool)
  | record (t : T)
  | clear (t : T)
  | crash (t : T)

/-- What a request does when its `get` has found or made a manifest. -/
def afterGet : Option RecoveryPlanRequest → RecoveryPhase
  | some request => .planning request
  | none => .idle

/-- The lock is that of the run. -/
def ownedBy (lock : Option RecoveryActiveLock) (runId : String) : Bool := lock.any (·.runId == runId)

/-- `_clear_active_lock_for_run_id`. -/
def clearActiveLock (lock : Option RecoveryActiveLock) (runId : String) : Option RecoveryActiveLock :=
  if ownedBy lock runId then none else lock

section System
variable {T : Type} [DecidableEq T]

def RecoverySystem.move (s : RecoverySystem T) (t : T) (phase : RecoveryPhase) : RecoverySystem T :=
  { s with phases := Function.update s.phases t phase }

def RecoverySystem.write (s : RecoverySystem T) (runId : String) (manifest : RecoveryManifest) : RecoverySystem T :=
  { s with manifests := Function.update s.manifests runId (some manifest) }

def exclusionStep (env : RecoveryEnvironment) (s : RecoverySystem T) : RecoveryLabel T → Option (RecoverySystem T)
  | .start t request =>
    match s.phases t with
    | .idle => some (s.move t (.planning request))
    | _ => none
  | .get t runId =>
    match s.phases t with
    | .idle => some (s.move t (.reading runId none))
    | _ => none
  | .retry t parentRunId request =>
    match s.phases t with
    | .idle => some (s.move t (.reading parentRunId (some (retryRequest parentRunId request))))
    | _ => none
  | .plan t readiness source =>
    match s.phases t with
    | .planning request => some (s.move t (.planned (plan env request readiness source)))
    | _ => none
  | .lookup t =>
    match s.phases t with
    | .planned plan => some (s.move t (if (s.manifests plan.id).isSome then .idle else .unrecorded plan))
    | .reading runId next =>
      some (s.move t (if (s.manifests runId).isSome then afterGet next else .unknown runId next))
    | _ => none
  | .readLock t torn =>
    match s.phases t with
    | .unrecorded plan => some (s.move t (if torn || s.lock.isSome then .idle else .unlocked plan))
    | .unknown runId next =>
      some (s.move t (if !torn && ownedBy s.lock runId then .interrupting runId next else .idle))
    | _ => none
  | .acquire t =>
    match s.phases t with
    | .unlocked plan =>
      if !plan.automaticExecutionAllowed then some ((s.write plan.id .blocked).move t .idle)
      else if s.lock.isSome then some (s.move t .idle)
      else
        some { s.move t (.running plan plan.steps) with
          lock := some ⟨plan.id, plan.idempotencyKey, none⟩
          executed := plan.idempotencyKey :: s.executed }
    | _ => none
  | .checkpoint t =>
    match s.phases t with
    | .running plan [] => some (s.move t (.finished plan true))
    | .running plan (step :: rest) =>
      if ownedBy s.lock plan.id then
        some { s.move t (.executing plan step rest) with
          lock := s.lock.map fun lock => { lock with currentStep := some step.code } }
      else some (s.move t (.finished plan false))
    | _ => none
  | .endStep t succeeded =>
    match s.phases t with
    | .executing plan _ rest => some (s.move t (if succeeded then .running plan rest else .finished plan false))
    | _ => none
  | .record t =>
    match s.phases t with
    | .finished plan completed => some ((s.write plan.id (.finished completed)).move t (.recorded plan))
    | .interrupting runId next => some ((s.write runId .interrupted).move t (.interrupted runId next))
    | _ => none
  | .clear t =>
    match s.phases t with
    | .recorded plan => some { s.move t .idle with lock := clearActiveLock s.lock plan.id }
    | .interrupted runId next => some { s.move t (afterGet next) with lock := clearActiveLock s.lock runId }
    | _ => none
  | .crash t =>
    match s.phases t with
    | .idle => none
    | .crashed => none
    | _ => some (s.move t .crashed)

end System

/-! ## What the requests are doing -/

/-- The run a request executes: from its admission until its manifest is written. -/
def RecoveryPhase.executes : RecoveryPhase → Option String
  | .running plan _ => some plan.id
  | .executing plan _ _ => some plan.id
  | .finished plan _ => some plan.id
  | _ => none

/-- A reindex step is under way. -/
def RecoveryPhase.reindexes : RecoveryPhase → Bool
  | .executing _ step _ => step.mutatesState
  | _ => false

/-- The run a reader is marking as interrupted, or whose lock it is clearing. -/
def RecoveryPhase.interrupts : RecoveryPhase → Option String
  | .interrupting runId _ => some runId
  | .interrupted runId _ => some runId
  | _ => none

/-- The run whose manifest a request has written and whose lock it is about to clear. -/
def RecoveryPhase.closes : RecoveryPhase → Option String
  | .recorded plan => some plan.id
  | .interrupted runId _ => some runId
  | _ => none

/-- The plan a request carries. -/
def RecoveryPhase.plan? : RecoveryPhase → Option RecoveryPlan
  | .planned plan => some plan
  | .unrecorded plan => some plan
  | .unlocked plan => some plan
  | .running plan _ => some plan
  | .executing plan _ _ => some plan
  | .finished plan _ => some plan
  | .recorded plan => some plan
  | _ => none

/-- The runs exclude each other: one reindex at a time, a reader leaves an executing run alone, and a key executes
once. -/
structure Excluded {T : Type} (s : RecoverySystem T) : Prop where
  reindexing : ∀ t u, (s.phases t).reindexes = true → (s.phases u).reindexes = true → t = u
  unmarked : ∀ t runId, (s.phases t).executes = some runId → s.manifests runId ≠ some .interrupted ∧
    ∀ u, (s.phases u).interrupts ≠ some runId
  locked : ∀ t runId, (s.phases t).executes = some runId → ownedBy s.lock runId = true
  once : s.executed.Nodup

/-- The run whose lock a reader is about to look for. -/
def RecoveryPhase.looksFor : RecoveryPhase → Option String
  | .unknown runId _ => some runId
  | _ => none

/-- The plan that is about to be admitted. -/
def RecoveryPhase.seeks : RecoveryPhase → Option RecoveryPlan
  | .unlocked plan => some plan
  | _ => none

/-- A reader reads the lock of no run that is executing, and a start takes the free lock only while there is no manifest
of its run. -/
def Settled {T : Type} (s : RecoverySystem T) : RecoveryLabel T → Prop
  | .readLock t _ => ∀ id ∈ (s.phases t).looksFor, ownedBy s.lock id = true → ∀ u, (s.phases u).executes ≠ some id
  | .acquire t => ∀ plan ∈ (s.phases t).seeks, plan.automaticExecutionAllowed = true → s.lock = none →
      s.manifests plan.id = none
  | _ => True

instance {T : Type} [Fintype T] (s : RecoverySystem T) : DecidablePred (Settled s)
  | .readLock t _ => inferInstanceAs (Decidable (∀ id ∈ (s.phases t).looksFor, ownedBy s.lock id = true →
      ∀ u, (s.phases u).executes ≠ some id))
  | .acquire t => inferInstanceAs (Decidable (∀ plan ∈ (s.phases t).seeks, plan.automaticExecutionAllowed = true →
      s.lock = none → s.manifests plan.id = none))
  | .start _ _ => .isTrue trivial
  | .get _ _ => .isTrue trivial
  | .retry _ _ _ => .isTrue trivial
  | .plan _ _ _ => .isTrue trivial
  | .lookup _ => .isTrue trivial
  | .checkpoint _ => .isTrue trivial
  | .endStep _ _ => .isTrue trivial
  | .record _ => .isTrue trivial
  | .clear _ => .isTrue trivial
  | .crash _ => .isTrue trivial

/-! ## The invariant -/

structure Exclusive {T : Type} (env : RecoveryEnvironment) (s : RecoverySystem T) : Prop where
  keyed : ∀ t plan, (s.phases t).plan? = some plan → plan.id = runId env plan.idempotencyKey
  locked : ∀ t id, (s.phases t).executes = some id → ownedBy s.lock id = true
  alone : ∀ t u id id', (s.phases t).executes = some id → (s.phases u).executes = some id' → t = u
  unmarked : ∀ t id, (s.phases t).executes = some id → s.manifests id ≠ some .interrupted
  interrupting : ∀ t id, (s.phases t).interrupts = some id →
    (ownedBy s.lock id = true ∨ (s.manifests id).isSome = true) ∧ ∀ u, (s.phases u).executes ≠ some id
  closing : ∀ t id, (s.phases t).closes = some id →
    (s.manifests id).isSome = true ∧ ∀ u, (s.phases u).executes ≠ some id
  accounted : ∀ key ∈ s.executed, ownedBy s.lock (runId env key) = true ∨ (s.manifests (runId env key)).isSome = true
  once : s.executed.Nodup

section Preservation
variable {T : Type} {env : RecoveryEnvironment} {s : RecoverySystem T}

attribute [local simp] exclusionStep

theorem keyed_of_none {phase : RecoveryPhase} (h : phase.plan? = none) (plan : RecoveryPlan)
    (hplan : phase.plan? = some plan) : plan.id = runId env plan.idempotencyKey := by
  simp [h] at hplan

theorem exclusive_start : Exclusive env (RecoverySystem.start T) where
  keyed := fun _ => keyed_of_none rfl
  locked := nofun
  alone := nofun
  unmarked := nofun
  interrupting := nofun
  closing := nofun
  accounted := nofun
  once := List.nodup_nil

theorem Exclusive.excluded (hs : Exclusive env s) : Excluded s where
  reindexing := by
    have executes : ∀ phase : RecoveryPhase, phase.reindexes = true → ∃ id, phase.executes = some id := by
      intro phase h
      cases phase with
      | executing plan step rest => exact ⟨plan.id, rfl⟩
      | _ => cases h
    intro t u ht hu
    obtain ⟨id, hid⟩ := executes _ ht
    obtain ⟨id', hid'⟩ := executes _ hu
    exact hs.alone t u id id' hid hid'
  unmarked := fun t runId hrun =>
    ⟨hs.unmarked t runId hrun, fun u hu => (hs.interrupting u runId hu).2 t hrun⟩
  locked := hs.locked
  once := hs.once

theorem RecoveryPhase.executes_of_closes {phase : RecoveryPhase} {id : String} (h : phase.closes = some id) :
    phase.executes = none := by
  cases phase with
  | recorded plan => rfl
  | interrupted runId next => rfl
  | _ => cases h

theorem ownedBy_unique {lock : Option RecoveryActiveLock} {id id' : String} (h : ownedBy lock id = true)
    (h' : ownedBy lock id' = true) : id = id' := by
  cases lock with
  | none => cases h
  | some lock =>
    simp only [ownedBy, Option.any_some, beq_iff_eq] at h h'
    exact h.symm.trans h'

variable [DecidableEq T]

/-- A step of request `t` to phase `y` that takes no lock. Manifests stay, a lock goes only when its run has a manifest
and nobody executes it, and a manifest says interrupted only of a run that nobody executes. -/
theorem Exclusive.frame (hs : Exclusive env s) {t : T} {y : RecoveryPhase} {lock : Option RecoveryActiveLock}
    {manifests : String → Option RecoveryManifest}
    (hmanifests : ∀ id, (s.manifests id).isSome = true → (manifests id).isSome = true)
    (hlock : ∀ id, ownedBy s.lock id = true → ownedBy lock id = true ∨
      (manifests id).isSome = true ∧ ∀ u, (s.phases u).executes ≠ some id)
    (hmark : ∀ id, manifests id = some .interrupted →
      s.manifests id = some .interrupted ∨ ∀ u, (s.phases u).executes ≠ some id)
    (hkeyed : ∀ plan, y.plan? = some plan → plan.id = runId env plan.idempotencyKey)
    (hexecutes : ∀ id, y.executes = some id → (s.phases t).executes = some id)
    (hinterrupts : ∀ id, y.interrupts = some id →
      (ownedBy lock id = true ∨ (manifests id).isSome = true) ∧ ∀ u, (s.phases u).executes ≠ some id)
    (hcloses : ∀ id, y.closes = some id → (manifests id).isSome = true ∧ ∀ u, u ≠ t → (s.phases u).executes ≠ some id) :
    Exclusive env ⟨lock, manifests, Function.update s.phases t y, s.executed⟩ := by
  have before : ∀ u id, (Function.update s.phases t y u).executes = some id → (s.phases u).executes = some id := by
    intro u id hu
    obtain ⟨rfl, hy⟩ | ⟨-, hold⟩ := Run.of_update (fun phase : RecoveryPhase => phase.executes = some id) hu
    · exact hexecutes id hy
    · exact hold
  have nobody : ∀ id, (∀ u, (s.phases u).executes ≠ some id) → ∀ u, (Function.update s.phases t y u).executes ≠ some id :=
    fun id hnone u hu => hnone u (before u id hu)
  have kept : ∀ id, ownedBy s.lock id = true ∨ (s.manifests id).isSome = true →
      ownedBy lock id = true ∨ (manifests id).isSome = true := by
    intro id h
    obtain howned | hsome := h
    · exact (hlock id howned).imp_right And.left
    · exact .inr (hmanifests id hsome)
  refine ⟨?_, ?_, ?_, ?_, ?_, ?_, ?_, hs.once⟩
  · intro u plan hu
    obtain ⟨-, hy⟩ | ⟨-, hold⟩ := Run.of_update (fun phase : RecoveryPhase => phase.plan? = some plan) hu
    · exact hkeyed plan hy
    · exact hs.keyed u plan hold
  · intro u id hu
    have hold := before u id hu
    obtain howned | ⟨-, hnone⟩ := hlock id (hs.locked u id hold)
    · exact howned
    · exact absurd hold (hnone u)
  · exact fun u v id id' hu hv => hs.alone u v id id' (before u id hu) (before v id' hv)
  · intro u id hu hinterrupted
    have hold := before u id hu
    obtain hsame | hnone := hmark id hinterrupted
    · exact hs.unmarked u id hold hsame
    · exact hnone u hold
  · intro u id hu
    obtain ⟨-, hy⟩ | ⟨-, hold⟩ := Run.of_update (fun phase : RecoveryPhase => phase.interrupts = some id) hu
    · exact ⟨(hinterrupts id hy).1, nobody id (hinterrupts id hy).2⟩
    · exact ⟨kept id (hs.interrupting u id hold).1, nobody id (hs.interrupting u id hold).2⟩
  · intro u id hu
    obtain ⟨-, hy⟩ | ⟨-, hold⟩ := Run.of_update (fun phase : RecoveryPhase => phase.closes = some id) hu
    · refine ⟨(hcloses id hy).1, ?_⟩
      intro v hv
      obtain ⟨-, hself⟩ | ⟨hne, hother⟩ := Run.of_update (fun phase : RecoveryPhase => phase.executes = some id) hv
      · rw [RecoveryPhase.executes_of_closes hy] at hself
        cases hself
      · exact (hcloses id hy).2 v hne hother
    · exact ⟨hmanifests id (hs.closing u id hold).1, nobody id (hs.closing u id hold).2⟩
  · exact fun key hkey => kept _ (hs.accounted key hkey)

/-- A step that leaves the records alone. -/
theorem Exclusive.move (hs : Exclusive env s) {t : T} {y : RecoveryPhase}
    (hkeyed : ∀ plan, y.plan? = some plan → plan.id = runId env plan.idempotencyKey)
    (hexecutes : ∀ id, y.executes = some id → (s.phases t).executes = some id)
    (hinterrupts : ∀ id, y.interrupts = some id →
      (ownedBy s.lock id = true ∨ (s.manifests id).isSome = true) ∧ ∀ u, (s.phases u).executes ≠ some id)
    (hcloses : y.closes = none) : Exclusive env (s.move t y) :=
  hs.frame (fun _ h => h) (fun _ h => .inl h) (fun _ h => .inl h) hkeyed hexecutes hinterrupts
    (fun id hid => by simp [hcloses] at hid)

/-- A step to a phase that neither executes nor reads. -/
theorem Exclusive.leave (hs : Exclusive env s) {t : T} {y : RecoveryPhase}
    (hkeyed : ∀ plan, y.plan? = some plan → plan.id = runId env plan.idempotencyKey) (hexecutes : y.executes = none)
    (hinterrupts : y.interrupts = none) (hcloses : y.closes = none) : Exclusive env (s.move t y) :=
  hs.move hkeyed (by simp [hexecutes]) (by simp [hinterrupts]) hcloses

/-- A step to a phase without a plan. -/
theorem Exclusive.drop (hs : Exclusive env s) {t : T} {y : RecoveryPhase} (hplan : y.plan? = none)
    (hexecutes : y.executes = none) (hinterrupts : y.interrupts = none) (hcloses : y.closes = none) :
    Exclusive env (s.move t y) :=
  hs.leave (keyed_of_none hplan) hexecutes hinterrupts hcloses

/-- A request that is admitted: the lock was free and its run had no manifest. -/
theorem Exclusive.acquire (hs : Exclusive env s) {t : T} {plan : RecoveryPlan} (ht : (s.phases t).plan? = some plan)
    (hfree : s.lock = none) (habsent : s.manifests plan.id = none) :
    Exclusive env { s.move t (.running plan plan.steps) with
      lock := some ⟨plan.id, plan.idempotencyKey, none⟩
      executed := plan.idempotencyKey :: s.executed } := by
  have unowned : ∀ id, ownedBy s.lock id ≠ true := by simp [hfree, ownedBy]
  have nobody : ∀ u id, (s.phases u).executes ≠ some id := fun u id hu => unowned id (hs.locked u id hu)
  have own : ownedBy (some ⟨plan.id, plan.idempotencyKey, none⟩) plan.id = true := by simp [ownedBy]
  have hkey := hs.keyed t plan ht
  have executing : ∀ u id, (Function.update s.phases t (.running plan plan.steps) u).executes = some id →
      u = t ∧ id = plan.id := by
    intro u id hu
    obtain ⟨rfl, hy⟩ | ⟨-, hold⟩ := Run.of_update (fun phase : RecoveryPhase => phase.executes = some id) hu
    · exact ⟨rfl, (Option.some.inj hy).symm⟩
    · exact absurd hold (nobody u id)
  refine ⟨?_, ?_, ?_, ?_, ?_, ?_, ?_, ?_⟩
  · intro u other hu
    obtain ⟨-, hy⟩ | ⟨-, hold⟩ := Run.of_update (fun phase : RecoveryPhase => phase.plan? = some other) hu
    · cases hy
      exact hkey
    · exact hs.keyed u other hold
  · intro u id hu
    obtain ⟨-, rfl⟩ := executing u id hu
    exact own
  · intro u v id id' hu hv
    exact (executing u id hu).1.trans (executing v id' hv).1.symm
  · intro u id hu hinterrupted
    obtain ⟨-, rfl⟩ := executing u id hu
    simp [RecoverySystem.move, habsent] at hinterrupted
  · intro u id hu
    obtain ⟨-, hy⟩ | ⟨-, hold⟩ := Run.of_update (fun phase : RecoveryPhase => phase.interrupts = some id) hu
    · cases hy
    · have hsome := (hs.interrupting u id hold).1.resolve_left (unowned id)
      refine ⟨.inr hsome, ?_⟩
      intro v hv
      obtain ⟨-, rfl⟩ := executing v id hv
      simp [habsent] at hsome
  · intro u id hu
    obtain ⟨-, hy⟩ | ⟨-, hold⟩ := Run.of_update (fun phase : RecoveryPhase => phase.closes = some id) hu
    · cases hy
    · have hsome := (hs.closing u id hold).1
      refine ⟨hsome, ?_⟩
      intro v hv
      obtain ⟨-, rfl⟩ := executing v id hv
      simp [habsent] at hsome
  · intro key hmem
    obtain rfl | hmem := List.mem_cons.mp hmem
    · exact .inl (hkey ▸ own)
    · exact .inr ((hs.accounted key hmem).resolve_left (unowned _))
  · refine List.nodup_cons.mpr ⟨?_, hs.once⟩
    intro hmem
    have hsome := (hs.accounted _ hmem).resolve_left (unowned _)
    rw [← hkey, habsent] at hsome
    cases hsome

theorem Exclusive.record (hs : Exclusive env s) {t : T} {id : String} {manifest : RecoveryManifest} {y : RecoveryPhase}
    (hmark : manifest = .interrupted → ∀ u, (s.phases u).executes ≠ some id) (hkeyed : ∀ plan, y.plan? = some plan →
      plan.id = runId env plan.idempotencyKey) (hexecutes : y.executes = none)
    (hinterrupts : ∀ id', y.interrupts = some id' → id' = id ∧ ∀ u, (s.phases u).executes ≠ some id)
    (hcloses : ∀ id', y.closes = some id' → id' = id ∧ ∀ u, u ≠ t → (s.phases u).executes ≠ some id) :
    Exclusive env ((s.write id manifest).move t y) := by
  have written : ∀ id', (s.manifests id').isSome = true → (Function.update s.manifests id (some manifest) id').isSome = true := by
    intro id' hsome
    by_cases hid : id' = id
    · simp [hid]
    · rwa [Function.update_of_ne hid]
  have here : (Function.update s.manifests id (some manifest) id).isSome = true := by simp
  refine hs.frame written (fun _ h => .inl h) ?_ hkeyed (by simp [hexecutes]) ?_ ?_
  · intro id' hinterrupted
    obtain ⟨rfl, hnew⟩ | ⟨-, hold⟩ := Run.of_update (fun version => version = some RecoveryManifest.interrupted) hinterrupted
    · exact .inr (hmark (Option.some.inj hnew))
    · exact .inl hold
  · intro id' hid
    obtain ⟨rfl, hnone⟩ := hinterrupts id' hid
    exact ⟨.inr here, hnone⟩
  · intro id' hid
    obtain ⟨rfl, hnone⟩ := hcloses id' hid
    exact ⟨here, hnone⟩

theorem Exclusive.clear (hs : Exclusive env s) {t : T} {id : String} {y : RecoveryPhase}
    (ht : (s.phases t).closes = some id) (hplan : y.plan? = none) (hexecutes : y.executes = none)
    (hinterrupts : y.interrupts = none) (hcloses : y.closes = none) :
    Exclusive env { s.move t y with lock := clearActiveLock s.lock id } := by
  refine hs.frame (fun _ h => h) ?_ (fun _ h => .inl h) (by simp [hplan]) (by simp [hexecutes]) (by simp [hinterrupts])
    (by simp [hcloses])
  intro id' howned
  unfold clearActiveLock
  split
  · rename_i hown
    obtain rfl := ownedBy_unique howned hown
    exact .inr (hs.closing t id' ht)
  · exact .inl howned

theorem afterGet_cases (next : Option RecoveryPlanRequest) :
    (afterGet next).plan? = none ∧ (afterGet next).executes = none ∧ (afterGet next).interrupts = none ∧
      (afterGet next).closes = none := by
  cases next <;> exact ⟨rfl, rfl, rfl, rfl⟩

omit [DecidableEq T] in
/-- The plan of a request is the one its key names. -/
theorem Exclusive.keyed_of (hs : Exclusive env s) {t : T} {plan : RecoveryPlan} (ht : (s.phases t).plan? = some plan) :
    ∀ other, some plan = some other → other.id = runId env other.idempotencyKey := by
  intro other hother
  cases hother
  exact hs.keyed t plan ht

theorem Exclusive.lookup (hs : Exclusive env s) {t : T} {s' : RecoverySystem T}
    (h : exclusionStep env s (.lookup t) = some s') : Exclusive env s' := by
  simp only [exclusionStep] at h
  split at h
  · rename_i plan ht
    cases h
    split
    · exact hs.drop rfl rfl rfl rfl
    · exact hs.leave (hs.keyed_of (by rw [ht]; rfl)) rfl rfl rfl
  · rename_i id next ht
    cases h
    split
    · obtain ⟨hplan, hexecutes, hinterrupts, hcloses⟩ := afterGet_cases next
      exact hs.drop hplan hexecutes hinterrupts hcloses
    · exact hs.drop rfl rfl rfl rfl
  · cases h

theorem Exclusive.readLock (hs : Exclusive env s) {t : T} {torn : Bool} {s' : RecoverySystem T}
    (hok : Settled s (.readLock t torn)) (h : exclusionStep env s (.readLock t torn) = some s') : Exclusive env s' := by
  simp only [exclusionStep] at h
  split at h
  · rename_i plan ht
    cases h
    split
    · exact hs.drop rfl rfl rfl rfl
    · exact hs.leave (hs.keyed_of (by rw [ht]; rfl)) rfl rfl rfl
  · rename_i id next ht
    cases h
    split
    · rename_i hown
      obtain ⟨-, hown⟩ := Bool.and_eq_true_iff.mp hown
      have hlooks : id ∈ (s.phases t).looksFor := by
        rw [ht]
        rfl
      refine hs.move (keyed_of_none rfl) nofun ?_ rfl
      intro id' hid
      cases hid
      exact ⟨.inl hown, hok id hlooks hown⟩
    · exact hs.drop rfl rfl rfl rfl
  · cases h

theorem Exclusive.admission (hs : Exclusive env s) {t : T} {s' : RecoverySystem T} (hok : Settled s (.acquire t))
    (h : exclusionStep env s (.acquire t) = some s') : Exclusive env s' := by
  simp only [exclusionStep] at h
  split at h
  · rename_i plan ht
    split at h
    · cases h
      exact hs.record nofun (keyed_of_none rfl) rfl nofun nofun
    · rename_i hallowed
      split at h
      · cases h
        exact hs.drop rfl rfl rfl rfl
      · rename_i hfree
        cases h
        have hfree : s.lock = none := by simpa using hfree
        have hseeks : plan ∈ (s.phases t).seeks := by
          rw [ht]
          rfl
        exact hs.acquire (by rw [ht]; rfl) hfree (hok plan hseeks (by simpa using hallowed) hfree)
  · cases h

theorem Exclusive.checkpoint (hs : Exclusive env s) {t : T} {s' : RecoverySystem T}
    (h : exclusionStep env s (.checkpoint t) = some s') : Exclusive env s' := by
  simp only [exclusionStep] at h
  split at h
  · rename_i plan ht
    cases h
    exact hs.move (hs.keyed_of (by rw [ht]; rfl)) (by rw [ht]; exact fun _ h => h) nofun rfl
  · rename_i plan step rest ht
    split at h
    · cases h
      have owned : ∀ id, ownedBy (s.lock.map fun lock => { lock with currentStep := some step.code }) id =
          ownedBy s.lock id := by
        intro id
        cases s.lock <;> rfl
      refine hs.frame (fun _ h => h) ?_ (fun _ h => .inl h) (hs.keyed_of (by rw [ht]; rfl))
        (by rw [ht]; exact fun _ h => h) nofun nofun
      intro id hid
      rw [owned]
      exact .inl hid
    · cases h
      exact hs.move (hs.keyed_of (by rw [ht]; rfl)) (by rw [ht]; exact fun _ h => h) nofun rfl
  · cases h

theorem Exclusive.endStep (hs : Exclusive env s) {t : T} {succeeded : Bool} {s' : RecoverySystem T}
    (h : exclusionStep env s (.endStep t succeeded) = some s') : Exclusive env s' := by
  simp only [exclusionStep] at h
  split at h
  · rename_i plan step rest ht
    cases h
    cases succeeded
    · exact hs.move (hs.keyed_of (by rw [ht]; rfl)) (by rw [ht]; exact fun _ h => h) nofun rfl
    · exact hs.move (hs.keyed_of (by rw [ht]; rfl)) (by rw [ht]; exact fun _ h => h) nofun rfl
  · cases h

theorem Exclusive.recordStep (hs : Exclusive env s) {t : T} {s' : RecoverySystem T}
    (h : exclusionStep env s (.record t) = some s') : Exclusive env s' := by
  simp only [exclusionStep] at h
  split at h
  · rename_i plan completed ht
    have hself : (s.phases t).executes = some plan.id := by
      rw [ht]
      rfl
    cases h
    refine hs.record nofun (hs.keyed_of (by rw [ht]; rfl)) rfl nofun ?_
    intro id hid
    cases hid
    exact ⟨rfl, fun u hne hu => hne (hs.alone u t _ _ hu hself)⟩
  · rename_i id next ht
    have hnone := (hs.interrupting t id (by rw [ht]; rfl)).2
    cases h
    refine hs.record (fun _ => hnone) (keyed_of_none rfl) rfl ?_ ?_
    · intro id' hid
      cases hid
      exact ⟨rfl, hnone⟩
    · intro id' hid
      cases hid
      exact ⟨rfl, fun u _ => hnone u⟩
  · cases h

theorem Exclusive.clearStep (hs : Exclusive env s) {t : T} {s' : RecoverySystem T}
    (h : exclusionStep env s (.clear t) = some s') : Exclusive env s' := by
  simp only [exclusionStep] at h
  split at h
  · rename_i plan ht
    cases h
    exact hs.clear (by rw [ht]; rfl) rfl rfl rfl rfl
  · rename_i id next ht
    cases h
    obtain ⟨hplan, hexecutes, hinterrupts, hcloses⟩ := afterGet_cases next
    exact hs.clear (by rw [ht]; rfl) hplan hexecutes hinterrupts hcloses
  · cases h

theorem Exclusive.step (hs : Exclusive env s) {l : RecoveryLabel T} {s' : RecoverySystem T} (hok : Settled s l)
    (h : exclusionStep env s l = some s') : Exclusive env s' := by
  cases l with
  | lookup t => exact hs.lookup h
  | readLock t torn => exact hs.readLock hok h
  | acquire t => exact hs.admission hok h
  | checkpoint t => exact hs.checkpoint h
  | endStep t succeeded => exact hs.endStep h
  | record t => exact hs.recordStep h
  | clear t => exact hs.clearStep h
  | plan t readiness source =>
    simp only [exclusionStep] at h
    split at h
    · cases h
      refine hs.leave ?_ rfl rfl rfl
      intro plan hplan
      cases hplan
      rfl
    · cases h
  | start t request =>
    simp only [exclusionStep] at h
    split at h
    · cases h
      exact hs.drop rfl rfl rfl rfl
    · cases h
  | get t id =>
    simp only [exclusionStep] at h
    split at h
    · cases h
      exact hs.drop rfl rfl rfl rfl
    · cases h
  | retry t id request =>
    simp only [exclusionStep] at h
    split at h
    · cases h
      exact hs.drop rfl rfl rfl rfl
    · cases h
  | crash t =>
    simp only [exclusionStep] at h
    split at h
    · cases h
    · cases h
    · cases h
      exact hs.drop rfl rfl rfl rfl

/-! ## Whole runs -/

/-- In every interleaving in which no reader reads the lock of an executing run and no start takes the free lock after a
manifest of its run has been written, the runs exclude each other. -/
theorem recovery_runs_exclude (h : Run.Guarded (exclusionStep env) Settled (RecoverySystem.start T) s) : Excluded s := by
  have exclusive : Exclusive env s := h.invariant exclusive_start fun _ _ _ ha hok hstep => ha.step hok hstep
  exact exclusive.excluded

end Preservation

/-! ## Overlapping requests -/

def demoRequest (key : String) : RecoveryPlanRequest := ⟨"manual", "operator", some key, none⟩

def demoRunId (key : String) : String := runId demoEnvironment key

def demoPlan (t : Bool) : RecoveryLabel Bool :=
  .plan t (demoCircumstances "rag_fts_not_healthy").readiness (demoCircumstances "rag_fts_not_healthy").source

/-- A start up to its admission. -/
def demoAdmission (t : Bool) (key : String) : List (RecoveryLabel Bool) :=
  [.start t (demoRequest key), demoPlan t, .lookup t, .readLock t false]

/-- A reader looks a run up while it rebuilds the vault index, and another run starts. -/
def readWhileExecuting : List (RecoveryLabel Bool) :=
  demoAdmission false "a" ++
    ([.acquire false, .checkpoint false, .endStep false true, .checkpoint false] : List (RecoveryLabel Bool)) ++
    ([.get true (demoRunId "a"), .lookup true, .readLock true false, .record true, .clear true] :
      List (RecoveryLabel Bool)) ++
    demoAdmission true "b" ++
    ([.acquire true, .checkpoint true, .endStep true true, .checkpoint true] : List (RecoveryLabel Bool))

/-- Two starts with one key find no manifest; one runs and ends before the other is admitted. -/
def startedTwice : List (RecoveryLabel Bool) :=
  demoAdmission false "a" ++ demoAdmission true "a" ++
    ([.acquire true, .checkpoint true, .endStep true true, .checkpoint true, .endStep true true, .checkpoint true,
      .endStep true true, .checkpoint true, .record true, .clear true, .acquire false] : List (RecoveryLabel Bool))

theorem readWhileExecuting_ends :
    ((Run.exec (exclusionStep demoEnvironment) (RecoverySystem.start Bool) readWhileExecuting).map fun s =>
      ((s.phases false).reindexes, (s.phases true).reindexes, (s.phases false).executes,
        s.manifests (demoRunId "a"))) = some (true, true, some (demoRunId "a"), some .interrupted) := by
  decide

theorem startedTwice_ends :
    ((Run.exec (exclusionStep demoEnvironment) (RecoverySystem.start Bool) startedTwice).map (·.executed)) =
      some ["a", "a"] := by
  decide

/-- Over all interleavings two runs can reindex at once, an executing run can be marked as interrupted, and one key can
execute twice. -/
theorem recovery_runs_overlap :
    (¬ ∀ (env : RecoveryEnvironment) (s : RecoverySystem Bool), Run.Runs (exclusionStep env) (RecoverySystem.start Bool) s →
      ∀ t u, (s.phases t).reindexes = true → (s.phases u).reindexes = true → t = u) ∧
    (¬ ∀ (env : RecoveryEnvironment) (s : RecoverySystem Bool), Run.Runs (exclusionStep env) (RecoverySystem.start Bool) s →
      ∀ t id, (s.phases t).executes = some id → s.manifests id ≠ some .interrupted) ∧
    ¬ ∀ (env : RecoveryEnvironment) (s : RecoverySystem Bool), Run.Runs (exclusionStep env) (RecoverySystem.start Bool) s →
      s.executed.Nodup := by
  obtain ⟨s, hs, h⟩ := Option.map_eq_some_iff.mp readWhileExecuting_ends
  simp only [Prod.mk.injEq] at h
  obtain ⟨hfalse, htrue, hexecutes, hmanifest⟩ := h
  refine ⟨?_, ?_, ?_⟩
  · intro reindexing
    exact absurd (reindexing _ s (.of_exec _ hs) false true hfalse htrue) (by decide)
  · intro unmarked
    exact unmarked _ s (.of_exec _ hs) false _ hexecutes hmanifest
  · intro once
    obtain ⟨s, hs, h⟩ := Option.map_eq_some_iff.mp startedTwice_ends
    have hnodup := once _ s (.of_exec _ hs)
    rw [h] at hnodup
    exact absurd hnodup (by decide)

/-- The request that executes a run crashes; a retry marks the run as interrupted and executes its own. -/
def crashedThenRetried : List (RecoveryLabel Bool) :=
  demoAdmission false "a" ++
    ([.acquire false, .checkpoint false, .endStep false true, .checkpoint false, .crash false] :
      List (RecoveryLabel Bool)) ++
    ([.retry true (demoRunId "a") (demoRequest "b"), .lookup true, .readLock true false, .record true, .clear true,
      demoPlan true, .lookup true, .readLock true false, .acquire true] : List (RecoveryLabel Bool))

theorem crashedThenRetried_ends :
    ((Run.exec (Run.checked (exclusionStep demoEnvironment) fun s l => decide (Settled s l)) (RecoverySystem.start Bool)
      crashedThenRetried).map fun s => ((s.phases true).executes, s.executed)) =
        some (some (demoRunId "b"), ["b", "a"]) := by
  decide

theorem recovery_runs_exclude_crashed : ∃ s : RecoverySystem Bool, s.executed = ["b", "a"] ∧ Excluded s := by
  obtain ⟨s, hs, h⟩ := Option.map_eq_some_iff.mp crashedThenRetried_ends
  have permitted : ∀ (a : RecoverySystem Bool) l, decide (Settled a l) = true → Settled a l := fun _ _ => of_decide_eq_true
  exact ⟨s, congrArg Prod.snd h, recovery_runs_exclude (.of_exec permitted _ hs)⟩

end Alexandria.Recovery
