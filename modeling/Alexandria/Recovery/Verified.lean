import Alexandria.Recovery.Runs

/-! # Completed runs are verified

A completed run ends with the verification step, executed or skipped. It may be skipped although a rebuild before it
is executed: the parent's results are found by the code of the step alone.
-/

namespace Alexandria.Recovery
set_option autoImplicit false

def StepExecution.mutates (e : StepExecution) : Bool := e.code == "reindex_vault" || e.code == "reindex_embeddings"

/-- A verification that came out ready. -/
def StepExecution.verified (e : StepExecution) : Bool :=
  e.code == "verify_readiness" &&
    match e.outcome with
    | .ok result => result.get "ready" == some (.bool true)
    | .error _ => false

/-- The runs that a run continues: itself, its parent, and so on. -/
inductive Attempt (runs : String → Option RecoveryRun) : String → String → Prop
  | self (id : String) : Attempt runs id id
  | parent {id parentId other : String} {run : RecoveryRun} : runs id = some run → run.parentRunId = some parentId →
      Attempt runs parentId other → Attempt runs id other

/-- The last rebuild of the attempts is followed by a verification of theirs that came out ready. -/
def VerifiedLast (log : List StepExecution) (attempt : String → Prop) : Prop :=
  ∃ before e after, log = before ++ e :: after ∧ attempt e.runId ∧ e.verified = true ∧
    ∀ x ∈ after, attempt x.runId → x.mutates = false

/-- The retry does not take the verification over from its parent while it rebuilds something itself. -/
def reverifies (env : RecoveryEnvironment) (s : RecoveryStore) : RecoveryCall → Bool
  | .start .. => true
  | .retry parentRunId request c =>
    let plan := plan env (retryRequest parentRunId request) c.readiness c.source
    let parentRun := s.runs parentRunId
    (s.runs plan.id).isSome || !plan.automaticExecutionAllowed || (parentStep env parentRun "verify_readiness").isNone ||
      plan.steps.all fun step => !step.mutatesState || (parentStep env parentRun step.code).isSome

section Steps
variable {env : RecoveryEnvironment} {plan : RecoveryPlan} {parentRun : Option RecoveryRun} {callbacks : StepCallbacks}

/-! ## One step -/

theorem parentStep_none (code : String) : parentStep env none code = none := rfl

theorem parentStep_code {run : RecoveryRun} {code : String} {step : RecoveryRunStepResult}
    (h : parentStep env (some run) code = some step) : step ∈ run.stepResults ∧ step.code = code := by
  unfold parentStep at h
  have hmem := List.mem_of_find?_eq_some h
  have hcode := List.find?_some h
  simp only [successfulParentSteps, List.mem_reverse, List.mem_filter] at hmem
  simp only [Bool.and_eq_true, beq_iff_eq] at hcode
  exact ⟨hmem.1, hcode.1⟩

theorem executeOrSkipStep_cases (env : RecoveryEnvironment) (parentRun : Option RecoveryRun) (runId code : String) (outcome : Except String JSONObject) :
    (∃ parent step, parentRun = some parent ∧ parentStep env parentRun code = some step ∧
      executeOrSkipStep env parentRun runId code outcome = (skippedStep env parent code step, [])) ∨
    (parentStep env parentRun code = none ∧
      executeOrSkipStep env parentRun runId code outcome = (executedStep env code outcome, [⟨runId, code, outcome⟩])) := by
  unfold executeOrSkipStep
  cases hparent : parentRun with
  | none => exact .inr ⟨rfl, rfl⟩
  | some parent =>
    cases hstep : parentStep env (some parent) code with
    | none => exact .inr ⟨rfl, rfl⟩
    | some step => exact .inl ⟨parent, step, rfl, rfl, rfl⟩

@[simp] theorem executedStep_code (code : String) (outcome : Except String JSONObject) :
    (executedStep env code outcome).code = code := by
  cases outcome <;> rfl

/-- The callbacks that a step has called: its own, unless the parent's result stands for it. -/
theorem executeOrSkipStep_called {runId code : String} {outcome : Except String JSONObject} {e : StepExecution}
    (h : e ∈ (executeOrSkipStep env parentRun runId code outcome).2) :
    e = ⟨runId, code, outcome⟩ ∧ parentStep env parentRun code = none := by
  obtain ⟨parent, step, -, -, hskip⟩ | ⟨hnone, hexecuted⟩ := executeOrSkipStep_cases env parentRun runId code outcome
  · simp [hskip] at h
  · rw [hexecuted] at h
    exact ⟨List.mem_singleton.mp h, hnone⟩

theorem executeOrSkipStep_code (env : RecoveryEnvironment) (parentRun : Option RecoveryRun) (runId code : String)
    (outcome : Except String JSONObject) : (executeOrSkipStep env parentRun runId code outcome).1.code = code := by
  obtain ⟨parent, step, -, -, hskip⟩ | ⟨-, hexecuted⟩ := executeOrSkipStep_cases env parentRun runId code outcome
  · rw [hskip]
    rfl
  · simp [hexecuted]

/-- What a round of the loop can do: fail without a callback, or execute or skip its step, keep the result unless it
fails, and in a verification go on only if it came out ready. -/
theorem runStep_cases (env : RecoveryEnvironment) (plan : RecoveryPlan) (parentRun : Option RecoveryRun)
    (callbacks : StepCallbacks) (p : Progress) (planned : RecoveryPlanStep) :
    (∃ after error, runStep env plan parentRun callbacks p planned = (after, some error) ∧ after.log = p.log ∧
      after.stepResults = p.stepResults) ∨
    ∃ outcome result called after error,
      executeOrSkipStep env parentRun plan.id planned.code outcome = (result, called) ∧
      runStep env plan parentRun callbacks p planned = (after, error) ∧ after.log = p.log ++ called ∧
      (error = none → after.stepResults = p.stepResults ++ [result]) ∧
      (error ≠ none → after.stepResults = p.stepResults) ∧
      (planned.code = "verify_readiness" → error = none → result.result.get "ready" = some (.bool true)) := by
  unfold runStep
  simp only
  split
  · rename_i hcode
    refine .inr ⟨_, _, _, _, _, rfl, rfl, rfl, fun _ => rfl, fun h => absurd rfl h, fun h => ?_⟩
    rw [hcode] at h
    exact absurd h (by decide)
  · split
    · rename_i hcode
      split
      · exact .inr ⟨_, _, _, _, _, rfl, rfl, rfl, fun h => absurd h (Option.some_ne_none _), fun _ => rfl,
          fun _ h => absurd h (Option.some_ne_none _)⟩
      · refine .inr ⟨_, _, _, _, _, rfl, rfl, rfl, fun _ => rfl, fun h => absurd rfl h, fun h => ?_⟩
        rw [hcode] at h
        exact absurd h (by decide)
    · split
      · rename_i hcode
        split
        · exact .inr ⟨_, _, _, _, _, rfl, rfl, rfl, fun h => absurd h (Option.some_ne_none _), fun _ => rfl,
          fun _ h => absurd h (Option.some_ne_none _)⟩
        · refine .inr ⟨_, _, _, _, _, rfl, rfl, rfl, fun _ => rfl, fun h => absurd rfl h, fun h => ?_⟩
          rw [hcode] at h
          exact absurd h (by decide)
      · split
        · split
          · rename_i hready
            exact .inr ⟨_, _, _, _, _, rfl, rfl, rfl, fun _ => rfl, fun h => absurd rfl h, fun _ _ => hready⟩
          · exact .inr ⟨_, _, _, _, _, rfl, rfl, rfl, fun h => absurd h (Option.some_ne_none _), fun _ => rfl,
          fun _ h => absurd h (Option.some_ne_none _)⟩
        · exact .inl ⟨_, _, rfl, rfl, rfl⟩

/-! ## The loop -/

theorem runSteps_append (p : Progress) (first rest : List RecoveryPlanStep) :
    runSteps env plan parentRun callbacks p (first ++ rest) =
      match runSteps env plan parentRun callbacks p first with
      | (p, some error) => (p, some error)
      | (p, none) => runSteps env plan parentRun callbacks p rest := by
  induction first generalizing p with
  | nil => rfl
  | cons planned first ih =>
    simp only [List.cons_append, runSteps]
    cases hstep : runStep env plan parentRun callbacks p planned with
    | mk after error =>
      cases error with
      | some error => rfl
      | none => exact ih after

/-- The callbacks of a loop are those of steps that no result of the parent stands for, and the results are of its
steps. -/
theorem runSteps_gathers (env : RecoveryEnvironment) (plan : RecoveryPlan) (parentRun : Option RecoveryRun)
    (callbacks : StepCallbacks) (p : Progress) (steps : List RecoveryPlanStep) :
    ∃ called added, (runSteps env plan parentRun callbacks p steps).1.log = p.log ++ called ∧
      (runSteps env plan parentRun callbacks p steps).1.stepResults = p.stepResults ++ added ∧
      (∀ e ∈ called, e.runId = plan.id ∧ ∃ step ∈ steps, e.code = step.code ∧ parentStep env parentRun step.code = none) ∧
      ∀ result ∈ added, ∃ step ∈ steps, result.code = step.code := by
  induction steps generalizing p with
  | nil => exact ⟨[], [], by simp [runSteps], by simp [runSteps], by simp, by simp⟩
  | cons planned steps ih =>
    simp only [runSteps]
    obtain ⟨after, error, hstep, hlog, hresults⟩ | ⟨outcome, result, called, after, error, hexecute, hstep, hlog, hkept,
      hdropped, -⟩ := runStep_cases env plan parentRun callbacks p planned
    · rw [hstep]
      exact ⟨[], [], by simp [hlog], by simp [hresults], by simp, by simp⟩
    · have own : ∀ e ∈ called, e.runId = plan.id ∧
          ∃ step ∈ planned :: steps, e.code = step.code ∧ parentStep env parentRun step.code = none := by
        intro e he
        have hcalled : e ∈ (executeOrSkipStep env parentRun plan.id planned.code outcome).2 := by rwa [hexecute]
        obtain ⟨rfl, hnone⟩ := executeOrSkipStep_called hcalled
        exact ⟨rfl, planned, by simp, rfl, hnone⟩
      have hcode : result.code = planned.code := by
        have hcode := executeOrSkipStep_code env parentRun plan.id planned.code outcome
        rwa [hexecute] at hcode
      rw [hstep]
      cases error with
      | some error => exact ⟨called, [], hlog, by simp [hdropped], own, by simp⟩
      | none =>
        obtain ⟨later, added, hlog', hresults', hown, hadded⟩ := ih after
        refine ⟨called ++ later, result :: added, ?_, ?_, ?_, ?_⟩
        · simp [hlog', hlog]
        · simp [hresults', hkept]
        · intro e he
          obtain he | he := List.mem_append.mp he
          · exact own e he
          · obtain ⟨hrun, step, hmem, hstepCode⟩ := hown e he
            exact ⟨hrun, step, List.mem_cons_of_mem _ hmem, hstepCode⟩
        · intro other hother
          obtain rfl | hother := List.mem_cons.mp hother
          · exact ⟨planned, by simp, hcode⟩
          · obtain ⟨step, hmem, hstepCode⟩ := hadded other hother
            exact ⟨step, List.mem_cons_of_mem _ hmem, hstepCode⟩

/-- A loop whose last step is the only verification completes only after it came out ready or was taken over, and keeps
a result of a verification only then. -/
theorem runSteps_verifies {p : Progress} {steps : List RecoveryPlanStep}
    (hbefore : ∀ step ∈ steps, step.code ≠ "verify_readiness") (hresults : p.stepResults = []) {after : Progress}
    {error : Option RecoveryStepFailedError}
    (h : runSteps env plan parentRun callbacks p (steps ++ [verifyStep]) = (after, error)) :
    (error = none → (parentStep env parentRun "verify_readiness").isSome = true ∨
      ∃ before e, after.log = before ++ [e] ∧ e.runId = plan.id ∧ e.verified = true) ∧
    ((∃ result ∈ after.stepResults, result.code = "verify_readiness") → error = none) := by
  rw [runSteps_append] at h
  obtain ⟨called, added, -, hadded, -, hcodes⟩ := runSteps_gathers env plan parentRun callbacks p steps
  have unverified : ∀ result ∈ p.stepResults ++ added, result.code ≠ "verify_readiness" := by
    intro result hmem hcode
    rw [hresults, List.nil_append] at hmem
    obtain ⟨step, hstep, hsame⟩ := hcodes result hmem
    exact hbefore step hstep (hsame ▸ hcode)
  rw [← hadded] at unverified
  cases hfirst : runSteps env plan parentRun callbacks p steps with
  | mk middle failed =>
    rw [hfirst] at h unverified
    cases failed with
    | some failed =>
      cases h
      exact ⟨nofun, fun ⟨result, hmem, hcode⟩ => absurd hcode (unverified result hmem)⟩
    | none =>
      simp only [runSteps] at h
      obtain ⟨last, failure, hstep, -, hsame⟩ | ⟨outcome, result, called', last, failure, hexecute, hstep, hlog, hkept,
        hdropped, hready⟩ := runStep_cases env plan parentRun callbacks middle verifyStep
      · rw [hstep] at h
        cases h
        refine ⟨nofun, fun ⟨result, hmem, hcode⟩ => ?_⟩
        rw [hsame] at hmem
        exact absurd hcode (unverified result hmem)
      · rw [hstep] at h
        cases failure with
        | some failure =>
          cases h
          refine ⟨nofun, fun ⟨result, hmem, hcode⟩ => ?_⟩
          rw [hdropped nofun] at hmem
          exact absurd hcode (unverified result hmem)
        | none =>
          cases h
          refine ⟨fun _ => ?_, fun _ => rfl⟩
          obtain ⟨parent, step, -, hparent, -⟩ | ⟨-, hexecuted⟩ :=
            executeOrSkipStep_cases env parentRun plan.id verifyStep.code outcome
          · exact .inl (Option.isSome_of_eq_some hparent)
          · rw [hexecuted] at hexecute
            cases hexecute
            refine .inr ⟨middle.log, _, hlog, rfl, ?_⟩
            have ready := hready rfl rfl
            cases outcome with
            | error text => simp [executedStep, JSONObject.get, Keyed.lookup] at ready
            | ok object => simpa [StepExecution.verified, executedStep, verifyStep] using ready

end Steps

/-! ## Attempts -/

section Attempts
variable {runs : String → Option RecoveryRun} {run : RecoveryRun} {id : String}

/-- The parent of every run is there. -/
def Linked (runs : String → Option RecoveryRun) : Prop :=
  ∀ id run parentId, runs id = some run → run.parentRunId = some parentId → (runs parentId).isSome = true

theorem Attempt.stored {start other : String} (hlinked : Linked runs) (hstart : (runs start).isSome = true)
    (h : Attempt runs start other) : (runs other).isSome = true := by
  induction h with
  | self start => exact hstart
  | parent hrun hparent _ ih => exact ih (hlinked _ _ _ hrun hparent)

theorem Attempt.keep {start other : String} (hfree : runs id = none) (h : Attempt runs start other) :
    Attempt (Function.update runs id (some run)) start other := by
  induction h with
  | self start => exact .self start
  | @parent start parentId other found hfound hparent _ ih =>
    have hne : start ≠ id := by
      rintro rfl
      simp [hfree] at hfound
    exact .parent ((Function.update_of_ne hne _ _).trans hfound) hparent ih

/-- A new run is no attempt of an earlier one. -/
theorem Attempt.earlier {start other : String} (hlinked : Linked runs) (hfree : runs id = none)
    (hstart : (runs start).isSome = true) (h : Attempt (Function.update runs id (some run)) start other) :
    Attempt runs start other := by
  induction h with
  | self start => exact .self start
  | @parent start parentId other found hfound hparent _ ih =>
    have hne : start ≠ id := by
      rintro rfl
      simp [hfree] at hstart
    rw [Function.update_of_ne hne] at hfound
    exact .parent hfound hparent (ih (hlinked _ _ _ hfound hparent))

/-- The attempts of the new run are itself and those of its parent. -/
theorem Attempt.of_new {other : String} (h : Attempt (Function.update runs id (some run)) id other) :
    other = id ∨ ∃ parentId, run.parentRunId = some parentId ∧
      Attempt (Function.update runs id (some run)) parentId other := by
  cases h with
  | self => exact .inl rfl
  | parent hfound hparent hrest =>
    rw [Function.update_self] at hfound
    cases hfound
    exact .inr ⟨_, hparent, hrest⟩

end Attempts

/-! ## The invariant -/

structure Verifying (s : RecoveryStore) : Prop where
  linked : Linked s.runs
  logged : ∀ e ∈ s.log, (s.runs e.runId).isSome = true
  kept : ∀ id run, s.runs id = some run → (∃ result ∈ run.stepResults, result.code = "verify_readiness") →
    run.status = .completed
  completed : ∀ id run, s.runs id = some run → run.status = .completed → VerifiedLast s.log (Attempt s.runs id)

theorem verifying_empty : Verifying .empty where
  linked := by simp [Linked, RecoveryStore.empty]
  logged := by simp [RecoveryStore.empty]
  kept := by simp [RecoveryStore.empty]
  completed := by simp [RecoveryStore.empty]

section Store
variable {s : RecoveryStore}

/-- A new run, with the callbacks it has called. -/
theorem Verifying.add (hs : Verifying s) {id : String} {run : RecoveryRun} {called : List StepExecution}
    (hfree : s.runs id = none) (hparent : ∀ parentId, run.parentRunId = some parentId → (s.runs parentId).isSome = true)
    (hown : ∀ e ∈ called, e.runId = id)
    (hkept : (∃ result ∈ run.stepResults, result.code = "verify_readiness") → run.status = .completed)
    (hcompleted : run.status = .completed →
      (∃ before e, called = before ++ [e] ∧ e.verified = true) ∨
      (∀ e ∈ called, e.mutates = false) ∧ ∃ parentId parent, run.parentRunId = some parentId ∧
        s.runs parentId = some parent ∧ parent.status = .completed) :
    Verifying ⟨Function.update s.runs id (some run), s.log ++ called⟩ := by
  have grows : ∀ other, (s.runs other).isSome = true → (Function.update s.runs id (some run) other).isSome = true := by
    intro other hother
    by_cases hsame : other = id
    · simp [hsame]
    · rwa [Function.update_of_ne hsame]
  refine ⟨?_, ?_, ?_, ?_⟩
  · intro other found parentId hfound hlink
    apply grows
    obtain ⟨-, hnew⟩ | ⟨-, hold⟩ := Run.of_update (fun version => version = some found) hfound
    · cases hnew
      exact hparent parentId hlink
    · exact hs.linked other found parentId hold hlink
  · intro e he
    obtain he | he := List.mem_append.mp he
    · exact grows _ (hs.logged e he)
    · simp [hown e he]
  · intro other found hfound
    obtain ⟨-, hnew⟩ | ⟨-, hold⟩ := Run.of_update (fun version => version = some found) hfound
    · cases hnew
      exact hkept
    · exact hs.kept other found hold
  · intro other found hfound hstatus
    obtain ⟨rfl, hnew⟩ | ⟨hne, hold⟩ := Run.of_update (fun version => version = some found) hfound
    · cases hnew
      obtain ⟨before, e, rfl, hverified⟩ | ⟨hquiet, parentId, parent, hlink, hstored, hdone⟩ := hcompleted hstatus
      · refine ⟨s.log ++ before, e, [], by simp, ?_, hverified, by simp⟩
        rw [hown e (by simp)]
        exact .self other
      · -- the verification of the parent is the last thing that counts
        obtain ⟨before, e, after, hlog, hattempt, hverified, hafter⟩ := hs.completed parentId parent hstored hdone
        have hthere : (s.runs parentId).isSome = true := Option.isSome_of_eq_some hstored
        refine ⟨before, e, after ++ called, by simp [hlog], ?_, hverified, ?_⟩
        · exact .parent (by simp) hlink (hattempt.keep hfree)
        · intro x hx hxattempt
          obtain hx | hx := List.mem_append.mp hx
          · obtain hself | ⟨linked, hlinked, hrest⟩ := hxattempt.of_new
            · have hstoredx := hs.logged x (by simp [hlog, hx])
              rw [hself, hfree] at hstoredx
              simp at hstoredx
            · rw [hlink] at hlinked
              cases hlinked
              exact hafter x hx (hrest.earlier hs.linked hfree hthere)
          · exact hquiet x hx
    · obtain ⟨before, e, after, hlog, hattempt, hverified, hafter⟩ := hs.completed other found hold hstatus
      have hthere : (s.runs other).isSome = true := Option.isSome_of_eq_some hold
      refine ⟨before, e, after ++ called, by simp [hlog], hattempt.keep hfree, hverified, ?_⟩
      intro x hx hxattempt
      have hearlier := hxattempt.earlier hs.linked hfree hthere
      obtain hx | hx := List.mem_append.mp hx
      · exact hafter x hx hearlier
      · have hstoredx := hearlier.stored hs.linked hthere
        rw [hown x hx, hfree] at hstoredx
        simp at hstoredx

/-- A callback that rebuilds is one of a planned step that does. -/
theorem step_mutates {warnings : List String} {step : RecoveryPlanStep} {e : StepExecution}
    (hstep : step ∈ snapshotStep :: repairSteps warnings ++ [verifyStep]) (h : e.mutates = true)
    (hcode : e.code = step.code) : step.mutatesState = true := by
  unfold StepExecution.mutates at h
  rw [hcode] at h
  obtain hrepair | rfl : step ∈ snapshotStep :: repairSteps warnings ∨ step = verifyStep := by
    simpa [or_assoc] using hstep
  · obtain rfl | hrepair := List.mem_cons.mp hrepair
    · exact absurd h (by decide)
    · obtain rfl | rfl := repairSteps_mutate hrepair <;> rfl
  · exact absurd h (by decide)

/-- A run that keeps a result of the verification is completed. -/
theorem Verifying.parent_completed (hs : Verifying s) {env : RecoveryEnvironment} {parentRunId : Option String}
    (h : (parentStep env (parentRunForRetry s parentRunId) "verify_readiness").isSome = true) :
    ∃ parentId parent, parentRunId = some parentId ∧ s.runs parentId = some parent ∧ parent.status = .completed := by
  obtain ⟨step, hstep⟩ := Option.isSome_iff_exists.mp h
  cases hparent : parentRunForRetry s parentRunId with
  | none => simp [hparent, parentStep_none] at hstep
  | some parent =>
    rw [hparent] at hstep
    obtain ⟨parentId, hid, hstored⟩ := Option.bind_eq_some_iff.mp hparent
    obtain ⟨hmem, hcode⟩ := parentStep_code hstep
    exact ⟨parentId, parent, hid, hstored, hs.kept parentId parent hstored ⟨step, hmem, hcode⟩⟩

/-- A start with a parent that is there, or with none. -/
theorem Verifying.start (hs : Verifying s) {env : RecoveryEnvironment} {request : RecoveryPlanRequest} {c : Circumstances}
    (hparent : ∀ parentId, request.parentRunId = some parentId → (s.runs parentId).isSome = true)
    (hreverifies : s.runs (plan env request c.readiness c.source).id = none →
      (plan env request c.readiness c.source).automaticExecutionAllowed = true →
      (parentStep env (parentRunForRetry s request.parentRunId) "verify_readiness").isSome = true →
      ∀ step ∈ (plan env request c.readiness c.source).steps, step.mutatesState = true →
        (parentStep env (parentRunForRetry s request.parentRunId) step.code).isSome = true) :
    Verifying (start env s request c).1 := by
  unfold Recovery.start
  simp only
  split
  · exact hs
  · rename_i hfree
    split
    · have hblocked : Verifying ⟨Function.update s.runs (plan env request c.readiness c.source).id
          (some (blockedRun (plan env request c.readiness c.source))), s.log ++ []⟩ :=
        hs.add hfree hparent (by simp) (by simp [blockedRun]) (by simp [blockedRun])
      rwa [List.append_nil] at hblocked
    · rename_i hallowed
      have hallowed : (plan env request c.readiness c.source).automaticExecutionAllowed = true := by simpa using hallowed
      have hsteps := allowed_steps hallowed
      generalize hplan : plan env request c.readiness c.source = recoveryPlan at *
      cases hloop : runSteps env recoveryPlan (parentRunForRetry s request.parentRunId) c.callbacks ⟨none, [], [], [], []⟩
        recoveryPlan.steps with
      | mk p error =>
        obtain ⟨called, added, hlog, -, hcalled, -⟩ := runSteps_gathers env recoveryPlan
          (parentRunForRetry s request.parentRunId) c.callbacks ⟨none, [], [], [], []⟩ recoveryPlan.steps
        rw [hloop, List.nil_append] at hlog
        have hlink : recoveryPlan.parentRunId = request.parentRunId := by rw [← hplan]; rfl
        have hbefore : ∀ step ∈ snapshotStep :: repairSteps c.readiness.warnings, step.code ≠ "verify_readiness" := by
          intro step hstep
          obtain rfl | hstep := List.mem_cons.mp hstep
          · decide
          · obtain rfl | rfl := repairSteps_mutate hstep <;> decide
        have hverifies := runSteps_verifies hbefore rfl (hsteps ▸ hloop)
        refine hs.add hfree (by rwa [finishedRun, hlink]) (fun e he => (hcalled e (hlog ▸ he)).1) ?_ ?_
        · intro hresult
          simp [finishedRun, hverifies.2 hresult]
        · intro hstatus
          have hnone : error = none := by
            cases error with
            | none => rfl
            | some error => simp [finishedRun] at hstatus
          obtain hskipped | ⟨before, e, hlast, -, hverified⟩ := hverifies.1 hnone
          · refine .inr ⟨?_, ?_⟩
            · intro e he
              obtain ⟨-, step, hstep, hcode, hexecuted⟩ := hcalled e (hlog ▸ he)
              by_contra hmutates
              have hrebuild : step.mutatesState = true :=
                step_mutates (hsteps ▸ hstep) (by simpa using hmutates) hcode
              have htaken := hreverifies hfree hallowed hskipped step hstep hrebuild
              simp [hexecuted] at htaken
            · obtain ⟨parentId, parent, hid, hstored, hdone⟩ := hs.parent_completed hskipped
              exact ⟨parentId, parent, hlink.trans hid, hstored, hdone⟩
          · exact .inl ⟨before, e, hlast, hverified⟩

theorem Verifying.step (hs : Verifying s) {env : RecoveryEnvironment} {call : RecoveryCall} {s' : RecoveryStore}
    (hok : reverifies env s call = true) (h : recoveryStep env s call = some s') : Verifying s' := by
  cases call with
  | start trigger actor idempotencyKey c =>
    cases h
    apply hs.start
    · simp
    · intro _ _ hskipped
      simp [parentRunForRetry, parentStep_none] at hskipped
  | retry parentRunId request c =>
    cases h
    unfold retry
    split
    · exact hs
    · rename_i parent hparent
      apply hs.start
      · intro parentId hid
        cases hid
        exact Option.isSome_of_eq_some hparent
      · intro hfree hallowed hskipped step hstep hmutates
        have hfor : parentRunForRetry s (retryRequest parentRunId request).parentRunId = s.runs parentRunId := rfl
        rw [hfor] at hskipped ⊢
        simp only [reverifies, hfree, hallowed, Option.isNone_eq_false_iff.mpr hskipped, Option.isSome_none, Bool.not_true,
          Bool.or_self, Bool.false_or, List.all_eq_true] at hok
        simpa [hmutates] using hok step hstep

/-- In every sequence of starts and retries in which no retry takes the verification over from its parent while it
rebuilds something itself, a completed run has verified after the last rebuild of its attempts. -/
theorem completed_runs_verified {env : RecoveryEnvironment} {id : String} {run : RecoveryRun}
    (h : Run.Guarded (recoveryStep env) (fun s call => reverifies env s call = true) .empty s)
    (hrun : s.runs id = some run) (hstatus : run.status = .completed) : VerifiedLast s.log (Attempt s.runs id) := by
  have verifying : Verifying s := h.invariant verifying_empty fun _ _ _ ha hok hstep => ha.step hok hstep
  exact verifying.completed id run hrun hstatus

end Store

/-! ## A verification that is taken over -/

/-- A run rebuilds the vault index and verifies; its retry rebuilds the embeddings. -/
def takenOver : List RecoveryCall :=
  [.start "manual" "operator" (some "k") (demoCircumstances "rag_fts_not_healthy"),
   .retry "heterarchy-alexandria:recovery:postgresql:k" ⟨"retry", "operator", some "r", none⟩
     (demoCircumstances "rag_vector_not_healthy")]

theorem not_verified_of_mutates {e : StepExecution} (h : e.mutates = true) : e.verified = false := by
  unfold StepExecution.mutates at h
  unfold StepExecution.verified
  rw [Bool.or_eq_true, beq_iff_eq, beq_iff_eq] at h
  obtain h | h := h
  · rw [h]
    rfl
  · rw [h]
    rfl

/-- A log that ends with a rebuild of the attempts is not verified. -/
theorem not_verifiedLast_of_last {log : List StepExecution} {attempt : String → Prop} {x : StepExecution}
    (hlast : log.getLast? = some x) (hattempt : attempt x.runId) (hmutates : x.mutates = true) :
    ¬ VerifiedLast log attempt := by
  rintro ⟨before, e, after, rfl, -, hverified, hafter⟩
  cases after with
  | nil =>
    obtain rfl : e = x := by simpa using hlast
    rw [not_verified_of_mutates hmutates] at hverified
    cases hverified
  | cons first rest =>
    have hmem : x ∈ first :: rest := by
      apply List.mem_of_getLast?
      rw [← hlast]
      simp [List.getLast?_append, List.getLast?_cons]
    rw [hafter x hmem hattempt] at hmutates
    cases hmutates

theorem takenOver_ends :
    ((Run.exec (recoveryStep demoEnvironment) .empty takenOver).map fun s =>
      ((s.runs "heterarchy-alexandria:recovery:postgresql:r").map (·.status),
        s.log.getLast?.map fun e => (e.runId, e.mutates))) =
      some (some .completed, some ("heterarchy-alexandria:recovery:postgresql:r", true)) := by
  decide

/-- A completed run need not have verified after the last rebuild of its attempts. -/
theorem completed_run_unverified : ¬ ∀ (env : RecoveryEnvironment) (s : RecoveryStore),
    Run.Runs (recoveryStep env) .empty s → ∀ id run, s.runs id = some run → run.status = .completed →
      VerifiedLast s.log (Attempt s.runs id) := by
  intro verified
  obtain ⟨s, hs, h⟩ := Option.map_eq_some_iff.mp takenOver_ends
  simp only [Prod.mk.injEq] at h
  obtain ⟨run, hrun, hstatus⟩ := Option.map_eq_some_iff.mp h.1
  obtain ⟨e, hlast, he⟩ := Option.map_eq_some_iff.mp h.2
  simp only [Prod.mk.injEq] at he
  refine not_verifiedLast_of_last hlast ?_ he.2 (verified _ s (.of_exec _ hs) _ run hrun hstatus)
  rw [he.1]
  exact .self _

/-- A run rebuilds the vault index and verifies; its retry finds nothing else to do. -/
def takenOverWhole : List RecoveryCall :=
  [.start "manual" "operator" (some "k") (demoCircumstances "rag_fts_not_healthy"),
   .retry "heterarchy-alexandria:recovery:postgresql:k" ⟨"retry", "operator", some "r", none⟩
     (demoCircumstances "rag_fts_not_healthy")]

theorem takenOverWhole_ends :
    ((Run.exec (Run.checked (recoveryStep demoEnvironment) (reverifies demoEnvironment)) .empty takenOverWhole).map fun s =>
      (s.runs "heterarchy-alexandria:recovery:postgresql:r").map (·.status)) = some (some .completed) := by
  decide

theorem completed_runs_verified_retried : ∃ s : RecoveryStore,
    VerifiedLast s.log (Attempt s.runs "heterarchy-alexandria:recovery:postgresql:r") := by
  obtain ⟨s, hs, h⟩ := Option.map_eq_some_iff.mp takenOverWhole_ends
  obtain ⟨run, hrun, hstatus⟩ := Option.map_eq_some_iff.mp h
  exact ⟨s, completed_runs_verified (.of_exec (fun _ _ => id) _ hs) hrun hstatus⟩

end Alexandria.Recovery
