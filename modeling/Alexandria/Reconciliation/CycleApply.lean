import Alexandria.Reconciliation.Conflicts
import Alexandria.Reconciliation.CyclePlan

/-! # The child plans that a cycle executes

An apply computes the preview again and goes on only if its hash is the expected one. Then it takes up one child after
another: it looks for a plan under the child's idempotency key, stores the child if there is none, and executes what is
stored. The key names the Context and its content, so an older plan for the same content is executed in place of the
child that was approved.
-/

namespace Alexandria.Reconciliation
set_option autoImplicit false
open Text Phases

/-! ## The loop over the children -/

/-- What was done about one child: the store when it was taken up, and the plan that was executed, if any. -/
structure ChildStep where
  child : MemoryReconciliationPlan
  repository : Repository
  executed : Option MemoryReconciliationPlan

structure CycleProgress (W : Type) where
  world : W
  repository : Repository
  outcomes : List MemoryCycleChildOutcome
  steps : List ChildStep

/-- Why the loop stops: a child raised, or its result was not APPLIED. -/
inductive ChildStop
  | raised
  | notApplied (status : MemoryReconciliationStatus)

def reviewChildOutcome (plan : MemoryReconciliationPlan) : MemoryCycleChildOutcome where
  childPlanKey := plan.idempotencyKey
  planId := some plan.planId
  resultId := none
  relation := plan.primaryDecision
  status := .reviewRequired
  requiresReview := true
  warnings := plan.warnings
  affectedContextIds := []

def appliedChildOutcome (plan : MemoryReconciliationPlan) (result : MemoryReconciliationResult) :
    MemoryCycleChildOutcome where
  childPlanKey := plan.idempotencyKey
  planId := some plan.planId
  resultId := some result.reconciliationId
  relation := plan.primaryDecision
  status := result.status
  requiresReview := plan.requiresReview
  warnings := result.warnings
  affectedContextIds := dedupe (result.createdContextIds ++ result.updatedContextIds ++ result.supersededContextIds)

/-- The plan under the child's key, which is the child itself if there was none. -/
def persistChild (repository : Repository) (child : MemoryReconciliationPlan) :
    Except ApplyException (MemoryReconciliationPlan × Repository) :=
  match repository.getPlanByIdempotencyKey child.idempotencyKey with
  | some stored => .ok (stored, repository)
  | none => repository.savePlan child

/-- The cycle applies a plan without a reviewer, and does not retry. -/
def childRequest (planId : String) : ApplyRequest := ⟨planId, false, false, none⟩

section Children
variable {W : Type} (gateway : CanonicalGateway W) (platform : Platform)

/-- One round of the loop. A child that raises is rolled back to the store it was taken up in. -/
def takeChild (child : MemoryReconciliationPlan) : Phase (CycleProgress W) ChildStop := fun p =>
  match persistChild p.repository child with
  | .error _ => .error (.raised, { p with steps := p.steps ++ [⟨child, p.repository, none⟩] })
  | .ok (persisted, repository) =>
    if persisted.requiresReview then
      .ok { p with
        repository := repository
        outcomes := p.outcomes ++ [reviewChildOutcome persisted]
        steps := p.steps ++ [⟨child, p.repository, none⟩] }
    else
      let outcome := apply gateway platform (childRequest persisted.planId) p.world repository
      let taken := { p with
        world := outcome.world
        steps := p.steps ++ [⟨child, p.repository, executedPlan repository (childRequest persisted.planId)⟩] }
      match outcome.response with
      | .raised => .error (.raised, taken)
      | .returned result =>
        let noted := { taken with
          repository := outcome.repository, outcomes := p.outcomes ++ [appliedChildOutcome persisted result] }
        if result.status = .applied then .ok noted else .error (.notApplied result.status, noted)

def takeChildren (children : List MemoryReconciliationPlan) : Phase (CycleProgress W) ChildStop :=
  Phase.sequence (children.map (takeChild gateway platform))

/-- What is stored about an earlier apply with the same idempotency key. -/
structure MemoryCycleCheckpoint where
  planHash : String
  verified : Bool

inductive CycleResponse (W : Type)
  | refused (message : String)
  | replayed
  /-- The children were taken up, all of them or until one stopped the loop. -/
  | admitted (preview : CyclePreview) (progress : CycleProgress W) (stop : Option ChildStop)

/-- `_apply` up to the last child. -/
def cycleApply (digests : CycleDigests) (sources : CycleSources) (checkpoint : Option MemoryCycleCheckpoint)
    (request : MemoryCycleRequest) (world : W) (repository : Repository) : CycleResponse W :=
  match request.expectedPlanHash with
  | none => .refused "MEMORY_CYCLE_PLAN_HASH_REQUIRED: apply requires expected_plan_hash"
  | some expected =>
    match checkpoint with
    | some checkpoint =>
      if checkpoint.planHash ≠ expected then
        .refused "MEMORY_CYCLE_IDEMPOTENCY_CONFLICT: checkpoint plan hash differs"
      else if checkpoint.verified then .replayed
      else
        .refused ("MEMORY_CYCLE_RECOVERY_REQUIRED: durable checkpoint readback did not match canonical source, child " ++
          "results, or Compact")
    | none =>
      match cyclePreview platform digests sources repository request with
      | .error message => .refused message
      | .ok preview =>
        if preview.planHash ≠ expected then
          .refused ("MEMORY_CYCLE_STALE_PLAN: source or current Compact changed since dry-run; create a new plan")
        else
          let (progress, stop) := (takeChildren gateway platform preview.plans).run ⟨world, repository, [], []⟩
          .admitted preview progress stop

end Children

/-! ## One child -/

section Child
variable {repository : Repository} {child : MemoryReconciliationPlan}

/-- The plan that taking up the child executes. -/
def executedChild (repository : Repository) (child : MemoryReconciliationPlan) : Option MemoryReconciliationPlan :=
  match persistChild repository child with
  | .error _ => none
  | .ok (persisted, repository) =>
    if persisted.requiresReview then none else executedPlan repository (childRequest persisted.planId)

/-- The plan is the approved one in what it does. -/
structure SamePlan (approved plan : MemoryReconciliationPlan) : Prop where
  candidate : plan.candidate = approved.candidate
  decisions : plan.decisions = approved.decisions
  actions : plan.actions = approved.actions
  review : plan.requiresReview = approved.requiresReview

theorem SamePlan.refl (plan : MemoryReconciliationPlan) : SamePlan plan plan := ⟨rfl, rfl, rfl, rfl⟩

/-- A plan that is stored under the key of the child requires review, has been applied before, or is the approved one. -/
def StoredAsApproved (repository : Repository) (child : MemoryReconciliationPlan) : Prop :=
  ∀ stored, repository.getPlanByIdempotencyKey child.idempotencyKey = some stored →
    stored.requiresReview = true ∨ (repository.getResultByPlanId stored.planId).isSome = true ∨ SamePlan child stored

/-- `plan_id` is the primary key of the table. -/
def PlanIdsDistinct (repository : Repository) : Prop := (repository.plans.map (·.planId)).Nodup

/-- The child is stored when its key and its identifier are new. -/
theorem persistChild_eq_ok {persisted : MemoryReconciliationPlan} {saved : Repository}
    (h : persistChild repository child = .ok (persisted, saved)) :
    (repository.getPlanByIdempotencyKey child.idempotencyKey = some persisted ∧ saved = repository) ∨
      (repository.getPlanByIdempotencyKey child.idempotencyKey = none ∧ repository.getPlan child.planId = none ∧
        persisted = child ∧ saved = { repository with plans := repository.plans ++ [child] }) := by
  unfold persistChild Repository.savePlan at h
  cases hstored : repository.getPlanByIdempotencyKey child.idempotencyKey with
  | some stored =>
    rw [hstored] at h
    cases h
    exact .inl ⟨rfl, rfl⟩
  | none =>
    rw [hstored] at h
    simp only at h
    split at h
    · cases h
    · rename_i hfree
      cases h
      exact .inr ⟨rfl, Option.not_isSome_iff_eq_none.mp hfree, rfl, rfl⟩

/-- The plans by their keys are those of before, with the child behind them. -/
theorem persistChild_lookup {persisted : MemoryReconciliationPlan} {saved : Repository}
    (h : persistChild repository child = .ok (persisted, saved)) (key : String) :
    saved.getPlanByIdempotencyKey key = Keyed.lookup (·.idempotencyKey) key (repository.plans ++ [child]) := by
  obtain ⟨hstored, rfl⟩ | ⟨-, -, -, rfl⟩ := persistChild_eq_ok h
  · rw [Keyed.lookup_append]
    by_cases hkey : child.idempotencyKey = key
    · subst hkey
      have hlookup : Keyed.lookup (·.idempotencyKey) child.idempotencyKey saved.plans = some persisted := hstored
      rw [hlookup]
      exact hstored
    · have hchild : Keyed.lookup (·.idempotencyKey) key [child] = none := by
        simp [Keyed.lookup, hkey]
      rw [hchild, Option.or_none]
      rfl
  · rfl

theorem PlanIdsDistinct.persistChild {persisted : MemoryReconciliationPlan} {saved : Repository}
    (hdistinct : PlanIdsDistinct repository) (h : persistChild repository child = .ok (persisted, saved)) :
    PlanIdsDistinct saved := by
  obtain ⟨-, rfl⟩ | ⟨-, hnew, -, rfl⟩ := persistChild_eq_ok h
  · exact hdistinct
  · unfold PlanIdsDistinct
    simp only [List.map_append, List.map_cons, List.map_nil]
    refine hdistinct.append (List.nodup_singleton _) (List.disjoint_singleton.mpr ?_)
    intro hmem
    obtain ⟨plan, hplan, hid⟩ := List.mem_map.mp hmem
    exact Keyed.lookup_eq_none.mp hnew plan hplan hid

/-- What is persisted for a child is found by its identifier and has the child's key. -/
theorem getPlan_persistChild {persisted : MemoryReconciliationPlan} {saved : Repository}
    (hdistinct : PlanIdsDistinct repository) (h : persistChild repository child = .ok (persisted, saved)) :
    saved.getPlan persisted.planId = some persisted ∧ persisted.idempotencyKey = child.idempotencyKey := by
  have hsaved := hdistinct.persistChild h
  obtain ⟨hstored, rfl⟩ | ⟨-, -, rfl, rfl⟩ := persistChild_eq_ok h
  · obtain ⟨hmem, hkey⟩ := Keyed.lookup_mem hstored
    exact ⟨(Keyed.lookup_eq_some hsaved).mpr ⟨hmem, rfl⟩, hkey⟩
  · exact ⟨(Keyed.lookup_eq_some hsaved).mpr ⟨List.mem_append_right _ (List.mem_singleton_self _), rfl⟩, rfl⟩

theorem executedPlan_childRequest {plan : MemoryReconciliationPlan} (hplan : repository.getPlan plan.planId = some plan)
    (hreview : plan.requiresReview = false) : executedPlan repository (childRequest plan.planId) =
      if (repository.getResultByPlanId plan.planId).isSome then none else some plan := by
  have hreused : reusedResult repository (childRequest plan.planId) = repository.getResultByPlanId plan.planId := by
    unfold reusedResult childRequest
    cases repository.getResultByPlanId plan.planId <;> simp
  unfold executedPlan
  simp only [childRequest] at hreused ⊢
  rw [hplan]
  simp only [hreused, validatedReviewer, hreview, if_true, Option.isNone_some, Bool.false_eq_true, if_false]

/-- The persisted plan is executed unless it requires review or has a result. -/
theorem executedChild_eq {persisted : MemoryReconciliationPlan} {saved : Repository}
    (hdistinct : PlanIdsDistinct repository) (h : persistChild repository child = .ok (persisted, saved)) :
    executedChild repository child =
      if persisted.requiresReview = true ∨ (saved.getResultByPlanId persisted.planId).isSome = true then none
      else some persisted := by
  unfold executedChild
  rw [h]
  simp only
  cases hreview : persisted.requiresReview with
  | true => simp
  | false => simp [executedPlan_childRequest (getPlan_persistChild hdistinct h).1 hreview]

theorem executedChild_key (hdistinct : PlanIdsDistinct repository) {plan : MemoryReconciliationPlan}
    (h : executedChild repository child = some plan) : plan.idempotencyKey = child.idempotencyKey := by
  cases hpersist : persistChild repository child with
  | error exc =>
    unfold executedChild at h
    rw [hpersist] at h
    cases h
  | ok answer =>
    obtain ⟨persisted, saved⟩ := answer
    rw [executedChild_eq hdistinct hpersist] at h
    split at h
    · cases h
    · obtain rfl := Option.some.inj h
      exact (getPlan_persistChild hdistinct hpersist).2

/-- Taking up a child executes only the approved plan exactly when what is stored is as approved. -/
theorem executedChild_same_iff (hdistinct : PlanIdsDistinct repository) :
    (∀ plan, executedChild repository child = some plan → SamePlan child plan) ↔ StoredAsApproved repository child := by
  cases hpersist : persistChild repository child with
  | error exc =>
    have hnone : executedChild repository child = none := by
      unfold executedChild
      rw [hpersist]
    refine iff_of_true ?_ ?_
    · intro plan hplan
      cases hnone.symm.trans hplan
    · intro stored hstored
      unfold persistChild at hpersist
      rw [hstored] at hpersist
      cases hpersist
  | ok answer =>
    obtain ⟨persisted, saved⟩ := answer
    rw [executedChild_eq hdistinct hpersist]
    unfold StoredAsApproved
    obtain ⟨hstored, rfl⟩ | ⟨hnew, -, rfl, -⟩ := persistChild_eq_ok hpersist
    · simp only [hstored, Option.some.injEq, forall_eq']
      by_cases hskipped : persisted.requiresReview = true ∨ (saved.getResultByPlanId persisted.planId).isSome = true
      · simp only [hskipped, if_true]
        refine iff_of_true ?_ ?_
        · intro plan hplan
          cases hplan
        · exact hskipped.imp_right .inl
      · simp only [hskipped, if_false, Option.some.injEq, forall_eq']
        rw [← or_assoc, or_iff_right hskipped]
    · simp only [hnew, reduceCtorEq, false_imp_iff, implies_true, iff_true]
      intro plan hplan
      split at hplan
      · cases hplan
      · obtain rfl := Option.some.inj hplan
        exact .refl _

end Child

/-! ## The whole loop -/

section Loop
variable {W : Type} {gateway : CanonicalGateway W} {platform : Platform} {child : MemoryReconciliationPlan}
  {children : List MemoryReconciliationPlan} {p t : CycleProgress W}

variable (gateway platform child p) in
/-- Every round leaves a record of the child, the store it found and the plan it executed. -/
theorem takeChild_steps : ((takeChild gateway platform child).run p).1.steps =
    p.steps ++ [⟨child, p.repository, executedChild p.repository child⟩] := by
  unfold Phase.run takeChild executedChild
  cases persistChild p.repository child with
  | error exc => rfl
  | ok answer =>
    obtain ⟨persisted, saved⟩ := answer
    simp only
    cases persisted.requiresReview with
    | true => rfl
    | false =>
      simp only [Bool.false_eq_true, if_false]
      cases (apply gateway platform (childRequest persisted.planId) p.world saved).response with
      | raised => rfl
      | returned result =>
        simp only
        by_cases hstatus : result.status = .applied <;> simp [hstatus]

theorem apply_plansKept (request : ApplyRequest) (world : W) (repository : Repository) :
    PlansKept repository (apply gateway platform request world repository).repository := by
  obtain ⟨plan, reviewedBy, -, -, hoccurs⟩ | ⟨-, hrepository, -⟩ := apply_cases gateway platform request world repository
  · rw [hoccurs]
    exact applyPlan_plansKept gateway reviewedBy world
  · rw [hrepository]
    exact .refl repository

/-- A round that does not stop the loop has persisted the child. -/
theorem takeChild_eq_ok (h : takeChild gateway platform child p = .ok t) :
    ∃ persisted saved, persistChild p.repository child = .ok (persisted, saved) ∧ PlansKept saved t.repository := by
  unfold takeChild at h
  cases hpersist : persistChild p.repository child with
  | error exc =>
    rw [hpersist] at h
    cases h
  | ok answer =>
    obtain ⟨persisted, saved⟩ := answer
    refine ⟨persisted, saved, rfl, ?_⟩
    rw [hpersist] at h
    simp only at h
    split at h
    · cases h
      exact .refl saved
    · split at h
      · cases h
      · split at h
        · cases h
          exact apply_plansKept _ _ _
        · cases h

/-- What the store holds when a child is taken up: by their keys the plans of before with the children that came first,
and a result for every plan that had one before. -/
structure TakenUp (before : Repository) (children : List MemoryReconciliationPlan) (step : ChildStep) : Prop where
  distinct : PlanIdsDistinct step.repository
  executed : step.executed = executedChild step.repository step.child
  plans : ∃ done rest, children = done ++ step.child :: rest ∧ ∀ key, step.repository.getPlanByIdempotencyKey key =
    Keyed.lookup (·.idempotencyKey) key (before.plans ++ done)
  results : ∀ planId, (before.getResultByPlanId planId).isSome = true →
    (step.repository.getResultByPlanId planId).isSome = true

/-- A child that is taken up after the first one was taken up from the store. -/
theorem TakenUp.after {before saved between : Repository} {persisted : MemoryReconciliationPlan} {step : ChildStep}
    (hpersist : persistChild before child = .ok (persisted, saved)) (hkept : PlansKept saved between)
    (h : TakenUp between children step) : TakenUp before (child :: children) step where
  distinct := h.distinct
  executed := h.executed
  plans := by
    obtain ⟨done, rest, rfl, hplans⟩ := h.plans
    refine ⟨child :: done, rest, rfl, ?_⟩
    intro key
    have hsaved : Keyed.lookup (·.idempotencyKey) key saved.plans =
        Keyed.lookup (·.idempotencyKey) key (before.plans ++ [child]) := persistChild_lookup hpersist key
    rw [hplans, hkept.plans, Keyed.lookup_append, hsaved, ← Keyed.lookup_append, List.append_assoc]
    rfl
  results := by
    intro planId hsome
    refine h.results planId (hkept.results planId ?_)
    obtain ⟨-, rfl⟩ | ⟨-, -, -, rfl⟩ := persistChild_eq_ok hpersist
    · exact hsome
    · exact hsome

theorem TakenUp.first (hdistinct : PlanIdsDistinct p.repository) : TakenUp p.repository (child :: children)
    ⟨child, p.repository, executedChild p.repository child⟩ where
  distinct := hdistinct
  executed := rfl
  plans := by
    refine ⟨[], children, rfl, ?_⟩
    intro key
    rw [List.append_nil]
    rfl
  results := fun _ h => h

theorem takeChildren_steps (hdistinct : PlanIdsDistinct p.repository) {step : ChildStep}
    (hstep : step ∈ ((takeChildren gateway platform children).run p).1.steps) :
    step ∈ p.steps ∨ TakenUp p.repository children step := by
  unfold takeChildren at hstep
  induction children generalizing p with
  | nil => exact .inl hstep
  | cons child children ih =>
    have hsteps := takeChild_steps gateway platform child p
    have htaken : step ∈ ((takeChild gateway platform child).run p).1.steps →
        step ∈ p.steps ∨ TakenUp p.repository (child :: children) step := by
      intro hmem
      rw [hsteps, List.mem_append, List.mem_singleton] at hmem
      obtain hmem | rfl := hmem
      · exact .inl hmem
      · exact .inr (.first hdistinct)
    rw [List.map_cons] at hstep
    cases hrun : takeChild gateway platform child p with
    | error failure =>
      obtain ⟨stop, t⟩ := failure
      rw [Phase.run_cons_error hrun] at hstep
      refine htaken ?_
      unfold Phase.run
      rw [hrun]
      exact hstep
    | ok t =>
      rw [Phase.run_cons_ok hrun] at hstep
      obtain ⟨persisted, saved, hpersist, hkept⟩ := takeChild_eq_ok hrun
      have hdistinct' : PlanIdsDistinct t.repository := by
        unfold PlanIdsDistinct
        rw [hkept.plans]
        exact hdistinct.persistChild hpersist
      obtain hmem | hlater := ih hdistinct' hstep
      · refine htaken ?_
        unfold Phase.run
        rw [hrun]
        exact hmem
      · exact .inr (hlater.after hpersist hkept)

/-! ## What is executed -/

/-- The condition on the store before the apply and on the children: the first plan under the key of a child, stored or
among the children, requires review, has a result, or is the same as the child. -/
def ChildrenAsApproved (before : Repository) (children : List MemoryReconciliationPlan) : Prop :=
  ∀ child ∈ children, ∀ stored,
    Keyed.lookup (·.idempotencyKey) child.idempotencyKey (before.plans ++ children) = some stored →
    stored.requiresReview = true ∨ (before.getResultByPlanId stored.planId).isSome = true ∨ SamePlan child stored

theorem TakenUp.storedAsApproved {before : Repository} {step : ChildStep} (h : TakenUp before children step)
    (happroved : ChildrenAsApproved before children) : StoredAsApproved step.repository step.child := by
  obtain ⟨done, rest, rfl, hplans⟩ := h.plans
  intro stored hstored
  rw [hplans] at hstored
  have hfirst : Keyed.lookup (·.idempotencyKey) step.child.idempotencyKey
      (before.plans ++ (done ++ step.child :: rest)) = some stored := by
    rw [← List.append_assoc, Keyed.lookup_append, hstored]
    rfl
  obtain hreview | hresult | hsame := happroved step.child (by simp) stored hfirst
  · exact .inl hreview
  · exact .inr (.inl (h.results stored.planId hresult))
  · exact .inr (.inr hsame)

theorem cycleApply_eq_admitted {digests : CycleDigests} {sources : CycleSources}
    {checkpoint : Option MemoryCycleCheckpoint} {request : MemoryCycleRequest} {world : W} {repository : Repository}
    {preview : CyclePreview} {progress : CycleProgress W} {stop : Option ChildStop}
    (h : cycleApply gateway platform digests sources checkpoint request world repository =
      .admitted preview progress stop) :
    request.expectedPlanHash = some preview.planHash ∧
      cyclePreview platform digests sources repository request = .ok preview ∧
      progress = ((takeChildren gateway platform preview.plans).run ⟨world, repository, [], []⟩).1 := by
  unfold cycleApply at h
  split at h
  · cases h
  · rename_i expected hexpected
    split at h
    · repeat' split at h
      all_goals cases h
    · split at h
      · cases h
      · rename_i hpreview
        split at h
        · cases h
        · rename_i hhash
          cases h
          rw [ne_eq, not_not] at hhash
          exact ⟨hexpected.trans (congrArg some hhash.symm), hpreview, rfl⟩

end Loop

/-- In every apply of a cycle that is admitted with the hash of its preview, whatever is stored and whatever the gateway
does: each child that was taken up belongs to the preview, and what was executed for it has its key; the executed plans
are the approved ones exactly when each child found what is stored under its key as it was approved; and this is so if
the store before the apply already was as approved. -/
theorem cycle_executes_approved_iff {W : Type} (gateway : CanonicalGateway W) (platform : Platform)
    (digests : CycleDigests) (sources : CycleSources) (checkpoint : Option MemoryCycleCheckpoint)
    (request : MemoryCycleRequest) (world : W) (repository : Repository) (preview : CyclePreview)
    (progress : CycleProgress W) (stop : Option ChildStop) (hdistinct : PlanIdsDistinct repository)
    (hadmitted : cycleApply gateway platform digests sources checkpoint request world repository =
      .admitted preview progress stop) :
    request.expectedPlanHash = some preview.planHash ∧
      (∀ step ∈ progress.steps, step.child ∈ preview.plans ∧
        ∀ plan, step.executed = some plan → plan.idempotencyKey = step.child.idempotencyKey) ∧
      ((∀ step ∈ progress.steps, ∀ plan, step.executed = some plan → SamePlan step.child plan) ↔
        ∀ step ∈ progress.steps, StoredAsApproved step.repository step.child) ∧
      (ChildrenAsApproved repository preview.plans →
        ∀ step ∈ progress.steps, ∀ plan, step.executed = some plan → SamePlan step.child plan) := by
  obtain ⟨hhash, -, rfl⟩ := cycleApply_eq_admitted hadmitted
  have htaken : ∀ step ∈ ((takeChildren gateway platform preview.plans).run ⟨world, repository, [], []⟩).1.steps,
      TakenUp repository preview.plans step := by
    intro step hstep
    obtain hmem | htaken := takeChildren_steps hdistinct hstep
    · cases hmem
    · exact htaken
  refine ⟨hhash, ?_, ?_, ?_⟩
  · intro step hstep
    have hstepTaken := htaken step hstep
    obtain ⟨done, rest, hplans, -⟩ := hstepTaken.plans
    refine ⟨hplans ▸ List.mem_append_right _ (List.mem_cons_self ..), ?_⟩
    intro plan hplan
    exact executedChild_key hstepTaken.distinct (hstepTaken.executed ▸ hplan)
  · refine forall₂_congr ?_
    intro step hstep
    rw [(htaken step hstep).executed]
    exact executedChild_same_iff (htaken step hstep).distinct
  · intro happroved step hstep
    have hstepTaken := htaken step hstep
    rw [hstepTaken.executed]
    exact (executedChild_same_iff hstepTaken.distinct).mpr (hstepTaken.storedAsApproved happroved)

/-! ## An older plan under the same key -/

/-- A note about the port of the service. -/
def portNote (id content relativePath : String) : ContextRecord :=
  let note := noteContext id "service port" content relativePath
  { note with
    metadata := { note.metadata with canonicalClaims := [⟨"service", "port", "8080", [], .positive⟩] } }

def scannedNote : ContextRecord := portNote "obsidian:a" "the service listens on port 8080." "a.md"

def supportingNote : ContextRecord := portNote "obsidian:b" "port 8080 is the port of the service." "b.md"

/-- A note that was found when the older plan was made, and is not found any more. -/
def formerNote : ContextRecord := portNote "obsidian:c" "8080 is where the service listens." "c.md"

def portReader : SourceReader where
  readNote noteId :=
    if noteId = "a" then some ⟨"a", "a.md", "the service listens on port 8080.", "", .indexed⟩
    else if noteId = "b" then some ⟨"b", "b.md", "port 8080 is the port of the service.", "", .indexed⟩
    else none
  getContext _ := none
  noteRevision note := note.contentHash
  contextRevision context := context.content

/-- The window has one note, for which the search finds another one. -/
def portSources : CycleSources where
  pages _ offset := if offset = 0 then ([scannedNote], 1) else ([], 1)
  search _ := [scannedNote, supportingNote]
  provider := none
  reader := portReader
  currentCompact := none
  planIds id := "new-" ++ id

/-- Digests that keep the keys and the targets of the children. -/
def portDigests : CycleDigests where
  isoformat _ := "1970-01-01T00:00:00+00:00"
  sourceSetHash sourceRefs := " ".intercalate (sourceRefs.map (·.sourceId))
  planHash plan :=
    " ".intercalate (plan.children.flatMap fun child => child.idempotencyKey :: child.decisions.map (·.existingContextId))

def portRequest : MemoryCycleRequest where
  project := "alexandria"
  workspaceId := none
  scope := .project
  windowStart := 0
  windowEnd := 10
  maxContexts := 100
  idempotencyKey := "cycle-1"
  expectedPlanHash := some "existing-memory:obsidian:a:the service listens on port 8080. obsidian:b"

/-- The store with the plan of an earlier scan, which was not applied. -/
def storeWithFormerPlan : Repository :=
  { Repository.empty with
    plans := (previewsOf samplePlatform (fun _ => [scannedNote, formerNote]) [scannedNote]).filterMap (·.plan) }

/-- The targets of each child that was taken up, and of the plan that was executed for it. -/
def executedTargets : CycleResponse Unit → Option (List (List String × Option (List String)))
  | .admitted _ progress _ => some (progress.steps.map fun step => (step.child.decisions.map (·.existingContextId),
      step.executed.map fun plan => plan.decisions.map (·.existingContextId)))
  | _ => none

theorem formerPlan_executed :
    executedTargets (cycleApply acceptingGateway samplePlatform portDigests portSources none portRequest ()
      storeWithFormerPlan) = some [(["obsidian:b"], some ["obsidian:c"])] ∧
    storeWithFormerPlan.plans.map (·.planId) = ["plan-obsidian:a"] := by
  constructor <;> decide +kernel

theorem storeWithFormerPlan_distinct : PlanIdsDistinct storeWithFormerPlan := by
  have hids := formerPlan_executed.2
  unfold PlanIdsDistinct
  rw [hids]
  exact List.nodup_singleton _

/-- The cycle is admitted with a child that supports the second note, and executes the older plan for the third one. -/
theorem cycle_executes_former_plan :
    ¬ ∀ (W : Type) (gateway : CanonicalGateway W) (platform : Platform) (digests : CycleDigests) (sources : CycleSources)
      (checkpoint : Option MemoryCycleCheckpoint) (request : MemoryCycleRequest) (world : W) (repository : Repository)
      (preview : CyclePreview) (progress : CycleProgress W) (stop : Option ChildStop), PlanIdsDistinct repository →
      cycleApply gateway platform digests sources checkpoint request world repository =
        .admitted preview progress stop →
      ∀ step ∈ progress.steps, ∀ plan, step.executed = some plan → SamePlan step.child plan := by
  intro approved
  cases hresponse : cycleApply acceptingGateway samplePlatform portDigests portSources none portRequest ()
      storeWithFormerPlan with
  | refused message => simpa [executedTargets, hresponse] using formerPlan_executed.1
  | replayed => simpa [executedTargets, hresponse] using formerPlan_executed.1
  | admitted preview progress stop =>
    have hsteps : progress.steps.map (fun step => (step.child.decisions.map (·.existingContextId),
        step.executed.map fun plan => plan.decisions.map (·.existingContextId))) =
        [(["obsidian:b"], some ["obsidian:c"])] := by
      simpa [executedTargets, hresponse] using formerPlan_executed.1
    obtain ⟨step, hstep, htargets⟩ := List.mem_map.mp (hsteps ▸ List.mem_singleton_self _)
    obtain ⟨hchild, hexecuted⟩ := Prod.mk.inj htargets
    obtain ⟨plan, hplan, hformer⟩ := Option.map_eq_some_iff.mp hexecuted
    have hsame := approved Unit acceptingGateway samplePlatform portDigests portSources none portRequest ()
      storeWithFormerPlan preview progress stop storeWithFormerPlan_distinct hresponse step hstep plan hplan
    rw [hsame.decisions, hchild] at hformer
    exact absurd hformer (by decide)

/-- A store without a plan under one of the children's keys is as approved. -/
theorem childrenAsApproved_of_new {before : Repository} {children : List MemoryReconciliationPlan}
    (hnew : ∀ plan ∈ before.plans, ∀ child ∈ children, plan.idempotencyKey ≠ child.idempotencyKey)
    (hkeys : (children.map (·.idempotencyKey)).Nodup) : ChildrenAsApproved before children := by
  intro child hchild stored hstored
  obtain ⟨hmem, hkey⟩ := Keyed.lookup_mem hstored
  obtain hmem | hmem := List.mem_append.mp hmem
  · exact absurd hkey (hnew stored hmem child hchild)
  · obtain rfl := List.inj_on_of_nodup_map hkeys hmem hchild hkey
    exact .inr (.inr (.refl _))

theorem cycle_executes_approved_on_empty : ∃ preview progress stop,
    cycleApply acceptingGateway samplePlatform portDigests portSources none portRequest () Repository.empty =
      .admitted preview progress stop ∧
    executedTargets (.admitted preview progress stop) = some [(["obsidian:b"], some ["obsidian:b"])] ∧
    ∀ step ∈ progress.steps, ∀ plan, step.executed = some plan → SamePlan step.child plan := by
  have hexecuted : executedTargets (cycleApply acceptingGateway samplePlatform portDigests portSources none portRequest ()
      Repository.empty) = some [(["obsidian:b"], some ["obsidian:b"])] := by
    decide +kernel
  have hkeys : (cyclePreview samplePlatform portDigests portSources Repository.empty portRequest).toOption.map
      (fun preview => preview.plans.map (·.idempotencyKey)) =
      some ["existing-memory:obsidian:a:the service listens on port 8080."] := by
    decide +kernel
  cases hresponse : cycleApply acceptingGateway samplePlatform portDigests portSources none portRequest ()
      Repository.empty with
  | refused message => simp [executedTargets, hresponse] at hexecuted
  | replayed => simp [executedTargets, hresponse] at hexecuted
  | admitted preview progress stop =>
    refine ⟨preview, progress, stop, rfl, hresponse ▸ hexecuted, ?_⟩
    have hpreview := (cycleApply_eq_admitted hresponse).2.1
    refine (cycle_executes_approved_iff acceptingGateway samplePlatform portDigests portSources none portRequest ()
      Repository.empty preview progress stop List.nodup_nil hresponse).2.2.2 ?_
    refine childrenAsApproved_of_new ?_ ?_
    · intro plan hplan
      cases hplan
    · rw [hpreview] at hkeys
      have hlist : preview.plans.map (·.idempotencyKey) =
          ["existing-memory:obsidian:a:the service listens on port 8080."] := Option.some.inj hkeys
      rw [hlist]
      exact List.nodup_singleton _

end Alexandria.Reconciliation
