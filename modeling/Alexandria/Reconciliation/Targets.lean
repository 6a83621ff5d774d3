import Alexandria.Reconciliation.Apply
import Mathlib.Data.List.Find

/-! # The Context an apply acts on

Every effect of an apply is directed at the Context of the decision that the applier recovers. The planner has written
the Context of the decision it selected into the actions, so the two agree exactly when the first decision with the
winning relation is also the most confident one.
-/

namespace Alexandria.Reconciliation
set_option autoImplicit false
open Phases

/-! ## The effects of a plan -/

/-- What an apply of the plan can do with the decision it recovers, if it recovers one. -/
inductive PlanEffect (platform : Platform) (plan : MemoryReconciliationPlan) : Option MemoryRelationDecision → Effect → Prop
  | createContext (primary : Option MemoryRelationDecision) :
    PlanEffect platform plan primary (.createContext (contextCreation platform plan primary))
  | mergeEvidence (decision : MemoryRelationDecision) :
    PlanEffect platform plan (some decision) (.mergeEvidence decision.existingContextId plan.candidate.sourceRefs)
  | upsertRelation (decision : MemoryRelationDecision) (created : Option String) :
    PlanEffect platform plan (some decision) (.upsertRelation (relationRecord platform plan decision created))
  | upsertConflict (decision : MemoryRelationDecision) (created id : String) (ids : List String)
      (h : conflictIds platform.uuid5 plan (some decision) = id :: ids) :
    PlanEffect platform plan (some decision) (.upsertConflict (openConflict platform plan decision created id))
  | supersede (decision : MemoryRelationDecision) (created : String) :
    PlanEffect platform plan (some decision) (.supersede decision.existingContextId created)
  | createdState (primary : Option MemoryRelationDecision) (created : String) :
    PlanEffect platform plan primary
      (.createdState (createdState plan primary created (conflictIds platform.uuid5 plan primary)))
  | targetState (decision : MemoryRelationDecision) (created : Option String) (repository : Repository)
      (state : MemoryTemporalState)
      (h : targetState plan decision created (conflictIds platform.uuid5 plan (some decision))
        (repository.getTemporalState decision.existingContextId) = .ok state) :
    PlanEffect platform plan (some decision) (.targetState state)

section Effects
variable {W : Type} (gateway : CanonicalGateway W) (platform : Platform) (plan : MemoryReconciliationPlan)
  (primary : Option MemoryRelationDecision)

/-- All effects so far are effects of the plan. -/
def Planned (p : Progress W) : Prop := ∀ effect ∈ p.effects, PlanEffect platform plan primary effect

variable {platform plan primary}

theorem Planned.note {p : Progress W} (h : Planned platform plan primary p) {effect : Effect}
    (heffect : PlanEffect platform plan primary effect) : Planned platform plan primary (p.note effect) := by
  intro e he
  obtain he | he := List.mem_append.mp he
  · exact h e he
  · rw [List.mem_singleton.mp he]
    exact heffect

theorem whenAction_triple {P Q E : Progress W → Prop} {phase : ApplyPhase W} {actionType : MemoryReconciliationActionType}
    (hyes : hasAction plan actionType = true → Phase.Triple P phase Q E)
    (hno : hasAction plan actionType = false → ∀ p, P p → Q p) : Phase.Triple P (whenAction plan actionType phase) Q E := by
  intro p hp
  unfold whenAction
  cases haction : hasAction plan actionType with
  | true => exact hyes haction p hp
  | false => exact hno haction p hp

theorem whenAction_keeps {P : Progress W → Prop} {phase : ApplyPhase W} (actionType : MemoryReconciliationActionType)
    (h : Phase.Keeps P phase) : Phase.Keeps P (whenAction plan actionType phase) :=
  whenAction_triple (fun _ => h) fun _ _ hp => hp

theorem verifyContext_planned (contextId message : String) :
    Phase.Keeps (Planned platform plan primary) (verifyContext gateway contextId message) := by
  intro p hp
  unfold verifyContext
  simp only
  split <;> rename_i heq <;> split at heq <;> cases heq <;> exact hp

theorem createContext_planned :
    Phase.Keeps (Planned platform plan primary) (createContext gateway platform plan primary) := by
  intro p hp
  have hnoted := hp.note (.createContext primary)
  unfold createContext
  simp only
  cases (gateway.createContext p.world (contextCreation platform plan primary)).1 with
  | error text => exact hnoted
  | ok contextId => exact verifyContext_planned gateway contextId _ _ hnoted

theorem mergeEvidence_planned :
    Phase.Keeps (Planned platform plan primary) (mergeEvidence gateway plan primary) := by
  intro p hp
  unfold mergeEvidence
  cases primary with
  | none => exact hp
  | some decision =>
    have hnoted := hp.note (.mergeEvidence decision)
    simp only
    cases (gateway.mergeEvidence p.world decision.existingContextId plan.candidate.sourceRefs).1 with
    | error text => exact hnoted
    | ok contextId => exact verifyContext_planned gateway contextId _ _ hnoted

theorem persistPrimaryRelation_planned :
    Phase.Keeps (Planned platform plan primary) (persistPrimaryRelation platform plan primary : ApplyPhase W) := by
  intro p hp
  unfold persistPrimaryRelation
  cases primary with
  | none => exact hp
  | some decision =>
    have hnoted := hp.note (.upsertRelation decision p.createdContextId)
    simp only
    cases p.repository.upsertRelation (relationRecord platform plan decision p.createdContextId) with
    | error exc => exact hnoted
    | ok stored => exact hnoted

theorem persistConflict_planned :
    Phase.Keeps (Planned platform plan primary) (persistConflict platform plan primary : ApplyPhase W) := by
  intro p hp
  unfold persistConflict
  cases hids : conflictIds platform.uuid5 plan primary with
  | nil => exact hp
  | cons id ids =>
    cases primary with
    | none => exact hp
    | some decision =>
      cases p.createdContextId with
      | none => exact hp
      | some created =>
        have hnoted := hp.note (.upsertConflict decision created id ids hids)
        simp only
        cases p.repository.upsertConflict (openConflict platform plan decision created id) with
        | error exc => exact hnoted
        | ok stored => exact hnoted

theorem markSuperseded_planned :
    Phase.Keeps (Planned platform plan primary) (markSuperseded gateway primary) := by
  intro p hp
  unfold markSuperseded
  cases primary with
  | none => exact hp
  | some decision =>
    simp only
    cases p.createdContextId with
    | none => exact hp
    | some created =>
      have hnoted := hp.note (.supersede decision created)
      simp only
      cases (gateway.supersede p.world decision.existingContextId created).1 with
      | error text => exact hnoted
      | ok answer => exact hnoted

theorem writeCreatedState_planned :
    Phase.Keeps (Planned platform plan primary) (writeCreatedState platform plan primary : ApplyPhase W) := by
  intro p hp
  unfold writeCreatedState
  simp only
  cases p.createdContextId with
  | none => exact hp
  | some created => exact hp.note (.createdState primary created)

theorem writeTargetState_planned :
    Phase.Keeps (Planned platform plan primary) (writeTargetState platform plan primary : ApplyPhase W) := by
  intro p hp
  unfold writeTargetState
  cases primary with
  | none => exact hp
  | some decision =>
    simp only
    cases hstate : targetState plan decision p.createdContextId (conflictIds platform.uuid5 plan (some decision))
        (p.repository.getTemporalState decision.existingContextId) with
    | error text => exact hp
    | ok state => exact hp.note (.targetState decision p.createdContextId p.repository state hstate)

theorem queueReview_planned : Phase.Keeps (Planned platform plan primary) (queueReview plan : ApplyPhase W) := by
  intro p hp
  exact hp

/-- What each phase after the first keeps, they keep together. -/
theorem laterPhases_keeps {P : Progress W → Prop} (hmerge : Phase.Keeps P (mergeEvidence gateway plan primary))
    (hrelation : Phase.Keeps P (persistPrimaryRelation platform plan primary))
    (hconflict : Phase.Keeps P (persistConflict platform plan primary))
    (hsupersede : Phase.Keeps P (markSuperseded gateway primary))
    (hcreated : Phase.Keeps P (writeCreatedState platform plan primary))
    (htarget : Phase.Keeps P (writeTargetState platform plan primary)) (hqueue : Phase.Keeps P (queueReview plan)) :
    Phase.Keeps P (Phase.sequence (applyPhases gateway platform plan primary).tail) := by
  refine Phase.Keeps.sequence ?_
  intro phase hphase
  simp only [applyPhases, List.tail_cons, List.mem_cons, List.not_mem_nil, or_false] at hphase
  obtain rfl | rfl | rfl | rfl | rfl | rfl := hphase
  · exact whenAction_keeps _ hmerge
  · exact whenAction_keeps _ hrelation
  · exact whenAction_keeps _ hconflict
  · exact whenAction_keeps _ hsupersede
  · exact hcreated.andThen htarget
  · exact whenAction_keeps _ hqueue

/-- What each phase keeps, all of them keep. -/
theorem applyPhases_keeps {P : Progress W → Prop}
    (hcreate : Phase.Keeps P (createContext gateway platform plan primary))
    (hmerge : Phase.Keeps P (mergeEvidence gateway plan primary))
    (hrelation : Phase.Keeps P (persistPrimaryRelation platform plan primary))
    (hconflict : Phase.Keeps P (persistConflict platform plan primary))
    (hsupersede : Phase.Keeps P (markSuperseded gateway primary))
    (hcreated : Phase.Keeps P (writeCreatedState platform plan primary))
    (htarget : Phase.Keeps P (writeTargetState platform plan primary)) (hqueue : Phase.Keeps P (queueReview plan)) :
    Phase.Keeps P (Phase.sequence (applyPhases gateway platform plan primary)) :=
  (whenAction_keeps _ hcreate).cons
    (laterPhases_keeps gateway hmerge hrelation hconflict hsupersede hcreated htarget hqueue)

theorem applyPhases_planned : Phase.Keeps (Planned platform plan primary)
    (Phase.sequence (applyPhases gateway platform plan primary)) :=
  applyPhases_keeps gateway (createContext_planned gateway) (mergeEvidence_planned gateway) persistPrimaryRelation_planned
    persistConflict_planned (markSuperseded_planned gateway) writeCreatedState_planned writeTargetState_planned
    queueReview_planned

theorem finish_effects (repository : Repository) (result : MemoryReconciliationResult) (p : Progress W) :
    (finish repository result p).effects = p.effects := by
  unfold finish
  split <;> rfl

theorem applyPlan_effects (reviewedBy : Option String) (world : W) (repository : Repository) :
    (applyPlan gateway platform plan reviewedBy world repository).effects =
      ((Phase.sequence (applyPhases gateway platform plan (primaryDecision plan))).run
        (Progress.start world repository)).1.effects := by
  unfold applyPlan
  simp only
  split <;> rename_i heq <;> rw [heq]
  · exact finish_effects ..
  · exact finish_effects ..

/-- An apply of the plan has only effects of the plan with the decision it recovers. -/
theorem applyPlan_planned (reviewedBy : Option String) (world : W) (repository : Repository) :
    ∀ effect ∈ (applyPlan gateway platform plan reviewedBy world repository).effects,
      PlanEffect platform plan (primaryDecision plan) effect := by
  rw [applyPlan_effects]
  refine (applyPhases_planned gateway).run ?_
  intro effect heffect
  cases heffect

end Effects

/-! ## Targets -/

/-- The Context, other than the one the plan creates, that an effect is directed at. -/
def Effect.target : Effect → Option String
  | .createContext creation => creation.relatedContextId
  | .mergeEvidence contextId _ => some contextId
  | .upsertRelation record => some record.targetContextId
  | .upsertConflict conflict => conflict.contextIds[1]?
  | .supersede contextId _ => some contextId
  | .createdState state => state.supersedes.head?
  | .targetState state => some state.contextId

theorem targetState_contextId {plan : MemoryReconciliationPlan} {decision : MemoryRelationDecision}
    {created : Option String} {ids : List String} {repository : Repository} {state : MemoryTemporalState}
    (h : targetState plan decision created ids (repository.getTemporalState decision.existingContextId) = .ok state) :
    state.contextId = decision.existingContextId := by
  have hbase : ((repository.getTemporalState decision.existingContextId).getD
      (defaultState plan decision.existingContextId)).contextId = decision.existingContextId := by
    cases hstored : repository.getTemporalState decision.existingContextId with
    | none => rfl
    | some stored => exact (Keyed.lookup_mem hstored).2
  unfold targetState at h
  simp only at h
  split at h
  · split at h
    · cases h
    · cases h
      exact hbase
  · cases h
    exact hbase
  · cases h
    exact hbase

theorem PlanEffect.target_eq {platform : Platform} {plan : MemoryReconciliationPlan} {decision : MemoryRelationDecision}
    {effect : Effect} (h : PlanEffect platform plan (some decision) effect) {target : String}
    (htarget : effect.target = some target) : target = decision.existingContextId := by
  cases h with
  | createContext => exact (Option.some.inj htarget).symm
  | mergeEvidence => exact (Option.some.inj htarget).symm
  | upsertRelation _ created => exact (Option.some.inj htarget).symm
  | upsertConflict _ created id ids h => exact (Option.some.inj htarget).symm
  | supersede _ created => exact (Option.some.inj htarget).symm
  | createdState _ created =>
    simp only [Effect.target, Reconciliation.createdState] at htarget
    split at htarget
    · exact (Option.some.inj htarget).symm
    · cases htarget
  | targetState _ created repository state h => exact (Option.some.inj htarget).symm.trans (targetState_contextId h)

/-! ## When the two decisions agree -/

section Agreement
variable {decisions : List MemoryRelationDecision} {selected first : MemoryRelationDecision}

/-- The decision has a relation of the highest priority among the decisions. -/
def leading (decisions : List MemoryRelationDecision) (decision : MemoryRelationDecision) : Bool :=
  decisions.all fun other => relationPriority other.relation ≤ relationPriority decision.relation

/-- No decision with the leading relation is more confident than the first one. -/
def FirstIsSurest (decisions : List MemoryRelationDecision) : Prop :=
  ∀ first, decisions.find? (leading decisions) = some first →
    ∀ other ∈ decisions, other.relation = first.relation → other.confidence ≤ first.confidence

theorem leading_iff (hselected : selectPrimaryDecision decisions = some selected) {decision : MemoryRelationDecision}
    (hmem : decision ∈ decisions) : leading decisions decision = true ↔ decision.relation = selected.relation := by
  unfold leading
  rw [List.all_eq_true]
  constructor
  · intro hleads
    have hle : relationPriority selected.relation ≤ relationPriority decision.relation := by
      simpa using hleads selected (selectPrimaryDecision_mem hselected)
    have hrank := decisionRank_le.mp (selectPrimaryDecision_rank hselected hmem)
    refine relationPriority_injective ?_
    omega
  · intro hrelation other hother
    have hrank := decisionRank_le.mp (selectPrimaryDecision_rank hselected hother)
    rw [hrelation, decide_eq_true_eq]
    omega

/-- The first leading decision is the one that the applier recovers. -/
theorem primaryDecision_eq_find_leading {plan : MemoryReconciliationPlan} (hplan : IsBuilt plan)
    (hselected : selectPrimaryDecision plan.decisions = some selected) :
    primaryDecision plan = plan.decisions.find? (leading plan.decisions) := by
  unfold primaryDecision
  rw [hplan.relation, hselected]
  refine List.find?_congr ?_
  intro decision hmem
  have h := leading_iff hselected hmem
  by_cases hrelation : decision.relation = selected.relation
  · simp [primaryRelation, hrelation, h.mpr hrelation]
  · have hleads : leading plan.decisions decision = false := by
      rw [Bool.eq_false_iff]
      exact fun hl => hrelation (h.mp hl)
    simp [primaryRelation, hrelation, hleads]

theorem idxOf_find_le {p : MemoryRelationDecision → Bool} (hfirst : decisions.find? p = some first)
    {other : MemoryRelationDecision} (hother : other ∈ decisions) (hp : p other = true) :
    decisions.idxOf first ≤ decisions.idxOf other := by
  obtain ⟨hfirstp, before, after, rfl, hbefore⟩ := List.find?_eq_some_iff_append.mp hfirst
  have hnot : ∀ decision, p decision = true → decision ∉ before := by
    intro decision hdecision hmem
    have := hbefore decision hmem
    simp [hdecision] at this
  rw [List.idxOf_append_of_notMem (hnot first hfirstp), List.idxOf_append_of_notMem (hnot other hp), List.idxOf_cons_self]
  omega

/-- The first leading decision is the selected one when no leading decision is more confident. -/
theorem find_leading_eq_selected (hselected : selectPrimaryDecision decisions = some selected)
    (hfirst : decisions.find? (leading decisions) = some first)
    (hsurest : ∀ other ∈ decisions, other.relation = first.relation → other.confidence ≤ first.confidence) :
    first = selected := by
  have hmem := List.mem_of_find?_eq_some hfirst
  have hselectedMem := selectPrimaryDecision_mem hselected
  have hrelation := (leading_iff hselected hmem).mp (List.find?_some hfirst)
  have hrank : decisionRank selected ≤ decisionRank first := by
    refine decisionRank_le.mpr (.inr ⟨congrArg relationPriority hrelation.symm, ?_⟩)
    exact hsurest selected hselectedMem hrelation.symm
  have hbefore : decisions.idxOf selected ≤ decisions.idxOf first :=
    List.index_of_argmax (by simpa [selectPrimaryDecision] using hselected) hmem hrank
  have hafter := idxOf_find_le hfirst hselectedMem ((leading_iff hselected hselectedMem).mpr rfl)
  exact (List.idxOf_inj hmem).mp (Nat.le_antisymm hafter hbefore)

/-- The planner and the applier mean the same Context exactly when the first leading decision is a surest one. -/
theorem targets_agree_iff (hids : (decisions.map (·.existingContextId)).Nodup)
    (hselected : selectPrimaryDecision decisions = some selected)
    (hfirst : decisions.find? (leading decisions) = some first) :
    first.existingContextId = selected.existingContextId ↔ FirstIsSurest decisions := by
  have hmem := List.mem_of_find?_eq_some hfirst
  constructor
  · intro htarget
    obtain rfl := List.inj_on_of_nodup_map hids hmem (selectPrimaryDecision_mem hselected) htarget
    intro first' hfirst' other hother hrelation
    obtain rfl : first = first' := Option.some.inj (hfirst.symm.trans hfirst')
    have hrank := decisionRank_le.mp (selectPrimaryDecision_rank hselected hother)
    rw [hrelation] at hrank
    obtain hlt | ⟨-, hle⟩ := hrank
    · omega
    · exact hle
  · intro hsurest
    rw [find_leading_eq_selected hselected hfirst (hsurest first hfirst)]

end Agreement

/-! ## A run in which nothing fails -/

/-- A gateway that performs every call and reads every Context back. -/
def acceptingGateway : CanonicalGateway Unit where
  createContext _ creation := (.ok ("obsidian:" ++ creation.candidate.candidateId), ())
  mergeEvidence _ contextId _ := (.ok contextId, ())
  supersede _ _ _ := (.ok (), ())
  verify _ _ := (.ok true, ())

/-- An apply that goes through writes the temporal state of the Context it has recovered. -/
theorem applyPhases_writes_target {W : Type} {gateway : CanonicalGateway W} {platform : Platform}
    {plan : MemoryReconciliationPlan} {decision : MemoryRelationDecision} {p q : Progress W}
    (h : Phase.sequence (applyPhases gateway platform plan (some decision)) p = .ok q) :
    ∃ state, state.contextId = decision.existingContextId ∧ Effect.targetState state ∈ q.effects := by
  simp only [applyPhases, Phase.sequence, Phase.andThen_eq_ok] at h
  obtain ⟨p₁, -, p₂, -, p₃, -, p₄, -, p₅, -, p₆, htemporal, p₇, hqueue, hend⟩ := h
  obtain ⟨p₅', -, htarget⟩ := Phase.andThen_eq_ok.mp htemporal
  have hwritten : ∃ state, state.contextId = decision.existingContextId ∧ Effect.targetState state ∈ p₆.effects := by
    unfold writeTargetState at htarget
    simp only at htarget
    split at htarget
    · cases htarget
    · rename_i state hstate
      cases htarget
      exact ⟨state, targetState_contextId hstate, List.mem_append_right _ (List.mem_singleton_self _)⟩
  have hqueued : p₇.effects = p₆.effects := by
    unfold whenAction at hqueue
    split at hqueue <;> cases hqueue <;> rfl
  cases hend
  rw [hqueued]
  exact hwritten

/-- With a gateway that performs every call, and nothing stored but plans, the apply goes through. -/
theorem applyPhases_accepted (platform : Platform) {plan : MemoryReconciliationPlan}
    {selected decision : MemoryRelationDecision} (hplan : IsBuilt plan)
    (hselected : selectPrimaryDecision plan.decisions = some selected) (hrelation : decision.relation = selected.relation) :
    ∃ q, Phase.sequence (applyPhases acceptingGateway platform plan (some decision))
      (Progress.start () { Repository.empty with plans := [plan] }) = .ok q := by
  have hactions := hplan.hasAction_eq hselected
  rw [← hrelation] at hactions
  cases hrel : decision.relation <;>
    simp [applyPhases, Phase.sequence, Phase.andThen, whenAction, hactions, hrel, actionTypes, createContext,
      mergeEvidence, verifyContext, acceptingGateway, persistPrimaryRelation, persistConflict, markSuperseded,
      persistTemporalStates, writeCreatedState, writeTargetState, queueReview, Progress.start, Progress.note,
      Repository.empty, Repository.upsertRelation, Repository.upsertConflict, Repository.conflictRow, conflictIds,
      targetState, Keyed.lookup, Except.bind]

/-! ## The planned target -/

/-- Whatever the gateway answers and whatever else is stored, every effect of an apply of the stored plan is directed at
the Context that the plan's actions name. -/
def ActsOnPlannedTarget (platform : Platform) (plan : MemoryReconciliationPlan) : Prop :=
  ∀ (W : Type) (gateway : CanonicalGateway W) (request : ApplyRequest) (world : W) (repository : Repository),
    repository.getPlan request.planId = some plan →
    ∀ effect ∈ (apply gateway platform request world repository).effects, ∀ target, effect.target = some target →
      ∀ action ∈ plan.actions, action.targetContextId = some target

theorem apply_planned {W : Type} (gateway : CanonicalGateway W) {platform : Platform} {plan : MemoryReconciliationPlan}
    {request : ApplyRequest} {world : W} {repository : Repository}
    (hstored : repository.getPlan request.planId = some plan) :
    ∀ effect ∈ (apply gateway platform request world repository).effects,
      PlanEffect platform plan (primaryDecision plan) effect := by
  unfold apply
  rw [hstored]
  simp only
  split
  · intro effect heffect
    cases heffect
  · split
    · intro effect heffect
      cases heffect
    · exact applyPlan_planned gateway _ world repository

/-- An approval by a named steward. -/
def approved (planId : String) : ApplyRequest := ⟨planId, false, true, some "steward"⟩

theorem validatedReviewer_approved (plan : MemoryReconciliationPlan) :
    ∃ reviewedBy, validatedReviewer plan (approved plan.planId) = some reviewedBy := by
  unfold validatedReviewer
  by_cases hreview : plan.requiresReview = false
  · exact ⟨none, if_pos hreview⟩
  · have hstrip : Text.pythonStrip "steward" = "steward" := by decide
    have hlength : ¬ 255 < "steward".length := by decide
    refine ⟨some "steward", ?_⟩
    rw [if_neg hreview]
    simp [approved, hstrip, hlength]

/-- Some apply of the plan writes to the Context that is recovered. -/
theorem exists_apply_target (platform : Platform) {plan : MemoryReconciliationPlan}
    {selected decision : MemoryRelationDecision} (hplan : IsBuilt plan)
    (hselected : selectPrimaryDecision plan.decisions = some selected) (hprimary : primaryDecision plan = some decision)
    (hrelation : decision.relation = selected.relation) :
    ∃ effect ∈ (apply acceptingGateway platform (approved plan.planId) ()
      { Repository.empty with plans := [plan] }).effects, effect.target = some decision.existingContextId := by
  obtain ⟨q, hq⟩ := applyPhases_accepted platform hplan hselected hrelation
  obtain ⟨state, hcontext, hmem⟩ := applyPhases_writes_target hq
  obtain ⟨reviewedBy, hreviewer⟩ := validatedReviewer_approved plan
  have hstored : Repository.getPlan { Repository.empty with plans := [plan] } (approved plan.planId).planId = some plan := by
    simp [Repository.getPlan, Keyed.lookup, approved]
  have hunused : reusedResult { Repository.empty with plans := [plan] } (approved plan.planId) = none := rfl
  refine ⟨.targetState state, ?_, congrArg some hcontext⟩
  unfold apply
  rw [hstored]
  simp only
  rw [hunused]
  simp only
  rw [hreviewer]
  simp only
  rw [applyPlan_effects, hprimary, Phase.run, hq]
  exact hmem

/-- An apply acts on the planned target, and the applier recovers a decision about the Context of the selected one,
exactly when the first decision with the leading relation is one of the most confident. -/
theorem apply_acts_on_planned_target_iff (platform : Platform) (planId : String) (candidate : MemoryCandidate)
    (decisions : List MemoryRelationDecision) (idempotencyKey : Option String) (hne : decisions ≠ [])
    (hids : (decisions.map (·.existingContextId)).Nodup) :
    (ActsOnPlannedTarget platform (buildPlan platform.hashText planId candidate decisions idempotencyKey) ↔
      FirstIsSurest decisions) ∧
    ((primaryDecision (buildPlan platform.hashText planId candidate decisions idempotencyKey)).map
        (·.existingContextId) = (selectPrimaryDecision decisions).map (·.existingContextId) ↔
      FirstIsSurest decisions) := by
  have hplan := buildPlan_isBuilt platform.hashText planId candidate decisions idempotencyKey
  obtain ⟨selected, hselected⟩ := selectPrimaryDecision_isSome hne
  obtain ⟨first, hprimary, -, hrelation⟩ := hplan.exists_primaryDecision hselected
  have hfirst : decisions.find? (leading decisions) = some first := by
    rw [← hprimary, primaryDecision_eq_find_leading hplan hselected]
    rfl
  have hagree := targets_agree_iff hids hselected hfirst
  have htargets : ∀ action ∈ (buildPlan platform.hashText planId candidate decisions idempotencyKey).actions,
      action.targetContextId = some selected.existingContextId := by
    intro action haction
    rw [hplan.actions_eq hselected] at haction
    exact actionsForDecision_target haction
  refine ⟨⟨?_, ?_⟩, ?_⟩
  · intro hacts
    refine hagree.mp ?_
    obtain ⟨effect, heffect, htarget⟩ := exists_apply_target platform hplan hselected hprimary hrelation
    obtain ⟨action, haction⟩ : ∃ action, action ∈
        (buildPlan platform.hashText planId candidate decisions idempotencyKey).actions := by
      rw [hplan.actions_eq hselected]
      exact exists_mem_actionsForDecision selected
    have hstored : Repository.getPlan { Repository.empty with
        plans := [buildPlan platform.hashText planId candidate decisions idempotencyKey] } planId =
        some (buildPlan platform.hashText planId candidate decisions idempotencyKey) := by
      simp [Repository.getPlan, Keyed.lookup, buildPlan]
    have hnamed := hacts Unit acceptingGateway (approved planId) () _ hstored effect heffect _ htarget action haction
    exact Option.some.inj (hnamed.symm.trans (htargets action haction))
  · intro hsurest W gateway request world repository hstored effect heffect target htarget action haction
    have hplanned := apply_planned gateway hstored effect heffect
    rw [hprimary] at hplanned
    rw [htargets action haction, hplanned.target_eq htarget, hagree.mpr hsurest]
  · rw [hprimary, hselected]
    exact Option.some_inj.trans hagree

/-- The library values for the names in the examples below. -/
def samplePlatform : Platform where
  uuid5 name :=
    if name = "memory-reconciliation-result:plan-1" then "c75f5fd0-1084-599c-8d28-3c4a5a3e790e"
    else if name = "memory-reconciliation-result:plan-2" then "e6fc46fe-c2a1-50f9-85b6-c1742b5090d0"
    else if name = "memory-conflict:plan-1:service|port|8080" then "66e6f2b4-9b17-550a-b598-69d45b5d1e7a"
    else if name = "memory-conflict:plan-2:service|port|8080" then "cc9062fa-7910-5a33-b0e2-8ba3d5400a60"
    else if name = "memory-relation:obsidian:candidate-1:obsidian:a:CONTRADICTS" then
      "069b6106-7fd9-56f0-8479-ccd41807dd13"
    else name
  casefold name := name
  hashText name := name
  sequenceRatio first second := if first = second then 1 else 31 / 33

def sampleCandidate : MemoryCandidate where
  candidateId := "candidate-1"
  title := "service port"
  body := "the service listens on port 8080."
  canonicalClaims := [⟨"service", "port", "8080", [], .positive⟩]
  scope := .project
  identity := ⟨some "alexandria", none, none, none, none⟩
  tags := []
  sourceRefs := []
  recordedAt := 10
  observedAt := none
  validFrom := none
  validTo := none
  requestedLifecycle := "active"
  contentHash := "h"
  sourceIdentity := none
  validity := by decide

def sampleDecision (existingContextId : String) (relation : MemoryRelationType) (confidence : ℚ) :
    MemoryRelationDecision where
  candidateId := "candidate-1"
  existingContextId := existingContextId
  relation := relation
  confidence := confidence
  reason := "sample"
  evidenceRefs := []
  claimMatches := ["service|port|8080"]
  scores := ⟨1, 1, 1, 1, 0, 0, 0, 0⟩
  decisionSource := .deterministic
  policyVersion := "memory-reconciliation-v1"

/-- The same claim was recalled from one Context, the same content from another. -/
def twoDuplicates : List MemoryRelationDecision :=
  [sampleDecision "obsidian:a" .duplicate (49 / 50), sampleDecision "obsidian:b" .duplicate 1]

def twoDuplicatesPlan : MemoryReconciliationPlan :=
  buildPlan samplePlatform.hashText "plan-1" sampleCandidate twoDuplicates (some "key-1")

/-- The plan names the second Context, the evidence is merged into the first. -/
theorem apply_merges_into_other : twoDuplicates ≠ [] ∧ (twoDuplicates.map (·.existingContextId)).Nodup ∧
    twoDuplicatesPlan.actions.map (·.targetContextId) = [some "obsidian:b", some "obsidian:b"] ∧
    ¬ ActsOnPlannedTarget samplePlatform twoDuplicatesPlan := by
  have hactions : twoDuplicatesPlan.actions.map (·.targetContextId) = [some "obsidian:b", some "obsidian:b"] := by
    decide +kernel
  have htargets : (apply acceptingGateway samplePlatform (approved "plan-1") ()
      { Repository.empty with plans := [twoDuplicatesPlan] }).effects.map Effect.target =
      [some "obsidian:a", some "obsidian:a"] := by decide +kernel
  refine ⟨List.cons_ne_nil _ _, by decide, hactions, ?_⟩
  intro hacts
  obtain ⟨effect, heffect, htarget⟩ := List.mem_map.mp (htargets ▸ List.mem_cons_self ..)
  obtain ⟨action, haction, hnamed⟩ := List.mem_map.mp (hactions ▸ List.mem_cons_self ..)
  have := hacts Unit acceptingGateway (approved "plan-1") () _ rfl effect heffect _ htarget action haction
  rw [hnamed] at this
  exact absurd this (by decide)

/-- The same two Contexts with the surer one recalled first. -/
def surestFirst : List MemoryRelationDecision :=
  [sampleDecision "obsidian:b" .duplicate 1, sampleDecision "obsidian:a" .duplicate (49 / 50)]

theorem apply_acts_on_planned_target_surest :
    ActsOnPlannedTarget samplePlatform
      (buildPlan samplePlatform.hashText "plan-1" sampleCandidate surestFirst (some "key-1")) := by
  have hfind : surestFirst.find? (leading surestFirst) = some (sampleDecision "obsidian:b" .duplicate 1) := by
    decide +kernel
  have hconfidence : ∀ other ∈ surestFirst, other.confidence ≤ 1 := by decide +kernel
  refine (apply_acts_on_planned_target_iff samplePlatform "plan-1" sampleCandidate surestFirst (some "key-1")
    (List.cons_ne_nil _ _) (by decide)).1.mpr ?_
  intro first hfirst other hother _
  obtain rfl := Option.some.inj (hfind.symm.trans hfirst)
  exact hconfidence other hother

end Alexandria.Reconciliation
