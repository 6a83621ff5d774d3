import Alexandria.Reconciliation.Targets

/-! # What an apply writes

The gateway phases leave the repository alone, the relation phase touches relations only, the conflict phase upserts one
conflict set, and the temporal phase two overlays. From this an apply either leaves the conflict table as it was or has
written the plan's one conflict set into it.
-/

namespace Alexandria.Reconciliation
set_option autoImplicit false
open Phases

section Frames
variable {W : Type} (gateway : CanonicalGateway W) {platform : Platform} {plan : MemoryReconciliationPlan}
  {primary : Option MemoryRelationDecision}

/-! ## Frames -/

section Gateway
variable {P : Repository → List String → Prop}

/-- A property of the repository and of the conflict ids that are to be reported. -/
abbrev OnStore (P : Repository → List String → Prop) (p : Progress W) : Prop := P p.repository p.createdConflictSetIds

theorem verifyContext_frame (contextId message : String) :
    Phase.Keeps (OnStore P) (verifyContext gateway contextId message) := by
  intro p hp
  unfold verifyContext
  simp only
  split <;> rename_i heq <;> split at heq <;> cases heq <;> exact hp

theorem createContext_frame : Phase.Keeps (OnStore P) (createContext gateway platform plan primary) := by
  intro p hp
  unfold createContext
  simp only
  cases (gateway.createContext p.world (contextCreation platform plan primary)).1 with
  | error text => exact hp
  | ok contextId => exact verifyContext_frame gateway contextId _ _ hp

theorem mergeEvidence_frame : Phase.Keeps (OnStore P) (mergeEvidence gateway plan primary) := by
  intro p hp
  unfold mergeEvidence
  cases primary with
  | none => exact hp
  | some decision =>
    simp only
    cases (gateway.mergeEvidence p.world decision.existingContextId plan.candidate.sourceRefs).1 with
    | error text => exact hp
    | ok contextId => exact verifyContext_frame gateway contextId _ _ hp

theorem markSuperseded_frame : Phase.Keeps (OnStore P) (markSuperseded gateway primary) := by
  intro p hp
  unfold markSuperseded
  cases primary with
  | none => exact hp
  | some decision =>
    simp only
    cases p.createdContextId with
    | none => exact hp
    | some created =>
      simp only
      cases (gateway.supersede p.world decision.existingContextId created).1 with
      | error text => exact hp
      | ok answer => exact hp

theorem queueReview_frame : Phase.Keeps (OnStore P) (queueReview plan : ApplyPhase W) := by
  intro p hp
  exact hp

end Gateway

section Tables
variable {P : Repository → List String → Prop}

theorem upsertRelation_frame {r r' : Repository} {record stored : MemoryRelationRecord}
    (h : r.upsertRelation record = .ok (stored, r')) : ∃ relations, r' = { r with relations := relations } := by
  unfold Repository.upsertRelation at h
  split at h
  · cases h
    exact ⟨_, rfl⟩
  · split at h
    · cases h
    · cases h
      exact ⟨_, rfl⟩

theorem persistPrimaryRelation_frame (hP : ∀ r ids relations, P r ids → P { r with relations := relations } ids) :
    Phase.Keeps (OnStore P) (persistPrimaryRelation platform plan primary : ApplyPhase W) := by
  intro p hp
  unfold persistPrimaryRelation
  cases primary with
  | none => exact hp
  | some decision =>
    simp only
    cases hupsert : p.repository.upsertRelation (relationRecord platform plan decision p.createdContextId) with
    | error exc => exact hp
    | ok stored =>
      obtain ⟨record, repository⟩ := stored
      obtain ⟨relations, rfl⟩ := upsertRelation_frame hupsert
      exact hP _ _ relations hp

theorem writeCreatedState_frame (hP : ∀ r ids temporal, P r ids → P { r with temporal := temporal } ids) :
    Phase.Keeps (OnStore P) (writeCreatedState platform plan primary : ApplyPhase W) := by
  intro p hp
  unfold writeCreatedState
  simp only
  cases p.createdContextId with
  | none => exact hp
  | some created => exact hP _ _ _ hp

theorem writeTargetState_frame (hP : ∀ r ids temporal, P r ids → P { r with temporal := temporal } ids) :
    Phase.Keeps (OnStore P) (writeTargetState platform plan primary : ApplyPhase W) := by
  intro p hp
  unfold writeTargetState
  cases primary with
  | none => exact hp
  | some decision =>
    simp only
    cases targetState plan decision p.createdContextId (conflictIds platform.uuid5 plan (some decision))
        (p.repository.getTemporalState decision.existingContextId) with
    | error text => exact hp
    | ok state => exact hP _ _ _ hp

end Tables

/-! ## The conflict table -/

/-- The primary key that an upsert of the conflict set uses: that of the stored row, or a new one that is free. -/
def RowIdFor (r : Repository) (conflict : MemoryConflictSet) (rowId : String) : Prop :=
  (∃ row, Keyed.lookup ConflictRow.key conflict.key r.conflicts = some row ∧ rowId = row.id) ∨
    Keyed.lookup ConflictRow.key conflict.key r.conflicts = none ∧ rowId = conflict.conflictSetId ∧
      r.conflictRow rowId = none

theorem upsertConflict_eq_ok {r r' : Repository} {conflict stored : MemoryConflictSet}
    (h : r.upsertConflict conflict = .ok (stored, r')) :
    stored = conflict ∧ ∃ rowId, RowIdFor r conflict rowId ∧ r' = r.putConflict ⟨rowId, conflict⟩ := by
  unfold Repository.upsertConflict at h
  split at h
  · rename_i row hrow
    cases h
    exact ⟨rfl, row.id, .inl ⟨row, hrow, rfl⟩, rfl⟩
  · rename_i hnone
    split at h
    · cases h
    · rename_i hfree
      cases h
      exact ⟨rfl, conflict.conflictSetId, .inr ⟨hnone, rfl, Option.not_isSome_iff_eq_none.mp hfree⟩, rfl⟩

variable (platform plan primary) in
/-- The conflict table is that of `r` with the plan's conflict set written into it. -/
def ConflictWritten (r : Repository) (conflicts : List ConflictRow) (ids : List String) : Prop :=
  ∃ decision created id rest rowId, primary = some decision ∧
    conflictIds platform.uuid5 plan primary = id :: rest ∧ ids = [id] ∧
    RowIdFor r (openConflict platform plan decision created id) rowId ∧
    conflicts = Keyed.put ConflictRow.key ⟨rowId, openConflict platform plan decision created id⟩ r.conflicts

def ConflictUnwritten (r : Repository) (conflicts : List ConflictRow) (ids : List String) : Prop :=
  conflicts = r.conflicts ∧ ids = []

variable {r : Repository}

theorem persistConflict_writes :
    Phase.Triple (OnStore fun s ids => ConflictUnwritten r s.conflicts ids)
      (persistConflict platform plan primary : ApplyPhase W)
      (OnStore fun s ids => ConflictWritten platform plan primary r s.conflicts ids)
      (OnStore fun s ids => ConflictUnwritten r s.conflicts ids) := by
  intro p hp
  unfold persistConflict
  cases hids : conflictIds platform.uuid5 plan primary with
  | nil => exact hp
  | cons id rest =>
    cases primary with
    | none => exact hp
    | some decision =>
      cases p.createdContextId with
      | none => exact hp
      | some created =>
        simp only
        cases hupsert : p.repository.upsertConflict (openConflict platform plan decision created id) with
        | error exc => exact hp
        | ok stored =>
          obtain ⟨conflict, s⟩ := stored
          obtain ⟨rfl, rowId, hrow, rfl⟩ := upsertConflict_eq_ok hupsert
          obtain ⟨hconflicts, hnone⟩ := hp
          refine ⟨decision, created, id, rest, rowId, rfl, hids, ?_, ?_, ?_⟩
          · simp only [hnone]
            rfl
          · unfold RowIdFor Repository.conflictRow at hrow ⊢
            rwa [hconflicts] at hrow
          · simp only [Repository.putConflict, hconflicts]

variable (platform plan primary r) in
/-- The conflict table after the phases. -/
def ConflictsAfter (conflicts : List ConflictRow) (ids : List String) : Prop :=
  if hasAction plan .createConflictSet then ConflictWritten platform plan primary r conflicts ids
  else ConflictUnwritten r conflicts ids

variable (platform plan primary r) in
/-- The conflict table when a phase has raised, which may be before or after the conflict phase. -/
def ConflictsReached (conflicts : List ConflictRow) (ids : List String) : Prop :=
  ConflictUnwritten r conflicts ids ∨
    hasAction plan .createConflictSet = true ∧ ConflictWritten platform plan primary r conflicts ids

theorem ConflictsAfter.reached {conflicts : List ConflictRow} {ids : List String}
    (h : ConflictsAfter platform plan primary r conflicts ids) :
    ConflictsReached platform plan primary r conflicts ids := by
  unfold ConflictsAfter at h
  split at h
  · rename_i haction
    exact .inr ⟨haction, h⟩
  · exact .inl h

theorem conflictPhase_writes :
    Phase.Triple (OnStore fun s ids => ConflictUnwritten r s.conflicts ids)
      (whenAction plan .createConflictSet (persistConflict platform plan primary) : ApplyPhase W)
      (OnStore fun s ids => ConflictsAfter platform plan primary r s.conflicts ids)
      (OnStore fun s ids => ConflictsReached platform plan primary r s.conflicts ids) := by
  refine whenAction_triple ?_ ?_
  · intro haction
    refine persistConflict_writes.weaken (fun _ h => h) ?_ fun _ h => .inl h
    intro p hp
    simp only [OnStore, ConflictsAfter, if_pos haction]
    exact hp
  · intro haction p hp
    simp only [OnStore, ConflictsAfter, haction, Bool.false_eq_true, if_false]
    exact hp

theorem applyPhases_conflicts :
    Phase.Triple (OnStore fun s ids => ConflictUnwritten r s.conflicts ids)
      (Phase.sequence (applyPhases gateway platform plan primary))
      (OnStore fun s ids => ConflictsAfter platform plan primary r s.conflicts ids)
      (OnStore fun s ids => ConflictsReached platform plan primary r s.conflicts ids) := by
  have before : ∀ f : ApplyPhase W, Phase.Keeps (OnStore fun s ids => ConflictUnwritten r s.conflicts ids) f →
      Phase.Triple (OnStore fun s ids => ConflictUnwritten r s.conflicts ids) f
        (OnStore fun s ids => ConflictUnwritten r s.conflicts ids)
        (OnStore fun s ids => ConflictsReached platform plan primary r s.conflicts ids) :=
    fun f hf => hf.weaken (fun _ h => h) (fun _ h => h) fun _ h => .inl h
  have after : ∀ f : ApplyPhase W,
      Phase.Keeps (OnStore fun s ids => ConflictsAfter platform plan primary r s.conflicts ids) f →
      Phase.Triple (OnStore fun s ids => ConflictsAfter platform plan primary r s.conflicts ids) f
        (OnStore fun s ids => ConflictsAfter platform plan primary r s.conflicts ids)
        (OnStore fun s ids => ConflictsReached platform plan primary r s.conflicts ids) :=
    fun f hf => hf.weaken (fun _ h => h) (fun _ h => h) fun _ h => h.reached
  refine .cons (before _ (whenAction_keeps _ (createContext_frame gateway))) ?_
  refine .cons (before _ (whenAction_keeps _ (mergeEvidence_frame gateway))) ?_
  refine .cons (before _ (whenAction_keeps _ (persistPrimaryRelation_frame fun _ _ _ h => h))) ?_
  refine .cons conflictPhase_writes ?_
  refine .cons (after _ (whenAction_keeps _ (markSuperseded_frame gateway))) ?_
  refine .cons (after _ (Phase.Triple.andThen (writeCreatedState_frame fun _ _ _ h => h)
    (writeTargetState_frame fun _ _ _ h => h))) ?_
  exact .cons (after _ (whenAction_keeps _ queueReview_frame)) .nil

theorem persistConflict_frame {P : Repository → List String → Prop}
    (hP : ∀ r ids row id, P r ids → P (r.putConflict row) (ids ++ [id])) :
    Phase.Keeps (OnStore P) (persistConflict platform plan primary : ApplyPhase W) := by
  intro p hp
  unfold persistConflict
  cases conflictIds platform.uuid5 plan primary with
  | nil => exact hp
  | cons id rest =>
    cases primary with
    | none => exact hp
    | some decision =>
      cases p.createdContextId with
      | none => exact hp
      | some created =>
        simp only
        cases hupsert : p.repository.upsertConflict (openConflict platform plan decision created id) with
        | error exc => exact hp
        | ok stored =>
          obtain ⟨conflict, s⟩ := stored
          obtain ⟨rfl, rowId, -, rfl⟩ := upsertConflict_eq_ok hupsert
          exact hP _ _ _ _ hp

/-- The phases write neither plans nor results. -/
theorem applyPhases_plans : Phase.Keeps (OnStore fun s _ => s.plans = r.plans ∧ s.results = r.results)
    (Phase.sequence (applyPhases gateway platform plan primary)) :=
  applyPhases_keeps gateway (createContext_frame gateway) (mergeEvidence_frame gateway)
    (persistPrimaryRelation_frame fun _ _ _ h => h) (persistConflict_frame fun _ _ _ _ h => h)
    (markSuperseded_frame gateway) (writeCreatedState_frame fun _ _ _ h => h) (writeTargetState_frame fun _ _ _ h => h)
    queueReview_frame

/-! ## The whole apply -/

theorem saveResult_frame {s s' : Repository} {result : MemoryReconciliationResult} (h : s.saveResult result = .ok s') :
    s'.plans = s.plans ∧ s'.conflicts = s.conflicts ∧ s'.temporal = s.temporal ∧
      s'.results = Keyed.put (·.planId) result s.results := by
  unfold Repository.saveResult at h
  split at h
  · cases h
  · cases h
    exact ⟨rfl, rfl, rfl, rfl⟩

theorem finish_conflicts (result : MemoryReconciliationResult) (p : Progress W) :
    (finish r result p).repository.conflicts = r.conflicts ∨
      (finish r result p).repository.conflicts = p.repository.conflicts := by
  unfold finish
  split
  · rename_i hsaved
    exact .inr (saveResult_frame hsaved).2.1
  · exact .inl rfl

/-- The repository keeps its plans, and for every plan that had a result there still is one. -/
structure PlansKept (r s : Repository) : Prop where
  plans : s.plans = r.plans
  results : ∀ planId, (r.getResultByPlanId planId).isSome = true → (s.getResultByPlanId planId).isSome = true

theorem PlansKept.refl (r : Repository) : PlansKept r r := ⟨rfl, fun _ h => h⟩

theorem finish_plansKept (result : MemoryReconciliationResult) {p : Progress W}
    (hp : p.repository.plans = r.plans ∧ p.repository.results = r.results) :
    PlansKept r (finish r result p).repository := by
  unfold finish
  split
  · rename_i saved hsaved
    obtain ⟨hplans, -, -, hresults⟩ := saveResult_frame hsaved
    refine ⟨hplans.trans hp.1, ?_⟩
    intro planId hsome
    unfold Repository.getResultByPlanId at hsome ⊢
    simp only [hresults, hp.2, Keyed.lookup_put]
    split
    · rfl
    · exact hsome
  · exact .refl r

theorem applyPlan_plansKept (reviewedBy : Option String) (world : W) :
    PlansKept r (applyPlan gateway platform plan reviewedBy world r).repository := by
  have hstart : OnStore (fun s _ => s.plans = r.plans ∧ s.results = r.results) (Progress.start world r) := ⟨rfl, rfl⟩
  have hkeeps : Phase.Keeps (OnStore fun s _ => s.plans = r.plans ∧ s.results = r.results)
      (Phase.sequence (applyPhases gateway platform plan (primaryDecision plan))) := applyPhases_plans gateway
  have hrun := hkeeps.run hstart
  unfold applyPlan
  simp only
  split
  · rename_i p hp
    rw [hp] at hrun
    exact finish_plansKept _ hrun
  · rename_i p text hp
    rw [hp] at hrun
    exact finish_plansKept _ hrun
  · exact .refl r

variable (platform plan r) in
/-- An apply leaves the conflict table alone or has written the plan's conflict set into it. -/
theorem applyPlan_conflicts (reviewedBy : Option String) (world : W) :
    (applyPlan gateway platform plan reviewedBy world r).repository.conflicts = r.conflicts ∨
      hasAction plan .createConflictSet = true ∧ ∃ ids, ConflictWritten platform plan (primaryDecision plan) r
        (applyPlan gateway platform plan reviewedBy world r).repository.conflicts ids := by
  have hstart : OnStore (fun s ids => ConflictUnwritten r s.conflicts ids) (Progress.start world r) := ⟨rfl, rfl⟩
  have reached : ∀ p : Progress W, ConflictsReached platform plan (primaryDecision plan) r p.repository.conflicts
      p.createdConflictSetIds → ∀ result, (finish r result p).repository.conflicts = r.conflicts ∨
      hasAction plan .createConflictSet = true ∧ ∃ ids, ConflictWritten platform plan (primaryDecision plan) r
        (finish r result p).repository.conflicts ids := by
    intro p hp result
    obtain hfinish | hfinish := finish_conflicts (r := r) result p
    · exact .inl hfinish
    · rw [hfinish]
      obtain hunwritten | ⟨haction, hwritten⟩ := hp
      · exact .inl hunwritten.1
      · exact .inr ⟨haction, _, hwritten⟩
  have hphases : Phase.Triple (OnStore fun s ids => ConflictUnwritten r s.conflicts ids)
      (Phase.sequence (applyPhases gateway platform plan (primaryDecision plan))) _ _ := applyPhases_conflicts gateway
  unfold applyPlan
  simp only [Phase.run]
  cases hrun : Phase.sequence (applyPhases gateway platform plan (primaryDecision plan)) (Progress.start world r) with
  | ok p => exact reached p (hphases.ok_of hstart hrun).reached _
  | error failure =>
    obtain ⟨exc, p⟩ := failure
    cases exc with
    | raised text => exact reached p (hphases.error_of hstart hrun) _
    | integrity => exact .inl rfl

end Frames

end Alexandria.Reconciliation
