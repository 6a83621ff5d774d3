import Alexandria.Reconciliation.Conflicts

/-! # Recorded conflict identifiers

An apply derives the identifier of its conflict set from the plan's identifier and records it in the temporal states, in
its result and in the Context it creates. The store finds the row by candidate and claim and keeps the identifier of the
first row, so the recorded identifiers lead to a conflict set as long as no row was stored under another identifier.
-/

namespace Alexandria.Reconciliation
set_option autoImplicit false
open Text Phases

section Temporal
variable {W : Type} (gateway : CanonicalGateway W) {platform : Platform} {plan : MemoryReconciliationPlan}
  {primary : Option MemoryRelationDecision} {r : Repository}

/-! ## Identifiers in temporal states -/

/-- Every identifier in the overlays was in one of `r` or is one of `ids`. -/
def TemporalWithin (r : Repository) (ids : List String) (temporal : List MemoryTemporalState) : Prop :=
  ∀ state ∈ temporal, ∀ id ∈ state.conflictSetIds, (∃ old ∈ r.temporal, id ∈ old.conflictSetIds) ∨ id ∈ ids

theorem TemporalWithin.upsert {s : Repository} {ids : List String} (h : TemporalWithin r ids s.temporal)
    {state : MemoryTemporalState}
    (hstate : ∀ id ∈ state.conflictSetIds, (∃ old ∈ r.temporal, id ∈ old.conflictSetIds) ∨ id ∈ ids) :
    TemporalWithin r ids (s.upsertTemporalState state).temporal := by
  intro other hother
  obtain rfl | ⟨hother, -⟩ := Keyed.mem_put.mp hother
  · exact hstate
  · exact h other hother

theorem targetState_conflictSetIds {decision : MemoryRelationDecision} {created : Option String} {ids : List String}
    {existing : Option MemoryTemporalState} {state : MemoryTemporalState}
    (h : targetState plan decision created ids existing = .ok state) {id : String} (hid : id ∈ state.conflictSetIds) :
    (∃ base, existing = some base ∧ id ∈ base.conflictSetIds) ∨ id ∈ ids := by
  have hbase : ∀ id ∈ (existing.getD (defaultState plan decision.existingContextId)).conflictSetIds,
      ∃ base, existing = some base ∧ id ∈ base.conflictSetIds := by
    intro id hid
    cases existing with
    | none => cases hid
    | some base => exact ⟨base, rfl, hid⟩
  unfold targetState at h
  simp only at h
  split at h
  · split at h
    · cases h
    · cases h
      exact .inl (hbase id hid)
  · cases h
    simp only [conflictedState, mem_dedupe, List.mem_append] at hid
    exact hid.imp_left (hbase id)
  · cases h
    exact .inl (hbase id hid)

theorem writeCreatedState_temporal :
    Phase.Keeps (OnStore fun s _ => TemporalWithin r (conflictIds platform.uuid5 plan primary) s.temporal)
      (writeCreatedState platform plan primary : ApplyPhase W) := by
  intro p hp
  unfold writeCreatedState
  cases p.createdContextId with
  | none => exact hp
  | some created => exact hp.upsert fun id hid => .inr hid

theorem writeTargetState_temporal :
    Phase.Keeps (OnStore fun s _ => TemporalWithin r (conflictIds platform.uuid5 plan primary) s.temporal)
      (writeTargetState platform plan primary : ApplyPhase W) := by
  intro p hp
  unfold writeTargetState
  cases primary with
  | none => exact hp
  | some decision =>
    simp only
    cases hstate : targetState plan decision p.createdContextId (conflictIds platform.uuid5 plan (some decision))
        (p.repository.getTemporalState decision.existingContextId) with
    | error text => exact hp
    | ok state =>
      refine hp.upsert ?_
      intro id hid
      obtain ⟨base, hbase, hold⟩ | hnew := targetState_conflictSetIds hstate hid
      · exact hp base (Keyed.lookup_mem hbase).1 id hold
      · exact .inr hnew

theorem applyPhases_temporal :
    Phase.Keeps (OnStore fun s _ => TemporalWithin r (conflictIds platform.uuid5 plan primary) s.temporal)
      (Phase.sequence (applyPhases gateway platform plan primary)) :=
  applyPhases_keeps gateway (createContext_frame gateway) (mergeEvidence_frame gateway)
    (persistPrimaryRelation_frame fun _ _ _ h => h) (persistConflict_frame fun _ _ _ _ h => h)
    (markSuperseded_frame gateway) writeCreatedState_temporal writeTargetState_temporal queueReview_frame

/-! ## An apply that succeeds -/

theorem failedResult_status (reviewedBy : Option String) (text : String) (p : Progress W) :
    (failedResult platform plan reviewedBy text p).status ≠ .applied := by
  unfold failedResult failureStatus
  simp only
  split <;> simp

/-- An apply whose result says APPLIED went through all phases and saved the result. -/
theorem applyPlan_applied {reviewedBy : Option String} {world : W} {result : MemoryReconciliationResult}
    (hresponse : (applyPlan gateway platform plan reviewedBy world r).response = .returned result)
    (hstatus : result.status = .applied) :
    ∃ p saved, Phase.sequence (applyPhases gateway platform plan (primaryDecision plan)) (Progress.start world r) = .ok p ∧
      p.repository.saveResult (successfulResult platform plan reviewedBy p) = .ok saved ∧
      applyPlan gateway platform plan reviewedBy world r =
        ⟨.returned (successfulResult platform plan reviewedBy p), p.world, saved, p.effects⟩ := by
  unfold applyPlan at hresponse ⊢
  simp only [Phase.run] at hresponse ⊢
  cases hrun : Phase.sequence (applyPhases gateway platform plan (primaryDecision plan)) (Progress.start world r) with
  | ok p =>
    rw [hrun] at hresponse
    simp only [finish] at hresponse ⊢
    cases hsave : p.repository.saveResult (successfulResult platform plan reviewedBy p) with
    | ok saved => exact ⟨p, saved, rfl, hsave, rfl⟩
    | error exc =>
      rw [hsave] at hresponse
      cases hresponse
  | error failure =>
    obtain ⟨exc, p⟩ := failure
    rw [hrun] at hresponse
    cases exc with
    | integrity => cases hresponse
    | raised text =>
      simp only [finish] at hresponse
      split at hresponse
      · cases hresponse
        exact absurd hstatus (failedResult_status reviewedBy text p)
      · cases hresponse

end Temporal

/-! ## Rows and their identifiers -/

section Rows
variable {r : Repository} {conflict : MemoryConflictSet} {rowId : String}

/-- An upsert keeps the identifiers of all rows. -/
theorem exists_row_put (hkeys : (r.conflicts.map ConflictRow.key).Nodup) (hrow : RowIdFor r conflict rowId)
    {row : ConflictRow} (hmem : row ∈ r.conflicts) :
    ∃ other ∈ Keyed.put ConflictRow.key ⟨rowId, conflict⟩ r.conflicts, other.id = row.id := by
  by_cases hkey : row.key = conflict.key
  · refine ⟨⟨rowId, conflict⟩, Keyed.mem_put.mpr (.inl rfl), ?_⟩
    have hfound : Keyed.lookup ConflictRow.key conflict.key r.conflicts = some row :=
      (Keyed.lookup_eq_some hkeys).mpr ⟨hmem, hkey⟩
    obtain ⟨stored, hstored, rfl⟩ | ⟨hnone, -⟩ := hrow
    · obtain rfl := Option.some.inj (hstored.symm.trans hfound)
      rfl
    · cases hnone.symm.trans hfound
  · exact ⟨row, Keyed.mem_put.mpr (.inr ⟨hmem, hkey⟩), rfl⟩

/-- The service writes the identifier that the row it has read carries. -/
theorem rowIdFor_self (hkeys : (r.conflicts.map ConflictRow.key).Nodup) {row : ConflictRow} (hmem : row ∈ r.conflicts)
    (hkey : conflict.key = row.key) (hrow : RowIdFor r conflict rowId) : rowId = row.id := by
  have hfound : Keyed.lookup ConflictRow.key conflict.key r.conflicts = some row :=
    (Keyed.lookup_eq_some hkeys).mpr ⟨hmem, hkey.symm⟩
  obtain ⟨stored, hstored, rfl⟩ | ⟨hnone, -⟩ := hrow
  · obtain rfl := Option.some.inj (hstored.symm.trans hfound)
    rfl
  · cases hnone.symm.trans hfound

end Rows

/-! ## Runs of applied plans -/

section Runs
variable {W : Type} {gateway : CanonicalGateway W} {platform : Platform} {s t : System W}

/-- The apply returns a result with the status APPLIED. -/
def returnsApplied (outcome : ApplyOutcome W) : Bool :=
  match outcome.response with
  | .returned result => result.status = .applied
  | .raised => false

variable (gateway platform) in
/-- The requests of a run in which every apply that is made is an applied plan. -/
def appliedStep (s : System W) (request : Request W) : Option (System W) :=
  match request with
  | .apply applyRequest =>
    if returnsApplied (apply gateway platform applyRequest s.world s.repository) then step gateway platform s request
    else none
  | _ => step gateway platform s request

/-- The identifier is written in a temporal state, in a result or in a Context. -/
inductive Recorded (s : System W) (id : String) : Prop
  | temporal (state : MemoryTemporalState) (hstate : state ∈ s.repository.temporal) (hid : id ∈ state.conflictSetIds)
  | result (result : MemoryReconciliationResult) (hresult : result ∈ s.repository.results)
    (hid : id ∈ result.createdConflictSetIds)
  | context (creation : ContextCreation) (hcreation : creation ∈ s.creations) (hid : id ∈ creation.conflictSetIds)

/-- The store returns a conflict set with the identifier for every identifier that is recorded. -/
def ConflictIdsResolve (s : System W) : Prop :=
  ∀ id, Recorded s id → ∃ conflict, s.repository.getConflict id = some conflict ∧ conflict.conflictSetId = id

variable (platform) in
/-- A contradiction plan is applied only where no conflict set is stored for its candidate and claim, or the one that
is has the identifier derived from this plan. -/
def WritesOwnRow (s : System W) : Request W → Prop
  | .apply request =>
    ∀ plan decision row, executedPlan s.repository request = some plan → primaryDecision plan = some decision →
      decision.relation = .contradicts →
      Keyed.lookup ConflictRow.key (plan.candidate.candidateId, claimKey plan decision) s.repository.conflicts =
        some row → row.id = conflictSetId platform.uuid5 plan decision
  | _ => True

structure Filed (s : System W) : Prop where
  keys : (s.repository.conflicts.map ConflictRow.key).Nodup
  own : ∀ row ∈ s.repository.conflicts, row.payload.conflictSetId = row.id
  built : ∀ plan ∈ s.repository.plans, IsBuilt plan
  filed : ∀ id, Recorded s id → ∃ row ∈ s.repository.conflicts, row.id = id

theorem Filed.conflictIdsResolve (h : Filed s) : ConflictIdsResolve s := by
  intro id hid
  obtain ⟨row, hrow, hrowId⟩ := h.filed id hid
  cases hfound : s.repository.conflictRow id with
  | none => exact absurd hrowId (Keyed.lookup_eq_none.mp hfound row hrow)
  | some found =>
    obtain ⟨hmem, hkey⟩ := Keyed.lookup_mem hfound
    refine ⟨found.payload, ?_, (h.own found hmem).trans hkey⟩
    unfold Repository.getConflict
    rw [hfound]
    rfl

theorem filed_start (world : W) : Filed (System.start world) where
  keys := List.nodup_nil
  own := by
    intro row hrow
    cases hrow
  built := by
    intro plan hplan
    cases hplan
  filed := by
    intro id hid
    cases hid with
    | temporal state hstate => cases hstate
    | result result hresult => cases hresult
    | context creation hcreation => cases hcreation

/-- A write that neither changes conflict rows nor records an identifier. -/
theorem Filed.frame {world : W} {repository : Repository} (h : Filed s)
    (hconflicts : repository.conflicts = s.repository.conflicts) (htemporal : repository.temporal = s.repository.temporal)
    (hresults : repository.results = s.repository.results) (hbuilt : ∀ plan ∈ repository.plans, IsBuilt plan) :
    Filed { s with world := world, repository := repository } where
  keys := by
    simp only [hconflicts]
    exact h.keys
  own := by
    simp only [hconflicts]
    exact h.own
  built := hbuilt
  filed := by
    intro id hid
    simp only [hconflicts]
    refine h.filed id ?_
    cases hid with
    | temporal state hstate hid => exact .temporal state (htemporal ▸ hstate) hid
    | result result hresult hid => exact .result result (hresults ▸ hresult) hid
    | context creation hcreation hid => exact .context creation hcreation hid

/-- The service rewrites a row under its own identifier. -/
theorem Filed.rewrite {resolutions : ConflictKey → Option Resolution} {row : ConflictRow} {conflict : MemoryConflictSet}
    {rowId : String} (h : Filed s) (hmem : row ∈ s.repository.conflicts) (hkey : conflict.key = row.key)
    (hid : conflict.conflictSetId = row.payload.conflictSetId) (hrow : RowIdFor s.repository conflict rowId) :
    Filed { s with repository := s.repository.putConflict ⟨rowId, conflict⟩, resolutions := resolutions } where
  keys := Keyed.nodup_put h.keys
  own := by
    intro other hother
    obtain rfl | ⟨hother, -⟩ := Keyed.mem_put.mp hother
    · exact (hid.trans (h.own row hmem)).trans (rowIdFor_self h.keys hmem hkey hrow).symm
    · exact h.own other hother
  built := h.built
  filed := by
    intro id hrecorded
    have hold : Recorded s id := by
      cases hrecorded with
      | temporal state hstate hid => exact .temporal state hstate hid
      | result result hresult hid => exact .result result hresult hid
      | context creation hcreation hid => exact .context creation hcreation hid
    obtain ⟨other, hother, rfl⟩ := h.filed id hold
    exact exists_row_put h.keys hrow hother

/-! ## An applied plan -/

theorem conflictIds_eq_cons {uuid5 : String → String} {plan : MemoryReconciliationPlan}
    {primary : Option MemoryRelationDecision} {id : String} {rest : List String}
    (h : conflictIds uuid5 plan primary = id :: rest) :
    ∃ decision, primary = some decision ∧ decision.relation = .contradicts ∧
      id = conflictSetId uuid5 plan decision ∧ rest = [] := by
  cases primary with
  | none => cases h
  | some decision =>
    simp only [conflictIds] at h
    split at h
    · rename_i hrelation
      cases h
      exact ⟨decision, rfl, hrelation, rfl, rfl⟩
    · cases h

/-- A plan without the action to create a conflict set has no conflict identifier. -/
theorem IsBuilt.conflictIds_eq_nil {plan : MemoryReconciliationPlan} (hplan : IsBuilt plan) (uuid5 : String → String)
    (haction : hasAction plan .createConflictSet = false) : conflictIds uuid5 plan (primaryDecision plan) = [] := by
  cases hids : conflictIds uuid5 plan (primaryDecision plan) with
  | nil => rfl
  | cons id rest =>
    obtain ⟨decision, hprimary, hrelation, -⟩ := conflictIds_eq_cons hids
    have hmem : decision ∈ plan.decisions := List.mem_of_find?_eq_some hprimary
    obtain ⟨selected, hselected⟩ := selectPrimaryDecision_isSome (List.ne_nil_of_mem hmem)
    obtain ⟨recovered, hrecovered, -, hsame⟩ := hplan.exists_primaryDecision hselected
    obtain rfl := Option.some.inj (hprimary.symm.trans hrecovered)
    rw [hplan.hasAction_eq hselected, ← hsame, hrelation] at haction
    cases haction

/-- What an applied plan does to the rows: old identifiers stay, those of the plan are there, and each row carries its
own. -/
structure RowsGrown (r : Repository) (conflicts : List ConflictRow) (ids : List String) : Prop where
  keys : (conflicts.map ConflictRow.key).Nodup
  own : ∀ row ∈ conflicts, row.payload.conflictSetId = row.id
  kept : ∀ row ∈ r.conflicts, ∃ other ∈ conflicts, other.id = row.id
  added : ∀ id ∈ ids, ∃ row ∈ conflicts, row.id = id

theorem Filed.rowsGrown {plan : MemoryReconciliationPlan} {conflicts : List ConflictRow} {createdIds : List String}
    (h : Filed s) (hplan : IsBuilt plan)
    (hown : ∀ decision row, primaryDecision plan = some decision → decision.relation = .contradicts →
      Keyed.lookup ConflictRow.key (plan.candidate.candidateId, claimKey plan decision) s.repository.conflicts =
        some row → row.id = conflictSetId platform.uuid5 plan decision)
    (hafter : ConflictsAfter platform plan (primaryDecision plan) s.repository conflicts createdIds) :
    RowsGrown s.repository conflicts (conflictIds platform.uuid5 plan (primaryDecision plan)) ∧
      ∀ id ∈ createdIds, id ∈ conflictIds platform.uuid5 plan (primaryDecision plan) := by
  unfold ConflictsAfter at hafter
  split at hafter
  · obtain ⟨decision, created, id, rest, rowId, hprimary, hids, rfl, hrow, rfl⟩ := hafter
    obtain ⟨decision', hprimary', hrelation, rfl, rfl⟩ := conflictIds_eq_cons hids
    obtain rfl : decision = decision' := Option.some.inj (hprimary.symm.trans hprimary')
    have hrowId : rowId = conflictSetId platform.uuid5 plan decision := by
      obtain ⟨row, hstored, rfl⟩ | ⟨-, hnew, -⟩ := hrow
      · exact hown decision row hprimary hrelation hstored
      · exact hnew
    refine ⟨⟨Keyed.nodup_put h.keys, ?_, fun row hmem => exists_row_put h.keys hrow hmem, ?_⟩, ?_⟩
    · intro row hmem
      obtain rfl | ⟨hmem, -⟩ := Keyed.mem_put.mp hmem
      · exact hrowId.symm
      · exact h.own row hmem
    · intro id hid
      rw [hids, List.mem_singleton] at hid
      exact ⟨_, Keyed.mem_put.mpr (.inl rfl), hrowId.trans hid.symm⟩
    · intro id hid
      rw [hids]
      exact hid
  · rename_i haction
    obtain ⟨rfl, rfl⟩ := hafter
    rw [hplan.conflictIds_eq_nil platform.uuid5 (Bool.eq_false_iff.mpr haction)]
    exact ⟨⟨h.keys, h.own, fun row hmem => ⟨row, hmem, rfl⟩, by simp⟩, by simp⟩

theorem creationsOf_conflictSetIds {plan : MemoryReconciliationPlan} {primary : Option MemoryRelationDecision}
    {effects : List Effect} (h : ∀ effect ∈ effects, PlanEffect platform plan primary effect) {creation : ContextCreation}
    (hcreation : creation ∈ creationsOf effects) : creation.conflictSetIds = conflictIds platform.uuid5 plan primary := by
  obtain ⟨effect, heffect, hsome⟩ := List.mem_filterMap.mp hcreation
  cases h effect heffect with
  | createContext =>
    cases hsome
    rfl
  | _ => cases hsome

theorem Filed.applied {request : ApplyRequest} (h : Filed s) (hok : WritesOwnRow platform s (.apply request))
    (hstep : appliedStep gateway platform s (.apply request) = some t) : Filed t := by
  simp only [appliedStep] at hstep
  split at hstep
  swap
  · cases hstep
  rename_i happlied
  cases hstep
  obtain ⟨plan, reviewedBy, hexecuted, hstored, hoccurs⟩ | ⟨-, hrepository, heffects⟩ :=
    apply_cases gateway platform request s.world s.repository
  · rw [hoccurs] at happlied ⊢
    unfold returnsApplied at happlied
    split at happlied
    swap
    · cases happlied
    rename_i result hresponse
    obtain ⟨p, saved, hrun, hsave, heq⟩ := applyPlan_applied gateway hresponse (by simpa using happlied)
    have hstart : ∀ {P : Repository → List String → Prop}, P s.repository [] →
        OnStore P (Progress.start s.world s.repository) := fun hP => hP
    have hplan : IsBuilt plan := h.built plan (Keyed.lookup_mem hstored).1
    obtain ⟨hplans, hresults⟩ := (applyPhases_plans gateway).ok_of (hstart ⟨rfl, rfl⟩) hrun
    have htemporal := (applyPhases_temporal gateway).ok_of
      (hstart fun state hstate id hid => .inl ⟨state, hstate, hid⟩) hrun
    obtain ⟨hrows, hcreated⟩ := h.rowsGrown hplan (fun decision row => hok plan decision row hexecuted)
      ((applyPhases_conflicts gateway).ok_of (hstart ⟨rfl, rfl⟩) hrun)
    have hplanned : ∀ effect ∈ (applyPlan gateway platform plan reviewedBy s.world s.repository).effects,
        PlanEffect platform plan (primaryDecision plan) effect :=
      applyPlan_planned gateway reviewedBy s.world s.repository
    rw [heq] at hplanned ⊢
    obtain ⟨hsavedPlans, hsavedConflicts, hsavedTemporal, hsavedResults⟩ := saveResult_frame hsave
    refine ⟨?_, ?_, ?_, ?_⟩
    · simp only [hsavedConflicts]
      exact hrows.keys
    · simp only [hsavedConflicts]
      exact hrows.own
    · simp only [hsavedPlans, hplans]
      exact h.built
    · intro id hid
      simp only [hsavedConflicts]
      have hold : Recorded s id → ∃ row ∈ p.repository.conflicts, row.id = id := by
        intro hrecorded
        obtain ⟨row, hrow, rfl⟩ := h.filed id hrecorded
        exact hrows.kept row hrow
      cases hid with
      | temporal state hstate hid =>
        obtain ⟨old, hmem, hin⟩ | hnew := htemporal state (hsavedTemporal ▸ hstate) id hid
        · exact hold (.temporal old hmem hin)
        · exact hrows.added id hnew
      | result result hresult hid =>
        obtain rfl | ⟨hresult, -⟩ := Keyed.mem_put.mp (hsavedResults ▸ hresult)
        · exact hrows.added id (hcreated id hid)
        · exact hold (.result result (hresults ▸ hresult) hid)
      | context creation hcreation hid =>
        obtain hcreation | hcreation := List.mem_append.mp hcreation
        · exact hold (.context creation hcreation hid)
        · rw [creationsOf_conflictSetIds hplanned hcreation] at hid
          exact hrows.added id hid
  · have hsame : s.creations ++ creationsOf
        (Reconciliation.apply gateway platform request s.world s.repository).effects = s.creations := by
      rw [heffects]
      exact List.append_nil _
    rw [hsame, hrepository]
    exact h.frame rfl rfl rfl h.built

theorem Filed.step {request : Request W} (h : Filed s) (hok : WritesOwnRow platform s request)
    (hstep : appliedStep gateway platform s request = some t) : Filed t := by
  cases request with
  | preview planId candidate decisions idempotencyKey =>
    simp only [appliedStep, Reconciliation.step] at hstep
    split at hstep
    · rename_i hsave
      cases hstep
      obtain ⟨hconflicts, htemporal, hresults, hplans⟩ := savePlan_frame hsave
      refine h.frame hconflicts htemporal hresults ?_
      intro plan hplan
      obtain hplan | rfl := hplans plan hplan
      · exact h.built plan hplan
      · exact buildPlan_isBuilt platform.hashText planId candidate decisions idempotencyKey
    · cases hstep
      exact h
  | apply request => exact h.applied hok hstep
  | markReviewing conflictSetId =>
    simp only [appliedStep, Reconciliation.step] at hstep
    split at hstep
    · rename_i hmark
      cases hstep
      obtain ⟨row, rowId, hrow, -, hid, rfl⟩ := markReviewing_eq_some hmark
      exact h.rewrite hrow rfl rfl hid
    · cases hstep
      exact h
  | resolve conflictSetId status resolution now =>
    simp only [appliedStep, Reconciliation.step] at hstep
    split at hstep
    · rename_i hresolve
      cases hstep
      obtain ⟨-, row, rowId, hrow, rfl, hid, rfl⟩ := resolve_eq_some hresolve
      exact h.rewrite hrow rfl rfl hid
    · cases hstep
      exact h
  | outside world =>
    cases hstep
    exact h.frame rfl rfl rfl h.built

/-- In every run of applied plans in which a contradiction finds no conflict set that another plan has stored for its
candidate and claim, every recorded identifier is that of a conflict set the store returns for it. -/
theorem conflict_ids_resolve (world : W)
    (hrun : Run.Guarded (appliedStep gateway platform) (WritesOwnRow platform) (System.start world) s) :
    ConflictIdsResolve s := by
  have hfiled : Filed s := hrun.invariant (filed_start world) fun _ _ _ ha hok hstep => ha.step hok hstep
  exact hfiled.conflictIdsResolve

end Runs

/-! ## An identifier without a conflict set -/

/-- One contradiction is applied. -/
def firstApplied : List (Request Unit) :=
  [.preview "plan-1" sampleCandidate contradiction (some "key-1"), .apply (approved "plan-1")]

/-- A second plan for the same candidate and claim is applied. -/
def secondApplied : List (Request Unit) :=
  firstApplied ++ [.preview "plan-2" sampleCandidate contradiction (some "key-2"), .apply (approved "plan-2")]

/-- The identifier of the conflict set of the second plan. -/
def secondConflictId : String := "cc9062fa-7910-5a33-b0e2-8ba3d5400a60"

/-- The identifiers in the temporal states, in the results and in the Contexts. -/
def recordedIds (s : System Unit) : List (List String) × List (List String) × List (List String) :=
  (s.repository.temporal.map (·.conflictSetIds), s.repository.results.map (·.createdConflictSetIds),
    s.creations.map (·.conflictSetIds))

theorem secondApplied_recorded :
    (Run.exec (appliedStep acceptingGateway samplePlatform) (System.start ()) secondApplied).map
        (fun s => (recordedIds s, s.repository.getConflict secondConflictId)) =
      some (([[secondConflictId], [firstConflictId, secondConflictId]], [[firstConflictId], [secondConflictId]],
        [[firstConflictId], [secondConflictId]]), none) := by
  decide +kernel

/-- The identifier that the second plan records is not that of any conflict set in the store. -/
theorem conflict_id_without_conflict :
    ¬ ∀ (W : Type) (gateway : CanonicalGateway W) (platform : Platform) (world : W) (s : System W),
      Run.Runs (appliedStep gateway platform) (System.start world) s → ConflictIdsResolve s := by
  intro resolves
  obtain ⟨s, hs, hstate⟩ := Option.map_eq_some_iff.mp secondApplied_recorded
  obtain ⟨hids, hnone⟩ := Prod.mk.inj hstate
  have hresults : s.repository.results.map (·.createdConflictSetIds) = [[firstConflictId], [secondConflictId]] :=
    congrArg (fun ids => ids.2.1) hids
  have hmem : [secondConflictId] ∈ s.repository.results.map (·.createdConflictSetIds) := by
    rw [hresults]
    exact List.mem_cons_of_mem _ (List.mem_singleton_self _)
  obtain ⟨result, hresult, hcreated⟩ := List.mem_map.mp hmem
  have hrecorded : Recorded s secondConflictId := by
    refine .result result hresult ?_
    rw [hcreated]
    exact List.mem_singleton_self _
  obtain ⟨conflict, hconflict, -⟩ :=
    resolves Unit acceptingGateway samplePlatform () s (.of_exec _ hs) secondConflictId hrecorded
  rw [hnone] at hconflict
  cases hconflict

theorem writesOwnRow_of_appliesFirst (s : System Unit) (request : Request Unit) (h : appliesFirst s request = true) :
    WritesOwnRow samplePlatform s request := by
  cases request with
  | apply request =>
    intro plan decision row _ _ _ hrow
    have hempty : s.repository.conflicts = [] := List.isEmpty_iff.mp h
    rw [hempty] at hrow
    cases hrow
  | _ => trivial

theorem conflict_ids_resolve_once :
    ∃ s : System Unit, recordedIds s =
        ([[firstConflictId], [firstConflictId]], [[firstConflictId]], [[firstConflictId]]) ∧ ConflictIdsResolve s := by
  have hrun : (Run.exec (Run.checked (appliedStep acceptingGateway samplePlatform) appliesFirst) (System.start ())
      firstApplied).map recordedIds =
      some ([[firstConflictId], [firstConflictId]], [[firstConflictId]], [[firstConflictId]]) := by
    decide +kernel
  obtain ⟨s, hs, hids⟩ := Option.map_eq_some_iff.mp hrun
  exact ⟨s, hids, conflict_ids_resolve () (.of_exec writesOwnRow_of_appliesFirst _ hs)⟩

end Alexandria.Reconciliation
