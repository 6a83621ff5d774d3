import Alexandria.Foundations.Span
import Alexandria.Reconciliation.Contexts
import Alexandria.Reconciliation.Targets

/-! # Validity after a supersession

The classifier says SUPERSEDES only of a candidate that is newer than the existing Context and does not overlap it. The
state writer then gives the old Context the candidate's start as its end, or the time it was observed. With a start the
two closed intervals meet in it, and an old interval that had ended already is made longer.
-/

namespace Alexandria.Reconciliation
set_option autoImplicit false
open Phases

/-! ## Intervals -/

def MemoryTemporalState.validity (state : MemoryTemporalState) : Span Instant := ⟨state.validFrom, state.validTo⟩

def MemoryCandidate.span (candidate : MemoryCandidate) : Span Instant := ⟨candidate.validFrom, candidate.validTo⟩

theorem intervalsOverlap_eq_false {leftFrom leftTo rightFrom rightTo : Option Instant} :
    intervalsOverlap leftFrom leftTo rightFrom rightTo = false ↔
      ¬ (⟨leftFrom, leftTo⟩ : Span Instant).Meets ⟨rightFrom, rightTo⟩ := by
  unfold intervalsOverlap intervalsOverlap.endsAfterStart Span.Meets Span.Before
  cases leftFrom <;> cases leftTo <;> cases rightFrom <;> cases rightTo <;> simp

/-- The time by which a candidate or a Context counts as newer. -/
theorem isTemporallyNewer_eq_true {candidateFrom candidateObserved existingFrom existingObserved : Option Instant} :
    isTemporallyNewer candidateFrom candidateObserved existingFrom existingObserved = true ↔
      ∃ candidateTime existingTime, candidateFrom.or candidateObserved = some candidateTime ∧
        existingFrom.or existingObserved = some existingTime ∧ existingTime < candidateTime := by
  unfold isTemporallyNewer
  cases candidateFrom.or candidateObserved <;> cases existingFrom.or existingObserved <;> simp

/-! ## What SUPERSEDES says -/

section Classified
variable {platform : Platform} {candidate : MemoryCandidate} {existing : MemoryRecallCandidate}

theorem selectByClaims_supersedes {best : ClaimComparison} {scores : MemoryRelationScores} {overlap : Bool}
    (h : (selectByClaims best scores overlap).relation = .supersedes) : scores.freshness = 1 ∧ overlap = false := by
  unfold selectByClaims at h
  split at h
  · split at h <;> cases h
  · split at h
    · cases h
    · split at h
      · rename_i hguard
        simp only [Bool.and_eq_true, decide_eq_true_eq, Bool.not_eq_true'] at hguard
        exact ⟨hguard.1.2, hguard.2⟩
      · split at h
        · cases h
        · split at h
          · cases h
          · split at h <;> cases h

theorem selectRelation_supersedes {best : Option ClaimComparison} {scores : MemoryRelationScores} {overlap : Bool}
    (h : (selectRelation candidate existing best scores overlap).relation = .supersedes) :
    scores.freshness = 1 ∧ overlap = false := by
  unfold selectRelation at h
  split at h
  · cases h
  · split at h
    · cases h
    · split at h
      · cases h
      · split at h
        · split at h <;> cases h
        · exact selectByClaims_supersedes h

theorem classify_supersedes (h : (classify platform candidate existing).relation = .supersedes) :
    temporallyNewer candidate existing = true ∧ temporalOverlap candidate existing = false := by
  obtain ⟨hfresh, hoverlap⟩ := selectRelation_supersedes h
  refine ⟨?_, hoverlap⟩
  by_contra hnewer
  rw [Bool.not_eq_true] at hnewer
  simp [relationScores, hnewer] at hfresh

theorem proposalIsSupported_supersedes {proposal : MemoryRelationModelProposal} {base : MemoryRelationDecision}
    (hrelation : proposal.relation = .supersedes) (h : proposalIsSupported proposal base candidate existing = true) :
    temporallyNewer candidate existing = true ∧ temporalOverlap candidate existing = false := by
  unfold proposalIsSupported at h
  rw [hrelation] at h
  simp only at h
  split at h
  · cases h
  · simp only [Bool.and_eq_true, Bool.not_eq_true'] at h
    exact ⟨h.2, h.1⟩

/-- The policy and the checked proposals of a model agree on when a Context is superseded. -/
theorem classifyWithModel_supersedes {provider : Option ProposalProvider}
    (h : (classifyWithModel platform provider candidate existing).relation = .supersedes) :
    temporallyNewer candidate existing = true ∧ temporalOverlap candidate existing = false := by
  unfold classifyWithModel at h
  simp only at h
  split at h
  · exact classify_supersedes h
  · split at h
    · exact classify_supersedes h
    · rename_i proposal hproposal
      unfold modelProposalDecision at h
      split at h
      · exact classify_supersedes h
      · split at h
        · rename_i hsupported
          exact proposalIsSupported_supersedes h hsupported
        · exact classify_supersedes h

theorem classifyWithModel_existingContextId {provider : Option ProposalProvider} :
    (classifyWithModel platform provider candidate existing).existingContextId = existing.contextId := by
  unfold classifyWithModel modelProposalDecision
  simp only
  split
  · rfl
  · split
    · rfl
    · split
      · rfl
      · split <;> rfl

end Classified

/-! ## What the state writer leaves -/

/-- The old interval only shrinks and stays apart from the new one. -/
structure Separated (before old new : MemoryTemporalState) : Prop where
  contained : ∀ instant, old.validity.Covers instant → before.validity.Covers instant
  apart : intervalsOverlap old.validFrom old.validTo new.validFrom new.validTo = false
  disjoint : ∀ instant, ¬ (old.validity.Covers instant ∧ new.validity.Covers instant)

/-- The candidate has no start of its own, and was not observed after the old validity had ended. -/
def ObservedBeforeEnd (candidate : MemoryCandidate) (before : MemoryTemporalState) : Prop :=
  candidate.validFrom = none ∧
    ∀ finish observed, before.validTo = some finish → candidate.observedAt = some observed → observed ≤ finish

section Writer
variable {W : Type} {platform : Platform} {plan : MemoryReconciliationPlan} {decision : MemoryRelationDecision}

/-- A supersession writes the replacement's interval and gives the old Context a new end. -/
theorem persistTemporalStates_supersedes {p : Progress W} {replacement : String} {before : MemoryTemporalState}
    (hrelation : decision.relation = .supersedes) (hcreated : p.createdContextId = some replacement)
    (hbefore : p.repository.getTemporalState decision.existingContextId = some before)
    (hdistinct : replacement ≠ decision.existingContextId) :
    ∃ q new, persistTemporalStates platform plan (some decision) p = .ok q ∧
      q.repository.getTemporalState replacement = some new ∧
      q.repository.getTemporalState decision.existingContextId = some (supersededState plan.candidate replacement before) ∧
      new.validity = plan.candidate.span := by
  have hcontext : before.contextId = decision.existingContextId := (Keyed.lookup_mem hbefore).2
  have hwrite := writeCreatedState_eq platform plan (some decision) hcreated
  generalize hnew : createdState plan (some decision) replacement (conflictIds platform.uuid5 plan (some decision)) = new
    at hwrite
  have hid : new.contextId = replacement := by
    rw [← hnew]
    rfl
  have hspan : new.validity = plan.candidate.span := by
    rw [← hnew]
    rfl
  have hkept : (p.repository.upsertTemporalState new).getTemporalState decision.existingContextId = some before := by
    rw [Repository.getTemporalState_upsert, hid, if_neg hdistinct, hbefore]
  have hstate : targetState plan decision p.createdContextId (conflictIds platform.uuid5 plan (some decision))
      ((p.repository.upsertTemporalState new).getTemporalState decision.existingContextId) =
      .ok (supersededState plan.candidate replacement before) := by
    rw [hkept, hcreated]
    unfold targetState
    rw [hrelation]
    rfl
  have hold : (supersededState plan.candidate replacement before).contextId = decision.existingContextId := hcontext
  refine ⟨_, new, Phase.andThen_eq_ok.mpr ⟨_, hwrite, writeTargetState_eq platform plan hstate⟩, ?_, ?_, hspan⟩
  · rw [Repository.getTemporalState_upsert, hold, if_neg hdistinct.symm, Repository.getTemporalState_upsert, if_pos hid]
  · rw [Repository.getTemporalState_upsert, if_pos hold]

end Writer

/-! ## When the intervals are separated -/

section Separation
variable {candidate : MemoryCandidate} {before new : MemoryTemporalState} {replacement : String}

/-- With a start of its own the candidate's interval begins where the old one is made to end. -/
theorem not_separated_of_start {start : Instant} (hstart : candidate.validFrom = some start)
    (hnewer : isTemporallyNewer candidate.validFrom candidate.observedAt before.validFrom before.observedAt = true)
    (hspan : new.validity = candidate.span) : ¬ Separated before (supersededState candidate replacement before) new := by
  intro h
  have hmeets := intervalsOverlap_eq_false.mp h.apart
  have hfinish : (supersededState candidate replacement before).validTo = some start := by
    simp [supersededState, hstart]
  have hnewStart : new.validFrom = some start := (congrArg Span.start hspan).trans hstart
  have hnewFinish : new.validTo = candidate.validTo := congrArg Span.finish hspan
  refine hmeets ⟨?_, ?_⟩
  · intro hbefore
    obtain ⟨a, b, ha, hb, hab⟩ := hbefore
    obtain rfl := Option.some.inj (hfinish.symm.trans ha)
    obtain rfl := Option.some.inj (hnewStart.symm.trans hb)
    exact absurd hab (lt_irrefl _)
  · intro hbefore
    obtain ⟨a, b, ha, hb, hab⟩ := hbefore
    have hordered := candidate.validity start a hstart (hnewFinish.symm.trans ha)
    obtain ⟨candidateTime, existingTime, hc, he, hlt⟩ := isTemporallyNewer_eq_true.mp hnewer
    rw [hstart, Option.some_or] at hc
    rw [show before.validFrom = some b from hb, Option.some_or] at he
    obtain rfl := Option.some.inj hc
    obtain rfl := Option.some.inj he
    exact lt_asymm (lt_of_le_of_lt hordered hab) hlt

/-- Without a start the old interval is made to end when the candidate was observed. -/
theorem separated_iff_of_observed {observed : Instant} (hstart : candidate.validFrom = none)
    (hobserved : candidate.observedAt = some observed)
    (hnewer : isTemporallyNewer candidate.validFrom candidate.observedAt before.validFrom before.observedAt = true)
    (hapart : intervalsOverlap candidate.validFrom candidate.validTo before.validFrom before.validTo = false)
    (hspan : new.validity = candidate.span) :
    Separated before (supersededState candidate replacement before) new ↔
      ∀ finish, before.validTo = some finish → observed ≤ finish := by
  have hold : (supersededState candidate replacement before).validity = ⟨before.validity.start, some observed⟩ := by
    simp [MemoryTemporalState.validity, supersededState, hstart, hobserved]
  -- the candidate does not start, so the two were apart because it ends before the old Context starts
  have hends : candidate.span.Before before.validity := by
    by_contra hnot
    refine intervalsOverlap_eq_false.mp hapart ⟨hnot, ?_⟩
    intro hbefore
    obtain ⟨a, b, -, hb, -⟩ := hbefore
    rw [show (⟨candidate.validFrom, candidate.validTo⟩ : Span Instant).start = none from hstart] at hb
    cases hb
  have hbetween : ¬ ∃ a, before.validity.start = some a ∧ observed < a := by
    intro hlate
    obtain ⟨a, ha, hlt⟩ := hlate
    obtain ⟨candidateTime, existingTime, hc, he, hnew⟩ := isTemporallyNewer_eq_true.mp hnewer
    rw [hstart, hobserved, Option.none_or] at hc
    rw [show before.validFrom = some a from ha, Option.some_or] at he
    obtain rfl := Option.some.inj hc
    obtain rfl := Option.some.inj he
    exact lt_asymm hlt hnew
  have hnotMeets : ¬ (supersededState candidate replacement before).validity.Meets new.validity := by
    intro hmeets
    obtain ⟨a, b, ha, hb, hab⟩ := hends
    refine hmeets.2 ⟨a, b, ?_, ?_, hab⟩
    · rw [hspan]
      exact ha
    · rw [hold]
      exact hb
  have hcontained := Span.endAt_subset_iff (s := before.validity) (b := observed)
  constructor
  · intro h
    refine (hcontained.mp ?_).resolve_right hbetween
    intro instant hinstant
    rw [← hold] at hinstant
    exact h.contained instant hinstant
  · intro h
    refine ⟨?_, intervalsOverlap_eq_false.mpr hnotMeets, fun instant => Span.disjoint_of_not_meets hnotMeets⟩
    intro instant hinstant
    rw [hold] at hinstant
    exact hcontained.mpr (.inl h) instant hinstant

theorem separated_iff
    (hnewer : isTemporallyNewer candidate.validFrom candidate.observedAt before.validFrom before.observedAt = true)
    (hapart : intervalsOverlap candidate.validFrom candidate.validTo before.validFrom before.validTo = false)
    (hspan : new.validity = candidate.span) :
    Separated before (supersededState candidate replacement before) new ↔ ObservedBeforeEnd candidate before := by
  unfold ObservedBeforeEnd
  cases hstart : candidate.validFrom with
  | some start =>
    refine iff_of_false (not_separated_of_start hstart hnewer hspan) ?_
    intro h
    cases h.1
  | none =>
    obtain ⟨observed, existingTime, hobserved, -⟩ := isTemporallyNewer_eq_true.mp hnewer
    rw [hstart, Option.none_or] at hobserved
    rw [separated_iff_of_observed hstart hobserved hnewer hapart hspan, hobserved]
    constructor
    · intro h
      refine ⟨rfl, ?_⟩
      intro finish time hfinish htime
      obtain rfl := Option.some.inj htime
      exact h finish hfinish
    · intro h finish hfinish
      exact h.2 finish observed hfinish rfl

end Separation

/-- For every stored temporal state and every candidate that the classifier relates to it by SUPERSEDES, writing the
temporal states separates the two validities exactly when the candidate has no start of its own and was not observed
after the old validity had ended. -/
theorem supersession_separates_iff {W : Type} (platform : Platform) (provider : Option ProposalProvider)
    (plan : MemoryReconciliationPlan) (context : ContextRecord) (before : MemoryTemporalState) (p : Progress W)
    (replacement : String) (hbefore : p.repository.getTemporalState context.id = some before)
    (hrelation : (classifyWithModel platform provider plan.candidate
      (recallCandidateFromMatch platform context (some before))).relation = .supersedes)
    (hcreated : p.createdContextId = some replacement) (hdistinct : replacement ≠ context.id) :
    ∃ q old new, persistTemporalStates platform plan (some (classifyWithModel platform provider plan.candidate
        (recallCandidateFromMatch platform context (some before)))) p = .ok q ∧
      q.repository.getTemporalState context.id = some old ∧ q.repository.getTemporalState replacement = some new ∧
      (Separated before old new ↔ ObservedBeforeEnd plan.candidate before) := by
  obtain ⟨hnewer, hapart⟩ := classifyWithModel_supersedes hrelation
  have htarget : (classifyWithModel platform provider plan.candidate
      (recallCandidateFromMatch platform context (some before))).existingContextId = context.id :=
    classifyWithModel_existingContextId
  obtain ⟨q, new, hwritten, hnew, hold, hspan⟩ := persistTemporalStates_supersedes hrelation hcreated
    (htarget.symm ▸ hbefore) (htarget.symm ▸ hdistinct)
  rw [htarget] at hold
  exact ⟨q, _, new, hwritten, hold, hnew, separated_iff hnewer hapart hspan⟩

/-- A Context that says where the service listened. -/
def portContext : ContextRecord where
  id := "obsidian:a"
  title := "service port"
  content := "the service listens on port 9090."
  scope := .project
  identity := ⟨some "alexandria", none, none, none, none⟩
  sourceType := "AGENT"
  tags := []
  isArchived := false
  createdAt := 0
  metadata := ⟨none, some "g", none, [⟨"service", "port", "9090", [], .positive⟩], none, none, none, none, [], [], [], []⟩

/-- Its overlay: it was valid from 0 to 10. -/
def portState : MemoryTemporalState := ⟨"obsidian:a", 0, none, some 0, some 10, true, [], [], [], []⟩

/-- The service has listened on another port since 20. -/
def laterCandidate : MemoryCandidate := { sampleCandidate with validFrom := some 20, validity := by decide }

def laterDecision : MemoryRelationDecision :=
  classifyWithModel samplePlatform none laterCandidate (recallCandidateFromMatch samplePlatform portContext (some portState))

def laterPlan : MemoryReconciliationPlan :=
  buildPlan samplePlatform.hashText "plan-1" laterCandidate [laterDecision] (some "key-1")

/-- The candidate's Context was created, and nothing else was written yet. -/
def laterProgress : Progress Unit :=
  { Progress.start () { Repository.empty with temporal := [portState] } with
    createdContextId := some "obsidian:candidate-1" }

/-- The service had listened on another port until five instants before, which was observed at 8. -/
def earlierCandidate : MemoryCandidate :=
  { sampleCandidate with validTo := some (-5), observedAt := some 8, validity := by decide }

def earlierPlan : MemoryReconciliationPlan :=
  buildPlan samplePlatform.hashText "plan-1" earlierCandidate
    [classifyWithModel samplePlatform none earlierCandidate
      (recallCandidateFromMatch samplePlatform portContext (some portState))] (some "key-1")

theorem ports_supersede :
    laterDecision.relation = .supersedes ∧ laterDecision.existingContextId = "obsidian:a" ∧
    (classifyWithModel samplePlatform none earlierPlan.candidate
      (recallCandidateFromMatch samplePlatform portContext (some portState))).relation = .supersedes := by
  refine ⟨?_, ?_, ?_⟩ <;> decide

/-- The old validity is extended from 10 to 20, where the new one begins. -/
theorem supersession_extends_validity : laterDecision.relation = .supersedes ∧
    ∃ q old new, persistTemporalStates samplePlatform laterPlan (some laterDecision) laterProgress = .ok q ∧
      q.repository.getTemporalState "obsidian:a" = some old ∧
      q.repository.getTemporalState "obsidian:candidate-1" = some new ∧ old.validTo = some 20 ∧
      ¬ Separated portState old new := by
  obtain ⟨hrelation, htarget, -⟩ := ports_supersede
  refine ⟨hrelation, ?_⟩
  obtain ⟨q, new, hwritten, hnew, hold, hspan⟩ := @persistTemporalStates_supersedes Unit samplePlatform laterPlan
    laterDecision laterProgress "obsidian:candidate-1" portState hrelation rfl (by rw [htarget]; decide)
    (by rw [htarget]; decide)
  rw [htarget] at hold
  refine ⟨q, _, new, hwritten, hold, hnew, rfl, ?_⟩
  exact not_separated_of_start (show laterCandidate.validFrom = some 20 from rfl) (by decide) hspan

theorem supersession_separates_observed :
    ∃ q old new, persistTemporalStates samplePlatform earlierPlan (some (classifyWithModel samplePlatform none
        earlierCandidate (recallCandidateFromMatch samplePlatform portContext (some portState)))) laterProgress = .ok q ∧
      q.repository.getTemporalState "obsidian:a" = some old ∧
      q.repository.getTemporalState "obsidian:candidate-1" = some new ∧ Separated portState old new := by
  obtain ⟨q, old, new, hwritten, hold, hnew, hiff⟩ := supersession_separates_iff samplePlatform none earlierPlan
    portContext portState laterProgress "obsidian:candidate-1" (by decide) ports_supersede.2.2 rfl (by decide)
  refine ⟨q, old, new, hwritten, hold, hnew, hiff.mpr ⟨rfl, ?_⟩⟩
  intro finish observed hfinish hobserved
  obtain rfl := Option.some.inj (show some 10 = some finish from hfinish)
  obtain rfl := Option.some.inj (show some 8 = some observed from hobserved)
  decide

end Alexandria.Reconciliation
