import Alexandria.Reconciliation.Supersession

/-! # The times that a comparison reads

A scan takes the times of a Context from the store, else from its frontmatter; recall takes them from the store alone. So
one Context has two intervals as long as its overlay is missing. The comparison itself asks for a newer candidate and
for intervals that do not meet; a candidate without a start is newer by the time it was observed, also where its end
lies before the existing interval.
-/

namespace Alexandria.Reconciliation
set_option autoImplicit false

/-! ## One Context on either side -/

/-- The same times as a candidate and as a recalled Context. -/
structure OneTemporalView (candidate : MemoryCandidate) (recalled : MemoryRecallCandidate) : Prop where
  observedAt : candidate.observedAt = recalled.observedAt
  validFrom : candidate.validFrom = recalled.validFrom
  validTo : candidate.validTo = recalled.validTo

/-- The store has an overlay for the Context, or its frontmatter has no time that an overlay would hold. -/
def StoreAnswersForFrontmatter (repository : Repository) (context : ContextRecord) : Prop :=
  repository.getTemporalState context.id = none →
    context.metadata.observedAt = none ∧ context.metadata.validFrom = none ∧ context.metadata.validTo = none

section View
variable {platform : Platform} {context : ContextRecord}

theorem createCandidate_times {newId : String} {now : Instant} {payload : MemoryCandidateCreate}
    {candidate : MemoryCandidate} (h : createCandidate platform newId now payload = .ok candidate) :
    candidate.observedAt = payload.observedAt ∧ candidate.validFrom = payload.validFrom ∧
      candidate.validTo = payload.validTo := by
  unfold createCandidate at h
  split at h
  · cases h
  · split at h
    · cases h
    · split at h
      · split at h
        · cases h
        · obtain ⟨claims, -, h⟩ := Keyed.bind_eq_ok h
          obtain ⟨sourceRefs, -, h⟩ := Keyed.bind_eq_ok h
          cases h
          exact ⟨rfl, rfl, rfl⟩
      · cases h

theorem prepareContext_times {sources : ScanSources} {planId : String} {prepared : PreparedContext}
    (h : prepareContext platform sources planId context = .ok prepared) :
    prepared.candidate.observedAt = prepared.temporal.observedAt ∧
      prepared.candidate.validFrom = prepared.temporal.validFrom ∧
      prepared.candidate.validTo = prepared.temporal.validTo := by
  unfold prepareContext at h
  obtain ⟨candidate, hcandidate, h⟩ := Keyed.bind_eq_ok h
  cases h
  exact createCandidate_times hcandidate

theorem prepareContext_temporal {sources : ScanSources} {planId : String} {prepared : PreparedContext}
    (h : prepareContext platform sources planId context = .ok prepared) :
    prepared.temporal = ((sources.repository.getTemporalState context.id).or
      (temporalStateFromContextMetadata context)).getD (defaultTemporal context) := by
  unfold prepareContext at h
  obtain ⟨candidate, -, h⟩ := Keyed.bind_eq_ok h
  cases h
  rfl

/-- Without an overlay in the store the candidate has the times of the frontmatter, as far as there are any. -/
theorem frontmatter_times (context : ContextRecord) :
    ((temporalStateFromContextMetadata context).getD (defaultTemporal context)).observedAt = context.metadata.observedAt ∧
      ((temporalStateFromContextMetadata context).getD (defaultTemporal context)).validFrom =
        context.metadata.validFrom ∧
      ((temporalStateFromContextMetadata context).getD (defaultTemporal context)).validTo = context.metadata.validTo := by
  unfold temporalStateFromContextMetadata
  simp only
  split
  · exact ⟨rfl, rfl, rfl⟩
  · rename_i habsent
    simp only [Bool.or_eq_true, not_or, Bool.not_eq_true, Option.isSome_eq_false_iff, Option.isNone_iff_eq_none] at habsent
    obtain ⟨⟨⟨⟨⟨⟨⟨-, hobserved⟩, hfrom⟩, hto⟩, -⟩, -⟩, -⟩, -⟩ := habsent
    exact ⟨hobserved.symm, hfrom.symm, hto.symm⟩

theorem candidateRecall_times {search : RecallSource} {repository : Repository} {other : MemoryCandidate}
    {recalled : MemoryRecallCandidate} (h : recalled ∈ candidateRecall platform search repository other) :
    recalled.observedAt = (repository.getTemporalState recalled.contextId).bind (·.observedAt) ∧
      recalled.validFrom = (repository.getTemporalState recalled.contextId).bind (·.validFrom) ∧
      recalled.validTo = (repository.getTemporalState recalled.contextId).bind (·.validTo) := by
  obtain ⟨found, -, rfl⟩ := List.mem_map.mp h
  exact ⟨rfl, rfl, rfl⟩

/-- A Context has the same times as a candidate of a scan and as a recalled Context exactly when the store has its
overlay or the frontmatter has no times. -/
theorem one_temporal_view_iff (platform : Platform) (sources : ScanSources) (planId : String) (context : ContextRecord)
    (prepared : PreparedContext) (hprepared : prepareContext platform sources planId context = .ok prepared)
    (other : MemoryCandidate) (recalled : MemoryRecallCandidate)
    (hrecalled : recalled ∈ candidateRecall platform sources.search sources.repository other)
    (hsame : recalled.contextId = context.id) :
    OneTemporalView prepared.candidate recalled ↔ StoreAnswersForFrontmatter sources.repository context := by
  obtain ⟨hobserved, hfrom, hto⟩ := prepareContext_times hprepared
  obtain ⟨robserved, rfrom, rto⟩ := candidateRecall_times hrecalled
  rw [prepareContext_temporal hprepared] at hobserved hfrom hto
  rw [hsame] at robserved rfrom rto
  unfold StoreAnswersForFrontmatter
  cases hstored : sources.repository.getTemporalState context.id with
  | some state =>
    rw [hstored] at hobserved hfrom hto robserved rfrom rto
    refine ⟨?_, fun _ => ?_⟩
    · intro _ habsent
      cases habsent
    · exact ⟨hobserved.trans robserved.symm, hfrom.trans rfrom.symm, hto.trans rto.symm⟩
  | none =>
    rw [hstored, Option.none_or] at hobserved hfrom hto
    rw [hstored] at robserved rfrom rto
    obtain ⟨mobserved, mfrom, mto⟩ := frontmatter_times context
    rw [mobserved] at hobserved
    rw [mfrom] at hfrom
    rw [mto] at hto
    constructor
    · intro hview _
      exact ⟨hobserved.symm.trans (hview.observedAt.trans robserved), hfrom.symm.trans (hview.validFrom.trans rfrom),
        hto.symm.trans (hview.validTo.trans rto)⟩
    · intro hanswers
      obtain ⟨habsent, hstart, hend⟩ := hanswers rfl
      exact ⟨(hobserved.trans habsent).trans robserved.symm, (hfrom.trans hstart).trans rfrom.symm,
        (hto.trans hend).trans rto.symm⟩

end View

/-- The Context of a service port with a start of its validity in the frontmatter. -/
def datedContext : ContextRecord := { portContext with metadata := { portContext.metadata with validFrom := some 5 } }

/-- A scan that finds the dated Context. -/
def datedSources (repository : Repository) : ScanSources := ⟨fun _ => [datedContext], none, repository⟩

/-- The overlay of the dated Context. -/
def datedState : MemoryTemporalState := { portState with validFrom := some 5, validTo := none }

theorem one_temporal_view_stored : ∃ prepared recalled,
    prepareContext samplePlatform (datedSources { Repository.empty with temporal := [datedState] }) "plan-1" datedContext =
      .ok prepared ∧
    candidateRecall samplePlatform (datedSources { Repository.empty with temporal := [datedState] }).search
      { Repository.empty with temporal := [datedState] } sampleCandidate = [recalled] ∧
    OneTemporalView prepared.candidate recalled := by
  have hprepared : (prepareContext samplePlatform (datedSources { Repository.empty with temporal := [datedState] }) "plan-1"
      datedContext).isOk = true := by
    decide
  cases hok : prepareContext samplePlatform (datedSources { Repository.empty with temporal := [datedState] }) "plan-1"
      datedContext with
  | error text =>
    rw [hok] at hprepared
    cases hprepared
  | ok prepared =>
    refine ⟨prepared, _, rfl, rfl, ?_⟩
    refine (one_temporal_view_iff samplePlatform _ "plan-1" datedContext prepared hok sampleCandidate _
      (List.mem_singleton.mpr rfl) rfl).mpr ?_
    intro habsent
    cases habsent

/-- Without the overlay the interval of the frontmatter is lost in recall. -/
theorem frontmatter_interval_lost : ∃ prepared recalled,
    prepareContext samplePlatform (datedSources Repository.empty) "plan-1" datedContext = .ok prepared ∧
    recalled ∈ candidateRecall samplePlatform (datedSources Repository.empty).search Repository.empty sampleCandidate ∧
    recalled.contextId = datedContext.id ∧ prepared.candidate.validFrom = some 5 ∧ recalled.validFrom = none ∧
    ¬ OneTemporalView prepared.candidate recalled := by
  have hprepared : (prepareContext samplePlatform (datedSources Repository.empty) "plan-1" datedContext).isOk = true := by
    decide
  cases hok : prepareContext samplePlatform (datedSources Repository.empty) "plan-1" datedContext with
  | error text =>
    rw [hok] at hprepared
    cases hprepared
  | ok prepared =>
    have hfrom : prepared.candidate.validFrom = some 5 := by
      rw [(prepareContext_times hok).2.1, prepareContext_temporal hok]
      rfl
    refine ⟨prepared, recallCandidateFromMatch samplePlatform datedContext none, rfl, List.mem_singleton.mpr rfl, rfl,
      hfrom, rfl, ?_⟩
    intro hview
    have hlost := hview.validFrom
    rw [hfrom] at hlost
    cases hlost

/-! ## Supersession by a later interval -/

/-- The candidate is said to supersede the Context only where the Context's interval ends before its own begins. -/
def SupersedesLater (platform : Platform) (provider : Option ProposalProvider) (candidate : MemoryCandidate)
    (existing : MemoryRecallCandidate) : Prop :=
  (classifyWithModel platform provider candidate existing).relation = .supersedes →
    ∃ finish start, existing.validTo = some finish ∧ candidate.validFrom = some start ∧ finish < start

/-- The candidate has no start, ends before the Context's interval begins, and was observed after that. -/
def ObservedAfterItsEnd (candidate : MemoryCandidate) (existing : MemoryRecallCandidate) : Prop :=
  candidate.validFrom = none ∧ ∃ finish start observed, candidate.validTo = some finish ∧
    existing.validFrom = some start ∧ candidate.observedAt = some observed ∧ finish < start ∧ start < observed

section Comparable
variable (platform : Platform) (provider : Option ProposalProvider) (candidate : MemoryCandidate)
  (existing : MemoryRecallCandidate)

def bodySimilarity : ℚ :=
  platform.sequenceRatio (normalizedText platform candidate.body) (normalizedText platform existing.body)

/-- Neither hash nor source nor scope settles the relation. -/
structure LeftToClaims : Prop where
  hash : candidate.contentHash ≠ existing.contentHash
  source : ¬ (candidate.sourceIdentity.isSome ∧ candidate.sourceIdentity = existing.sourceIdentity ∧
    bodySimilarity platform candidate existing ≥ 98 / 100)
  scope : scopeCompatibility candidate existing ≠ 0

/-- The closest claims speak of one subject and predicate without being the same. -/
def ClosestClaimsDiffer : Prop :=
  ∃ best, bestComparison platform candidate existing = some best ∧ best.exact = false ∧ best.sameSubjectPredicate = true

/-- Neither the closest claims nor the texts say anything. -/
def NothingDecided : Prop :=
  match bestComparison platform candidate existing with
  | none => 35 / 100 ≤ bodySimilarity platform candidate existing
  | some best => best.sameSubjectPredicate = false ∧
      ¬ (best.overlap ≥ 75 / 100 ∧ bodySimilarity platform candidate existing ≥ 70 / 100) ∧
      ¬ (best.overlap < 25 / 100 ∧ bodySimilarity platform candidate existing < 35 / 100)

/-- The model is asked and proposes SUPERSEDES with enough confidence. -/
def ModelProposesSupersession : Prop :=
  NothingDecided platform candidate existing ∧ ∃ propose proposal, provider = some propose ∧
    propose candidate existing = some proposal ∧ proposal.relation = .supersedes ∧ 65 / 100 ≤ proposal.confidence

end Comparable

section Later
variable {platform : Platform} {provider : Option ProposalProvider} {candidate : MemoryCandidate}
  {existing : MemoryRecallCandidate}

theorem bestComparison_mem {best : ClaimComparison} (h : bestComparison platform candidate existing = some best) :
    ∃ claim ∈ candidate.canonicalClaims, ∃ other ∈ existing.canonicalClaims, best = compareClaims platform claim other := by
  obtain ⟨claim, hclaim, hbest⟩ := List.mem_flatMap.mp (List.argmax_mem h)
  obtain ⟨other, hother, rfl⟩ := List.mem_map.mp hbest
  exact ⟨claim, hclaim, other, hother, rfl⟩

/-- Without one subject and predicate there is no proposition to be the same. -/
theorem bestComparison_apart {best : ClaimComparison} (h : bestComparison platform candidate existing = some best)
    (hdiffer : best.sameSubjectPredicate = false) : best.exact = false ∧ best.sameProposition = false := by
  obtain ⟨claim, -, other, -, rfl⟩ := bestComparison_mem h
  unfold compareClaims at hdiffer ⊢
  simp only at hdiffer ⊢
  simp [hdiffer]

theorem relationScores_similarity :
    (relationScores platform candidate existing).semanticSimilarity = bodySimilarity platform candidate existing := rfl

theorem relationScores_scope :
    (relationScores platform candidate existing).scopeCompatibility = scopeCompatibility candidate existing := rfl

theorem leftToClaims_of_classify {relation : MemoryRelationType}
    (h : (classify platform candidate existing).relation = relation) (hduplicate : relation ≠ .duplicate)
    (hunrelated : relation ≠ .unrelated) : LeftToClaims platform candidate existing := by
  unfold classify selectRelation at h
  simp only at h
  split at h
  · exact absurd h.symm hduplicate
  · rename_i hhash
    split at h
    · exact absurd h.symm hduplicate
    · rename_i hsource
      split at h
      · exact absurd h.symm hunrelated
      · rename_i hscope
        exact ⟨hhash, hsource, hscope⟩

/-- What the claims say of a newer candidate whose interval does not meet the Context's. -/
theorem selectByClaims_newer {best : ClaimComparison} {scores : MemoryRelationScores} (hnewer : scores.freshness = 1)
    (hexact : best.exact = false) (hsame : best.sameSubjectPredicate = true) :
    (selectByClaims best scores false).relation = .supersedes := by
  unfold selectByClaims
  rw [hexact, hsame]
  simp [hnewer]

theorem selectByClaims_apart {best : ClaimComparison} {scores : MemoryRelationScores} {overlap : Bool}
    (hexact : best.exact = false) (hsame : best.sameSubjectPredicate = false) (hproposition : best.sameProposition = false) :
    (selectByClaims best scores overlap).relation = .unknown ↔
      ¬ (scores.claimOverlap ≥ 75 / 100 ∧ scores.semanticSimilarity ≥ 70 / 100) ∧
        ¬ (scores.claimOverlap < 25 / 100 ∧ scores.semanticSimilarity < 35 / 100) := by
  unfold selectByClaims
  rw [hexact, hsame, hproposition]
  simp only [Bool.false_eq_true, if_false, Bool.false_and]
  split
  · rename_i hover
    refine ⟨?_, fun h => absurd hover h.1⟩
    intro h
    cases h
  · rename_i hover
    split
    · rename_i hunder
      refine ⟨?_, fun h => absurd hunder h.2⟩
      intro h
      cases h
    · rename_i hunder
      exact ⟨fun _ => ⟨hover, hunder⟩, fun _ => rfl⟩

theorem relationScores_freshness (hnewer : temporallyNewer candidate existing = true) :
    (relationScores platform candidate existing).freshness = 1 := by
  unfold relationScores
  simp only
  rw [hnewer]
  rfl

theorem relationScores_overlap {best : ClaimComparison} (h : bestComparison platform candidate existing = some best) :
    (relationScores platform candidate existing).claimOverlap = best.overlap := by
  unfold relationScores
  simp only
  rw [h]
  rfl

theorem classify_relation (h : LeftToClaims platform candidate existing) {best : ClaimComparison}
    (hbest : bestComparison platform candidate existing = some best) :
    (classify platform candidate existing).relation =
      (selectByClaims best (relationScores platform candidate existing) (temporalOverlap candidate existing)).relation := by
  show (selectRelation candidate existing (bestComparison platform candidate existing) _ _).relation = _
  rw [hbest]
  unfold selectRelation
  rw [relationScores_similarity, relationScores_scope, if_neg h.hash, if_neg h.source, if_neg h.scope]

theorem classify_relation_none (h : LeftToClaims platform candidate existing)
    (hbest : bestComparison platform candidate existing = none) :
    (classify platform candidate existing).relation =
      if bodySimilarity platform candidate existing < 35 / 100 then .unrelated else .unknown := by
  show (selectRelation candidate existing (bestComparison platform candidate existing) _ _).relation = _
  rw [hbest]
  unfold selectRelation
  rw [relationScores_similarity, relationScores_scope, if_neg h.hash, if_neg h.source, if_neg h.scope]
  simp only
  split <;> rfl

theorem classify_closest (hnewer : temporallyNewer candidate existing = true)
    (hapart : temporalOverlap candidate existing = false) (h : LeftToClaims platform candidate existing)
    (hdiffer : ClosestClaimsDiffer platform candidate existing) :
    (classify platform candidate existing).relation = .supersedes := by
  obtain ⟨best, hbest, hexact, hsame⟩ := hdiffer
  rw [classify_relation h hbest, hapart]
  exact selectByClaims_newer (relationScores_freshness hnewer) hexact hsame

theorem closest_of_classify (h : (classify platform candidate existing).relation = .supersedes) :
    LeftToClaims platform candidate existing ∧ ClosestClaimsDiffer platform candidate existing := by
  have hleft := leftToClaims_of_classify h (by decide) (by decide)
  refine ⟨hleft, ?_⟩
  cases hbest : bestComparison platform candidate existing with
  | none =>
    rw [classify_relation_none hleft hbest] at h
    split at h <;> cases h
  | some best =>
    rw [classify_relation hleft hbest] at h
    refine ⟨best, hbest, ?_, ?_⟩
    · by_contra hexact
      rw [Bool.not_eq_false] at hexact
      unfold selectByClaims at h
      rw [if_pos hexact] at h
      split at h <;> cases h
    · by_contra hsame
      rw [Bool.not_eq_true] at hsame
      obtain ⟨hexact, hproposition⟩ := bestComparison_apart hbest hsame
      unfold selectByClaims at h
      rw [hexact, hsame, hproposition] at h
      simp only [Bool.false_eq_true, if_false, Bool.false_and] at h
      split at h
      · cases h
      · split at h <;> cases h

theorem classify_unknown (hnewer : temporallyNewer candidate existing = true)
    (hapart : temporalOverlap candidate existing = false) (h : LeftToClaims platform candidate existing) :
    (classify platform candidate existing).relation = .unknown ↔ NothingDecided platform candidate existing := by
  unfold NothingDecided
  cases hbest : bestComparison platform candidate existing with
  | none =>
    rw [classify_relation_none h hbest]
    simp only
    split
    · rename_i hlow
      refine ⟨?_, fun hhigh => absurd hlow (not_lt.mpr hhigh)⟩
      intro hunknown
      cases hunknown
    · rename_i hlow
      exact ⟨fun _ => not_lt.mp hlow, fun _ => rfl⟩
  | some best =>
    rw [classify_relation h hbest]
    simp only
    rw [← relationScores_overlap hbest, ← relationScores_similarity]
    cases hsame : best.sameSubjectPredicate with
    | false =>
      obtain ⟨hexact, hproposition⟩ := bestComparison_apart hbest hsame
      rw [selectByClaims_apart hexact hsame hproposition]
      simp
    | true =>
      refine ⟨?_, fun hfalse => absurd hfalse.1 (by simp)⟩
      intro hunknown
      cases hexact : best.exact with
      | true =>
        unfold selectByClaims at hunknown
        rw [if_pos hexact] at hunknown
        split at hunknown <;> cases hunknown
      | false =>
        rw [hapart, selectByClaims_newer (relationScores_freshness hnewer) hexact hsame] at hunknown
        cases hunknown

theorem proposal_supersedes {base : MemoryRelationDecision} {proposal : MemoryRelationModelProposal}
    (hscope : base.scores.scopeCompatibility ≠ 0) (hrelation : proposal.relation = .supersedes)
    (hnewer : temporallyNewer candidate existing = true) (hapart : temporalOverlap candidate existing = false) :
    proposalIsSupported proposal base candidate existing = true := by
  unfold proposalIsSupported
  rw [hrelation]
  simp only
  rw [if_neg hscope, hapart, hnewer]
  rfl

/-- A newer candidate whose interval does not meet the Context's supersedes it exactly when nothing else settles the
relation and the closest claims differ or the model proposes it. -/
theorem classifyWithModel_newer (hnewer : temporallyNewer candidate existing = true)
    (hapart : temporalOverlap candidate existing = false) :
    (classifyWithModel platform provider candidate existing).relation = .supersedes ↔
      LeftToClaims platform candidate existing ∧ (ClosestClaimsDiffer platform candidate existing ∨
        ModelProposesSupersession platform provider candidate existing) := by
  have hbase : (classify platform candidate existing).relation = .supersedes → LeftToClaims platform candidate existing ∧
      (ClosestClaimsDiffer platform candidate existing ∨
        ModelProposesSupersession platform provider candidate existing) := by
    intro h
    obtain ⟨hleft, hdiffer⟩ := closest_of_classify h
    exact ⟨hleft, Or.inl hdiffer⟩
  constructor
  · intro h
    unfold classifyWithModel at h
    simp only at h
    split at h
    · exact hbase h
    · rename_i hunknown
      rw [not_not] at hunknown
      split at h
      · exact hbase h
      · rename_i proposal hproposal
        obtain ⟨propose, hprovider, hproposes⟩ := Option.bind_eq_some_iff.mp hproposal
        unfold modelProposalDecision at h
        split at h
        · exact hbase h
        · rename_i hguard
          split at h
          · have hleft := leftToClaims_of_classify hunknown (by decide) (by decide)
            simp only [not_or, not_lt] at hguard
            refine ⟨hleft, Or.inr ⟨(classify_unknown hnewer hapart hleft).mp hunknown, propose, proposal, hprovider,
              hproposes, h, hguard.2.2⟩⟩
          · exact hbase h
  · rintro ⟨hleft, hdiffer | ⟨hnothing, propose, proposal, hprovider, hproposes, hrelation, hconfidence⟩⟩
    · have hclassified := classify_closest hnewer hapart hleft hdiffer
      unfold classifyWithModel
      simp only
      rw [if_pos (by rw [hclassified]; decide)]
      exact hclassified
    · have hunknown := (classify_unknown hnewer hapart hleft).mpr hnothing
      have hproposal : (provider.bind fun propose => propose candidate existing) = some proposal := by
        rw [hprovider]
        exact hproposes
      unfold classifyWithModel
      simp only
      rw [if_neg (not_not.mpr hunknown), hproposal]
      simp only
      unfold modelProposalDecision
      rw [if_neg, if_pos (proposal_supersedes hleft.scope hrelation hnewer hapart)]
      · exact hrelation
      · rw [hrelation]
        simp only [not_or, not_lt]
        exact ⟨not_not.mpr hunknown, by decide, hconfidence⟩

/-- A newer candidate whose interval does not meet the Context's begins after it, unless it has no start. -/
theorem later_or_observedAfterItsEnd (hnewer : temporallyNewer candidate existing = true)
    (hapart : temporalOverlap candidate existing = false) :
    (∃ finish start, existing.validTo = some finish ∧ candidate.validFrom = some start ∧ finish < start) ∨
      ObservedAfterItsEnd candidate existing := by
  obtain ⟨candidateTime, existingTime, hcandidate, hexisting, hlater⟩ := isTemporallyNewer_eq_true.mp hnewer
  have hmeets := intervalsOverlap_eq_false.mp hapart
  have hordered := candidate.validity
  unfold Span.Meets Span.Before at hmeets
  simp only [not_and_or, not_not] at hmeets
  obtain ⟨finish, start, hfinish, hstart, hbefore⟩ | ⟨finish, start, hfinish, hstart, hbefore⟩ := hmeets
  · right
    rw [hstart, Option.some_or, Option.some.injEq] at hexisting
    cases hfrom : candidate.validFrom with
    | none =>
      rw [hfrom, Option.none_or] at hcandidate
      exact ⟨hfrom, finish, start, candidateTime, hfinish, hstart, hcandidate, hbefore, hexisting ▸ hlater⟩
    | some own =>
      rw [hfrom, Option.some_or, Option.some.injEq] at hcandidate
      have hown := hordered own finish hfrom hfinish
      have hstart : existingTime < own := hcandidate ▸ hlater
      exact absurd (hown.trans_lt (hbefore.trans (hexisting ▸ hstart))) (lt_irrefl own)
  · exact Or.inl ⟨finish, start, hfinish, hstart, hbefore⟩

theorem ObservedAfterItsEnd.newer (h : ObservedAfterItsEnd candidate existing) :
    temporallyNewer candidate existing = true := by
  obtain ⟨hfrom, finish, start, observed, -, hstart, hobserved, -, hlater⟩ := h
  refine isTemporallyNewer_eq_true.mpr ⟨observed, start, ?_, ?_, hlater⟩
  · rw [hfrom, hobserved, Option.none_or]
  · rw [hstart, Option.some_or]

theorem ObservedAfterItsEnd.apart (h : ObservedAfterItsEnd candidate existing) :
    temporalOverlap candidate existing = false := by
  obtain ⟨-, finish, start, observed, hfinish, hstart, -, hbefore, -⟩ := h
  unfold temporalOverlap intervalsOverlap
  rw [hfinish, hstart]
  simp only
  rw [if_pos hbefore]

/-- SUPERSEDES says that the Context's interval ends before the candidate's begins, except of a candidate without a
start that was observed after its own end and then supersedes by its claims or by the model's proposal. -/
theorem supersedes_later_iff (platform : Platform) (provider : Option ProposalProvider) (candidate : MemoryCandidate)
    (existing : MemoryRecallCandidate) :
    SupersedesLater platform provider candidate existing ↔
      ¬ (ObservedAfterItsEnd candidate existing ∧ LeftToClaims platform candidate existing ∧
        (ClosestClaimsDiffer platform candidate existing ∨
          ModelProposesSupersession platform provider candidate existing)) := by
  constructor
  · rintro hlater ⟨hobserved, hsettled⟩
    obtain ⟨finish, start, -, hstart, -⟩ :=
      hlater ((classifyWithModel_newer hobserved.newer hobserved.apart).mpr hsettled)
    rw [hobserved.1] at hstart
    cases hstart
  · intro hnever hrelation
    obtain ⟨hnewer, hapart⟩ := classifyWithModel_supersedes hrelation
    obtain hlater | hobserved := later_or_observedAfterItsEnd hnewer hapart
    · exact hlater
    · exact absurd ⟨hobserved, (classifyWithModel_newer hnewer hapart).mp hrelation⟩ hnever

end Later

/-- The Context has said since 10 where the service listens. -/
def recalledPort : MemoryRecallCandidate :=
  recallCandidateFromMatch samplePlatform portContext (some { portState with validFrom := some 10, validTo := none })

/-- The service listened on another port until 5, as was observed at 100. -/
def formerCandidate : MemoryCandidate :=
  { sampleCandidate with validTo := some 5, observedAt := some 100, validity := by decide }

/-- The former port supersedes the present one. -/
theorem former_state_supersedes :
    (classifyWithModel samplePlatform none formerCandidate recalledPort).relation = .supersedes ∧
      ¬ SupersedesLater samplePlatform none formerCandidate recalledPort := by
  have hrelation : (classifyWithModel samplePlatform none formerCandidate recalledPort).relation = .supersedes := by
    decide
  refine ⟨hrelation, ?_⟩
  intro hlater
  obtain ⟨finish, start, -, hstart, -⟩ := hlater hrelation
  cases hstart

end Alexandria.Reconciliation
