import Alexandria.Reconciliation.TemporalEvidence

/-! # Conflicts behind the closest claims

Only the pair of claims with the greatest overlap is looked at, and of equal ones the first. Pairs of one subject and
predicate with different objects never have the greatest overlap where another pair agrees on the object too, so a
conflict shows only when the closest pairs are the conflicting ones.
-/

namespace Alexandria.Reconciliation
set_option autoImplicit false

/-! ## The promise -/

section Promise
variable (platform : Platform)

/-- One subject and predicate, with opposite polarity or different objects. -/
structure ClaimsConflict (claim other : CanonicalClaim) : Prop where
  subject : normalizedText platform claim.subject = normalizedText platform other.subject
  predicate : normalizedText platform claim.predicate = normalizedText platform other.predicate
  opposed : claim.polarity ≠ other.polarity ∨
    normalizedText platform claim.object ≠ normalizedText platform other.object

/-- Compatible scopes and overlapping validity, with other content and another source. -/
structure OpenToConflict (candidate : MemoryCandidate) (existing : MemoryRecallCandidate) : Prop where
  scope : scopeCompatibility candidate existing ≠ 0
  overlap : temporalOverlap candidate existing = true
  hash : candidate.contentHash ≠ existing.contentHash
  source : ¬ (candidate.sourceIdentity.isSome ∧ candidate.sourceIdentity = existing.sourceIdentity)

/-- The same proposal with its claims in another order, or with other claims. -/
def MemoryCandidate.withClaims (candidate : MemoryCandidate) (claims : List CanonicalClaim) : MemoryCandidate :=
  { candidate with canonicalClaims := claims }

def MemoryRecallCandidate.withClaims (existing : MemoryRecallCandidate) (claims : List CanonicalClaim) :
    MemoryRecallCandidate :=
  { existing with canonicalClaims := claims }

/-- Every conflict makes the relation CONTRADICTS, and no order of the claims makes another decision. -/
structure ConflictsSurface (candidate : MemoryCandidate) (existing : MemoryRecallCandidate) : Prop where
  surface : OpenToConflict candidate existing →
    (∃ claim ∈ candidate.canonicalClaims, ∃ other ∈ existing.canonicalClaims, ClaimsConflict platform claim other) →
    (classify platform candidate existing).relation = .contradicts
  ordered : ∀ claims others, claims.Perm candidate.canonicalClaims → others.Perm existing.canonicalClaims →
    classify platform (candidate.withClaims claims) (existing.withClaims others) = classify platform candidate existing

/-! ## The closest pairs -/

/-- No other pair of claims has a greater overlap. -/
structure Closest (candidate : MemoryCandidate) (existing : MemoryRecallCandidate) (claim other : CanonicalClaim) : Prop where
  claim_mem : claim ∈ candidate.canonicalClaims
  other_mem : other ∈ existing.canonicalClaims
  greatest : ∀ first ∈ candidate.canonicalClaims, ∀ second ∈ existing.canonicalClaims,
    (compareClaims platform first second).overlap ≤ (compareClaims platform claim other).overlap

def ClaimComparison.conflicts (comparison : ClaimComparison) : Bool :=
  comparison.sameSubjectPredicate && (comparison.polarityConflict || comparison.objectConflict)

/-- The two comparisons leave the same traces in a decision. -/
structure Alike (candidate : MemoryCandidate) (existing : MemoryRecallCandidate) (first second : ClaimComparison) : Prop where
  summary : first.summary = second.summary
  polarity : first.polarityConflict = second.polarityConflict
  specific : first.candidateMoreSpecific = second.candidateMoreSpecific
  exact : LeftToClaims platform candidate existing → first.exact = second.exact
  conflicts : LeftToClaims platform candidate existing → temporalOverlap candidate existing = true →
    first.conflicts = second.conflicts
  topic : LeftToClaims platform candidate existing → temporalOverlap candidate existing = false →
    temporallyNewer candidate existing = true → first.sameSubjectPredicate = second.sameSubjectPredicate

/-- The closest pairs are alike, and where a conflict is to show they are in conflict themselves. -/
structure ClosestDecide (candidate : MemoryCandidate) (existing : MemoryRecallCandidate) : Prop where
  alike : ∀ claim other first second, Closest platform candidate existing claim other →
    Closest platform candidate existing first second →
    Alike platform candidate existing (compareClaims platform claim other) (compareClaims platform first second)
  conflict : OpenToConflict candidate existing →
    (∃ claim ∈ candidate.canonicalClaims, ∃ other ∈ existing.canonicalClaims, ClaimsConflict platform claim other) →
    ∀ claim other, Closest platform candidate existing claim other → ClaimsConflict platform claim other

end Promise

section Decided
variable {platform : Platform} {candidate : MemoryCandidate} {existing : MemoryRecallCandidate}

theorem compareClaims_conflicts {claim other : CanonicalClaim} :
    (compareClaims platform claim other).conflicts = true ↔ ClaimsConflict platform claim other := by
  unfold ClaimComparison.conflicts compareClaims
  simp only [Bool.and_eq_true, Bool.or_eq_true, beq_iff_eq, Bool.not_eq_true', beq_eq_false_iff_ne]
  constructor
  · rintro ⟨⟨hsubject, hpredicate⟩, ⟨-, hpolarity⟩ | ⟨-, hobject⟩⟩
    · exact ⟨hsubject, hpredicate, Or.inl hpolarity⟩
    · exact ⟨hsubject, hpredicate, Or.inr hobject⟩
  · intro h
    refine ⟨⟨h.subject, h.predicate⟩, ?_⟩
    by_cases hobject : normalizedText platform claim.object = normalizedText platform other.object
    · exact Or.inl ⟨⟨⟨h.subject, h.predicate⟩, hobject⟩, h.opposed.resolve_right (not_not.mpr hobject)⟩
    · exact Or.inr ⟨⟨h.subject, h.predicate⟩, hobject⟩

theorem compareClaims_exact {claim other : CanonicalClaim} (h : (compareClaims platform claim other).exact = true) :
    (compareClaims platform claim other).conflicts = false := by
  by_contra hconflicts
  rw [Bool.not_eq_false, compareClaims_conflicts] at hconflicts
  unfold compareClaims at h
  simp only [Bool.and_eq_true, beq_iff_eq] at h
  obtain ⟨⟨⟨-, hobject⟩, hpolarity⟩, -⟩ := h
  exact hconflicts.opposed.elim (fun hne => hne hpolarity) fun hne => hne hobject

theorem compareClaims_specific {claim other : CanonicalClaim} :
    ((compareClaims platform claim other).sameProposition && (compareClaims platform claim other).candidateMoreSpecific) =
      (compareClaims platform claim other).candidateMoreSpecific := by
  unfold compareClaims
  simp only
  rw [← Bool.and_assoc, ← Bool.and_assoc, Bool.and_self]

/-- The pair that is looked at is one of the closest. -/
theorem bestComparison_closest {best : ClaimComparison} (h : bestComparison platform candidate existing = some best) :
    ∃ claim other, Closest platform candidate existing claim other ∧ best = compareClaims platform claim other := by
  obtain ⟨claim, hclaim, other, hother, rfl⟩ := bestComparison_mem h
  refine ⟨claim, other, ⟨hclaim, hother, ?_⟩, rfl⟩
  intro first hfirst second hsecond
  exact List.le_of_mem_argmax (List.mem_flatMap.mpr ⟨first, hfirst, List.mem_map.mpr ⟨second, hsecond, rfl⟩⟩) h

theorem bestComparison_eq_none :
    bestComparison platform candidate existing = none ↔
      ∀ claim ∈ candidate.canonicalClaims, ∀ other ∈ existing.canonicalClaims, False := by
  unfold bestComparison
  rw [List.argmax_eq_none, List.flatMap_eq_nil_iff]
  refine forall₂_congr fun claim _ => ?_
  rw [List.map_eq_nil_iff, List.eq_nil_iff_forall_not_mem]

theorem argmax_head {α : Type} {f : α → ℚ} {a : α} {l : List α} (h : ∀ b ∈ l, f b ≤ f a) :
    (a :: l).argmax f = some a := by
  rw [List.argmax_cons]
  cases hmax : l.argmax f with
  | none => rfl
  | some b =>
    simp only
    rw [if_neg (not_lt.mpr (h b (List.argmax_mem hmax)))]

/-- A closest pair is looked at where it comes first on both sides. -/
theorem Closest.first {claim other : CanonicalClaim} (h : Closest platform candidate existing claim other) :
    bestComparison platform (candidate.withClaims (claim :: candidate.canonicalClaims.erase claim))
      (existing.withClaims (other :: existing.canonicalClaims.erase other)) = some (compareClaims platform claim other) := by
  have hclaims := List.perm_cons_erase h.claim_mem
  have hothers := List.perm_cons_erase h.other_mem
  unfold bestComparison MemoryCandidate.withClaims MemoryRecallCandidate.withClaims
  simp only
  rw [List.flatMap_cons, List.map_cons, List.cons_append]
  apply argmax_head
  intro comparison hmem
  have hpair : comparison ∈ (claim :: candidate.canonicalClaims.erase claim).flatMap fun first =>
      (other :: existing.canonicalClaims.erase other).map fun second => compareClaims platform first second := by
    rw [List.flatMap_cons, List.map_cons, List.cons_append]
    exact List.mem_cons_of_mem _ hmem
  obtain ⟨first, hfirst, hmap⟩ := List.mem_flatMap.mp hpair
  obtain ⟨second, hsecond, rfl⟩ := List.mem_map.mp hmap
  exact h.greatest first (hclaims.mem_iff.mpr hfirst) second (hothers.mem_iff.mpr hsecond)

theorem Closest.of_perm {claims others : List CanonicalClaim} (hclaims : claims.Perm candidate.canonicalClaims)
    (hothers : others.Perm existing.canonicalClaims) {claim other : CanonicalClaim}
    (h : Closest platform (candidate.withClaims claims) (existing.withClaims others) claim other) :
    Closest platform candidate existing claim other where
  claim_mem := hclaims.mem_iff.mp h.claim_mem
  other_mem := hothers.mem_iff.mp h.other_mem
  greatest first hfirst second hsecond := h.greatest first (hclaims.mem_iff.mpr hfirst) second (hothers.mem_iff.mpr hsecond)

theorem Closest.overlap_eq {claim other first second : CanonicalClaim} (h : Closest platform candidate existing claim other)
    (h2 : Closest platform candidate existing first second) :
    (compareClaims platform claim other).overlap = (compareClaims platform first second).overlap :=
  le_antisymm (h2.greatest claim h.claim_mem other h.other_mem) (h.greatest first h2.claim_mem second h2.other_mem)

theorem compareClaims_topic {claim other : CanonicalClaim} (h : (compareClaims platform claim other).exact = true) :
    (compareClaims platform claim other).sameSubjectPredicate = true := by
  unfold compareClaims at h ⊢
  simp only [Bool.and_eq_true] at h ⊢
  exact h.1.1.1

end Decided

/-! ## What a decision says of the closest pair -/

section Traces

/-- Of five distinct answers in turn, the last test being the same. -/
theorem answer_eq_iff {α : Type} {first second third fourth fifth : α} (h12 : first ≠ second) (h13 : first ≠ third)
    (h14 : first ≠ fourth) (h15 : first ≠ fifth) (h23 : second ≠ third) (h24 : second ≠ fourth) (h25 : second ≠ fifth)
    (h34 : third ≠ fourth) (h35 : third ≠ fifth) {e c n e' c' n' m : Bool} :
    (if e then first else if c then second else if n then third else if m then fourth else fifth) =
        (if e' then first else if c' then second else if n' then third else if m then fourth else fifth) ↔
      e = e' ∧ (e = false → c = c' ∧ (c = false → n = n')) := by
  cases e
  · cases e'
    · cases c
      · cases c'
        · cases n <;> cases n' <;> cases m <;> simp [*, h34.symm, h35.symm]
        · cases n <;> cases m <;> simp [h23.symm, h24.symm, h25.symm]
      · cases c'
        · cases n' <;> cases m <;> simp [*]
        · simp
    · cases c
      · cases n <;> cases m <;> simp [h13.symm, h14.symm, h15.symm]
      · simp [h12.symm]
  · cases e'
    · cases c'
      · cases n' <;> cases m <;> simp [*]
      · simp [*]
    · simp

theorem RelationChoice.ne_of {first second : RelationChoice}
    (h : (first.relation, first.source) ≠ (second.relation, second.source)) : first ≠ second := by
  intro heq
  exact h (by rw [heq])

variable {first second : ClaimComparison} {scores others : MemoryRelationScores} {overlap : Bool}

/-- The scores that do not come from the pair of claims, and its overlap. -/
structure SameStanding (scores others : MemoryRelationScores) : Prop where
  similarity : scores.semanticSimilarity = others.semanticSimilarity
  claimOverlap : scores.claimOverlap = others.claimOverlap
  independence : scores.sourceIndependence = others.sourceIndependence
  freshness : scores.freshness = others.freshness

theorem selectByClaims_congr (h : SameStanding scores others) :
    selectByClaims first scores overlap = selectByClaims first others overlap := by
  unfold selectByClaims
  rw [h.similarity, h.claimOverlap, h.independence, h.freshness]

theorem selectByClaims_eq_iff
    (hspecific : (first.sameProposition && first.candidateMoreSpecific) =
      (second.sameProposition && second.candidateMoreSpecific)) :
    selectByClaims first scores overlap = selectByClaims second scores overlap ↔
      first.exact = second.exact ∧ (first.exact = false →
        (first.conflicts && overlap) = (second.conflicts && overlap) ∧ ((first.conflicts && overlap) = false →
          (first.sameSubjectPredicate && decide (scores.freshness = 1) && !overlap) =
            (second.sameSubjectPredicate && decide (scores.freshness = 1) && !overlap))) := by
  unfold selectByClaims
  rw [hspecific]
  apply answer_eq_iff
  · apply RelationChoice.ne_of
    split <;> decide
  · apply RelationChoice.ne_of
    split <;> decide
  · apply RelationChoice.ne_of
    split <;> decide
  · apply RelationChoice.ne_of
    split <;> split <;> first | decide | (split <;> decide)
  · apply RelationChoice.ne_of
    decide
  · apply RelationChoice.ne_of
    decide
  · apply RelationChoice.ne_of
    split
    · decide
    · split <;> decide
  · apply RelationChoice.ne_of
    decide
  · apply RelationChoice.ne_of
    split
    · decide
    · split <;> decide

end Traces

section Rearranged
variable {platform : Platform} {candidate : MemoryCandidate} {existing : MemoryRecallCandidate}
  {claims others claims' others' : List CanonicalClaim} {first second : ClaimComparison}

/-- The scores of a pair of claims among the other scores of the two. -/
def scoresOf (platform : Platform) (candidate : MemoryCandidate) (existing : MemoryRecallCandidate)
    (best : ClaimComparison) : MemoryRelationScores :=
  { relationScores platform candidate existing with
    claimOverlap := best.overlap
    polarityConflict := if best.polarityConflict then 1 else 0
    specificityChange := if best.candidateMoreSpecific then 1 else 0 }

theorem relationScores_withClaims
    (h : bestComparison platform (candidate.withClaims claims) (existing.withClaims others) = some first) :
    relationScores platform (candidate.withClaims claims) (existing.withClaims others) =
      scoresOf platform candidate existing first := by
  unfold scoresOf relationScores
  rw [h]
  rfl

theorem sameStanding_scoresOf (hoverlap : first.overlap = second.overlap) :
    SameStanding (scoresOf platform candidate existing first) (scoresOf platform candidate existing second) :=
  ⟨rfl, hoverlap, rfl, rfl⟩

theorem scoresOf_eq_iff (hoverlap : first.overlap = second.overlap) :
    scoresOf platform candidate existing first = scoresOf platform candidate existing second ↔
      first.polarityConflict = second.polarityConflict ∧
        first.candidateMoreSpecific = second.candidateMoreSpecific := by
  have hflag : ∀ a b : Bool, ((if a then 1 else 0 : ℚ) = if b then 1 else 0) ↔ a = b := by
    intro a b
    cases a <;> cases b <;> simp
  unfold scoresOf
  simp only [MemoryRelationScores.mk.injEq, hoverlap, true_and, and_true, hflag]

/-- The relation, its confidence, its reason and its source for a pair of claims. -/
theorem selectRelation_eq_iff {overlap : Bool} (hoverlap : first.overlap = second.overlap)
    (hspecific : (first.sameProposition && first.candidateMoreSpecific) =
      (second.sameProposition && second.candidateMoreSpecific)) :
    selectRelation candidate existing (some first) (scoresOf platform candidate existing first) overlap =
        selectRelation candidate existing (some second) (scoresOf platform candidate existing second) overlap ↔
      (LeftToClaims platform candidate existing → first.exact = second.exact ∧ (first.exact = false →
        (first.conflicts && overlap) = (second.conflicts && overlap) ∧ ((first.conflicts && overlap) = false →
          (first.sameSubjectPredicate && temporallyNewer candidate existing && !overlap) =
            (second.sameSubjectPredicate && temporallyNewer candidate existing && !overlap)))) := by
  have hfresh : decide ((scoresOf platform candidate existing second).freshness = 1) =
      temporallyNewer candidate existing := by
    show decide ((if temporallyNewer candidate existing then 1 else 0 : ℚ) = 1) = _
    cases temporallyNewer candidate existing <;> simp
  have hsimilarity : ∀ best, (scoresOf platform candidate existing best).semanticSimilarity =
      bodySimilarity platform candidate existing := fun _ => rfl
  have hscopes : ∀ best, (scoresOf platform candidate existing best).scopeCompatibility =
      scopeCompatibility candidate existing := fun _ => rfl
  unfold selectRelation
  rw [hsimilarity, hsimilarity, hscopes, hscopes]
  by_cases hhash : candidate.contentHash = existing.contentHash
  · rw [if_pos hhash, if_pos hhash]
    exact iff_of_true rfl fun hleft => absurd hhash hleft.hash
  · rw [if_neg hhash, if_neg hhash]
    by_cases hsource : candidate.sourceIdentity.isSome ∧ candidate.sourceIdentity = existing.sourceIdentity ∧
        bodySimilarity platform candidate existing ≥ 98 / 100
    · rw [if_pos hsource, if_pos hsource]
      exact iff_of_true rfl fun hleft => absurd hsource hleft.source
    · rw [if_neg hsource, if_neg hsource]
      by_cases hscope : scopeCompatibility candidate existing = 0
      · rw [if_pos hscope, if_pos hscope]
        exact iff_of_true rfl fun hleft => absurd hscope hleft.scope
      · rw [if_neg hscope, if_neg hscope]
        simp only
        rw [selectByClaims_congr (sameStanding_scoresOf hoverlap), selectByClaims_eq_iff hspecific, hfresh]
        have hleft : LeftToClaims platform candidate existing := ⟨hhash, hsource, hscope⟩
        exact ⟨fun h _ => h, fun h => h hleft⟩

/-- A decision on the two with what the closest pair gives. -/
def decisionOf (candidate : MemoryCandidate) (existing : MemoryRecallCandidate) (choice : RelationChoice)
    (summary : String) (scores : MemoryRelationScores) : MemoryRelationDecision where
  candidateId := candidate.candidateId
  existingContextId := existing.contextId
  relation := choice.relation
  confidence := choice.confidence
  reason := choice.reason
  evidenceRefs := candidate.sourceRefs
  claimMatches := [summary]
  scores := scores
  decisionSource := choice.source
  policyVersion := policyVersion

theorem decisionOf_eq_iff {choice choice' : RelationChoice} {summary summary' : String}
    {scores scores' : MemoryRelationScores} :
    decisionOf candidate existing choice summary scores = decisionOf candidate existing choice' summary' scores' ↔
      choice = choice' ∧ summary = summary' ∧ scores = scores' := by
  constructor
  · intro h
    unfold decisionOf at h
    obtain ⟨relation, confidence, reason, source⟩ := choice
    obtain ⟨relation', confidence', reason', source'⟩ := choice'
    simp only [MemoryRelationDecision.mk.injEq, true_and, and_true, List.cons.injEq] at h
    obtain ⟨hrelation, hconfidence, hreason, hsummary, hscores, hsource⟩ := h
    exact ⟨by rw [hrelation, hconfidence, hreason, hsource], hsummary, hscores⟩
  · rintro ⟨rfl, rfl, rfl⟩
    rfl

theorem classify_withClaims
    (h : bestComparison platform (candidate.withClaims claims) (existing.withClaims others) = some first) :
    classify platform (candidate.withClaims claims) (existing.withClaims others) =
      decisionOf candidate existing
        (selectRelation candidate existing (some first) (scoresOf platform candidate existing first)
          (temporalOverlap candidate existing)) first.summary (scoresOf platform candidate existing first) := by
  unfold classify
  rw [h, relationScores_withClaims h]
  rfl

/-- Two orders of the claims give one decision exactly when the pairs looked at are alike. -/
theorem classify_eq_iff {claim other claim' other' : CanonicalClaim}
    (hfirst : bestComparison platform (candidate.withClaims claims) (existing.withClaims others) =
      some (compareClaims platform claim other))
    (hsecond : bestComparison platform (candidate.withClaims claims') (existing.withClaims others') =
      some (compareClaims platform claim' other'))
    (hoverlap : (compareClaims platform claim other).overlap = (compareClaims platform claim' other').overlap) :
    classify platform (candidate.withClaims claims) (existing.withClaims others) =
        classify platform (candidate.withClaims claims') (existing.withClaims others') ↔
      Alike platform candidate existing (compareClaims platform claim other) (compareClaims platform claim' other') := by
  rw [classify_withClaims hfirst, classify_withClaims hsecond, decisionOf_eq_iff, scoresOf_eq_iff hoverlap]
  constructor
  · rintro ⟨hchoice, hsummary, hpolarity, hspecific⟩
    rw [selectRelation_eq_iff hoverlap (by rw [compareClaims_specific, compareClaims_specific, hspecific])] at hchoice
    refine ⟨hsummary, hpolarity, hspecific, fun hleft => (hchoice hleft).1, ?_, ?_⟩
    · intro hleft hover
      obtain ⟨hexact, hrest⟩ := hchoice hleft
      cases hcase : (compareClaims platform claim other).exact with
      | true => rw [compareClaims_exact hcase, compareClaims_exact (hexact ▸ hcase)]
      | false =>
        obtain ⟨hconflicts, -⟩ := hrest hcase
        rw [hover, Bool.and_true, Bool.and_true] at hconflicts
        exact hconflicts
    · intro hleft hover hnewer
      obtain ⟨hexact, hrest⟩ := hchoice hleft
      cases hcase : (compareClaims platform claim other).exact with
      | true => rw [compareClaims_topic hcase, compareClaims_topic (hexact ▸ hcase)]
      | false =>
        obtain ⟨-, htopic⟩ := hrest hcase
        rw [hover, Bool.and_false] at htopic
        have hsame := htopic rfl
        rw [hnewer, Bool.not_false, Bool.and_true, Bool.and_true, Bool.and_true, Bool.and_true] at hsame
        exact hsame
  · intro h
    refine ⟨?_, h.summary, h.polarity, h.specific⟩
    rw [selectRelation_eq_iff hoverlap (by rw [compareClaims_specific, compareClaims_specific, h.specific])]
    intro hleft
    refine ⟨h.exact hleft, fun _ => ?_⟩
    cases hover : temporalOverlap candidate existing with
    | true =>
      rw [h.conflicts hleft hover]
      refine ⟨rfl, fun _ => ?_⟩
      rw [Bool.not_true, Bool.and_false, Bool.and_false]
    | false =>
      refine ⟨by rw [Bool.and_false, Bool.and_false], fun _ => ?_⟩
      cases hnewer : temporallyNewer candidate existing with
      | true => rw [h.topic hleft hover hnewer]
      | false => simp only [Bool.and_false, Bool.false_and]

end Rearranged

section Surface
variable {platform : Platform} {candidate : MemoryCandidate} {existing : MemoryRecallCandidate}

theorem OpenToConflict.leftToClaims (h : OpenToConflict candidate existing) : LeftToClaims platform candidate existing where
  hash := h.hash
  source hsource := h.source ⟨hsource.1, hsource.2.1⟩
  scope := h.scope

/-- Where a conflict is to show, the relation is CONTRADICTS exactly when the pair looked at is in conflict. -/
theorem classify_contradicts_iff (hopen : OpenToConflict candidate existing) {claim other : CanonicalClaim}
    (hbest : bestComparison platform candidate existing = some (compareClaims platform claim other)) :
    (classify platform candidate existing).relation = .contradicts ↔ ClaimsConflict platform claim other := by
  rw [classify_relation hopen.leftToClaims hbest, hopen.overlap, ← compareClaims_conflicts]
  unfold selectByClaims
  constructor
  · intro h
    split at h
    · split at h <;> cases h
    · split at h
      · rename_i hguard
        rw [Bool.and_true] at hguard
        exact hguard
      · split at h
        · cases h
        · split at h
          · cases h
          · split at h
            · cases h
            · split at h <;> cases h
  · intro h
    have hexact : ¬ (compareClaims platform claim other).exact = true := by
      intro hexact
      rw [compareClaims_exact hexact] at h
      cases h
    rw [if_neg hexact, if_pos]
    rw [Bool.and_true]
    exact h

theorem Closest.decision {claim other : CanonicalClaim} (h : Closest platform candidate existing claim other)
    (hordered : ∀ claims others, claims.Perm candidate.canonicalClaims → others.Perm existing.canonicalClaims →
      classify platform (candidate.withClaims claims) (existing.withClaims others) = classify platform candidate existing) :
    classify platform (candidate.withClaims (claim :: candidate.canonicalClaims.erase claim))
      (existing.withClaims (other :: existing.canonicalClaims.erase other)) = classify platform candidate existing :=
  hordered _ _ (List.perm_cons_erase h.claim_mem).symm (List.perm_cons_erase h.other_mem).symm

theorem ConflictsSurface.closestDecide (h : ConflictsSurface platform candidate existing) :
    ClosestDecide platform candidate existing where
  alike claim other first second hclosest hsecond :=
    (classify_eq_iff hclosest.first hsecond.first (hclosest.overlap_eq hsecond)).mp
      ((hclosest.decision h.ordered).trans (hsecond.decision h.ordered).symm)
  conflict hopen hconflict claim other hclosest := by
    have hcontradicts := h.surface hopen hconflict
    rw [← hclosest.decision h.ordered] at hcontradicts
    have hrearranged : OpenToConflict (candidate.withClaims (claim :: candidate.canonicalClaims.erase claim))
        (existing.withClaims (other :: existing.canonicalClaims.erase other)) := ⟨hopen.1, hopen.2, hopen.3, hopen.4⟩
    exact (classify_contradicts_iff hrearranged hclosest.first).mp hcontradicts

theorem ClosestDecide.surface (h : ClosestDecide platform candidate existing) (hopen : OpenToConflict candidate existing)
    (hconflict : ∃ claim ∈ candidate.canonicalClaims, ∃ other ∈ existing.canonicalClaims,
      ClaimsConflict platform claim other) : (classify platform candidate existing).relation = .contradicts := by
  cases hbest : bestComparison platform candidate existing with
  | none =>
    obtain ⟨claim, hclaim, other, hother, -⟩ := hconflict
    exact absurd (bestComparison_eq_none.mp hbest claim hclaim other hother) not_false
  | some best =>
    obtain ⟨claim, other, hclosest, rfl⟩ := bestComparison_closest hbest
    exact (classify_contradicts_iff hopen hbest).mpr (h.conflict hopen hconflict claim other hclosest)

theorem ClosestDecide.ordered (h : ClosestDecide platform candidate existing) {claims others : List CanonicalClaim}
    (hclaims : claims.Perm candidate.canonicalClaims) (hothers : others.Perm existing.canonicalClaims) :
    classify platform (candidate.withClaims claims) (existing.withClaims others) = classify platform candidate existing := by
  cases hbest : bestComparison platform candidate existing with
  | none =>
    have hnone : bestComparison platform (candidate.withClaims claims) (existing.withClaims others) = none := by
      refine bestComparison_eq_none.mpr fun claim hclaim other hother => ?_
      exact bestComparison_eq_none.mp hbest claim (hclaims.mem_iff.mp hclaim) other (hothers.mem_iff.mp hother)
    unfold classify relationScores
    rw [hnone, hbest]
    rfl
  | some best =>
    obtain ⟨claim, other, hclosest, rfl⟩ := bestComparison_closest hbest
    cases hrearranged : bestComparison platform (candidate.withClaims claims) (existing.withClaims others) with
    | none =>
      have habsent := bestComparison_eq_none.mp hrearranged claim (hclaims.mem_iff.mpr hclosest.claim_mem) other
        (hothers.mem_iff.mpr hclosest.other_mem)
      exact absurd habsent not_false
    | some rearranged =>
      obtain ⟨first, second, hfirst, rfl⟩ := bestComparison_closest hrearranged
      have hsame := hfirst.of_perm hclaims hothers
      have horiginal : bestComparison platform (candidate.withClaims candidate.canonicalClaims)
          (existing.withClaims existing.canonicalClaims) = some (compareClaims platform claim other) := hbest
      exact (classify_eq_iff hrearranged horiginal (hsame.overlap_eq hclosest)).mpr
        (h.alike first second claim other hsame hclosest)

/-- No conflict is hidden and no order of the claims matters exactly when the closest pairs are alike and, where some
pair is in conflict, are in conflict themselves. -/
theorem conflicts_surface_iff (platform : Platform) (candidate : MemoryCandidate) (existing : MemoryRecallCandidate) :
    ConflictsSurface platform candidate existing ↔ ClosestDecide platform candidate existing := by
  constructor
  · exact fun h => h.closestDecide
  · intro h
    exact ⟨h.surface, fun claims others hclaims hothers => h.ordered hclaims hothers⟩

end Surface

/-- A Context that says where the service listens and what it is written in. -/
def twoClaims : MemoryRecallCandidate :=
  recalledPort.withClaims [⟨"service", "language", "Rust", [], .positive⟩, ⟨"service", "port", "9090", [], .positive⟩]

/-- A candidate with the same language and another port. -/
def otherPort : MemoryCandidate :=
  sampleCandidate.withClaims [⟨"service", "language", "Rust", [], .positive⟩, ⟨"service", "port", "8080", [], .positive⟩]

/-- The ports conflict, and the shared language makes the candidate a duplicate. -/
theorem shared_claim_masks_conflict : OpenToConflict otherPort twoClaims ∧
    (∃ claim ∈ otherPort.canonicalClaims, ∃ other ∈ twoClaims.canonicalClaims,
      ClaimsConflict samplePlatform claim other) ∧
    (classify samplePlatform otherPort twoClaims).relation = .duplicate ∧
    ¬ ConflictsSurface samplePlatform otherPort twoClaims := by
  have hopen : OpenToConflict otherPort twoClaims := by
    refine ⟨by decide +kernel, by decide +kernel, by decide, ?_⟩
    rintro ⟨hsome, -⟩
    cases hsome
  have hconflict : ∃ claim ∈ otherPort.canonicalClaims, ∃ other ∈ twoClaims.canonicalClaims,
      ClaimsConflict samplePlatform claim other := by
    refine ⟨⟨"service", "port", "8080", [], .positive⟩, by decide, ⟨"service", "port", "9090", [], .positive⟩, by decide,
      rfl, rfl, Or.inr ?_⟩
    decide +kernel
  have hrelation : (classify samplePlatform otherPort twoClaims).relation = .duplicate := by
    decide +kernel
  refine ⟨hopen, hconflict, hrelation, ?_⟩
  intro h
  have hcontradicts := h.surface hopen hconflict
  rw [hrelation] at hcontradicts
  cases hcontradicts

end Alexandria.Reconciliation
