import Alexandria.Reconciliation.Apply
import Mathlib.Data.Finset.Card

/-! # Temporal policy and relation classifier

A candidate is compared with one recalled Context: by content hash, by source, by scope, by the best pair of canonical
claims, and by validity. A model may propose a relation only where the policy finds none, and the policy checks it.
-/

namespace Alexandria.Reconciliation
set_option autoImplicit false
open Text

/-! ## Temporal policy -/

def intervalsOverlap (leftFrom leftTo rightFrom rightTo : Option Instant) : Bool :=
  match leftTo, rightFrom with
  | some finish, some start => if finish < start then false else endsAfterStart rightTo leftFrom
  | _, _ => endsAfterStart rightTo leftFrom
where
  /-- The right interval does not end before the left one starts. -/
  endsAfterStart (rightTo leftFrom : Option Instant) : Bool :=
    match rightTo, leftFrom with
    | some finish, some start => !decide (finish < start)
    | _, _ => true

def isTemporallyNewer (candidateValidFrom candidateObservedAt existingValidFrom existingObservedAt : Option Instant) :
    Bool :=
  match candidateValidFrom.or candidateObservedAt, existingValidFrom.or existingObservedAt with
  | some candidateTime, some existingTime => candidateTime > existingTime
  | _, _ => false

/-! ## Claims -/

/-- `" ".join(value.casefold().split())`. -/
def normalizedText (platform : Platform) (value : String) : String :=
  " ".intercalate
    ((((platform.casefold value).toList.splitOnP isPythonWhitespace).filter (!·.isEmpty)).map String.ofList)

structure ClaimComparison where
  exact : Bool
  sameProposition : Bool
  sameSubjectPredicate : Bool
  polarityConflict : Bool
  objectConflict : Bool
  candidateMoreSpecific : Bool
  overlap : ℚ
  summary : String

def qualifierPairs (claim : CanonicalClaim) : Finset (String × String) :=
  (claim.qualifiers.map fun qualifier => (qualifier.name, qualifier.value)).toFinset

section Classifier
variable (platform : Platform)

def compareClaims (candidate existing : CanonicalClaim) : ClaimComparison :=
  let subjectEqual := normalizedText platform candidate.subject == normalizedText platform existing.subject
  let predicateEqual := normalizedText platform candidate.predicate == normalizedText platform existing.predicate
  let objectEqual := normalizedText platform candidate.object == normalizedText platform existing.object
  let pairs := qualifierPairs candidate
  let existingPairs := qualifierPairs existing
  let sameSubjectPredicate := subjectEqual && predicateEqual
  let sameProposition := sameSubjectPredicate && objectEqual
  let samePolarity := candidate.polarity == existing.polarity
  let matchedParts : ℚ := (if subjectEqual then 1 else 0) + (if predicateEqual then 1 else 0) + (if objectEqual then 1 else 0)
  let union := pairs ∪ existingPairs
  let qualifierOverlap : ℚ := if union = ∅ then 1 else (pairs ∩ existingPairs).card / union.card
  { exact := sameProposition && samePolarity && decide (pairs = existingPairs)
    sameProposition := sameProposition
    sameSubjectPredicate := sameSubjectPredicate
    polarityConflict := sameProposition && !samePolarity
    objectConflict := sameSubjectPredicate && !objectEqual
    candidateMoreSpecific := sameProposition && decide (existingPairs ⊂ pairs) && samePolarity
    overlap := matchedParts / 3 * (4 / 5) + qualifierOverlap * (1 / 5)
    summary := claimText candidate }

/-- The comparison with the greatest overlap, the first of these. -/
def bestComparison (candidate : MemoryCandidate) (existing : MemoryRecallCandidate) : Option ClaimComparison :=
  (candidate.canonicalClaims.flatMap fun claim =>
    existing.canonicalClaims.map fun other => compareClaims platform claim other).argmax (·.overlap)

/-! ## Scores -/

def ScopeIdentity.at (identity : ScopeIdentity) : ContextScope → Option String
  | .global => none
  | .project => identity.project
  | .agent => identity.agentId
  | .user => identity.userId
  | .session => identity.sessionId

def scopeCompatibility (candidate : MemoryCandidate) (existing : MemoryRecallCandidate) : ℚ :=
  if candidate.scope ≠ existing.scope then 0
  else if candidate.identity.at candidate.scope = existing.identity.at candidate.scope then 1 else 0

def sourceIdentities (sourceRefs : List MemorySourceReference) : List (String × String) :=
  sourceRefs.map fun sourceRef => (sourceRef.sourceType, sourceRef.sourceId)

def sourceIndependence (candidate : MemoryCandidate) (existing : MemoryRecallCandidate) : ℚ :=
  let candidateIds := sourceIdentities candidate.sourceRefs
  let existingIds := sourceIdentities existing.sourceRefs
  if candidateIds.isEmpty || existingIds.isEmpty then 0
  else if candidateIds.all fun id => !existingIds.contains id then 1 else 0

def temporalOverlap (candidate : MemoryCandidate) (existing : MemoryRecallCandidate) : Bool :=
  intervalsOverlap candidate.validFrom candidate.validTo existing.validFrom existing.validTo

def temporallyNewer (candidate : MemoryCandidate) (existing : MemoryRecallCandidate) : Bool :=
  isTemporallyNewer candidate.validFrom candidate.observedAt existing.validFrom existing.observedAt

def relationScores (candidate : MemoryCandidate) (existing : MemoryRecallCandidate) : MemoryRelationScores :=
  let best := bestComparison platform candidate existing
  { semanticSimilarity :=
      platform.sequenceRatio (normalizedText platform candidate.body) (normalizedText platform existing.body)
    claimOverlap := (best.map (·.overlap)).getD 0
    scopeCompatibility := scopeCompatibility candidate existing
    temporalCompatibility := if temporalOverlap candidate existing then 1 else 0
    sourceIndependence := sourceIndependence candidate existing
    polarityConflict := if best.any (·.polarityConflict) then 1 else 0
    specificityChange := if best.any (·.candidateMoreSpecific) then 1 else 0
    freshness := if temporallyNewer candidate existing then 1 else 0 }

/-! ## The relation -/

structure RelationChoice where
  relation : MemoryRelationType
  confidence : ℚ
  reason : String
  source : MemoryDecisionSource

/-- The last cases of `_select_relation`, with a best pair of claims. -/
def selectByClaims (best : ClaimComparison) (scores : MemoryRelationScores) (overlap : Bool) : RelationChoice :=
  if best.exact then
    if 0 < scores.sourceIndependence then
      ⟨.supports, 98 / 100, "Independent evidence supports the same canonical claim", .deterministic⟩
    else ⟨.duplicate, 98 / 100, "Canonical claim is identical", .deterministic⟩
  else if best.sameSubjectPredicate && (best.polarityConflict || best.objectConflict) && overlap then
    ⟨.contradicts, 96 / 100, "Claims conflict within overlapping validity intervals", .deterministic⟩
  else if best.sameSubjectPredicate && decide (scores.freshness = 1) && !overlap then
    ⟨.supersedes, 95 / 100, "Candidate describes a newer non-overlapping state", .deterministic⟩
  else if best.sameProposition && best.candidateMoreSpecific then
    ⟨.extending, 90 / 100, "Candidate adds qualifiers to the existing proposition", .deterministic⟩
  else if scores.claimOverlap ≥ 75 / 100 ∧ scores.semanticSimilarity ≥ 70 / 100 then
    ⟨.extending, 78 / 100, "Candidate substantially overlaps and adds new detail", .semantic⟩
  else if scores.claimOverlap < 25 / 100 ∧ scores.semanticSimilarity < 35 / 100 then
    ⟨.unrelated, 90 / 100, "Claims and content have low overlap", .semantic⟩
  else ⟨.unknown, 45 / 100, "Available evidence does not support a safe relation decision", .semantic⟩

def selectRelation (candidate : MemoryCandidate) (existing : MemoryRecallCandidate) (best : Option ClaimComparison)
    (scores : MemoryRelationScores) (overlap : Bool) : RelationChoice :=
  if candidate.contentHash = existing.contentHash then
    ⟨.duplicate, 1, "Exact content hash match", .deterministic⟩
  else if candidate.sourceIdentity.isSome ∧ candidate.sourceIdentity = existing.sourceIdentity ∧
      scores.semanticSimilarity ≥ 98 / 100 then
    ⟨.duplicate, 99 / 100, "Same source identity with equivalent content", .deterministic⟩
  else if scores.scopeCompatibility = 0 then
    ⟨.unrelated, 98 / 100, "Project or scope identities are incompatible", .deterministic⟩
  else
    match best with
    | none =>
      if scores.semanticSimilarity < 35 / 100 then
        ⟨.unrelated, 75 / 100, "No comparable canonical claims were available", .semantic⟩
      else ⟨.unknown, 40 / 100, "No comparable canonical claims were available", .semantic⟩
    | some best => selectByClaims best scores overlap

def policyVersion : String := "memory-reconciliation-v1"

def classify (candidate : MemoryCandidate) (existing : MemoryRecallCandidate) : MemoryRelationDecision :=
  let best := bestComparison platform candidate existing
  let scores := relationScores platform candidate existing
  let choice := selectRelation candidate existing best scores (temporalOverlap candidate existing)
  { candidateId := candidate.candidateId
    existingContextId := existing.contextId
    relation := choice.relation
    confidence := choice.confidence
    reason := choice.reason
    evidenceRefs := candidate.sourceRefs
    claimMatches := (best.map (·.summary)).toList
    scores := scores
    decisionSource := choice.source
    policyVersion := policyVersion }

/-! ## Proposals of a model -/

structure MemoryRelationModelProposal where
  relation : MemoryRelationType
  confidence : ℚ
  reason : String

def modelPolicyVersion : String := "memory-reconciliation-v2-model-policy"

def proposalIsSupported (proposal : MemoryRelationModelProposal) (base : MemoryRelationDecision)
    (candidate : MemoryCandidate) (existing : MemoryRecallCandidate) : Bool :=
  let scores := base.scores
  match proposal.relation with
  | .unrelated => decide (proposal.confidence ≥ 85 / 100 ∧ scores.semanticSimilarity < 1 / 2)
  | relation =>
    if scores.scopeCompatibility = 0 then false
    else
      match relation with
      | .duplicate => decide (max scores.semanticSimilarity scores.claimOverlap ≥ 85 / 100)
      | .supports => decide (scores.claimOverlap ≥ 65 / 100 ∧ scores.polarityConflict = 0)
      | .extending => decide (scores.claimOverlap ≥ 1 / 2 ∧ scores.polarityConflict = 0)
      | .contradicts => decide (scores.temporalCompatibility = 1 ∧ scores.polarityConflict = 1)
      | .supersedes => !temporalOverlap candidate existing && temporallyNewer candidate existing
      | _ => false

def modelProposalDecision (base : MemoryRelationDecision) (proposal : MemoryRelationModelProposal)
    (candidate : MemoryCandidate) (existing : MemoryRecallCandidate) : MemoryRelationDecision :=
  if base.relation ≠ .unknown ∨ proposal.relation = .unknown ∨ proposal.confidence < 65 / 100 then base
  else if proposalIsSupported proposal base candidate existing then
    { base with
      relation := proposal.relation
      confidence := proposal.confidence
      reason := "Model proposal accepted by policy: " ++ proposal.reason
      decisionSource := .llm
      policyVersion := modelPolicyVersion }
  else base

/-- A model that may propose a relation. -/
abbrev ProposalProvider := MemoryCandidate → MemoryRecallCandidate → Option MemoryRelationModelProposal

def classifyWithModel (provider : Option ProposalProvider) (candidate : MemoryCandidate)
    (existing : MemoryRecallCandidate) : MemoryRelationDecision :=
  let base := classify platform candidate existing
  if base.relation ≠ .unknown then base
  else
    match provider.bind fun propose => propose candidate existing with
    | none => base
    | some proposal => modelProposalDecision base proposal candidate existing

end Classifier

end Alexandria.Reconciliation
