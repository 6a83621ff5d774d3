import Alexandria.Foundations.Keyed
import Alexandria.Foundations.Lists
import Mathlib.Algebra.Order.Ring.Rat
import Mathlib.Data.Prod.Lex
import Mathlib.Tactic.Positivity

/-! # Hybrid fusion of two retrieval lanes

`retrieval_kernel/fusion.rs`. A lane is a list of candidates of which each names a context; contributions are
exact rationals. A `HashMap` is a list of its entries in the order of their insertion, a `HashSet` a finite set;
the order in which a map yields its values is a parameter.
-/

namespace Alexandria.Retrieval
set_option autoImplicit false

inductive RetrievalLane
  | fts
  | vector
deriving DecidableEq

def RetrievalLane.debug : RetrievalLane → String
  | .fts => "Fts"
  | .vector => "Vector"

structure CandidateRepresentative where
  lane : RetrievalLane
  laneIndex : ℕ
deriving DecidableEq

structure FusedRetrievalIndex where
  representative : CandidateRepresentative
  ftsIndex : Option ℕ
  vectorIndex : Option ℕ
  score : ℚ
deriving DecidableEq

structure FusionIndexEvidence where
  representative : CandidateRepresentative
  representativeContribution : ℚ
  fusedScore : ℚ
  firstSeen : ℕ
  ftsIndex : Option ℕ
  vectorIndex : Option ℕ
deriving DecidableEq

structure RetrievalFusionTrace where
  ftsInputCount : ℕ
  vectorInputCount : ℕ
  ftsUniqueCount : ℕ
  vectorUniqueCount : ℕ
  ftsDuplicateCount : ℕ
  vectorDuplicateCount : ℕ
  fusedCandidateCount : ℕ
  crossLaneCount : ℕ
  returnedCount : ℕ
  representativeFtsCount : ℕ
  representativeVectorCount : ℕ
deriving DecidableEq

inductive RetrievalKernelErrorCode
  | invalidInput
  | candidateLimitExceeded
deriving DecidableEq

structure RetrievalKernelError where
  code : RetrievalKernelErrorCode
  message : String
  lane : Option RetrievalLane
  candidateIndex : Option ℕ
deriving DecidableEq

def maxLaneCandidates : ℕ := 1000000

def reciprocalRankFusionConstant : ℕ := 60

def vectorReciprocalRankWeight : ℚ := 101 / 100

def validateLaneCount (lane : RetrievalLane) (candidateCount : ℕ) : Except RetrievalKernelError Unit :=
  if maxLaneCandidates < candidateCount then
    .error ⟨.candidateLimitExceeded,
      s!"{lane.debug} candidate count {candidateCount} exceeds the {maxLaneCandidates} item limit", some lane, none⟩
  else .ok ()

/-- The order in which a `HashMap` yields its values. -/
structure ValueOrder where
  arrange : List FusionIndexEvidence → List FusionIndexEvidence
  perm : ∀ values, (arrange values).Perm values

/-- A rank that does not fit 32 bits counts as the largest one that does. -/
def reciprocalRankContribution (lane : RetrievalLane) (rank : ℕ) : ℚ :=
  let contribution : ℚ := 1 / (reciprocalRankFusionConstant + (min rank (2 ^ 32 - 1) : ℕ))
  match lane with
  | .fts => contribution
  | .vector => contribution * vectorReciprocalRankWeight

/-! ## Merging one lane -/

structure EvidenceMap where
  entries : List (String × FusionIndexEvidence)
  nextFirstSeen : ℕ

def FusionIndexEvidence.fresh (lane : RetrievalLane) (laneIndex : ℕ) (contribution : ℚ) (firstSeen : ℕ) :
    FusionIndexEvidence := ⟨⟨lane, laneIndex⟩, contribution, 0, firstSeen, none, none⟩

/-- What the first candidate of a lane for a context does to its evidence. -/
def FusionIndexEvidence.observe (lane : RetrievalLane) (laneIndex : ℕ) (contribution : ℚ)
    (evidence : FusionIndexEvidence) : FusionIndexEvidence :=
  let scored := { evidence with fusedScore := max evidence.fusedScore contribution }
  let represented :=
    if scored.representativeContribution < contribution then
      { scored with representative := ⟨lane, laneIndex⟩, representativeContribution := contribution }
    else scored
  match lane with
  | .fts => { represented with ftsIndex := some laneIndex }
  | .vector => { represented with vectorIndex := some laneIndex }

/-- One round of `merge_lane_indices`: a context seen in the lane before only uses up a rank. -/
def mergeCandidate (lane : RetrievalLane) (state : EvidenceMap × Finset String) (candidate : String × ℕ) :
    EvidenceMap × Finset String :=
  let (evidenceByContext, seenContextIds) := state
  let (contextId, laneIndex) := candidate
  if contextId ∈ seenContextIds then state
  else
    let contribution := reciprocalRankContribution lane (laneIndex + 1)
    match Keyed.lookup Prod.fst contextId evidenceByContext.entries with
    | some (_, evidence) =>
      (⟨Keyed.put Prod.fst (contextId, evidence.observe lane laneIndex contribution) evidenceByContext.entries,
        evidenceByContext.nextFirstSeen⟩, insert contextId seenContextIds)
    | none =>
      let evidence := FusionIndexEvidence.fresh lane laneIndex contribution evidenceByContext.nextFirstSeen
      (⟨Keyed.put Prod.fst (contextId, evidence.observe lane laneIndex contribution) evidenceByContext.entries,
        evidenceByContext.nextFirstSeen + 1⟩, insert contextId seenContextIds)

/-- The merged map, and how many contexts the lane has. -/
def mergeLaneIndices (lane : RetrievalLane) (candidates : List String) (evidenceByContext : EvidenceMap) :
    EvidenceMap × ℕ :=
  let merged := candidates.zipIdx.foldl (mergeCandidate lane) (evidenceByContext, ∅)
  (merged.1, merged.2.card)

/-! ## Fusion -/

structure HybridMergeOutput where
  results : List FusedRetrievalIndex
  trace : Option RetrievalFusionTrace
deriving DecidableEq

def zeroLimitTrace (fts vector : List String) : RetrievalFusionTrace :=
  let ftsIds := fts.toFinset
  let vectorIds := vector.toFinset
  { ftsInputCount := fts.length
    vectorInputCount := vector.length
    ftsUniqueCount := ftsIds.card
    vectorUniqueCount := vectorIds.card
    ftsDuplicateCount := fts.length - ftsIds.card
    vectorDuplicateCount := vector.length - vectorIds.card
    fusedCandidateCount := (ftsIds ∪ vectorIds).card
    crossLaneCount := (ftsIds ∩ vectorIds).card
    returnedCount := 0
    representativeFtsCount := 0
    representativeVectorCount := 0 }

/-- A higher score goes first, and of equal scores the context that was seen first. -/
def FusionIndexEvidence.rankKey (evidence : FusionIndexEvidence) : ℚᵒᵈ ×ₗ ℕ :=
  toLex (OrderDual.toDual evidence.fusedScore, evidence.firstSeen)

def FusionIndexEvidence.intoResult (evidence : FusionIndexEvidence) : FusedRetrievalIndex :=
  ⟨evidence.representative, evidence.ftsIndex, evidence.vectorIndex, evidence.fusedScore⟩

def mergeHybridIndexed (order : ValueOrder) (fts vector : List String) (limit : ℕ) (collectTrace : Bool) :
    Except RetrievalKernelError HybridMergeOutput := do
  validateLaneCount .fts fts.length
  validateLaneCount .vector vector.length
  if limit = 0 then
    return ⟨[], if collectTrace then some (zeroLimitTrace fts vector) else none⟩
  let (ftsMerged, ftsUniqueCount) := mergeLaneIndices .fts fts ⟨[], 0⟩
  let (merged, vectorUniqueCount) := mergeLaneIndices .vector vector ftsMerged
  let values := order.arrange (merged.entries.map Prod.snd)
  let crossLaneCount :=
    if collectTrace then values.countP fun evidence => evidence.ftsIndex.isSome && evidence.vectorIndex.isSome else 0
  let ranked := (values.insertionSort fun left right => left.rankKey ≤ right.rankKey).take limit
  let representativeFtsCount :=
    if collectTrace then ranked.countP fun evidence => evidence.representative.lane = .fts else 0
  let representativeVectorCount := if collectTrace then ranked.length - representativeFtsCount else 0
  let trace : RetrievalFusionTrace :=
    { ftsInputCount := fts.length
      vectorInputCount := vector.length
      ftsUniqueCount
      vectorUniqueCount
      ftsDuplicateCount := fts.length - ftsUniqueCount
      vectorDuplicateCount := vector.length - vectorUniqueCount
      fusedCandidateCount := merged.entries.length
      crossLaneCount
      returnedCount := ranked.length
      representativeFtsCount
      representativeVectorCount }
  return ⟨ranked.map (·.intoResult), if collectTrace then some trace else none⟩

/-! ## Candidates -/

/-- A candidate with the bits of its scores, which fusion copies. -/
structure RetrievalCandidate where
  contextId : String
  score : BitVec 64
  ftsScore : Option (BitVec 64)
  vectorScore : Option (BitVec 64)
  whyRetrieved : String
deriving DecidableEq

structure FusedRetrievalCandidate where
  contextId : String
  representative : CandidateRepresentative
  score : ℚ
  ftsScore : Option (BitVec 64)
  vectorScore : Option (BitVec 64)
  whyRetrieved : String
deriving DecidableEq

def fusedRetrievalReason : String :=
  "Context ranked across lexical and semantic vector evidence using best-lane reciprocal-rank fusion."

/-- The element of its lane at the index of a representative. -/
def representativeOf {α : Type} (fts vector : List α) (representative : CandidateRepresentative) : Option α :=
  match representative.lane with
  | .fts => fts[representative.laneIndex]?
  | .vector => vector[representative.laneIndex]?

def materializeFused (fts vector : List RetrievalCandidate) (item : FusedRetrievalIndex) :
    Except RetrievalKernelError FusedRetrievalCandidate :=
  match representativeOf fts vector item.representative with
  | none => .error ⟨.invalidInput, "fusion representative index is invalid", none, none⟩
  | some representative =>
    let ftsScore := (item.ftsIndex.bind (fts[·]?)).bind (·.ftsScore)
    let vectorScore := (item.vectorIndex.bind (vector[·]?)).bind (·.vectorScore)
    .ok ⟨representative.contextId, item.representative, item.score, ftsScore, vectorScore,
      if ftsScore.isSome && vectorScore.isSome then fusedRetrievalReason else representative.whyRetrieved⟩

def mergeHybridCandidates (order : ValueOrder) (fts vector : List RetrievalCandidate) (limit : ℕ) :
    Except RetrievalKernelError (List FusedRetrievalCandidate) := do
  let compact ← mergeHybridIndexed order (fts.map (·.contextId)) (vector.map (·.contextId)) limit false
  compact.results.mapM (materializeFused fts vector)

end Alexandria.Retrieval
