import Alexandria.Foundations.CappedSelection
import Alexandria.Foundations.Components
import Alexandria.Foundations.Keyed
import Alexandria.Foundations.Lists
import Alexandria.Foundations.Text
import Mathlib.Algebra.Order.Ring.Rat
import Mathlib.Data.List.FinRange
import Mathlib.Data.List.Lex
import Mathlib.Data.PNat.Defs
import Mathlib.Data.Prod.Lex
import Mathlib.Data.String.Basic
import Mathlib.Order.Interval.Set.Defs

/-! # Candidate discovery

`reconciliation_candidates.rs`: bounded comparison pairs, the pairs that qualify, the cap for each item, and the
clusters of what is retained. A score is the rational number that the float stands for, and the cosine of two
embeddings is a parameter.
-/

namespace Alexandria.Reconciliation.Candidates
set_option autoImplicit false

open Lists

structure CandidateEngineError where
  message : String
deriving DecidableEq

/-- What the engine leaves to libraries: the similarity of two embeddings and the quoted form of a text. -/
structure CandidateEnvironment where
  cosineSimilarity : List ℚ → List ℚ → ℚ
  debug : String → String

/-! ## Policies and items -/

/-- `CandidatePolicy.new` refuses thresholds that are no probability and limits that are zero. -/
structure CandidatePolicy where
  vectorSimilarityThreshold : Set.Icc (0 : ℚ) 1
  graphSimilarityThreshold : Set.Icc (0 : ℚ) 1
  maxBlockSize : ℕ+
  maxCandidatesPerItem : ℕ+

structure TemporalInterval where
  validFromMicros : Option ℤ
  validToMicros : Option ℤ
deriving DecidableEq

structure ReconciliationItem where
  itemId : String
  contentHash : Option String
  embedding : Option (List ℚ)
  temporalInterval : TemporalInterval
  blockingKeys : List String
  graphNeighbors : List String
  lineageAncestors : List String
deriving DecidableEq

structure ExactDuplicateGroup where
  contentHash : String
  itemIds : List String
deriving DecidableEq

inductive CandidateReason
  | exactContentHash
  | vectorSimilarity
  | temporalOverlap
  | graphNeighborhood
  | lineageStructure
deriving DecidableEq

inductive LineageEvidence
  | none
  | leftDescendsFromRight
  | rightDescendsFromLeft
  | sharedAncestor
deriving DecidableEq

structure CandidatePair where
  leftId : String
  rightId : String
  exactContentHash : Bool
  vectorSimilarity : Option ℚ
  temporalOverlap : Bool
  graphSimilarity : ℚ
  lineage : LineageEvidence
  candidateScore : ℚ
  reasons : List CandidateReason
deriving DecidableEq

structure CandidateCluster where
  clusterIndex : ℕ
  itemIds : List String
deriving DecidableEq

structure CandidateMetrics where
  inputItems : ℕ
  comparisonPairs : ℕ
  qualifyingPairs : ℕ
  retainedPairs : ℕ
  exactDuplicateGroups : ℕ
deriving DecidableEq

structure CandidateEngineResult where
  exactDuplicateGroups : List ExactDuplicateGroup
  candidatePairs : List CandidatePair
  clusters : List CandidateCluster
  metrics : CandidateMetrics
deriving DecidableEq

/-! ## Duplicate groups -/

def sortedKeys (keys : List String) : List String := keys.dedup.insertionSort (· ≤ ·)

def exactDuplicateGroups (items : List ReconciliationItem) : List ExactDuplicateGroup :=
  (sortedKeys (items.filterMap (·.contentHash))).filterMap fun contentHash =>
    let itemIds := (items.filter fun item => item.contentHash = some contentHash).map (·.itemId)
    if itemIds.length < 2 then none else some ⟨contentHash, itemIds.insertionSort (· ≤ ·)⟩

/-! ## Comparison pairs -/

section Pairs
variable (items : List ReconciliationItem)

abbrev ItemIndex : Type := Fin items.length

def uniqueItemIndex : Except CandidateEngineError (String → Option (ItemIndex items)) :=
  match Keyed.firstRepeated (items.map (·.itemId)) with
  | some itemId => .error ⟨s!"duplicate item_id: {itemId}"⟩
  | none => .ok fun itemId => (List.finRange items.length).find? fun i => (items.get i).itemId = itemId

variable {items}

def orderedPair (left right : ItemIndex items) : ItemIndex items × ItemIndex items :=
  if left < right then (left, right) else (right, left)

def addRelationPairs (idToIndex : String → Option (ItemIndex items)) (source : ItemIndex items)
    (relationIds : List String) : List (ItemIndex items × ItemIndex items) :=
  relationIds.filterMap fun targetId => do
    let target ← idToIndex targetId
    if source ≠ target then some (orderedPair source target) else none

def addAllPairs : List (ItemIndex items) → List (ItemIndex items × ItemIndex items)
  | [] => []
  | left :: rest => (rest.filter (left ≠ ·)).map (orderedPair left) ++ addAllPairs rest

variable (items) in
/-- The indices of the items with a key, one for each time the item names it, under the keys in order. -/
def grouped (keys : ReconciliationItem → List String) : List (String × List (ItemIndex items)) :=
  (sortedKeys (items.flatMap keys)).map fun key =>
    (key, (List.finRange items.length).flatMap fun i => ((keys (items.get i)).filter (· = key)).map fun _ => i)

def blockPairs (debug : String → String) (maxBlockSize : ℕ) (block : String × List (ItemIndex items)) :
    Except CandidateEngineError (List (ItemIndex items × ItemIndex items)) :=
  if maxBlockSize < block.2.length then
    .error ⟨s!"blocking key {debug block.1} has {block.2.length} members, exceeding max_block_size {maxBlockSize}"⟩
  else .ok (addAllPairs block.2)

/-- Each member of a hash group is compared with the one whose id comes first. -/
def representativePairs (members : List (ItemIndex items)) : List (ItemIndex items × ItemIndex items) :=
  match members.insertionSort fun left right => (items.get left).itemId ≤ (items.get right).itemId with
  | [] => []
  | representative :: rest => rest.map (orderedPair representative)

def pairOrder (pair : ItemIndex items × ItemIndex items) : ItemIndex items ×ₗ ItemIndex items := toLex pair

variable (items) in
def comparisonPairIndexes (debug : String → String) (idToIndex : String → Option (ItemIndex items)) (maxBlockSize : ℕ) :
    Except CandidateEngineError (List (ItemIndex items × ItemIndex items)) := do
  let relations := (List.finRange items.length).flatMap fun i =>
    addRelationPairs idToIndex i (items.get i).graphNeighbors ++ addRelationPairs idToIndex i (items.get i).lineageAncestors
  let blocks ← (grouped items (·.blockingKeys)).mapM (blockPairs debug maxBlockSize)
  let representatives := (grouped items (·.contentHash.toList)).flatMap fun group => representativePairs group.2
  pure ((relations ++ blocks.flatten ++ representatives).dedup.insertionSort fun a b => pairOrder a ≤ pairOrder b)

end Pairs

/-! ## Evidence -/

def vectorSimilarity (env : CandidateEnvironment) (left right : Option (List ℚ)) : Option ℚ :=
  match left, right with
  | some leftValues, some rightValues =>
    if leftValues.length = rightValues.length then some (env.cosineSimilarity leftValues rightValues) else none
  | _, _ => none

def intervalsOverlap (left right : TemporalInterval) : Bool :=
  let ordered (upper lower : Option ℤ) : Bool := match upper, lower with
    | some upper, some lower => upper < lower
    | _, _ => false
  !ordered left.validToMicros right.validFromMicros && !ordered right.validToMicros left.validFromMicros

/-- A count that does not fit in 32 bits gives no similarity. -/
def jaccardSimilarity (left right : List String) : ℚ :=
  let union := (left.toFinset ∪ right.toFinset).card
  let intersection := (left.toFinset ∩ right.toFinset).card
  if union = 0 then 0 else if 2 ^ 32 ≤ intersection ∨ 2 ^ 32 ≤ union then 0 else intersection / union

def lineageEvidence (left right : ReconciliationItem) : LineageEvidence :=
  if right.itemId ∈ left.lineageAncestors then .leftDescendsFromRight
  else if left.itemId ∈ right.lineageAncestors then .rightDescendsFromLeft
  else if Disjoint left.lineageAncestors.toFinset right.lineageAncestors.toFinset then .none
  else .sharedAncestor

/-- The part of `qualifying_pair` after its items are put in the order of their ids. -/
def pairEvidence (env : CandidateEnvironment) (policy : CandidatePolicy) (left right : ReconciliationItem) :
    Option CandidatePair :=
  let exactContentHash := left.contentHash.isSome && left.contentHash = right.contentHash
  let vector := vectorSimilarity env left.embedding right.embedding
  let overlap := intervalsOverlap left.temporalInterval right.temporalInterval
  let graph := jaccardSimilarity left.graphNeighbors right.graphNeighbors
  let lineage := lineageEvidence left right
  let vectorSignal : Bool := vector.any fun score => policy.vectorSimilarityThreshold.1 ≤ score
  let graphSignal : Bool := policy.graphSimilarityThreshold.1 ≤ graph && 0 < graph
  let reasons := (if exactContentHash then [CandidateReason.exactContentHash] else []) ++
    (if vectorSignal then [CandidateReason.vectorSimilarity] else []) ++
    (if overlap then [CandidateReason.temporalOverlap] else []) ++
    (if graphSignal then [CandidateReason.graphNeighborhood] else []) ++
    (if lineage ≠ .none then [CandidateReason.lineageStructure] else [])
  if exactContentHash || vectorSignal || graphSignal || lineage ≠ .none then
    let vectorScore := max 0 (min 1 (vector.getD 0))
    let lineageScore : ℚ := if lineage = .none then 0 else 1
    let candidateScore := if exactContentHash then 1 else max (max vectorScore graph) lineageScore
    some ⟨left.itemId, right.itemId, exactContentHash, vector, overlap, graph, lineage, candidateScore, reasons⟩
  else none

def inIdOrder (left right : ReconciliationItem) : ReconciliationItem × ReconciliationItem :=
  if left.itemId ≤ right.itemId then (left, right) else (right, left)

def qualifyingPair (env : CandidateEnvironment) (policy : CandidatePolicy) (left right : ReconciliationItem) :
    Option CandidatePair := pairEvidence env policy (inIdOrder left right).1 (inIdOrder left right).2

/-! ## The cap for each item -/

/-- `candidate_order`: a higher score first, then the ids. -/
def candidateRank (pair : CandidatePair) : ℚᵒᵈ ×ₗ String ×ₗ String :=
  toLex (OrderDual.toDual pair.candidateScore, toLex (pair.leftId, pair.rightId))

def capLoop (maxCandidatesPerItem : ℕ) (counts : String → ℕ) : List CandidatePair → List CandidatePair
  | [] => []
  | candidate :: candidates =>
    if maxCandidatesPerItem ≤ counts candidate.leftId ∨ maxCandidatesPerItem ≤ counts candidate.rightId then
      capLoop maxCandidatesPerItem counts candidates
    else
      let counts := Function.update counts candidate.leftId (counts candidate.leftId + 1)
      let counts := Function.update counts candidate.rightId (counts candidate.rightId + 1)
      candidate :: capLoop maxCandidatesPerItem counts candidates

def enforcePerItemCap (candidates : List CandidatePair) (maxCandidatesPerItem : ℕ) : List CandidatePair :=
  capLoop maxCandidatesPerItem (fun _ => 0) (candidates.insertionSort fun a b => candidateRank a ≤ candidateRank b)

/-! ## Clusters -/

def CandidatePair.ends (pair : CandidatePair) : List String := [pair.leftId, pair.rightId]

def pairNeighbors (pairs : List CandidatePair) (id : String) : List String :=
  sortedKeys (pairs.flatMap fun pair =>
    (if pair.leftId = id then [pair.rightId] else []) ++ (if pair.rightId = id then [pair.leftId] else []))

/-- `adjacency`: the ids that occur in pairs, each with the ids it occurs with. -/
def adjacency (pairs : List CandidatePair) : Components.FiniteGraph String where
  nodes := sortedKeys (pairs.flatMap (·.ends))
  neighbors := pairNeighbors pairs
  closed := by
    intro a b hb
    simp only [pairNeighbors, sortedKeys, List.mem_insertionSort, List.mem_dedup, List.mem_flatMap, List.mem_append,
      List.mem_ite_nil_right, List.mem_singleton] at hb ⊢
    obtain ⟨pair, hpair, ⟨-, rfl⟩ | ⟨-, rfl⟩⟩ := hb
    · exact ⟨pair, hpair, by simp [CandidatePair.ends]⟩
    · exact ⟨pair, hpair, by simp [CandidatePair.ends]⟩

def clustersFromPairs (pairs : List CandidatePair) : List CandidateCluster :=
  let components := (adjacency pairs).components.map fun component => component.insertionSort (· ≤ ·)
  (components.insertionSort (· ≤ ·)).mapIdx fun clusterIndex itemIds => ⟨clusterIndex, itemIds⟩

/-! ## Discovery -/

def maxItems : ℕ := 1000000

def discoverCandidates (env : CandidateEnvironment) (items : List ReconciliationItem) (policy : CandidatePolicy) :
    Except CandidateEngineError CandidateEngineResult :=
  if maxItems < items.length then .error ⟨s!"item count exceeds the {maxItems} limit"⟩
  else do
    let idToIndex ← uniqueItemIndex items
    let groups := exactDuplicateGroups items
    let comparisonPairs ← comparisonPairIndexes items env.debug idToIndex policy.maxBlockSize
    let qualifying := comparisonPairs.filterMap fun pair => qualifyingPair env policy (items.get pair.1) (items.get pair.2)
    let candidatePairs := enforcePerItemCap qualifying policy.maxCandidatesPerItem
    pure {
      exactDuplicateGroups := groups
      candidatePairs := candidatePairs
      clusters := clustersFromPairs candidatePairs
      metrics := ⟨items.length, comparisonPairs.length, qualifying.length, candidatePairs.length, groups.length⟩ }

end Alexandria.Reconciliation.Candidates
