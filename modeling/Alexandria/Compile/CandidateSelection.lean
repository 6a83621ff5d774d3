import Alexandria.Compile.Traversal
import Mathlib.Data.Prod.Lex
import Mathlib.Algebra.Order.Field.Basic
import Mathlib.Algebra.Order.Ring.Rat

/-! # Candidate selection

`graph_compute/candidate_selection.rs`: the notes that traversals meet around their seeds are ranked by their titles, and each
one that is selected gets a path back to a seed. What is alphanumeric and what is lower case is a parameter.
-/

namespace Alexandria.Compile
set_option autoImplicit false
open BreadthFirst (Walk Distance Next grow)

structure GraphCandidatePathHop where
  edgeId : String
  sourceNoteId : String
  targetNoteId : String
  relation : String
  direction : TraversalDirection
  depth : ℕ
deriving DecidableEq

structure GraphSelectedCandidate where
  noteId : String
  minDepth : ℕ
  seedSupport : ℕ
  sharedTitleTrigrams : ℕ
  titleTrigramUnion : ℕ
  pathHops : List GraphCandidatePathHop
deriving DecidableEq

structure GraphTitleRelevance where
  noteId : String
  sharedTitleTrigrams : ℕ
  titleTrigramUnion : ℕ
deriving DecidableEq

structure GraphCandidateSelection where
  traversals : List GraphTraversalResult
  candidates : List GraphSelectedCandidate
  primaryTitleRelevance : List GraphTitleRelevance
deriving DecidableEq

/-! ## Title trigrams -/

structure LetterTables where
  isAlphanumeric : Char → Bool
  toLowercase : Char → List Char

abbrev Trigram : Type := Char × Char × Char

section Trigrams
variable (T : LetterTables)

/-- The text so far, and whether a separator is pending. -/
def normalizeCharacter (state : List Char × Bool) (character : Char) : List Char × Bool :=
  if T.isAlphanumeric character then
    ((if state.2 && !state.1.isEmpty then state.1 ++ ['_'] else state.1) ++ T.toLowercase character, false)
  else if !state.1.isEmpty then (state.1, true)
  else state

def windows : List Char → List Trigram
  | a :: b :: c :: rest => (a, b, c) :: windows (b :: c :: rest)
  | _ => []

def normalizedTrigrams (value : String) : Finset Trigram :=
  (windows (value.toList.foldl (normalizeCharacter T) ([], false)).1).toFinset

def titleOf (projection : GraphProjection) (noteId : String) : Option String :=
  (lastWith (·.noteId) projection.nodes noteId).map (·.title)

def titleRelevance (projection : GraphProjection) (queryTrigrams : Finset Trigram) (noteId : String) :
    Option GraphTitleRelevance := do
  let title ← titleOf projection noteId
  let titleTrigrams := normalizedTrigrams T title
  let titleTrigramUnion := (queryTrigrams ∪ titleTrigrams).card
  if 0 < titleTrigramUnion then some ⟨noteId, (queryTrigrams ∩ titleTrigrams).card, titleTrigramUnion⟩ else none

end Trigrams

/-! ## Ranking -/

structure CandidateAccumulator where
  minDepth : ℕ
  seedSupport : ℕ
  firstSeen : ℕ

/-- The candidates by their note ids, and how many there are. -/
abbrev CandidateAccumulators : Type := List (String × CandidateAccumulator) × ℕ

def accumulate (seeds : List String) (accumulators : CandidateAccumulators) (visit : GraphTraversalVisit) :
    CandidateAccumulators :=
  if visit.noteId ∈ seeds then accumulators
  else
    match Keyed.lookup Prod.fst visit.noteId accumulators.1 with
    | some (_, candidate) =>
      (Keyed.put Prod.fst (visit.noteId, { candidate with
        minDepth := min candidate.minDepth visit.depth
        seedSupport := candidate.seedSupport + 1 }) accumulators.1, accumulators.2)
    | none =>
      (Keyed.put Prod.fst (visit.noteId, ⟨visit.depth, 1, accumulators.2⟩) accumulators.1, accumulators.2 + 1)

structure RankedCandidate where
  noteId : String
  minDepth : ℕ
  seedSupport : ℕ
  firstSeen : ℕ
  sharedTitleTrigrams : ℕ
  titleTrigramUnion : ℕ
  unionPositive : 0 < titleTrigramUnion

def compareRankedCandidates (left right : RankedCandidate) : Ordering :=
  let leftCross := left.sharedTitleTrigrams * right.titleTrigramUnion
  let rightCross := right.sharedTitleTrigrams * left.titleTrigramUnion
  (compare rightCross leftCross).then <|
    (compare left.minDepth right.minDepth).then <|
      (compare right.seedSupport left.seedSupport).then <|
        (compare left.firstSeen right.firstSeen).then (compare left.noteId right.noteId)

section Ranking
variable (T : LetterTables) (projection : GraphProjection) (queryTrigrams : Finset Trigram) (minSharedTrigrams : ℕ)

def rankCandidate (entry : String × CandidateAccumulator) : Option RankedCandidate := do
  let title ← titleOf projection entry.1
  let titleTrigrams := normalizedTrigrams T title
  let sharedTitleTrigrams := (queryTrigrams ∩ titleTrigrams).card
  if sharedTitleTrigrams < minSharedTrigrams then none
  else if h : 0 < (queryTrigrams ∪ titleTrigrams).card then
    some ⟨entry.1, entry.2.minDepth, entry.2.seedSupport, entry.2.firstSeen, sharedTitleTrigrams, _, h⟩
  else none

def seedsOf (traversals : List GraphTraversalResult) : List String := traversals.map (·.startNoteId)

def visitsOf (traversals : List GraphTraversalResult) : List GraphTraversalVisit := traversals.flatMap (·.visits)

def accumulators (traversals : List GraphTraversalResult) : List (String × CandidateAccumulator) :=
  ((visitsOf traversals).foldl (accumulate (seedsOf traversals)) ([], 0)).1

def rankedCandidates (traversals : List GraphTraversalResult) : List RankedCandidate :=
  (((accumulators traversals).insertionSort fun left right => left.1 ≤ right.1).filterMap
    (rankCandidate T projection queryTrigrams minSharedTrigrams)).insertionSort
      fun left right => (compareRankedCandidates left right).isLE

end Ranking

/-! ## Paths -/

def directionOrder : TraversalDirection → ℕ
  | .outgoing => 0
  | .incoming => 1
  | .both => 2

/-- The direction in which the edge leads from one note to the other, if the request takes it. -/
def edgeDirection (request : GraphTraversalRequest) (predecessorNoteId targetNoteId : String) (edge : GraphProjectionEdge) :
    Option TraversalDirection :=
  if request.direction ≠ .incoming ∧ edge.sourceNoteId = predecessorNoteId ∧ edge.targetNoteId = targetNoteId then
    some .outgoing
  else if request.direction ≠ .outgoing ∧ edge.targetNoteId = predecessorNoteId ∧ edge.sourceNoteId = targetNoteId then
    some .incoming
  else none

def matchSortKey (found : GraphProjectionEdge × TraversalDirection) : String ×ₗ ℕ :=
  toLex (found.1.edgeId, directionOrder found.2)

def matchingPathEdge (projection : GraphProjection) (request : GraphTraversalRequest)
    (predecessorNoteId targetNoteId : String) : Option (GraphProjectionEdge × TraversalDirection) :=
  (((projection.edges.filter fun edge => request.relations.isEmpty || edge.relation ∈ request.relations).filterMap
    fun edge => (edgeDirection request predecessorNoteId targetNoteId edge).map fun direction =>
      (edge, direction)).insertionSort fun left right => matchSortKey left ≤ matchSortKey right).head?

section Paths
variable (projection : GraphProjection) (traversal : GraphTraversalResult) (request : GraphTraversalRequest)
  (candidateNoteId : String)

/-- The first visit at the depth from which an edge leads to the note. -/
def predecessor (depth : ℕ) (currentNoteId : String) : Option (String × GraphProjectionEdge × TraversalDirection) :=
  traversal.visits.findSome? fun visit =>
    if visit.depth ≠ depth then none
    else (matchingPathEdge projection request visit.noteId currentNoteId).map fun found => (visit.noteId, found)

def pathHopsForTraversal : ℕ → String → Except GraphComputeError (List GraphCandidatePathHop)
  | 0, currentNoteId =>
    if currentNoteId = traversal.startNoteId then .ok []
    else .error
      ⟨s!"selected graph candidate {candidateNoteId} path does not terminate at seed {traversal.startNoteId}"⟩
  | depth + 1, currentNoteId =>
    match predecessor projection traversal request depth currentNoteId with
    | none => .error
      ⟨s!"selected graph candidate {candidateNoteId} has no deterministic predecessor at depth {depth + 1}"⟩
    | some (predecessorNoteId, edge, direction) =>
      (pathHopsForTraversal depth predecessorNoteId).map fun hops =>
        hops ++ [⟨edge.edgeId, predecessorNoteId, currentNoteId, edge.relation, direction, depth + 1⟩]

def reachesCandidate (minDepth : ℕ) : Bool :=
  traversal.visits.any fun visit => visit.noteId = candidateNoteId && visit.depth = minDepth

end Paths

def candidatePathHops (projection : GraphProjection) (traversals : List GraphTraversalResult)
    (traversalRequests : List GraphTraversalRequest) (candidateNoteId : String) (minDepth : ℕ) :
    Except GraphComputeError (List GraphCandidatePathHop) :=
  match (traversals.zip traversalRequests).find? fun pair => reachesCandidate pair.1 candidateNoteId minDepth with
  | some (traversal, request) => pathHopsForTraversal projection traversal request candidateNoteId minDepth candidateNoteId
  | none => .error ⟨s!"selected graph candidate {candidateNoteId} has no traversal at depth {minDepth}"⟩

def selectCandidate (projection : GraphProjection) (traversals : List GraphTraversalResult)
    (traversalRequests : List GraphTraversalRequest) (candidate : RankedCandidate) :
    Except GraphComputeError GraphSelectedCandidate :=
  (candidatePathHops projection traversals traversalRequests candidate.noteId candidate.minDepth).map fun pathHops =>
    ⟨candidate.noteId, candidate.minDepth, candidate.seedSupport, candidate.sharedTitleTrigrams,
      candidate.titleTrigramUnion, pathHops⟩

def selectCandidates (T : LetterTables) (projection : GraphProjection) (traversals : List GraphTraversalResult)
    (traversalRequests : List GraphTraversalRequest) (primaryNoteIds : List String) (query : String)
    (maxCandidates minSharedTrigrams : ℕ) : Except GraphComputeError GraphCandidateSelection :=
  let queryTrigrams := normalizedTrigrams T query
  if queryTrigrams = ∅ then .ok ⟨traversals, [], []⟩
  else
    (((rankedCandidates T projection queryTrigrams minSharedTrigrams traversals).take maxCandidates).mapM
      (selectCandidate projection traversals traversalRequests)).map fun candidates =>
        ⟨traversals, candidates, primaryNoteIds.filterMap (titleRelevance T projection queryTrigrams)⟩

end Alexandria.Compile
