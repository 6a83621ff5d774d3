import Alexandria.Compile.Projection
import Mathlib.Data.Fintype.Card
import Mathlib.Data.List.FinRange

/-! # Graph compute

`graph_compute/mod.rs` and `graph_compute/algorithms.rs`: one validated request, the index of its projection, and
what is read off it. A node index is a number below the count of the nodes. The strongly connected components are
those of a library and stay a parameter.
-/

namespace Alexandria.Compile
set_option autoImplicit false

structure GraphComputeError where
  message : String
deriving DecidableEq

inductive TraversalDirection
  | outgoing
  | incoming
  | both
deriving DecidableEq

structure GraphTraversalRequest where
  requestId : String
  startNoteId : String
  direction : TraversalDirection
  relations : List String
  maxDepth : ℕ
  maxResults : ℕ

structure GraphLineageRequest where
  requestId : String
  noteId : String
  maxDepth : ℕ
  maxResults : ℕ

/-! ## Validation -/

def maxSourceNotes : ℕ := 2000000

def maxSourceEdges : ℕ := 8000000

def maxRequests : ℕ := 100000

def maxBatchSize : ℕ := 1000000

def maxTraversalDepth : ℕ := 1024

def maxTraversalResults : ℕ := 1000000

def validateNonBlank (name value : String) : Except GraphComputeError Unit :=
  if Text.isBlank Text.isWhitespace value then .error ⟨s!"{name} must not be blank"⟩ else .ok ()

def validateBounds (maxDepth maxResults : ℕ) : Except GraphComputeError Unit :=
  if maxTraversalDepth < maxDepth then .error ⟨s!"max_depth exceeds the {maxTraversalDepth} hop limit"⟩
  else if maxResults = 0 ∨ maxTraversalResults < maxResults then
    .error ⟨s!"max_results must be between 1 and {maxTraversalResults}"⟩
  else .ok ()

def GraphTraversalRequest.validate (request : GraphTraversalRequest) : Except GraphComputeError Unit := do
  validateNonBlank "traversal request_id" request.requestId
  validateNonBlank "traversal start_note_id" request.startNoteId
  validateBounds request.maxDepth request.maxResults

def GraphLineageRequest.validate (request : GraphLineageRequest) : Except GraphComputeError Unit := do
  validateNonBlank "lineage request_id" request.requestId
  validateNonBlank "lineage note_id" request.noteId
  validateBounds request.maxDepth request.maxResults

/-- The exponent bits of a float that is an infinity or no number are all set. -/
def isFinite (bits : BitVec 64) : Bool := (bits >>> 52) &&& 0x7ff ≠ 0x7ff

def validateNote (note : GraphSourceNote) : Except GraphComputeError Unit := do
  validateNonBlank "note_id" note.noteId
  validateNonBlank "relative_path" note.relativePath

def validateEdge (edge : GraphSourceEdge) : Except GraphComputeError Unit := do
  validateNonBlank "edge_id" edge.edgeId
  validateNonBlank "source_note_id" edge.sourceNoteId
  validateNonBlank "target_path" edge.targetPath
  validateNonBlank "relation" edge.relation
  validateNonBlank "source_kind" edge.sourceKind
  if isFinite edge.confidence then .ok () else .error ⟨s!"edge {edge.edgeId} confidence must be finite"⟩

def validateSource (notes : List GraphSourceNote) (edges : List GraphSourceEdge) : Except GraphComputeError Unit := do
  notes.forM validateNote
  edges.forM validateEdge

structure GraphComputeInput where
  sourceNotes : List GraphSourceNote
  sourceEdges : List GraphSourceEdge
  previousProjection : Option GraphProjection
  batchSize : ℕ
  traversalRequests : List GraphTraversalRequest
  lineageRequests : List GraphLineageRequest

def GraphComputeInput.validate (input : GraphComputeInput) : Except GraphComputeError Unit :=
  if maxSourceNotes < input.sourceNotes.length then
    .error ⟨s!"source note count exceeds the {maxSourceNotes} item limit"⟩
  else if maxSourceEdges < input.sourceEdges.length then
    .error ⟨s!"source edge count exceeds the {maxSourceEdges} item limit"⟩
  else if input.batchSize = 0 ∨ maxBatchSize < input.batchSize then
    .error ⟨s!"batch_size must be between 1 and {maxBatchSize}"⟩
  else if maxRequests < input.traversalRequests.length + input.lineageRequests.length then
    .error ⟨s!"graph request count exceeds the {maxRequests} item limit"⟩
  else do
    validateSource input.sourceNotes input.sourceEdges
    input.traversalRequests.forM (·.validate)
    input.lineageRequests.forM (·.validate)

/-- `GraphComputeRequest`: an input that the constructor took. -/
structure GraphComputeRequest extends GraphComputeInput where
  valid : toGraphComputeInput.validate = .ok ()

def GraphComputeRequest.new (input : GraphComputeInput) : Except GraphComputeError GraphComputeRequest :=
  match h : input.validate with
  | .ok () => .ok ⟨input, h⟩
  | .error e => .error e

/-! ## The index of a projection -/

section Index
variable (projection : GraphProjection)

abbrev NodeIndex : Type := Fin projection.nodes.length

def nodeId (i : NodeIndex projection) : String := (projection.nodes.get i).noteId

def nodeLookup (id : String) : Option (NodeIndex projection) :=
  (List.finRange projection.nodes.length).find? fun i => nodeId projection i = id

structure IndexedEdge where
  source : NodeIndex projection
  target : NodeIndex projection
  edge : GraphProjectionEdge

structure IndexedNeighbor where
  nodeIndex : NodeIndex projection
  edge : GraphProjectionEdge

def indexEdge (edge : GraphProjectionEdge) : Except GraphComputeError (IndexedEdge projection) :=
  match nodeLookup projection edge.sourceNoteId with
  | none => .error ⟨s!"projected edge {edge.edgeId} has a missing source node {edge.sourceNoteId}"⟩
  | some source =>
    match nodeLookup projection edge.targetNoteId with
    | none => .error ⟨s!"projected edge {edge.edgeId} has a missing target node {edge.targetNoteId}"⟩
    | some target => .ok ⟨source, target, edge⟩

/-- `GraphIndex`: the projected edges between node indices, in the order of the projection. -/
structure GraphIndex where
  links : List (IndexedEdge projection)

def GraphIndex.new : Except GraphComputeError (GraphIndex projection) :=
  match Keyed.firstRepeated (projection.nodes.map (·.noteId)) with
  | some id => .error ⟨s!"projected node identity is duplicated: {id}"⟩
  | none => (projection.edges.mapM (indexEdge projection)).map fun links => ⟨links⟩

variable {projection}

def neighborSortKey (neighbor : IndexedNeighbor projection) : String ×ₗ String :=
  toLex (nodeId projection neighbor.nodeIndex, neighbor.edge.edgeId)

def sortedNeighbors (neighbors : List (IndexedNeighbor projection)) : List (IndexedNeighbor projection) :=
  neighbors.insertionSort fun left right => neighborSortKey left ≤ neighborSortKey right

namespace GraphIndex
variable (index : GraphIndex projection)

def outgoing (node : NodeIndex projection) : List (IndexedNeighbor projection) :=
  sortedNeighbors ((index.links.filter fun link => link.source = node).map fun link => ⟨link.target, link.edge⟩)

def incoming (node : NodeIndex projection) : List (IndexedNeighbor projection) :=
  sortedNeighbors ((index.links.filter fun link => link.target = node).map fun link => ⟨link.source, link.edge⟩)

def selfLoop (node : NodeIndex projection) : Bool :=
  index.links.any fun link => link.source = node && link.target = node

end GraphIndex
end Index

/-! ## Adjacency, orphans and cycles -/

structure GraphAdjacency where
  noteId : String
  outgoing : List String
  incoming : List String
deriving DecidableEq

structure GraphCycleComponent where
  noteIds : List String
  selfLoop : Bool
deriving DecidableEq

/-- `kosaraju_scc` of the graph library: the components of a graph over the first numbers. -/
abbrev ComponentFinder : Type := (size : ℕ) → List (Fin size × Fin size) → List (List (Fin size))

def sortedIds (ids : List String) : List String := ids.insertionSort (· ≤ ·)

section Analysis
variable {projection : GraphProjection}

def distinctNeighborIds (neighbors : List (IndexedNeighbor projection)) : List String :=
  sortedIds (neighbors.map fun neighbor => nodeId projection neighbor.nodeIndex).dedup

namespace GraphIndex
variable (index : GraphIndex projection)

def adjacency : List GraphAdjacency :=
  (List.finRange projection.nodes.length).map fun i =>
    ⟨nodeId projection i, distinctNeighborIds (index.outgoing i), distinctNeighborIds (index.incoming i)⟩

def orphanNoteIds : List String :=
  ((List.finRange projection.nodes.length).filter fun i =>
    (index.outgoing i).isEmpty && (index.incoming i).isEmpty).map (nodeId projection)

/-- One strongly connected component: a cycle when it has several nodes or a loop at its only one. -/
def cycleComponent (component : List (NodeIndex projection)) : Option GraphCycleComponent :=
  let indices := component.insertionSort (· ≤ ·)
  let selfLoop : Bool := match indices with
    | [only] => index.selfLoop only
    | _ => false
  if 1 < indices.length ∨ selfLoop = true then some ⟨sortedIds (indices.map (nodeId projection)), selfLoop⟩ else none

def cycles (kosarajuScc : ComponentFinder) : List GraphCycleComponent :=
  ((kosarajuScc projection.nodes.length (index.links.map fun link => (link.source, link.target))).filterMap
    index.cycleComponent).insertionSort fun left right => left.noteIds ≤ right.noteIds

end GraphIndex
end Analysis

/-! ## Traversal -/

structure GraphTraversalVisit where
  noteId : String
  depth : ℕ
deriving DecidableEq

structure GraphTraversalResult where
  requestId : String
  startNoteId : String
  startFound : Bool
  visits : List GraphTraversalVisit
  truncated : Bool
deriving DecidableEq

structure GraphLineageResult where
  requestId : String
  noteId : String
  noteFound : Bool
  supersedes : List GraphTraversalVisit
  supersededBy : List GraphTraversalVisit
  truncated : Bool
deriving DecidableEq

structure TraversalSpec where
  startNoteId : String
  direction : TraversalDirection
  relations : List String
  maxDepth : ℕ
  maxResults : ℕ

structure TraversalState where
  startFound : Bool
  visits : List GraphTraversalVisit
  truncated : Bool
deriving DecidableEq

section Traversal
variable {projection : GraphProjection}

/-- The nodes seen so far, and those waiting with their depths. -/
structure Frontier (projection : GraphProjection) where
  visited : Finset (NodeIndex projection)
  queue : List (NodeIndex projection × ℕ)

/-- A node that was not seen yet is seen, and waits at the end. -/
def Frontier.enqueue (depth : ℕ) (frontier : Frontier projection) (neighbor : NodeIndex projection) :
    Frontier projection :=
  if neighbor ∈ frontier.visited then frontier
  else ⟨insert neighbor frontier.visited, frontier.queue ++ [(neighbor, depth)]⟩

/-- The nodes that may still be visited. -/
def Frontier.pending (frontier : Frontier projection) : ℕ :=
  projection.nodes.length - frontier.visited.card + frontier.queue.length

theorem Frontier.pending_enqueue (depth : ℕ) (frontier : Frontier projection) (neighbor : NodeIndex projection) :
    (frontier.enqueue depth neighbor).pending = frontier.pending := by
  unfold enqueue pending
  split
  · rfl
  · rename_i hnew
    have hcard := Finset.card_insert_of_notMem hnew
    have hle : (insert neighbor frontier.visited).card ≤ projection.nodes.length :=
      (Finset.card_le_univ _).trans_eq (Fintype.card_fin _)
    simp only [List.length_append, List.length_singleton]
    omega

theorem Frontier.pending_foldl (depth : ℕ) (neighbors : List (NodeIndex projection)) (frontier : Frontier projection) :
    (neighbors.foldl (enqueue depth) frontier).pending = frontier.pending := by
  induction neighbors generalizing frontier with
  | nil => rfl
  | cons neighbor neighbors ih => rw [List.foldl_cons, ih, pending_enqueue]

namespace GraphIndex
variable (index : GraphIndex projection)

/-- An empty filter takes every relation. -/
def filteredNeighbors (relations : List String) (candidates : List (IndexedNeighbor projection)) :
    List (NodeIndex projection) :=
  (candidates.filter fun candidate => relations.isEmpty || candidate.edge.relation ∈ relations).map (·.nodeIndex)

def neighbors (current : NodeIndex projection) (spec : TraversalSpec) : List (NodeIndex projection) :=
  let forward := if spec.direction = .incoming then [] else filteredNeighbors spec.relations (index.outgoing current)
  let backward := if spec.direction = .outgoing then [] else filteredNeighbors spec.relations (index.incoming current)
  (((forward ++ backward).dedup.insertionSort (· ≤ ·)).insertionSort fun left right =>
    nodeId projection left ≤ nodeId projection right)

def hasUnvisitedNeighbor (current : NodeIndex projection) (visited : Finset (NodeIndex projection))
    (spec : TraversalSpec) : Bool := (index.neighbors current spec).any fun neighbor => neighbor ∉ visited

/-- The loop of `traverse`. -/
def traverseLoop (spec : TraversalSpec) (frontier : Frontier projection) (visits : List GraphTraversalVisit)
    (truncated : Bool) : TraversalState :=
  match hqueue : frontier.queue with
  | [] => ⟨true, visits, truncated⟩
  | (current, depth) :: queue =>
    let visits := visits ++ [⟨nodeId projection current, depth⟩]
    let unvisited := index.hasUnvisitedNeighbor current frontier.visited spec
    if spec.maxResults ≤ visits.length then ⟨true, visits, !queue.isEmpty || unvisited⟩
    else if spec.maxDepth ≤ depth then
      traverseLoop spec ⟨frontier.visited, queue⟩ visits (truncated || unvisited)
    else
      traverseLoop spec ((index.neighbors current spec).foldl (Frontier.enqueue (depth + 1)) ⟨frontier.visited, queue⟩)
        visits truncated
termination_by frontier.pending
decreasing_by
  · simp only [Frontier.pending, hqueue, List.length_cons]
    omega
  · rw [Frontier.pending_foldl]
    simp only [Frontier.pending, hqueue, List.length_cons]
    omega

def traverse (spec : TraversalSpec) : TraversalState :=
  match nodeLookup projection spec.startNoteId with
  | none => ⟨false, [], false⟩
  | some start => index.traverseLoop spec ⟨{start}, [(start, 0)]⟩ [] false

def traverseRequest (request : GraphTraversalRequest) : GraphTraversalResult :=
  let traversal := index.traverse
    ⟨request.startNoteId, request.direction, request.relations, request.maxDepth, request.maxResults⟩
  ⟨request.requestId, request.startNoteId, traversal.startFound, traversal.visits, traversal.truncated⟩

def withoutStart (visits : List GraphTraversalVisit) (startNoteId : String) (maxResults : ℕ) :
    List GraphTraversalVisit := (visits.filter fun visit => visit.noteId ≠ startNoteId).take maxResults

def lineageRequest (request : GraphLineageRequest) : GraphLineageResult :=
  let supersedes := index.traverse
    ⟨request.noteId, .outgoing, ["supersedes"], request.maxDepth, request.maxResults + 1⟩
  let supersededBy := index.traverse
    ⟨request.noteId, .incoming, ["supersedes"], request.maxDepth, request.maxResults + 1⟩
  { requestId := request.requestId
    noteId := request.noteId
    noteFound := supersedes.startFound || supersededBy.startFound
    supersedes := withoutStart supersedes.visits request.noteId request.maxResults
    supersededBy := withoutStart supersededBy.visits request.noteId request.maxResults
    truncated := supersedes.truncated || supersededBy.truncated }

end GraphIndex
end Traversal

/-! ## Difference to an earlier projection -/

structure GraphProjectionDiff where
  addedNodeIds : List String
  removedNodeIds : List String
  updatedNodeIds : List String
  addedEdgeIds : List String
  removedEdgeIds : List String
  updatedEdgeIds : List String
deriving DecidableEq

section Diff
variable {α : Type} (ident : α → String)

/-- The value that a map collected from the list holds for a key. -/
def lastWith (items : List α) (id : String) : Option α := items.reverse.find? fun item => ident item = id

/-- The keys of the map, in order. -/
def mapKeys (items : List α) : List String := sortedIds (items.map ident).dedup

def differenceKeys (left right : List α) : List String :=
  (mapKeys ident left).filter fun id => (lastWith ident right id).isNone

def updatedKeys (same : α → α → Bool) (previous current : List α) : List String :=
  (mapKeys ident current).filter fun id =>
    match lastWith ident previous id, lastWith ident current id with
    | some old, some new => !same old new
    | _, _ => false

end Diff

def edgeEqual (left right : GraphProjectionEdge) : Bool :=
  left.edgeId = right.edgeId && left.sourceNoteId = right.sourceNoteId && left.sourcePath = right.sourcePath &&
    left.targetNoteId = right.targetNoteId && left.targetPath = right.targetPath && left.relation = right.relation &&
    left.confidence = right.confidence && left.sourceKind = right.sourceKind

def projectionDiff (previous : Option GraphProjection) (current : GraphProjection) : GraphProjectionDiff :=
  let previous := previous.getD ⟨[], []⟩
  { addedNodeIds := differenceKeys (·.noteId) current.nodes previous.nodes
    removedNodeIds := differenceKeys (·.noteId) previous.nodes current.nodes
    updatedNodeIds := updatedKeys (·.noteId) (fun old new => decide (old = new)) previous.nodes current.nodes
    addedEdgeIds := differenceKeys (·.edgeId) current.edges previous.edges
    removedEdgeIds := differenceKeys (·.edgeId) previous.edges current.edges
    updatedEdgeIds := updatedKeys (·.edgeId) edgeEqual previous.edges current.edges }

/-! ## The whole computation -/

structure GraphAnalysis where
  adjacency : List GraphAdjacency
  orphanNoteIds : List String
  cycles : List GraphCycleComponent
  traversals : List GraphTraversalResult
  lineages : List GraphLineageResult
  diff : GraphProjectionDiff
deriving DecidableEq

structure GraphComputeResult extends ProjectionBuildResult where
  analysis : GraphAnalysis
deriving DecidableEq

section Compute
variable (U : UnicodeTables) (kosarajuScc : ComponentFinder)

def analyzeProjection (projection : GraphProjection) (previous : Option GraphProjection)
    (traversals : List GraphTraversalRequest) (lineages : List GraphLineageRequest) :
    Except GraphComputeError GraphAnalysis :=
  (GraphIndex.new projection).map fun index =>
    { adjacency := index.adjacency
      orphanNoteIds := index.orphanNoteIds
      cycles := index.cycles kosarajuScc
      traversals := traversals.map index.traverseRequest
      lineages := lineages.map index.lineageRequest
      diff := projectionDiff previous projection }

end Compute

theorem GraphComputeRequest.batchSize_pos (request : GraphComputeRequest) : 0 < request.batchSize := by
  by_contra h
  have hzero : request.batchSize = 0 := by omega
  have hvalid := request.valid
  unfold GraphComputeInput.validate at hvalid
  split_ifs at hvalid
  omega

section Compute
variable (U : UnicodeTables) (kosarajuScc : ComponentFinder)

def GraphComputeRequest.build (request : GraphComputeRequest) : ProjectionBuildResult :=
  buildProjection U request.sourceNotes request.sourceEdges ⟨request.batchSize, request.batchSize_pos⟩

def computeGraph (request : GraphComputeRequest) : Except GraphComputeError GraphComputeResult :=
  let result := request.build U
  (analyzeProjection kosarajuScc result.projection request.previousProjection request.traversalRequests
    request.lineageRequests).map fun analysis => ⟨result, analysis⟩

end Compute

end Alexandria.Compile
