import Alexandria.Compile.Resolution
import Alexandria.Foundations.Keyed
import Mathlib.Data.List.Destutter
import Mathlib.Data.Prod.Lex
import Mathlib.Order.WithBot
import Mathlib.Data.PNat.Defs

/-! # The graph projection

`build_projection` of `graph_compute/projection.rs`: notes and edges are put in order and stripped of
repeated ids, the healthy notes become nodes, and every edge whose source is healthy becomes a projected
edge or an issue. A confidence is the 64 bits of the source's float: it is ordered by them and copied.
-/

namespace Alexandria.Compile
set_option autoImplicit false

structure GraphSourceEdge where
  edgeId : String
  sourceNoteId : String
  sourcePath : String
  targetNoteId : Option String
  targetPath : String
  relation : String
  confidence : BitVec 64
  sourceKind : String
deriving DecidableEq

structure GraphProjectionNode where
  noteId : String
  relativePath : String
  alexandriaType : String
  title : String
  status : String
  project : Option String
deriving DecidableEq

structure GraphProjectionEdge where
  edgeId : String
  sourceNoteId : String
  sourcePath : String
  targetNoteId : String
  targetPath : String
  relation : String
  confidence : BitVec 64
  sourceKind : String
deriving DecidableEq

structure GraphProjection where
  nodes : List GraphProjectionNode
  edges : List GraphProjectionEdge
deriving DecidableEq

inductive GraphProjectionIssueCode
  | indexError
  | missingTargetNote
  | ambiguousTargetNote
deriving DecidableEq

def GraphProjectionIssueCode.asStr : GraphProjectionIssueCode → String
  | .indexError => "index_error"
  | .missingTargetNote => "missing_target_note"
  | .ambiguousTargetNote => "ambiguous_target_note"

structure GraphProjectionIssue where
  code : GraphProjectionIssueCode
  relativePath : String
  noteId : Option String
  edgeId : Option String
  detail : String
deriving DecidableEq

structure GraphProjectionMetrics where
  scanned : ℕ
  indexed : ℕ
  updated : ℕ
  skipped : ℕ
  errors : ℕ
deriving DecidableEq

structure GraphProjectionBatch where
  batchIndex : ℕ
  projection : GraphProjection
deriving DecidableEq

structure AmbiguousLinkName where
  normalizedName : String
  candidatePaths : List String
deriving DecidableEq

structure GraphStructuralDiagnostics where
  duplicateNoteIds : List String
  duplicateEdgeIds : List String
  ambiguousLinkNames : List AmbiguousLinkName
deriving DecidableEq

structure ProjectionBuildResult where
  projection : GraphProjection
  batches : List GraphProjectionBatch
  issues : List GraphProjectionIssue
  metrics : GraphProjectionMetrics
  structuralDiagnostics : GraphStructuralDiagnostics
deriving DecidableEq

/-! ## One order for notes and for edges -/

def indexStatusRank : GraphIndexStatus → ℕ
  | .indexed => 0
  | .stale => 1
  | .error => 2

/-- A missing project sorts before every project. -/
def noteSortKey (note : GraphSourceNote) : String ×ₗ String ×ₗ String ×ₗ String ×ₗ WithBot String ×ₗ ℕ :=
  toLex (note.noteId, toLex (note.relativePath, toLex (note.title, toLex (note.status,
    toLex ((note.project : WithBot String), indexStatusRank note.indexStatus)))))

def edgeSortKey (edge : GraphSourceEdge) :
    String ×ₗ String ×ₗ String ×ₗ String ×ₗ String ×ₗ String ×ₗ ℕ :=
  toLex (edge.edgeId, toLex (edge.sourceNoteId, toLex (edge.targetNoteId.getD "", toLex (edge.targetPath,
    toLex (edge.relation, toLex (edge.sourceKind, edge.confidence.toNat))))))

/-- Of neighbours with one id the first is kept. -/
def canonicalNotes (notes : List GraphSourceNote) : List GraphSourceNote :=
  (notes.insertionSort fun left right => noteSortKey left ≤ noteSortKey right).destutter
    fun left right => left.noteId ≠ right.noteId

def canonicalEdges (edges : List GraphSourceEdge) : List GraphSourceEdge :=
  (edges.insertionSort fun left right => edgeSortKey left ≤ edgeSortKey right).destutter
    fun left right => left.edgeId ≠ right.edgeId

def indexedNotes (notes : List GraphSourceNote) : List GraphSourceNote :=
  notes.filter fun note => note.indexStatus = .indexed

/-! ## Edges and issues -/

def projectionNode (note : GraphSourceNote) : GraphProjectionNode where
  noteId := note.noteId
  relativePath := note.relativePath
  alexandriaType := note.alexandriaType
  title := note.title
  status := note.status
  project := note.project

def GraphSourceEdge.projected (edge : GraphSourceEdge) (source target : GraphSourceNote) : GraphProjectionEdge where
  edgeId := edge.edgeId
  sourceNoteId := edge.sourceNoteId
  sourcePath := source.relativePath
  targetNoteId := target.noteId
  targetPath := target.relativePath
  relation := edge.relation
  confidence := edge.confidence
  sourceKind := edge.sourceKind

def targetIssue (edge : GraphSourceEdge) (ambiguous : Bool) : GraphProjectionIssue where
  code := if ambiguous then .ambiguousTargetNote else .missingTargetNote
  relativePath := edge.targetPath
  noteId := some edge.sourceNoteId
  edgeId := some edge.edgeId
  detail :=
    if ambiguous then "edge target matches multiple healthy Obsidian notes"
    else "edge target is absent from the healthy Obsidian index"

def indexErrorIssues (notes : List GraphSourceNote) : List GraphProjectionIssue :=
  (notes.filter fun note => note.indexStatus = .error).map fun note =>
    ⟨.indexError, note.relativePath, some note.noteId, none, "indexed note is in error state"⟩

def issueSortKey (issue : GraphProjectionIssue) : String ×ₗ String ×ₗ String :=
  toLex (issue.code.asStr, toLex (issue.relativePath, (issue.edgeId.or issue.noteId).getD ""))

section Projection
variable (U : UnicodeTables)

/-- `resolve_target`: the same three lookups as `resolve_target_reference`, written out once more there. -/
def resolveTarget (edge : GraphSourceEdge) (notes : List GraphSourceNote) : TargetResolution :=
  resolveTargetReference U edge.targetNoteId edge.targetPath notes

/-- What one edge contributes: nothing when its source is not healthy. -/
def projectEdge (notes : List GraphSourceNote) (edge : GraphSourceEdge) :
    Option (GraphProjectionEdge ⊕ GraphProjectionIssue) :=
  (noteById notes edge.sourceNoteId).map fun source =>
    match resolveTarget U edge notes with
    | .resolved target => .inl (edge.projected source target)
    | .ambiguous => .inr (targetIssue edge true)
    | .missing => .inr (targetIssue edge false)

structure ProjectionEdgeResult where
  edges : List GraphProjectionEdge
  issues : List GraphProjectionIssue

def projectionEdges (edges : List GraphSourceEdge) (notes : List GraphSourceNote) : ProjectionEdgeResult :=
  let outcomes := edges.filterMap (projectEdge U notes)
  ⟨outcomes.filterMap Sum.getLeft?, outcomes.filterMap Sum.getRight?⟩

/-! ## Batches and structural diagnostics -/

def batchCount (itemCount : ℕ) (batchSize : ℕ+) : ℕ := (itemCount + (batchSize - 1)) / batchSize

def projectionBatches (projection : GraphProjection) (batchSize : ℕ+) : List GraphProjectionBatch :=
  (List.range (max (batchCount projection.nodes.length batchSize) (batchCount projection.edges.length batchSize))).map
    fun batchIndex =>
      ⟨batchIndex, (projection.nodes.drop (batchIndex * batchSize)).take batchSize,
        (projection.edges.drop (batchIndex * batchSize)).take batchSize⟩

def duplicateValues (values : List String) : List String :=
  (values.dedup.filter fun value => 1 < values.count value).insertionSort (· ≤ ·)

def ambiguousLinkNames (notes : List GraphSourceNote) : List AmbiguousLinkName :=
  ((notes.flatMap (noteLinkNames U)).dedup.insertionSort (· ≤ ·)).filterMap fun name =>
    let candidates := notesByLinkName U notes name
    if 1 < candidates.length then some ⟨name, candidates.map (·.relativePath)⟩ else none

def buildProjection (sourceNotes : List GraphSourceNote) (sourceEdges : List GraphSourceEdge) (batchSize : ℕ+) :
    ProjectionBuildResult :=
  let scanned := sourceNotes.length + sourceEdges.length
  let notes := indexedNotes (canonicalNotes sourceNotes)
  let edgeResult := projectionEdges U (canonicalEdges sourceEdges) notes
  let issues := (indexErrorIssues sourceNotes ++ edgeResult.issues).insertionSort
    fun left right => issueSortKey left ≤ issueSortKey right
  let projection : GraphProjection := ⟨notes.map projectionNode, edgeResult.edges⟩
  let indexed := projection.nodes.length + projection.edges.length
  { projection, issues
    batches := projectionBatches projection batchSize
    metrics := ⟨scanned, indexed, 0, scanned - indexed, issues.length⟩
    structuralDiagnostics :=
      ⟨duplicateValues (sourceNotes.map (·.noteId)), duplicateValues (sourceEdges.map (·.edgeId)),
        ambiguousLinkNames U notes⟩ }

end Projection

/-! ## Order and repetition do not matter where ids are distinct -/

theorem destutter_eq_self {α : Type} (key : α → String) {xs : List α} (h : (xs.map key).Nodup) :
    xs.destutter (fun a b => key a ≠ key b) = xs := by
  have distinct : xs.Pairwise fun a b => key a ≠ key b := List.pairwise_map.mp h
  exact (List.destutter_eq_self_iff _ _).mpr distinct.isChain

theorem canonicalNotes_perm {notes : List GraphSourceNote} (h : (notes.map (·.noteId)).Nodup) :
    (canonicalNotes notes).Perm notes := by
  have sorted := notes.perm_insertionSort fun left right => noteSortKey left ≤ noteSortKey right
  rw [canonicalNotes, destutter_eq_self (·.noteId) ((sorted.map _).nodup_iff.mpr h)]
  exact sorted

theorem canonicalEdges_perm {edges : List GraphSourceEdge} (h : (edges.map (·.edgeId)).Nodup) :
    (canonicalEdges edges).Perm edges := by
  have sorted := edges.perm_insertionSort fun left right => edgeSortKey left ≤ edgeSortKey right
  rw [canonicalEdges, destutter_eq_self (·.edgeId) ((sorted.map _).nodup_iff.mpr h)]
  exact sorted

section Permuted
variable {U : UnicodeTables} {notes others : List GraphSourceNote}

theorem noteById_eq_some (h : (notes.map (·.noteId)).Nodup) {id : String} {note : GraphSourceNote} :
    noteById notes id = some note ↔ note ∈ notes ∧ note.noteId = id := by
  have reversed : (notes.reverse.map (·.noteId)).Nodup := by simpa using h
  simpa [noteById, Keyed.lookup] using Keyed.lookup_eq_some (k := id) (x := note) reversed

theorem noteById_perm (hperm : notes.Perm others) (h : (notes.map (·.noteId)).Nodup) (id : String) :
    noteById notes id = noteById others id := by
  have h' := (hperm.map (·.noteId)).nodup_iff.mp h
  ext note
  rw [noteById_eq_some h, noteById_eq_some h', hperm.mem_iff]

theorem sortedByPath_perm (notes : List GraphSourceNote) : (sortedByPath notes).Perm notes :=
  notes.perm_insertionSort _

theorem notesByPath_perm (hperm : notes.Perm others) (key : String) :
    (notesByPath U notes key).Perm (notesByPath U others key) :=
  ((sortedByPath_perm _).trans (hperm.filter _)).trans (sortedByPath_perm _).symm

theorem notesByLinkName_perm (hperm : notes.Perm others) (name : String) :
    (notesByLinkName U notes name).Perm (notesByLinkName U others name) :=
  ((sortedByPath_perm _).trans (hperm.filter _)).trans (sortedByPath_perm _).symm

/-- A choice that looks at a candidate only when it is the only one. -/
def chooseOne {α : Type} (one : GraphSourceNote → α) (none many : α) : List GraphSourceNote → α
  | [note] => one note
  | [] => none
  | _ => many

theorem chooseOne_perm {α : Type} {candidates candidates' : List GraphSourceNote} (hperm : candidates.Perm candidates')
    (one : GraphSourceNote → α) (none many : α) :
    chooseOne one none many candidates = chooseOne one none many candidates' := by
  have length := hperm.length_eq
  rcases candidates with - | ⟨a, - | ⟨b, rest⟩⟩
  · rw [List.nil_perm.mp hperm]
  · rw [List.singleton_perm.mp hperm]
  · rcases candidates' with - | ⟨a', - | ⟨b', rest'⟩⟩ <;> simp_all [chooseOne]

theorem chooseOne_map {α β : Type} (f : GraphSourceNote → GraphSourceNote) (g : α → β)
    {one : GraphSourceNote → α} {one' : GraphSourceNote → β} (hone : ∀ note, one' (f note) = g (one note)) (none many : α)
    (candidates : List GraphSourceNote) :
    chooseOne one' (g none) (g many) (candidates.map f) = g (chooseOne one none many candidates) := by
  rcases candidates with - | ⟨a, - | ⟨b, rest⟩⟩ <;> simp [chooseOne, hone]

theorem resolveByLinkName_cons (name : String) (names : List String) :
    resolveByLinkName U notes (name :: names) =
      chooseOne .resolved (resolveByLinkName U notes names) .ambiguous (notesByLinkName U notes name) := by
  rw [resolveByLinkName]
  rcases notesByLinkName U notes name with - | ⟨a, - | ⟨b, rest⟩⟩ <;> rfl

theorem resolveTargetReference_eq (targetNoteId : Option String) (targetPath : String) :
    resolveTargetReference U targetNoteId targetPath notes =
      ((targetNoteId.bind (noteById notes)).map TargetResolution.resolved).getD
        (chooseOne .resolved (resolveByLinkName U notes (candidateLinkNames U targetPath)) .ambiguous
          (notesByPath U notes (canonicalPathKey U targetPath))) := by
  rw [resolveTargetReference]
  cases targetNoteId.bind (noteById notes) with
  | some note => rfl
  | none => rcases notesByPath U notes (canonicalPathKey U targetPath) with - | ⟨a, - | ⟨b, rest⟩⟩ <;> rfl

theorem resolveByLinkName_perm (hperm : notes.Perm others) (names : List String) :
    resolveByLinkName U notes names = resolveByLinkName U others names := by
  induction names with
  | nil => rfl
  | cons name names ih =>
    rw [resolveByLinkName_cons, resolveByLinkName_cons, ih, chooseOne_perm (notesByLinkName_perm hperm name)]

theorem resolveTargetReference_perm (hperm : notes.Perm others) (h : (notes.map (·.noteId)).Nodup)
    (targetNoteId : Option String) (targetPath : String) :
    resolveTargetReference U targetNoteId targetPath notes = resolveTargetReference U targetNoteId targetPath others := by
  have byId : targetNoteId.bind (noteById notes) = targetNoteId.bind (noteById others) := by
    cases targetNoteId with
    | none => rfl
    | some id => exact noteById_perm hperm h id
  rw [resolveTargetReference_eq, resolveTargetReference_eq, byId, resolveByLinkName_perm hperm,
    chooseOne_perm (notesByPath_perm hperm _)]

end Permuted

/-! ## Which edges are projected -/

section Projected
variable {U : UnicodeTables} {notes : List GraphSourceNote} {edges : List GraphSourceEdge} {batchSize : ℕ+}
  {edge : GraphSourceEdge}

/-- The healthy notes of a list with distinct ids, in the order the projection works in. -/
theorem indexedNotes_canonical (h : (notes.map (·.noteId)).Nodup) :
    (indexedNotes (canonicalNotes notes)).Perm (indexedNotes notes) := (canonicalNotes_perm h).filter _

theorem indexedNotes_nodup (h : (notes.map (·.noteId)).Nodup) : ((indexedNotes notes).map (·.noteId)).Nodup :=
  (List.filter_sublist.map _).nodup h

/-- What an edge contributes depends on the healthy notes of the source only. -/
theorem projectEdge_canonical (h : (notes.map (·.noteId)).Nodup) (edge : GraphSourceEdge) :
    projectEdge U (indexedNotes (canonicalNotes notes)) edge = projectEdge U (indexedNotes notes) edge := by
  have hperm := indexedNotes_canonical h
  have nodup := (hperm.map (·.noteId)).nodup_iff.mpr (indexedNotes_nodup h)
  simp only [projectEdge, resolveTarget, resolveTargetReference_perm hperm nodup, noteById_perm hperm nodup]

theorem mem_projected (hnotes : (notes.map (·.noteId)).Nodup) (hedges : (edges.map (·.edgeId)).Nodup)
    {projected : GraphProjectionEdge} :
    projected ∈ (buildProjection U notes edges batchSize).projection.edges ↔
      ∃ edge ∈ edges, projectEdge U (indexedNotes notes) edge = some (.inl projected) := by
  simp [buildProjection, projectionEdges, List.mem_filterMap, projectEdge_canonical hnotes,
    (canonicalEdges_perm hedges).mem_iff, Sum.getLeft?_eq_some_iff]

theorem mem_issues (hnotes : (notes.map (·.noteId)).Nodup) (hedges : (edges.map (·.edgeId)).Nodup)
    {issue : GraphProjectionIssue} :
    issue ∈ (buildProjection U notes edges batchSize).issues ↔ issue ∈ indexErrorIssues notes ∨
      ∃ edge ∈ edges, projectEdge U (indexedNotes notes) edge = some (.inr issue) := by
  simp [buildProjection, projectionEdges, List.mem_filterMap, projectEdge_canonical hnotes,
    (canonicalEdges_perm hedges).mem_iff, Sum.getRight?_eq_some_iff]

theorem projectEdge_inl {projected : GraphProjectionEdge} :
    projectEdge U notes edge = some (.inl projected) ↔ ∃ source target, noteById notes edge.sourceNoteId = some source ∧
      resolveTarget U edge notes = .resolved target ∧ projected = edge.projected source target := by
  unfold projectEdge
  cases noteById notes edge.sourceNoteId <;> cases resolveTarget U edge notes <;> simp [eq_comm]

theorem projectEdge_inr {issue : GraphProjectionIssue} :
    projectEdge U notes edge = some (.inr issue) ↔ ∃ source, noteById notes edge.sourceNoteId = some source ∧
      (resolveTarget U edge notes = .ambiguous ∧ issue = targetIssue edge true ∨
        resolveTarget U edge notes = .missing ∧ issue = targetIssue edge false) := by
  unfold projectEdge
  cases noteById notes edge.sourceNoteId <;> cases resolveTarget U edge notes <;> simp [eq_comm]

/-- The projection holds an edge from this source edge to the note with the id. -/
def ProjectsTo (result : ProjectionBuildResult) (edge : GraphSourceEdge) (target : String) : Prop :=
  ∃ projected ∈ result.projection.edges, projected.edgeId = edge.edgeId ∧ projected.targetNoteId = target

/-- The projection reports the target of this source edge as ambiguous. -/
def ReportsAmbiguous (result : ProjectionBuildResult) (edge : GraphSourceEdge) : Prop :=
  ∃ issue ∈ result.issues, issue.code = .ambiguousTargetNote ∧ issue.edgeId = some edge.edgeId

variable (hnotes : (notes.map (·.noteId)).Nodup) (hedges : (edges.map (·.edgeId)).Nodup) (hedge : edge ∈ edges)
  (hsource : ∃ source, noteById (indexedNotes notes) edge.sourceNoteId = some source)
include hnotes hedges hedge hsource

theorem projectsTo_iff {target : String} : ProjectsTo (buildProjection U notes edges batchSize) edge target ↔
    ∃ note, resolveTarget U edge (indexedNotes notes) = .resolved note ∧ note.noteId = target := by
  constructor
  · rintro ⟨projected, hmem, hid, rfl⟩
    obtain ⟨other, hother, hproj⟩ := (mem_projected hnotes hedges).mp hmem
    obtain ⟨source, note, -, hres, rfl⟩ := projectEdge_inl.mp hproj
    -- edge ids are distinct, so the projected edge comes from this one
    obtain rfl : other = edge := List.inj_on_of_nodup_map hedges hother hedge hid
    exact ⟨note, hres, rfl⟩
  · rintro ⟨note, hres, rfl⟩
    obtain ⟨source, hsource⟩ := hsource
    refine ⟨edge.projected source note, (mem_projected hnotes hedges).mpr ⟨edge, hedge, ?_⟩, rfl, rfl⟩
    exact projectEdge_inl.mpr ⟨source, note, hsource, hres, rfl⟩

theorem reportsAmbiguous_iff : ReportsAmbiguous (buildProjection U notes edges batchSize) edge ↔
    resolveTarget U edge (indexedNotes notes) = .ambiguous := by
  constructor
  · rintro ⟨issue, hmem, hcode, hid⟩
    rcases (mem_issues hnotes hedges).mp hmem with herror | ⟨other, hother, hproj⟩
    · obtain ⟨note, -, rfl⟩ := List.mem_map.mp herror
      simp at hcode
    · obtain ⟨source, -, ⟨hres, rfl⟩ | ⟨-, rfl⟩⟩ := projectEdge_inr.mp hproj
      · obtain rfl : other = edge := List.inj_on_of_nodup_map hedges hother hedge (by simpa [targetIssue] using hid)
        exact hres
      · simp [targetIssue] at hcode
  · intro hres
    obtain ⟨source, hsource⟩ := hsource
    refine ⟨targetIssue edge true, (mem_issues hnotes hedges).mpr (Or.inr ⟨edge, hedge, ?_⟩), rfl, rfl⟩
    exact projectEdge_inr.mpr ⟨source, hsource, Or.inl ⟨hres, rfl⟩⟩

end Projected

end Alexandria.Compile
