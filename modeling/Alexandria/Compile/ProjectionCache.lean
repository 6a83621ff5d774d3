import Alexandria.Compile.WellFormed
import Alexandria.Foundations.Run
import Mathlib.Algebra.BigOperators.Group.List.Lemmas
import Mathlib.Algebra.GroupWithZero.Nat

/-! # The cached projection

`PostgreSqlObsidianGraphProjectionRepository` and the tasks that use it. A rebuild reads the index, computes its projection and
writes it batch by batch into a staging area before it becomes the active state; a reader that finds no active state loads one
from the index. Tasks interleave between the methods of the repository, a task may fail or be cancelled at any of them, and the
index may have another content at every read.
-/

namespace Alexandria.Compile
set_option autoImplicit false

def projectionVersion : ℕ := 1

structure GraphProjectionIssueCount where
  code : GraphProjectionIssueCode
  count : ℕ
deriving DecidableEq

structure GraphProjectionState where
  runId : String
  projectionVersion : ℕ
  projection : GraphProjection
  issueTotal : ℕ
  issueCounts : List GraphProjectionIssueCount
deriving DecidableEq

/-- `_issue_counts`: a count for every code that occurs, in the order of the codes' values. -/
def issueCounts (issues : List GraphProjectionIssue) : List GraphProjectionIssueCount :=
  ((issues.map (·.code)).dedup.insertionSort fun left right => left.asStr ≤ right.asStr).map fun code =>
    ⟨code, (issues.map (·.code)).count code⟩

/-! ## The repository -/

structure ProjectionRepository where
  state : Option GraphProjectionState
  stagingRunId : Option String
  stagingVersion : Option ℕ
  stagingNodes : List GraphProjectionNode
  stagingEdges : List GraphProjectionEdge

namespace ProjectionRepository

def new : ProjectionRepository := ⟨none, none, none, [], []⟩

def clearStaging (r : ProjectionRepository) : ProjectionRepository :=
  { r with stagingRunId := none, stagingVersion := none, stagingNodes := [], stagingEdges := [] }

def requireStaging (r : ProjectionRepository) (runId : String) (version : ℕ) : Except String Unit :=
  if r.stagingRunId ≠ some runId ∨ r.stagingVersion ≠ some version then
    .error "graph projection rebuild is not active for this run"
  else .ok ()

def startRebuild (r : ProjectionRepository) (runId : String) (version : ℕ) : Except String ProjectionRepository :=
  if Text.pythonStrip runId = "" then .error "run_id must not be blank"
  else if version = 0 then .error "projection_version must be positive"
  else .ok { r with stagingRunId := some runId, stagingVersion := some version, stagingNodes := [], stagingEdges := [] }

def writeRebuildBatch (r : ProjectionRepository) (runId : String) (version : ℕ) (batch : GraphProjection) :
    Except String ProjectionRepository := do
  r.requireStaging runId version
  return { r with stagingNodes := r.stagingNodes ++ batch.nodes, stagingEdges := r.stagingEdges ++ batch.edges }

def completeRebuild (r : ProjectionRepository) (runId : String) (version : ℕ) (counts : List GraphProjectionIssueCount) :
    Except String ProjectionRepository := do
  r.requireStaging runId version
  return { r with
    state := some {
      runId := runId
      projectionVersion := version
      projection := ⟨r.stagingNodes.insertionSort fun a b => a.noteId ≤ b.noteId,
        r.stagingEdges.insertionSort fun a b => a.edgeId ≤ b.edgeId⟩
      issueTotal := (counts.map GraphProjectionIssueCount.count).sum
      issueCounts := counts } }.clearStaging

def abortRebuild (r : ProjectionRepository) (runId : String) : ProjectionRepository :=
  if r.stagingRunId = some runId then r.clearStaging else r

end ProjectionRepository

/-- What `_ensure_state` builds from a snapshot. -/
def loadedState (snapshot : ProjectionBuildResult) : GraphProjectionState where
  runId := "postgresql-current"
  projectionVersion := projectionVersion
  projection := snapshot.projection
  issueTotal := snapshot.issues.length
  issueCounts := issueCounts snapshot.issues

/-! ## The tasks -/

inductive RebuildStatus
  | completed
  | failed
deriving DecidableEq

structure RebuildReport where
  status : RebuildStatus
  runId : String
  scanned : ℕ
  indexed : ℕ
  updated : ℕ
  skipped : ℕ
  issueTotal : ℕ
  issueCounts : List GraphProjectionIssueCount
deriving DecidableEq

/-- The report of a rebuild that could not read the index. -/
def sourceFailure (runId : String) : RebuildReport := ⟨.failed, runId, 0, 0, 0, 0, 0, []⟩

def rebuildReport (status : RebuildStatus) (runId : String) (snapshot : ProjectionBuildResult) : RebuildReport where
  status := status
  runId := runId
  scanned := snapshot.metrics.scanned
  indexed := snapshot.metrics.indexed
  updated := if status = .completed then snapshot.metrics.indexed else 0
  skipped := snapshot.metrics.skipped
  issueTotal := snapshot.issues.length
  issueCounts := issueCounts snapshot.issues

inductive ProjectionPhase
  | idle
  | building (runId : String)
  | starting (runId : String) (snapshot : ProjectionBuildResult)
  | writing (runId : String) (snapshot : ProjectionBuildResult) (remaining : List GraphProjectionBatch)
  | aborting (runId : String) (snapshot : ProjectionBuildResult)
  | loading

/-- The content of the index at one read. -/
structure IndexContent where
  notes : List GraphSourceNote
  edges : List GraphSourceEdge

/-- One read of the index, and the run that has made it: none for a reader that loads. -/
structure IndexRead where
  runId : Option String
  content : IndexContent

structure ProjectionSystem (T : Type) where
  repository : ProjectionRepository
  phases : T → ProjectionPhase
  runIds : List String
  reads : List IndexRead
  activated : List GraphProjectionState
  returned : List GraphProjectionState
  reports : List RebuildReport

def ProjectionSystem.start (T : Type) : ProjectionSystem T := ⟨.new, fun _ => .idle, [], [], [], [], []⟩

inductive ProjectionLabel (T : Type)
  | rebuild (t : T) (runId : String)
  | built (t : T) (content : IndexContent)
  | buildFails (t : T)
  | start (t : T)
  | write (t : T)
  | complete (t : T)
  | raises (t : T)
  | abort (t : T)
  | read (t : T)
  | loaded (t : T) (content : IndexContent)
  | cancel (t : T)

section Machine
variable {T : Type} [DecidableEq T]

namespace ProjectionSystem

def goto (s : ProjectionSystem T) (t : T) (phase : ProjectionPhase) : ProjectionSystem T :=
  { s with phases := Function.update s.phases t phase }

/-- The task ends with a report. -/
def report (s : ProjectionSystem T) (t : T) (report : RebuildReport) : ProjectionSystem T :=
  { s.goto t .idle with reports := s.reports ++ [report] }

/-- A method of the repository: an exception is caught, and the rebuild aborted. -/
def attempt (s : ProjectionSystem T) (t : T) (runId : String) (snapshot : ProjectionBuildResult)
    (result : Except String ProjectionRepository) (next : ProjectionPhase) : ProjectionSystem T :=
  match result with
  | .ok repository => { s with repository }.goto t next
  | .error _ => s.goto t (.aborting runId snapshot)

end ProjectionSystem

variable (U : UnicodeTables) (rebuildBatchSize loadBatchSize : ℕ+)

def projectionStep (s : ProjectionSystem T) : ProjectionLabel T → Option (ProjectionSystem T)
  | .rebuild t runId =>
    match s.phases t with
    | .idle => some ({ s with runIds := s.runIds ++ [runId] }.goto t (.building runId))
    | _ => none
  | .built t content =>
    match s.phases t with
    | .building runId =>
      some ({ s with reads := s.reads ++ [IndexRead.mk (some runId) content] }.goto t
        (.starting runId (buildProjection U content.notes content.edges rebuildBatchSize)))
    | _ => none
  | .buildFails t =>
    match s.phases t with
    | .building runId => some (s.report t (sourceFailure runId))
    | _ => none
  | .start t =>
    match s.phases t with
    | .starting runId snapshot =>
      some (s.attempt t runId snapshot (s.repository.startRebuild runId projectionVersion)
        (.writing runId snapshot snapshot.batches))
    | _ => none
  | .write t =>
    match s.phases t with
    | .writing runId snapshot (batch :: remaining) =>
      some (s.attempt t runId snapshot (s.repository.writeRebuildBatch runId projectionVersion batch.projection)
        (.writing runId snapshot remaining))
    | _ => none
  | .complete t =>
    match s.phases t with
    | .writing runId snapshot [] =>
      match s.repository.completeRebuild runId projectionVersion (issueCounts snapshot.issues) with
      | .ok repository =>
        some ({ s with repository, activated := s.activated ++ repository.state.toList }.report t
          (rebuildReport .completed runId snapshot))
      | .error _ => some (s.goto t (.aborting runId snapshot))
    | _ => none
  | .raises t =>
    match s.phases t with
    | .starting runId snapshot | .writing runId snapshot _ => some (s.goto t (.aborting runId snapshot))
    | _ => none
  | .abort t =>
    match s.phases t with
    | .aborting runId snapshot =>
      some ({ s with repository := s.repository.abortRebuild runId }.report t (rebuildReport .failed runId snapshot))
    | _ => none
  | .read t =>
    match s.phases t with
    | .idle =>
      match s.repository.state with
      | some state => some { s with returned := s.returned ++ [state] }
      | none => some (s.goto t .loading)
    | _ => none
  | .loaded t content =>
    match s.phases t with
    | .loading =>
      let state := loadedState (buildProjection U content.notes content.edges loadBatchSize)
      some ({ s with
        repository := { s.repository with state := some state }
        reads := s.reads ++ [IndexRead.mk none content]
        activated := s.activated ++ [state]
        returned := s.returned ++ [state] }.goto t .idle)
    | _ => none
  | .cancel t => some (s.goto t .idle)

/-! ## What the batches add up to -/

theorem flatMap_slices {α : Type} (xs : List α) (size count : ℕ) :
    ((List.range count).flatMap fun i => (xs.drop (i * size)).take size) = xs.take (count * size) := by
  induction count with
  | zero => simp
  | succ count ih =>
    rw [List.range_succ, List.flatMap_append, ih, List.flatMap_singleton, Nat.add_mul, Nat.one_mul, List.take_add]

theorem le_batchCount_mul (count : ℕ) (size : ℕ+) : count ≤ batchCount count size * size := by
  have hpos := size.pos
  unfold batchCount
  have hdiv := Nat.div_add_mod (count + (size - 1)) size
  have hmod := Nat.mod_lt (count + (size - 1)) hpos
  have hcomm := Nat.mul_comm (size : ℕ) ((count + (size - 1)) / size)
  omega

theorem batches_nodes (projection : GraphProjection) (size : ℕ+) :
    (projectionBatches projection size).flatMap (·.projection.nodes) = projection.nodes := by
  unfold projectionBatches
  rw [List.flatMap_map]
  refine (flatMap_slices _ _ _).trans (List.take_of_length_le ?_)
  calc projection.nodes.length ≤ batchCount projection.nodes.length size * size := le_batchCount_mul _ _
    _ ≤ _ := Nat.mul_le_mul_right _ (le_max_left _ _)

theorem batches_edges (projection : GraphProjection) (size : ℕ+) :
    (projectionBatches projection size).flatMap (·.projection.edges) = projection.edges := by
  unfold projectionBatches
  rw [List.flatMap_map]
  refine (flatMap_slices _ _ _).trans (List.take_of_length_le ?_)
  calc projection.edges.length ≤ batchCount projection.edges.length size * size := le_batchCount_mul _ _
    _ ≤ _ := Nat.mul_le_mul_right _ (le_max_right _ _)

variable {U}

/-- Nodes and edges are already in the order of their ids. -/
theorem sorted_nodes (notes : List GraphSourceNote) (edges : List GraphSourceEdge) (size : ℕ+) :
    ((buildProjection U notes edges size).projection.nodes.insertionSort fun a b => a.noteId ≤ b.noteId) =
      (buildProjection U notes edges size).projection.nodes := by
  refine List.Pairwise.insertionSort_eq ?_
  have hkept : (healthyNotes notes).Pairwise fun a b => a.noteId < b.noteId :=
    (Representative.representatives_pairwise noteSortKey_mono notes).sublist List.filter_sublist
  have hids : ((healthyNotes notes).map (·.noteId)).Pairwise (· < ·) := List.pairwise_map.mpr hkept
  have hbuilt : (buildProjection U notes edges size).projection.nodes.map (·.noteId) = (healthyNotes notes).map (·.noteId) :=
    built_nodeIds
  rw [← hbuilt] at hids
  exact (List.pairwise_map.mp hids).imp fun h => h.le

theorem sorted_edges (notes : List GraphSourceNote) (edges : List GraphSourceEdge) (size : ℕ+) :
    ((buildProjection U notes edges size).projection.edges.insertionSort fun a b => a.edgeId ≤ b.edgeId) =
      (buildProjection U notes edges size).projection.edges := by
  refine List.Pairwise.insertionSort_eq ?_
  have hkept : ((canonicalEdges edges).map (·.edgeId)).Pairwise (· < ·) :=
    List.pairwise_map.mpr (Representative.representatives_pairwise edgeSortKey_mono edges)
  have hids := hkept.sublist (projectionEdges_sublist (U := U) (healthyNotes notes) (canonicalEdges edges))
  exact (List.pairwise_map.mp hids).imp fun h => h.le

theorem sum_issueCounts (issues : List GraphProjectionIssue) :
    ((issueCounts issues).map GraphProjectionIssueCount.count).sum = issues.length := by
  unfold issueCounts
  rw [List.map_map]
  have hsorted := (List.perm_insertionSort (fun left right : GraphProjectionIssueCode => left.asStr ≤ right.asStr)
    (issues.map (·.code)).dedup).map fun code => (issues.map (·.code)).count code
  refine hsorted.sum_eq.trans ?_
  rw [List.sum_map_count_dedup_eq_length, List.length_map]

/-- The state that a run makes of the content that it has read. -/
def stateOf (U : UnicodeTables) (runId : String) (content : IndexContent) : GraphProjectionState :=
  { loadedState (buildProjection U content.notes content.edges ⟨1, Nat.one_pos⟩) with runId }

/-- The state of a read, which a loader marks as its own. -/
def IndexRead.state (U : UnicodeTables) (read : IndexRead) : GraphProjectionState :=
  stateOf U (read.runId.getD "postgresql-current") read.content

/-! ## What holds of the tasks -/

def ProjectionPhase.runId : ProjectionPhase → Option String
  | .building runId | .starting runId _ | .writing runId _ _ | .aborting runId _ => some runId
  | .idle | .loading => none

def ProjectionPhase.snapshot : ProjectionPhase → Option ProjectionBuildResult
  | .starting _ snapshot | .writing _ snapshot _ | .aborting _ snapshot => some snapshot
  | .idle | .building _ | .loading => none

/-- A task works on the projection of what its run has read, and what it has staged is the part that it has written. -/
structure PhaseSound (U : UnicodeTables) (size : ℕ+) (s : ProjectionSystem T) (phase : ProjectionPhase) : Prop where
  known : ∀ runId, phase.runId = some runId → runId ∈ s.runIds
  computed : ∀ snapshot, phase.snapshot = some snapshot → ∃ runId content, phase.runId = some runId ∧
    IndexRead.mk (some runId) content ∈ s.reads ∧ snapshot = buildProjection U content.notes content.edges size
  staged : ∀ runId snapshot remaining, phase = .writing runId snapshot remaining → s.repository.stagingRunId = some runId →
    s.repository.stagingNodes ++ remaining.flatMap (·.projection.nodes) = snapshot.projection.nodes ∧
      s.repository.stagingEdges ++ remaining.flatMap (·.projection.edges) = snapshot.projection.edges

/-- A completed report belongs to a state that was activated whole. -/
def Reported (U : UnicodeTables) (s : ProjectionSystem T) (report : RebuildReport) : Prop :=
  report.status = .completed → ∃ content, IndexRead.mk (some report.runId) content ∈ s.reads ∧
    stateOf U report.runId content ∈ s.activated ∧
    report.updated = (stateOf U report.runId content).projection.nodes.length +
      (stateOf U report.runId content).projection.edges.length

structure CacheSound (U : UnicodeTables) (size : ℕ+) (s : ProjectionSystem T) : Prop where
  phases : ∀ t, PhaseSound U size s (s.phases t)
  distinct : ∀ t v runId, (s.phases t).runId = some runId → (s.phases v).runId = some runId → t = v
  active : s.repository.state = s.activated.getLast?
  activated : ∀ state ∈ s.activated, (∃ read ∈ s.reads, state = read.state U) ∧
    (state.runId = "postgresql-current" ∨ ∃ report ∈ s.reports, report.status = .completed ∧ report.runId = state.runId)
  returned : ∀ state ∈ s.returned, ∃ read ∈ s.reads, state = read.state U
  reports : ∀ report ∈ s.reports, Reported U s report

omit [DecidableEq T] in
theorem CacheSound.start (size : ℕ+) : CacheSound U size (ProjectionSystem.start T) where
  phases t := by constructor <;> simp [ProjectionSystem.start, ProjectionPhase.runId, ProjectionPhase.snapshot]
  distinct t v runId h := by cases h
  active := rfl
  activated state h := by cases h
  returned state h := by cases h
  reports report h := by cases h

/-- How a step may change the staging area: not at all, or it is emptied, or it is the task's own. -/
inductive StagingStep (s u : ProjectionRepository) (runId : Option String) : Prop
  | same (h : u.stagingRunId = s.stagingRunId) (hnodes : u.stagingNodes = s.stagingNodes)
      (hedges : u.stagingEdges = s.stagingEdges)
  | cleared (h : u.stagingRunId = none)
  | own {id : String} (h : runId = some id) (hid : u.stagingRunId = some id)

section Step
variable {size : ℕ+} {s u : ProjectionSystem T} {t : T} {phase : ProjectionPhase}

/-- One task moves, and keeps its run, gets a new one or has none. -/
theorem CacheSound.next (h : CacheSound U size s) (hphases : u.phases = Function.update s.phases t phase)
    (hruns : s.runIds ⊆ u.runIds) (hreads : s.reads ⊆ u.reads) (hreports : s.reports ⊆ u.reports)
    (hid : phase.runId = (s.phases t).runId ∨ phase.runId = none ∨ ∃ runId, phase.runId = some runId ∧ runId ∉ s.runIds)
    (hstaging : StagingStep s.repository u.repository phase.runId) (hphase : PhaseSound U size u phase)
    (hactive : u.repository.state = u.activated.getLast?)
    (hactivated : ∀ state ∈ u.activated, state ∈ s.activated ∨ (∃ read ∈ u.reads, state = read.state U) ∧
      (state.runId = "postgresql-current" ∨ ∃ report ∈ u.reports, report.status = .completed ∧ report.runId = state.runId))
    (hsame : s.activated ⊆ u.activated)
    (hreturned : ∀ state ∈ u.returned, state ∈ s.returned ∨ ∃ read ∈ u.reads, state = read.state U)
    (hreported : ∀ report ∈ u.reports, report ∈ s.reports ∨ Reported U u report) : CacheSound U size u := by
  have hother : ∀ v, v ≠ t → u.phases v = s.phases v := fun v hv => by rw [hphases, Function.update_of_ne hv]
  have hself : u.phases t = phase := by rw [hphases, Function.update_self]
  -- No other task has the run of the task that moves.
  have hapart : ∀ v runId, v ≠ t → (s.phases v).runId = some runId → phase.runId ≠ some runId := by
    intro v runId hv hrun hsameRun
    obtain hid | hid | ⟨fresh, hid, hfresh⟩ := hid
    · exact hv (h.distinct v t runId hrun (hid ▸ hsameRun))
    · rw [hid] at hsameRun
      cases hsameRun
    · obtain rfl := Option.some.inj (hid.symm.trans hsameRun)
      exact hfresh ((h.phases v).known _ hrun)
  refine ⟨fun v => ?_, fun v w runId hv hw => ?_, hactive, fun state hstate => ?_, fun state hstate => ?_,
    fun report hreport => ?_⟩
  · by_cases hv : v = t
    · rw [hv, hself]
      exact hphase
    · rw [hother v hv]
      obtain ⟨hknown, hcomputed, hstaged⟩ := h.phases v
      refine ⟨fun runId hrun => hruns (hknown runId hrun), fun snapshot hsnapshot => ?_,
        fun runId snapshot remaining hwriting hown => ?_⟩
      · obtain ⟨runId, content, hrun, hread, heq⟩ := hcomputed snapshot hsnapshot
        exact ⟨runId, content, hrun, hreads hread, heq⟩
      · cases hstaging with
        | same hsameId hnodes hedges =>
          rw [hnodes, hedges]
          exact hstaged runId snapshot remaining hwriting (hsameId ▸ hown)
        | cleared hnone =>
          rw [hnone] at hown
          cases hown
        | own hrun hrunId =>
          rw [hrunId] at hown
          obtain rfl := Option.some.inj hown
          exact absurd hrun (hapart v _ hv (by rw [hwriting]; rfl))
  · by_cases hvt : v = t <;> by_cases hwt : w = t
    · rw [hvt, hwt]
    · rw [hvt, hself] at hv
      rw [hother w hwt] at hw
      exact absurd hv (hapart w runId hwt hw)
    · rw [hwt, hself] at hw
      rw [hother v hvt] at hv
      exact absurd hw (hapart v runId hvt hv)
    · rw [hother v hvt] at hv
      rw [hother w hwt] at hw
      exact h.distinct v w runId hv hw
  · obtain hstate | hstate := hactivated state hstate
    · obtain ⟨⟨read, hread, heq⟩, hrun⟩ := h.activated state hstate
      refine ⟨⟨read, hreads hread, heq⟩, ?_⟩
      obtain hrun | ⟨report, hreport, hcompleted⟩ := hrun
      · exact .inl hrun
      · exact .inr ⟨report, hreports hreport, hcompleted⟩
    · exact hstate
  · obtain hstate | hstate := hreturned state hstate
    · obtain ⟨read, hread, heq⟩ := h.returned state hstate
      exact ⟨read, hreads hread, heq⟩
    · exact hstate
  · obtain hreport | hreport := hreported report hreport
    · intro hcompleted
      obtain ⟨content, hread, hstate, hupdated⟩ := h.reports report hreport hcompleted
      exact ⟨content, hreads hread, hsame hstate, hupdated⟩
    · exact hreport

omit [DecidableEq T] in
theorem reported_of_failed {report : RebuildReport} (h : report.status = .failed) : Reported U s report := by
  intro hcompleted
  rw [h] at hcompleted
  cases hcompleted

/-- A step that activates nothing: what it appends is run ids, reads and failures. -/
theorem CacheSound.quiet (h : CacheSound U size s) (hphases : u.phases = Function.update s.phases t phase)
    (hruns : s.runIds ⊆ u.runIds) (hreads : s.reads ⊆ u.reads) (hreports : s.reports ⊆ u.reports)
    (hid : phase.runId = (s.phases t).runId ∨ phase.runId = none ∨ ∃ runId, phase.runId = some runId ∧ runId ∉ s.runIds)
    (hstaging : StagingStep s.repository u.repository phase.runId) (hphase : PhaseSound U size u phase)
    (hstate : u.repository.state = s.repository.state) (hactivated : u.activated = s.activated)
    (hreturned : u.returned = s.returned)
    (hfailed : ∀ report ∈ u.reports, report ∈ s.reports ∨ report.status = .failed) : CacheSound U size u := by
  refine h.next hphases hruns hreads hreports hid hstaging hphase ?_ ?_ ?_ ?_ ?_
  · rw [hstate, hactivated]
    exact h.active
  · rw [hactivated]
    exact fun state hmem => .inl hmem
  · rw [hactivated]
    exact List.Subset.refl _
  · rw [hreturned]
    exact fun state hmem => .inl hmem
  · exact fun report hreport => (hfailed report hreport).imp_right reported_of_failed

omit [DecidableEq T] in
theorem PhaseSound.of_none (hrun : phase.runId = none) (hsnapshot : phase.snapshot = none) : PhaseSound U size u phase where
  known runId h := by
    rw [hrun] at h
    cases h
  computed snapshot h := by
    rw [hsnapshot] at h
    cases h
  staged runId snapshot remaining h := by
    rw [h] at hrun
    cases hrun

/-- A task that gives its rebuild up keeps its run and its snapshot. -/
theorem CacheSound.givesUp (h : CacheSound U size s) {runId : String} {snapshot : ProjectionBuildResult}
    (hrun : (s.phases t).runId = some runId) (hsnapshot : (s.phases t).snapshot = some snapshot) :
    CacheSound U size (s.goto t (.aborting runId snapshot)) := by
  refine h.quiet rfl (List.Subset.refl _) (List.Subset.refl _) (List.Subset.refl _) (.inl hrun.symm) (.same rfl rfl rfl) ?_
    rfl rfl rfl fun report hreport => .inl hreport
  obtain ⟨hknown, hcomputed, -⟩ := h.phases t
  refine ⟨fun id hid => ?_, fun found hfound => ?_, fun _ _ _ hwriting => by cases hwriting⟩
  · obtain rfl := Option.some.inj hid
    exact hknown _ hrun
  · obtain rfl := Option.some.inj hfound
    obtain ⟨id, content, hid, hread, heq⟩ := hcomputed _ hsnapshot
    rw [hrun] at hid
    exact ⟨id, content, hid, hread, heq⟩

theorem CacheSound.ends (h : CacheSound U size s) (report : RebuildReport) (hfailed : report.status = .failed) :
    CacheSound U size (s.report t report) := by
  refine h.quiet rfl (List.Subset.refl _) (List.Subset.refl _) (List.subset_append_left _ _) (.inr (.inl rfl))
    (.same rfl rfl rfl) (.of_none rfl rfl) rfl rfl rfl fun found hfound => ?_
  obtain hfound | hfound := List.mem_append.mp hfound
  · exact .inl hfound
  · rw [List.mem_singleton.mp hfound]
    exact .inr hfailed

theorem ok_of_start {r r' : ProjectionRepository} {runId : String} {version : ℕ} (h : r.startRebuild runId version = .ok r') :
    r' = { r with stagingRunId := some runId, stagingVersion := some version, stagingNodes := [], stagingEdges := [] } := by
  unfold ProjectionRepository.startRebuild at h
  split at h
  · cases h
  split at h
  · cases h
  exact (Except.ok.inj h).symm

theorem requireStaging_ok {r : ProjectionRepository} {runId : String} {version : ℕ}
    (h : r.requireStaging runId version = .ok ()) :
    r.stagingRunId = some runId := by
  unfold ProjectionRepository.requireStaging at h
  split at h
  · cases h
  · rename_i hstaging
    exact not_not.mp (not_or.mp hstaging).1

theorem CacheSound.started (h : CacheSound U size s) {runId : String} {snapshot : ProjectionBuildResult}
    (hphase : s.phases t = .starting runId snapshot) :
    CacheSound U size (s.attempt t runId snapshot (s.repository.startRebuild runId projectionVersion)
      (.writing runId snapshot snapshot.batches)) := by
  have hrun : (s.phases t).runId = some runId := by rw [hphase]; rfl
  have hsnapshot : (s.phases t).snapshot = some snapshot := by rw [hphase]; rfl
  unfold ProjectionSystem.attempt
  split
  · rename_i repository hstart
    obtain rfl := ok_of_start hstart
    refine h.quiet rfl (List.Subset.refl _) (List.Subset.refl _) (List.Subset.refl _) (.inl hrun.symm) (.own rfl rfl) ?_
      rfl rfl rfl fun report hreport => .inl hreport
    obtain ⟨hknown, hcomputed, -⟩ := h.phases t
    obtain ⟨id, content, hid, hread, rfl⟩ := hcomputed _ hsnapshot
    rw [hrun] at hid
    refine ⟨fun found hfound => hknown found (hrun.trans hfound), fun found hfound => ?_, fun found _ remaining hwriting _ => ?_⟩
    · obtain rfl := Option.some.inj hfound
      exact ⟨id, content, hid, hread, rfl⟩
    · obtain ⟨-, rfl, rfl⟩ := ProjectionPhase.writing.inj hwriting
      exact ⟨batches_nodes _ _, batches_edges _ _⟩
  · exact h.givesUp hrun hsnapshot

theorem CacheSound.wrote (h : CacheSound U size s) {runId : String} {snapshot : ProjectionBuildResult}
    {batch : GraphProjectionBatch} {remaining : List GraphProjectionBatch}
    (hphase : s.phases t = .writing runId snapshot (batch :: remaining)) :
    CacheSound U size (s.attempt t runId snapshot
      (s.repository.writeRebuildBatch runId projectionVersion batch.projection) (.writing runId snapshot remaining)) := by
  have hrun : (s.phases t).runId = some runId := by rw [hphase]; rfl
  have hsnapshot : (s.phases t).snapshot = some snapshot := by rw [hphase]; rfl
  unfold ProjectionSystem.attempt
  split
  · rename_i repository hwrite
    obtain ⟨⟨⟩, hstaging, hwrite⟩ := Keyed.bind_eq_ok hwrite
    obtain rfl := Except.ok.inj hwrite
    have hown := requireStaging_ok hstaging
    refine h.quiet rfl (List.Subset.refl _) (List.Subset.refl _) (List.Subset.refl _) (.inl hrun.symm) (.own rfl hown) ?_
      rfl rfl rfl fun report hreport => .inl hreport
    obtain ⟨hknown, hcomputed, hstaged⟩ := h.phases t
    obtain ⟨hnodes, hedges⟩ := hstaged _ _ _ hphase hown
    refine ⟨fun found hfound => hknown found (hrun.trans hfound), fun found hfound => ?_, fun found _ rest hwriting _ => ?_⟩
    · obtain ⟨id, content, hid, hread, heq⟩ := hcomputed _ hsnapshot
      rw [hrun] at hid
      obtain rfl := Option.some.inj hfound
      exact ⟨id, content, hid, hread, heq⟩
    · obtain ⟨-, rfl, rfl⟩ := ProjectionPhase.writing.inj hwriting
      rw [← hnodes, ← hedges, List.flatMap_cons, List.flatMap_cons]
      exact ⟨List.append_assoc _ _ _, List.append_assoc _ _ _⟩
  · exact h.givesUp hrun hsnapshot

/-- A completed rebuild activates the state of the content that its run has read. -/
theorem CacheSound.completed (h : CacheSound U size s) {runId : String} {snapshot : ProjectionBuildResult}
    {repository : ProjectionRepository} (hphase : s.phases t = .writing runId snapshot [])
    (hcomplete : s.repository.completeRebuild runId projectionVersion (issueCounts snapshot.issues) = .ok repository) :
    CacheSound U size ({ s with repository, activated := s.activated ++ repository.state.toList }.report t
      (rebuildReport .completed runId snapshot)) := by
  have hrun : (s.phases t).runId = some runId := by rw [hphase]; rfl
  have hsnapshot : (s.phases t).snapshot = some snapshot := by rw [hphase]; rfl
  obtain ⟨⟨⟩, hstaging, hcomplete⟩ := Keyed.bind_eq_ok hcomplete
  obtain rfl := Except.ok.inj hcomplete
  have hown := requireStaging_ok hstaging
  obtain ⟨hnodes, hedges⟩ := (h.phases t).staged _ _ _ hphase hown
  rw [List.flatMap_nil, List.append_nil] at hnodes hedges
  obtain ⟨id, content, hid, hread, rfl⟩ := (h.phases t).computed _ hsnapshot
  obtain rfl := Option.some.inj (hrun.symm.trans hid)
  rw [hnodes, hedges, sorted_nodes, sorted_edges, sum_issueCounts]
  refine h.next rfl (List.Subset.refl _) (List.Subset.refl _) (List.subset_append_left _ _) (.inr (.inl rfl)) (.cleared rfl)
    (.of_none rfl rfl) ?_ ?_ (List.subset_append_left _ _) (fun state hstate => .inl hstate) ?_
  · exact List.getLast?_concat.symm
  · intro state hstate
    obtain hstate | hstate := List.mem_append.mp hstate
    · exact .inl hstate
    · obtain rfl := List.mem_singleton.mp hstate
      exact .inr ⟨⟨_, hread, rfl⟩, .inr ⟨_, List.mem_append_right _ List.mem_cons_self, rfl, rfl⟩⟩
  · intro report hreport
    obtain hreport | hreport := List.mem_append.mp hreport
    · exact .inl hreport
    · obtain rfl := List.mem_singleton.mp hreport
      exact .inr fun _ => ⟨content, hread, List.mem_append_right _ List.mem_cons_self, rfl⟩

theorem CacheSound.aborted (h : CacheSound U size s) {runId : String} {snapshot : ProjectionBuildResult} :
    CacheSound U size ({ s with repository := s.repository.abortRebuild runId }.report t
      (rebuildReport .failed runId snapshot)) := by
  have hstaging : StagingStep s.repository (s.repository.abortRebuild runId) none ∧
      (s.repository.abortRebuild runId).state = s.repository.state := by
    unfold ProjectionRepository.abortRebuild
    split
    · exact ⟨.cleared rfl, rfl⟩
    · exact ⟨.same rfl rfl rfl, rfl⟩
  refine h.quiet rfl (List.Subset.refl _) (List.Subset.refl _) (List.subset_append_left _ _) (.inr (.inl rfl)) hstaging.1
    (.of_none rfl rfl) hstaging.2 rfl rfl fun report hreport => ?_
  obtain hreport | hreport := List.mem_append.mp hreport
  · exact .inl hreport
  · obtain rfl := List.mem_singleton.mp hreport
    exact .inr rfl

omit [DecidableEq T] in
theorem CacheSound.returns (h : CacheSound U size s) {state : GraphProjectionState} (hstate : s.repository.state = some state) :
    CacheSound U size { s with returned := s.returned ++ [state] } where
  phases v := ⟨(h.phases v).known, (h.phases v).computed, (h.phases v).staged⟩
  distinct := h.distinct
  active := h.active
  activated := h.activated
  returned found hfound := by
    obtain hfound | hfound := List.mem_append.mp hfound
    · exact h.returned found hfound
    · obtain rfl := List.mem_singleton.mp hfound
      rw [h.active] at hstate
      exact (h.activated _ (List.mem_of_getLast? hstate)).1
  reports := h.reports

theorem CacheSound.loaded (h : CacheSound U size s) (content : IndexContent) (loadSize : ℕ+) :
    CacheSound U size ({ s with
      repository := { s.repository with
        state := some (loadedState (buildProjection U content.notes content.edges loadSize)) }
      reads := s.reads ++ [IndexRead.mk none content]
      activated := s.activated ++ [loadedState (buildProjection U content.notes content.edges loadSize)]
      returned := s.returned ++ [loadedState (buildProjection U content.notes content.edges loadSize)] }.goto t .idle) := by
  have hread : ∃ read ∈ s.reads ++ [IndexRead.mk none content],
      loadedState (buildProjection U content.notes content.edges loadSize) = read.state U :=
    ⟨_, List.mem_append_right _ List.mem_cons_self, rfl⟩
  refine h.next rfl (List.Subset.refl _) (List.subset_append_left _ _) (List.Subset.refl _) (.inr (.inl rfl)) (.same rfl rfl rfl)
    (.of_none rfl rfl) List.getLast?_concat.symm ?_ (List.subset_append_left _ _) ?_ fun report hreport => .inl hreport
  · intro state hstate
    obtain hstate | hstate := List.mem_append.mp hstate
    · exact .inl hstate
    · obtain rfl := List.mem_singleton.mp hstate
      exact .inr ⟨hread, .inl rfl⟩
  · intro state hstate
    obtain hstate | hstate := List.mem_append.mp hstate
    · exact .inl hstate
    · obtain rfl := List.mem_singleton.mp hstate
      exact .inr hread

theorem CacheSound.begun (h : CacheSound U size s) {runId : String} (hfresh : runId ∉ s.runIds) :
    CacheSound U size ({ s with runIds := s.runIds ++ [runId] }.goto t (.building runId)) := by
  refine h.quiet rfl (List.subset_append_left _ _) (List.Subset.refl _) (List.Subset.refl _) (.inr (.inr ⟨runId, rfl, hfresh⟩))
    (.same rfl rfl rfl) ?_ rfl rfl rfl fun report hreport => .inl hreport
  refine ⟨fun id hid => ?_, fun _ h => (by cases h), fun _ _ _ h => by cases h⟩
  obtain rfl := Option.some.inj hid
  exact List.mem_append_right _ List.mem_cons_self

theorem CacheSound.built (h : CacheSound U size s) {runId : String} (hphase : s.phases t = .building runId)
    (content : IndexContent) :
    CacheSound U size ({ s with reads := s.reads ++ [IndexRead.mk (some runId) content] }.goto t
      (.starting runId (buildProjection U content.notes content.edges size))) := by
  have hrun : (s.phases t).runId = some runId := by rw [hphase]; rfl
  refine h.quiet rfl (List.Subset.refl _) (List.subset_append_left _ _) (List.Subset.refl _) (.inl hrun.symm)
    (.same rfl rfl rfl) ?_ rfl rfl rfl fun report hreport => .inl hreport
  refine ⟨fun id hid => (h.phases t).known id (hrun.trans hid), fun snapshot hsnapshot => ?_, fun _ _ _ h => by cases h⟩
  obtain rfl := Option.some.inj hsnapshot
  exact ⟨runId, content, rfl, List.mem_append_right _ List.mem_cons_self, rfl⟩

end Step

/-- Run ids are fresh. -/
def FreshRuns (s : ProjectionSystem T) : ProjectionLabel T → Prop
  | .rebuild _ runId => runId ∉ s.runIds
  | _ => True

theorem CacheSound.step {size loadSize : ℕ+} {s u : ProjectionSystem T} {label : ProjectionLabel T} (h : CacheSound U size s)
    (hfresh : FreshRuns s label) (hstep : projectionStep U size loadSize s label = some u) : CacheSound U size u := by
  cases label with
  | rebuild t runId =>
    simp only [projectionStep] at hstep
    split at hstep <;> cases hstep
    exact h.begun hfresh
  | built t content =>
    simp only [projectionStep] at hstep
    split at hstep <;> cases hstep
    rename_i runId hphase
    exact h.built hphase content
  | buildFails t =>
    simp only [projectionStep] at hstep
    split at hstep <;> cases hstep
    exact h.ends _ rfl
  | start t =>
    simp only [projectionStep] at hstep
    split at hstep <;> cases hstep
    rename_i runId snapshot hphase
    exact h.started hphase
  | write t =>
    simp only [projectionStep] at hstep
    split at hstep <;> cases hstep
    rename_i runId snapshot batch remaining hphase
    exact h.wrote hphase
  | complete t =>
    simp only [projectionStep] at hstep
    split at hstep
    · rename_i runId snapshot hphase
      split at hstep <;> cases hstep
      · rename_i repository hcomplete
        exact h.completed hphase hcomplete
      · exact h.givesUp (by rw [hphase]; rfl) (by rw [hphase]; rfl)
    · cases hstep
  | raises t =>
    simp only [projectionStep] at hstep
    split at hstep <;> cases hstep
    · rename_i runId snapshot hphase
      exact h.givesUp (by rw [hphase]; rfl) (by rw [hphase]; rfl)
    · rename_i runId snapshot remaining hphase
      exact h.givesUp (by rw [hphase]; rfl) (by rw [hphase]; rfl)
  | abort t =>
    simp only [projectionStep] at hstep
    split at hstep <;> cases hstep
    exact h.aborted
  | read t =>
    simp only [projectionStep] at hstep
    split at hstep
    · split at hstep <;> cases hstep
      · rename_i state hstate
        exact h.returns hstate
      · exact h.quiet rfl (List.Subset.refl _) (List.Subset.refl _) (List.Subset.refl _) (.inr (.inl rfl)) (.same rfl rfl rfl)
          (.of_none rfl rfl) rfl rfl rfl fun report hreport => .inl hreport
    · cases hstep
  | loaded t content =>
    simp only [projectionStep] at hstep
    split at hstep <;> cases hstep
    exact h.loaded content loadSize
  | cancel t =>
    cases hstep
    exact h.quiet rfl (List.Subset.refl _) (List.Subset.refl _) (List.Subset.refl _) (.inr (.inl rfl)) (.same rfl rfl rfl)
      (.of_none rfl rfl) rfl rfl rfl fun report hreport => .inl hreport

/-! ## What the readers get -/

/-- Every state that was ever active, and every state that a reader was given, is the whole projection of one content of the
index, under the run that has read it. -/
structure Served (U : UnicodeTables) (s : ProjectionSystem T) : Prop where
  active : s.repository.state = s.activated.getLast?
  whole : ∀ state ∈ s.activated ++ s.returned, ∃ read ∈ s.reads, state = read.state U
  completed : ∀ state ∈ s.activated, state.runId = "postgresql-current" ∨
    ∃ report ∈ s.reports, report.status = .completed ∧ report.runId = state.runId
  reported : ∀ report ∈ s.reports, Reported U s report

omit [DecidableEq T] in
theorem CacheSound.served {size : ℕ+} {s : ProjectionSystem T} (h : CacheSound U size s) : Served U s where
  active := h.active
  whole state hstate := by
    obtain hstate | hstate := List.mem_append.mp hstate
    · exact (h.activated state hstate).1
    · exact h.returned state hstate
  completed state hstate := (h.activated state hstate).2
  reported := h.reports

/-- Once a state is active and no reader is loading, only completed rebuilds replace it. -/
structure Replaced (s t : ProjectionSystem T) : Prop where
  active : t.repository.state.isSome = true
  settled : ∀ v, t.phases v ≠ .loading
  replaced : ∃ new, t.activated = s.activated ++ new ∧
    ∀ state ∈ new, ∃ report ∈ t.reports, report.status = .completed ∧ report.runId = state.runId

theorem completeRebuild_state {r repository : ProjectionRepository} {runId : String} {version : ℕ}
    {counts : List GraphProjectionIssueCount} (h : r.completeRebuild runId version counts = .ok repository) :
    ∃ state, repository.state = some state ∧ state.runId = runId := by
  obtain ⟨⟨⟩, -, h⟩ := Keyed.bind_eq_ok h
  obtain rfl := Except.ok.inj h
  exact ⟨_, rfl, rfl⟩

theorem Replaced.quiet {s t u : ProjectionSystem T} {v : T} {phase : ProjectionPhase} (h : Replaced s t)
    (hphases : u.phases = Function.update t.phases v phase) (hphase : phase ≠ .loading)
    (hstate : u.repository.state = t.repository.state) (hactivated : u.activated = t.activated)
    (hreports : t.reports ⊆ u.reports) : Replaced s u where
  active := hstate ▸ h.active
  settled w := by
    rw [hphases, Function.update_apply]
    split
    · exact hphase
    · exact h.settled w
  replaced := by
    obtain ⟨new, hnew, hcompleted⟩ := h.replaced
    refine ⟨new, hactivated.trans hnew, fun state hstate => ?_⟩
    obtain ⟨report, hreport, hdone⟩ := hcompleted state hstate
    exact ⟨report, hreports hreport, hdone⟩

theorem Replaced.step {size loadSize : ℕ+} {s t u : ProjectionSystem T} {label : ProjectionLabel T} (h : Replaced s t)
    (hstep : projectionStep U size loadSize t label = some u) : Replaced s u := by
  cases label with
  | rebuild v runId =>
    simp only [projectionStep] at hstep
    split at hstep <;> cases hstep
    exact h.quiet rfl (by simp) rfl rfl (List.Subset.refl _)
  | built v content =>
    simp only [projectionStep] at hstep
    split at hstep <;> cases hstep
    exact h.quiet rfl (by simp) rfl rfl (List.Subset.refl _)
  | buildFails v =>
    simp only [projectionStep] at hstep
    split at hstep <;> cases hstep
    exact h.quiet rfl (by simp) rfl rfl (List.subset_append_left _ _)
  | start v =>
    simp only [projectionStep] at hstep
    split at hstep <;> cases hstep
    unfold ProjectionSystem.attempt
    split
    · rename_i repository hstart
      obtain rfl := ok_of_start hstart
      exact h.quiet rfl (by simp) rfl rfl (List.Subset.refl _)
    · exact h.quiet rfl (by simp) rfl rfl (List.Subset.refl _)
  | write v =>
    simp only [projectionStep] at hstep
    split at hstep <;> cases hstep
    unfold ProjectionSystem.attempt
    split
    · rename_i repository hwrite
      obtain ⟨⟨⟩, -, hwrite⟩ := Keyed.bind_eq_ok hwrite
      obtain rfl := Except.ok.inj hwrite
      exact h.quiet rfl (by simp) rfl rfl (List.Subset.refl _)
    · exact h.quiet rfl (by simp) rfl rfl (List.Subset.refl _)
  | complete v =>
    simp only [projectionStep] at hstep
    split at hstep
    · rename_i runId snapshot hphase
      split at hstep <;> cases hstep
      · rename_i repository hcomplete
        obtain ⟨state, hstate, hrun⟩ := completeRebuild_state hcomplete
        obtain ⟨new, hnew, hcompleted⟩ := h.replaced
        refine ⟨Option.isSome_of_eq_some hstate, fun w => ?_, new ++ [state], ?_, fun found hfound => ?_⟩
        · show Function.update t.phases v .idle w ≠ .loading
          rw [Function.update_apply]
          split
          · simp
          · exact h.settled w
        · show t.activated ++ repository.state.toList = _
          rw [hstate, hnew, Option.toList_some, List.append_assoc]
        · obtain hfound | hfound := List.mem_append.mp hfound
          · obtain ⟨report, hreport, hdone⟩ := hcompleted found hfound
            exact ⟨report, List.mem_append_left _ hreport, hdone⟩
          · obtain rfl := List.mem_singleton.mp hfound
            exact ⟨_, List.mem_append_right _ List.mem_cons_self, rfl, hrun.symm⟩
      · exact h.quiet rfl (by simp) rfl rfl (List.Subset.refl _)
    · cases hstep
  | raises v =>
    simp only [projectionStep] at hstep
    split at hstep <;> cases hstep
    · exact h.quiet rfl (by simp) rfl rfl (List.Subset.refl _)
    · exact h.quiet rfl (by simp) rfl rfl (List.Subset.refl _)
  | abort v =>
    simp only [projectionStep] at hstep
    split at hstep <;> cases hstep
    refine h.quiet rfl (by simp) ?_ rfl (List.subset_append_left _ _)
    show (t.repository.abortRebuild _).state = _
    unfold ProjectionRepository.abortRebuild
    split <;> rfl
  | read v =>
    simp only [projectionStep] at hstep
    split at hstep
    · split at hstep <;> cases hstep
      · exact ⟨h.active, h.settled, h.replaced⟩
      · rename_i hnone
        have hactive := h.active
        rw [hnone] at hactive
        cases hactive
    · cases hstep
  | loaded v content =>
    simp only [projectionStep] at hstep
    split at hstep <;> cases hstep
    rename_i hphase
    exact absurd hphase (h.settled v)
  | cancel v =>
    cases hstep
    exact h.quiet rfl (by simp) rfl rfl (List.Subset.refl _)

/-- In every interleaving with fresh run ids no partial or mixed projection is ever active, and a state that is active while no
reader loads gives way to completed rebuilds only. -/
theorem projection_served {size loadSize : ℕ+} {s t : ProjectionSystem T}
    (hreached : Run.Guarded (projectionStep U size loadSize) FreshRuns (.start T) s)
    (hrun : Run.Guarded (projectionStep U size loadSize) FreshRuns s t) :
    Served U t ∧ (s.repository.state.isSome = true → (∀ v, s.phases v ≠ .loading) → Replaced s t) := by
  constructor
  · exact ((hreached.trans hrun).invariant (CacheSound.start size) fun _ _ _ hs hfresh hstep => hs.step hfresh hstep).served
  · intro hactive hsettled
    have hstart : Replaced s s := ⟨hactive, hsettled, [], (List.append_nil _).symm, fun state h => by cases h⟩
    exact hrun.invariant hstart fun _ _ _ h _ hstep => h.step hstep

/-! ## Two rebuilds that overlap -/

def freshCheck (s : ProjectionSystem T) : ProjectionLabel T → Bool
  | .rebuild _ runId => runId ∉ s.runIds
  | _ => true

omit [DecidableEq T] in
theorem fresh_of_check (s : ProjectionSystem T) (label : ProjectionLabel T)
    (h : freshCheck s label = true) : FreshRuns s label := by
  cases label with
  | rebuild => simpa [freshCheck, FreshRuns] using h
  | _ => trivial

def sampleContent : IndexContent :=
  ⟨[⟨"n1", "A.md", "context", "A", "active", none, [], .indexed⟩, ⟨"n2", "B.md", "context", "B", "active", none, [], .error⟩], []⟩

def firstLoad : List (ProjectionLabel Bool) := [.read true, .loaded true sampleContent]

/-- The second rebuild takes the staging area from the first, whose write is refused. -/
def overlappingRebuilds : List (ProjectionLabel Bool) :=
  [.rebuild true "a", .rebuild false "b", .built true sampleContent, .built false sampleContent, .start true, .start false,
    .write true, .abort true, .write false, .complete false]

def plainUnicode : UnicodeTables := ⟨id, id⟩

def sampleStep : ProjectionSystem Bool → ProjectionLabel Bool → Option (ProjectionSystem Bool) :=
  Run.checked (projectionStep plainUnicode 500 500) freshCheck

def loadedSystem : ProjectionSystem Bool := (Run.exec sampleStep (.start Bool) firstLoad).getD (.start Bool)

def rebuiltSystem : ProjectionSystem Bool := (Run.exec sampleStep loadedSystem overlappingRebuilds).getD (.start Bool)

theorem projection_served_overlapping : rebuiltSystem.activated.length = 2 ∧
    rebuiltSystem.reports.map (·.status) = [.failed, .completed] ∧ Served plainUnicode rebuiltSystem ∧
    Replaced loadedSystem rebuiltSystem := by
  have hfirst := Run.Guarded.of_exec fresh_of_check firstLoad
    (rfl : Run.exec sampleStep (.start Bool) firstLoad = some loadedSystem)
  have hrest := Run.Guarded.of_exec fresh_of_check overlappingRebuilds
    (rfl : Run.exec sampleStep loadedSystem overlappingRebuilds = some rebuiltSystem)
  obtain ⟨hserved, hreplaced⟩ := projection_served hfirst hrest
  refine ⟨rfl, rfl, hserved, hreplaced rfl ?_⟩
  intro v
  cases v <;> exact ProjectionPhase.noConfusion

end Machine

end Alexandria.Compile
