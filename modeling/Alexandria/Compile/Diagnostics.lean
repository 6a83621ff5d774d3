import Alexandria.Compile.Plan
import Alexandria.Compile.Projection

/-! # Diagnosing edge targets

`resolve_diagnostic_targets` of `compile_plan.rs`: the cached edges are resolved against the cached notes,
with three shortcuts of its own before the link names are asked. An explicit target id is final, a path
of a healthy note resolves, and a path of unhealthy notes only is reported as not indexed.
-/

namespace Alexandria.Compile
set_option autoImplicit false

structure DiagnosticNoteInput where
  noteId : String
  relativePath : String
  title : String
  status : String
  indexStatus : String
  aliases : List String

structure DiagnosticEdgeInput where
  edgeId : String
  sourceNoteId : String
  targetNoteId : Option String
  targetPath : String

inductive DiagnosticTargetOutcome
  | resolved
  | targetNotIndexed
  | ambiguous
  | missing
deriving DecidableEq

structure DiagnosticEdgeResolution where
  edgeId : String
  outcome : DiagnosticTargetOutcome
  targetNoteId : Option String
  targetPath : Option String
  targetIndexStatus : Option String
  candidateNoteIds : List String
  candidatePaths : List String

/-- A note whose identity the native types refuse is not a healthy one. -/
def healthyDiagnosticNote (note : DiagnosticNoteInput) : Option GraphSourceNote :=
  if note.indexStatus ≠ "indexed" then none
  else
    ((validateIdentity "document_id" note.noteId).toOption.bind fun _ =>
      (validateIdentity "relative_path" note.relativePath).toOption).map fun _ =>
        { noteId := note.noteId, relativePath := note.relativePath, alexandriaType := "context", title := note.title,
          status := note.status, project := none, aliases := note.aliases, indexStatus := .indexed }

def healthyDiagnosticNotes (notes : List DiagnosticNoteInput) : List GraphSourceNote :=
  notes.filterMap healthyDiagnosticNote

def resolvedDiagnosticEdge (edgeId : String) (note : GraphSourceNote) : DiagnosticEdgeResolution :=
  ⟨edgeId, .resolved, some note.noteId, some note.relativePath, none, [], []⟩

def notIndexedDiagnosticEdge (edgeId : String) (note : DiagnosticNoteInput) : DiagnosticEdgeResolution :=
  ⟨edgeId, .targetNotIndexed, some note.noteId, some note.relativePath, some note.indexStatus, [note.noteId],
    [note.relativePath]⟩

def missingDiagnosticEdge (edgeId : String) (pathHint : Option DiagnosticNoteInput) : DiagnosticEdgeResolution :=
  ⟨edgeId, .missing, none, none, none, (pathHint.map (·.noteId)).toList, (pathHint.map (·.relativePath)).toList⟩

def ambiguousDiagnosticEdge (edgeId : String) (candidates : List (String ×ₗ String)) : DiagnosticEdgeResolution :=
  ⟨edgeId, .ambiguous, none, none, none, candidates.map fun candidate => (ofLex candidate).1,
    candidates.map fun candidate => (ofLex candidate).2⟩

section Diagnostics
variable (U : UnicodeTables)

/-- `all_by_id` and `all_by_path`: the last note with the key stands for it. -/
def anyById (notes : List DiagnosticNoteInput) (id : String) : Option DiagnosticNoteInput :=
  notes.reverse.find? fun note => note.noteId = id

def anyByPath (notes : List DiagnosticNoteInput) (pathKey : String) : Option DiagnosticNoteInput :=
  notes.reverse.find? fun note => canonicalPathKey U note.relativePath = pathKey

def resolveExplicitDiagnosticEdge (edge : DiagnosticEdgeInput) (id pathKey : String) (healthy : List GraphSourceNote)
    (notes : List DiagnosticNoteInput) : DiagnosticEdgeResolution :=
  match noteById healthy id with
  | some note => resolvedDiagnosticEdge edge.edgeId note
  | none =>
    match anyById notes id with
    | some note => notIndexedDiagnosticEdge edge.edgeId note
    | none => missingDiagnosticEdge edge.edgeId (anyByPath U notes pathKey)

/-- The notes that answer to the link name of the target, once each. -/
def linkCandidates (targetPath : String) (healthy : List GraphSourceNote) : List (String ×ₗ String) :=
  let candidates := (candidateLinkNames U targetPath).flatMap fun name =>
    (notesByLinkName U healthy name).map fun note => toLex (note.noteId, note.relativePath)
  (candidates.insertionSort (· ≤ ·)).destutter (· ≠ ·)

def resolveDiagnosticLink (edge : DiagnosticEdgeInput) (healthy : List GraphSourceNote) : DiagnosticEdgeResolution :=
  match resolveTargetReference U none edge.targetPath healthy with
  | .resolved note => resolvedDiagnosticEdge edge.edgeId note
  | .ambiguous => ambiguousDiagnosticEdge edge.edgeId (linkCandidates U edge.targetPath healthy)
  | .missing => missingDiagnosticEdge edge.edgeId none

def resolveDiagnosticEdge (edge : DiagnosticEdgeInput) (healthy : List GraphSourceNote)
    (notes : List DiagnosticNoteInput) : DiagnosticEdgeResolution :=
  let pathKey := canonicalPathKey U edge.targetPath
  match edge.targetNoteId with
  | some id => resolveExplicitDiagnosticEdge U edge id pathKey healthy notes
  | none =>
    -- the first of the healthy notes at the path, also when there are several
    match (notesByPath U healthy pathKey).head? with
    | some note => resolvedDiagnosticEdge edge.edgeId note
    | none =>
      match anyByPath U notes pathKey with
      | some note => notIndexedDiagnosticEdge edge.edgeId note
      | none => resolveDiagnosticLink U edge healthy

def resolveDiagnosticTargets (notes : List DiagnosticNoteInput) (edges : List DiagnosticEdgeInput) :
    List DiagnosticEdgeResolution :=
  edges.map fun edge => resolveDiagnosticEdge U edge (healthyDiagnosticNotes notes) notes

end Diagnostics

/-! ## One note and one edge in both representations -/

structure SameNote (note : DiagnosticNoteInput) (source : GraphSourceNote) : Prop where
  noteId : note.noteId = source.noteId
  relativePath : note.relativePath = source.relativePath
  title : note.title = source.title
  status : note.status = source.status
  aliases : note.aliases = source.aliases
  healthy : note.indexStatus = "indexed" ↔ source.indexStatus = .indexed
  validId : validateIdentity "document_id" note.noteId = .ok ()
  validPath : validateIdentity "relative_path" note.relativePath = .ok ()

def GraphSourceEdge.diagnostic (edge : GraphSourceEdge) : DiagnosticEdgeInput :=
  ⟨edge.edgeId, edge.sourceNoteId, edge.targetNoteId, edge.targetPath⟩

/-- What the diagnostics keep of a note. -/
def GraphSourceNote.diagnosed (note : GraphSourceNote) : GraphSourceNote :=
  { note with alexandriaType := "context", project := none }

def TargetResolution.map (f : GraphSourceNote → GraphSourceNote) : TargetResolution → TargetResolution
  | .resolved note => .resolved (f note)
  | .missing => .missing
  | .ambiguous => .ambiguous

theorem SameNote.healthyNote {note : DiagnosticNoteInput} {source : GraphSourceNote} (h : SameNote note source) :
    healthyDiagnosticNote note = if source.indexStatus = .indexed then some source.diagnosed else none := by
  by_cases hstatus : source.indexStatus = .indexed
  · have hnote := h.healthy.mpr hstatus
    have validId : validateIdentity "document_id" source.noteId = .ok () := h.noteId ▸ h.validId
    have validPath : validateIdentity "relative_path" source.relativePath = .ok () := h.relativePath ▸ h.validPath
    simp [healthyDiagnosticNote, hnote, validId, validPath, hstatus, GraphSourceNote.diagnosed, Except.toOption,
      h.noteId, h.relativePath, h.title, h.status, h.aliases]
  · have hnote : note.indexStatus ≠ "indexed" := fun hnote => hstatus (h.healthy.mp hnote)
    simp [healthyDiagnosticNote, hnote, hstatus]

theorem healthyDiagnosticNotes_eq {notes : List DiagnosticNoteInput} {sources : List GraphSourceNote}
    (h : List.Forall₂ SameNote notes sources) :
    healthyDiagnosticNotes notes = (indexedNotes sources).map GraphSourceNote.diagnosed := by
  induction h with
  | nil => rfl
  | @cons note source notes sources hsame _ ih =>
    simp only [healthyDiagnosticNotes, indexedNotes] at ih ⊢
    by_cases hstatus : source.indexStatus = .indexed <;> simp [hsame.healthyNote, hstatus, ih]

/-! ## Resolution looks at nothing the diagnostics drop -/

section Diagnosed
variable {U : UnicodeTables} (notes : List GraphSourceNote)

theorem noteById_diagnosed (id : String) :
    noteById (notes.map GraphSourceNote.diagnosed) id = (noteById notes id).map GraphSourceNote.diagnosed := by
  rw [noteById, noteById, ← List.map_reverse, List.find?_map]
  rfl

theorem sortedByPath_diagnosed :
    sortedByPath (notes.map GraphSourceNote.diagnosed) = (sortedByPath notes).map GraphSourceNote.diagnosed :=
  (List.map_insertionSort _ _ GraphSourceNote.diagnosed notes fun _ _ _ _ => Iff.rfl).symm

theorem notesByPath_diagnosed (key : String) : notesByPath U (notes.map GraphSourceNote.diagnosed) key =
    (notesByPath U notes key).map GraphSourceNote.diagnosed := by
  rw [notesByPath, notesByPath, List.filter_map, sortedByPath_diagnosed]
  rfl

theorem notesByLinkName_diagnosed (name : String) : notesByLinkName U (notes.map GraphSourceNote.diagnosed) name =
    (notesByLinkName U notes name).map GraphSourceNote.diagnosed := by
  rw [notesByLinkName, notesByLinkName, List.filter_map, sortedByPath_diagnosed]
  rfl

theorem resolveByLinkName_diagnosed (names : List String) :
    resolveByLinkName U (notes.map GraphSourceNote.diagnosed) names =
      (resolveByLinkName U notes names).map GraphSourceNote.diagnosed := by
  induction names with
  | nil => rfl
  | cons name names ih =>
    rw [resolveByLinkName_cons, resolveByLinkName_cons, ih, notesByLinkName_diagnosed]
    exact chooseOne_map _ (TargetResolution.map _) (fun _ => rfl) _ .ambiguous _

theorem resolveTargetReference_diagnosed (targetNoteId : Option String) (targetPath : String) :
    resolveTargetReference U targetNoteId targetPath (notes.map GraphSourceNote.diagnosed) =
      (resolveTargetReference U targetNoteId targetPath notes).map GraphSourceNote.diagnosed := by
  have byId : targetNoteId.bind (noteById (notes.map GraphSourceNote.diagnosed)) =
      (targetNoteId.bind (noteById notes)).map GraphSourceNote.diagnosed := by
    cases targetNoteId with
    | none => rfl
    | some id => exact noteById_diagnosed notes id
  rw [resolveTargetReference_eq, resolveTargetReference_eq, byId, notesByPath_diagnosed, resolveByLinkName_diagnosed]
  cases targetNoteId.bind (noteById notes) with
  | some note => rfl
  | none => exact chooseOne_map _ (TargetResolution.map _) (fun _ => rfl) _ .ambiguous _

end Diagnosed

/-! ## Agreement with the projection -/

/-- The diagnostics report the edge as resolved to the note with the id. -/
def DiagnosedResolved (reports : List DiagnosticEdgeResolution) (edge : GraphSourceEdge) (target : String) : Prop :=
  ∃ report ∈ reports, report.edgeId = edge.edgeId ∧ report.outcome = .resolved ∧ report.targetNoteId = some target

def DiagnosedAmbiguous (reports : List DiagnosticEdgeResolution) (edge : GraphSourceEdge) : Prop :=
  ∃ report ∈ reports, report.edgeId = edge.edgeId ∧ report.outcome = .ambiguous

/-- The two views of one edge are the same. -/
def DiagnosticsAgree (U : UnicodeTables) (notes : List DiagnosticNoteInput) (sources : List GraphSourceNote)
    (edges : List GraphSourceEdge) (batchSize : ℕ+) (edge : GraphSourceEdge) : Prop :=
  let reports := resolveDiagnosticTargets U notes (edges.map GraphSourceEdge.diagnostic)
  let result := buildProjection U sources edges batchSize
  (∀ target, DiagnosedResolved reports edge target ↔ ProjectsTo result edge target) ∧
    (DiagnosedAmbiguous reports edge ↔ ReportsAmbiguous result edge)

/-- Edges the shortcuts do not part: the explicit id is that of a healthy note, or there is none and the path is
that of exactly one healthy note or of no note. -/
def Comparable (U : UnicodeTables) (sources : List GraphSourceNote) (edge : GraphSourceEdge) : Prop :=
  let pathKey := canonicalPathKey U edge.targetPath
  match edge.targetNoteId with
  | some id => ∃ note, noteById (indexedNotes sources) id = some note
  | none => (∃ note, notesByPath U (indexedNotes sources) pathKey = [note]) ∨
      ∀ note ∈ sources, canonicalPathKey U note.relativePath ≠ pathKey

/-- Edges the diagnostics keep from the path and the link names: a stale explicit id is final, and a path of unhealthy
notes only is said to be that. -/
def PartedByDesign (U : UnicodeTables) (sources : List GraphSourceNote) (edge : GraphSourceEdge) : Prop :=
  let pathKey := canonicalPathKey U edge.targetPath
  match edge.targetNoteId with
  | some id => noteById (indexedNotes sources) id = none
  | none => notesByPath U (indexedNotes sources) pathKey = [] ∧
      ∃ note ∈ sources, canonicalPathKey U note.relativePath = pathKey

section Agreement
variable {U : UnicodeTables} {notes : List DiagnosticNoteInput} {sources : List GraphSourceNote}
  {edges : List GraphSourceEdge} {edge : GraphSourceEdge}

theorem resolveDiagnosticLink_edgeId (edge : DiagnosticEdgeInput) (healthy : List GraphSourceNote) :
    (resolveDiagnosticLink U edge healthy).edgeId = edge.edgeId := by
  unfold resolveDiagnosticLink
  cases resolveTargetReference U none edge.targetPath healthy <;> rfl

theorem resolveExplicitDiagnosticEdge_edgeId (edge : DiagnosticEdgeInput) (id pathKey : String)
    (healthy : List GraphSourceNote) (notes : List DiagnosticNoteInput) :
    (resolveExplicitDiagnosticEdge U edge id pathKey healthy notes).edgeId = edge.edgeId := by
  unfold resolveExplicitDiagnosticEdge
  cases noteById healthy id <;> cases anyById notes id <;> rfl

theorem resolveDiagnosticEdge_edgeId (edge : DiagnosticEdgeInput) (healthy : List GraphSourceNote)
    (notes : List DiagnosticNoteInput) : (resolveDiagnosticEdge U edge healthy notes).edgeId = edge.edgeId := by
  unfold resolveDiagnosticEdge
  cases edge.targetNoteId with
  | some id => exact resolveExplicitDiagnosticEdge_edgeId edge id _ healthy notes
  | none =>
    dsimp only
    cases (notesByPath U healthy (canonicalPathKey U edge.targetPath)).head? with
    | some note => rfl
    | none =>
      cases anyByPath U notes (canonicalPathKey U edge.targetPath) with
      | some note => rfl
      | none => exact resolveDiagnosticLink_edgeId edge healthy

/-- Edge ids are distinct, so what is reported under an edge's id is the report on the edge. -/
theorem exists_report_iff (hedges : (edges.map (·.edgeId)).Nodup) (hedge : edge ∈ edges)
    (P : DiagnosticEdgeResolution → Prop) :
    (∃ report ∈ resolveDiagnosticTargets U notes (edges.map GraphSourceEdge.diagnostic),
        report.edgeId = edge.edgeId ∧ P report) ↔
      P (resolveDiagnosticEdge U edge.diagnostic (healthyDiagnosticNotes notes) notes) := by
  constructor
  · rintro ⟨report, hmem, hid, hP⟩
    simp only [resolveDiagnosticTargets, List.map_map, List.mem_map, Function.comp] at hmem
    obtain ⟨other, hother, rfl⟩ := hmem
    rw [resolveDiagnosticEdge_edgeId] at hid
    obtain rfl : other = edge := List.inj_on_of_nodup_map hedges hother hedge hid
    exact hP
  · intro hP
    refine ⟨_, List.mem_map.mpr ⟨edge.diagnostic, List.mem_map_of_mem hedge, rfl⟩, ?_, hP⟩
    exact resolveDiagnosticEdge_edgeId _ _ _

theorem anyByPath_eq_none (hsame : List.Forall₂ SameNote notes sources) (pathKey : String) :
    anyByPath U notes pathKey = none ↔ ∀ note ∈ sources, canonicalPathKey U note.relativePath ≠ pathKey := by
  have paths : notes.map (·.relativePath) = sources.map (·.relativePath) := by
    induction hsame with
    | nil => rfl
    | cons hsame _ ih => simp [hsame.relativePath, ih]
  calc anyByPath U notes pathKey = none
      ↔ ∀ path ∈ notes.map (·.relativePath), canonicalPathKey U path ≠ pathKey := by simp [anyByPath]
    _ ↔ _ := by rw [paths]; simp

/-- The report on an edge the shortcuts do not part, from the resolution the projection works with. -/
def reportOf (U : UnicodeTables) (edge : GraphSourceEdge) (healthy : List GraphSourceNote) :
    TargetResolution → DiagnosticEdgeResolution
  | .resolved note => resolvedDiagnosticEdge edge.edgeId note
  | .ambiguous =>
    ambiguousDiagnosticEdge edge.edgeId (linkCandidates U edge.targetPath (healthy.map GraphSourceNote.diagnosed))
  | .missing => missingDiagnosticEdge edge.edgeId none

theorem Comparable.report (hsame : List.Forall₂ SameNote notes sources) (h : Comparable U sources edge) :
    resolveDiagnosticEdge U edge.diagnostic (healthyDiagnosticNotes notes) notes =
      reportOf U edge (indexedNotes sources) (resolveTarget U edge (indexedNotes sources)) := by
  obtain ⟨edgeId, sourceNoteId, sourcePath, targetNoteId, targetPath, relation, confidence, sourceKind⟩ := edge
  rw [healthyDiagnosticNotes_eq hsame]
  cases targetNoteId with
  | some id =>
    obtain ⟨note, hnote⟩ := h
    have byId := noteById_diagnosed (indexedNotes sources) id
    simp only [hnote, Option.map_some] at byId
    simp [resolveDiagnosticEdge, GraphSourceEdge.diagnostic, resolveExplicitDiagnosticEdge, byId, resolveTarget,
      resolveTargetReference, hnote, reportOf, resolvedDiagnosticEdge, GraphSourceNote.diagnosed]
  | none =>
    have byPath := notesByPath_diagnosed (U := U) (indexedNotes sources) (canonicalPathKey U targetPath)
    rcases h with ⟨note, hnote⟩ | habsent
    · simp only at hnote
      simp [resolveDiagnosticEdge, GraphSourceEdge.diagnostic, byPath, hnote, resolveTarget, resolveTargetReference,
        reportOf, resolvedDiagnosticEdge, GraphSourceNote.diagnosed]
    · have none_at : anyByPath U notes (canonicalPathKey U targetPath) = none := (anyByPath_eq_none hsame _).mpr habsent
      have healthy_none : notesByPath U (indexedNotes sources) (canonicalPathKey U targetPath) = [] := by
        refine List.eq_nil_iff_forall_not_mem.mpr fun note hnote => ?_
        have hmem := (sortedByPath_perm _).mem_iff.mp hnote
        simp only [indexedNotes, List.mem_filter, decide_eq_true_eq] at hmem
        exact habsent note hmem.1.1 hmem.2
      have link := resolveTargetReference_diagnosed (U := U) (indexedNotes sources) none targetPath
      simp only [resolveDiagnosticEdge, GraphSourceEdge.diagnostic, byPath, healthy_none, List.map_nil,
        List.head?_nil, none_at, resolveDiagnosticLink, link, resolveTarget, reportOf]
      cases resolveTargetReference U none targetPath (indexedNotes sources) <;> rfl

/-- An ambiguous resolution is reported as ambiguous, and no other is. -/
theorem Comparable.outcome (hsame : List.Forall₂ SameNote notes sources) (h : Comparable U sources edge) :
    let report := resolveDiagnosticEdge U edge.diagnostic (healthyDiagnosticNotes notes) notes
    (∀ target, report.outcome = .resolved ∧ report.targetNoteId = some target ↔
        ∃ note, resolveTarget U edge (indexedNotes sources) = .resolved note ∧ note.noteId = target) ∧
      (report.outcome = .ambiguous ↔ resolveTarget U edge (indexedNotes sources) = .ambiguous) := by
  rw [h.report hsame]
  cases resolveTarget U edge (indexedNotes sources) <;>
    simp [reportOf, resolvedDiagnosticEdge, missingDiagnosticEdge, ambiguousDiagnosticEdge]

theorem PartedByDesign.outcome (hsame : List.Forall₂ SameNote notes sources) (h : PartedByDesign U sources edge) :
    let report := resolveDiagnosticEdge U edge.diagnostic (healthyDiagnosticNotes notes) notes
    report.outcome = .targetNotIndexed ∨ report.outcome = .missing := by
  obtain ⟨edgeId, sourceNoteId, sourcePath, targetNoteId, targetPath, relation, confidence, sourceKind⟩ := edge
  rw [healthyDiagnosticNotes_eq hsame]
  cases targetNoteId with
  | some id =>
    have byId : noteById ((indexedNotes sources).map GraphSourceNote.diagnosed) id = none := by
      rw [noteById_diagnosed, show noteById (indexedNotes sources) id = none from h, Option.map_none]
    simp only [resolveDiagnosticEdge, GraphSourceEdge.diagnostic, resolveExplicitDiagnosticEdge, byId]
    cases anyById notes id with
    | some note => exact Or.inl rfl
    | none => exact Or.inr rfl
  | none =>
    obtain ⟨healthy_none, note, hnote, hkey⟩ := h
    have byPath := notesByPath_diagnosed (U := U) (indexedNotes sources) (canonicalPathKey U targetPath)
    simp only at healthy_none
    simp only [resolveDiagnosticEdge, GraphSourceEdge.diagnostic, byPath, healthy_none, List.map_nil, List.head?_nil]
    cases hany : anyByPath U notes (canonicalPathKey U targetPath) with
    | some note => exact Or.inl rfl
    | none => exact absurd hkey ((anyByPath_eq_none hsame _).mp hany note hnote)

/-- The diagnostics and the projection agree on the edges the shortcuts do not part. On those they part by design the
diagnostics neither resolve nor report an ambiguity. -/
theorem diagnostics_agree (batchSize : ℕ+) (hsame : List.Forall₂ SameNote notes sources)
    (hnotes : (sources.map (·.noteId)).Nodup) (hedges : (edges.map (·.edgeId)).Nodup)
    (hsources : ∀ edge ∈ edges, ∃ source, noteById (indexedNotes sources) edge.sourceNoteId = some source)
    (hedge : edge ∈ edges) :
    (Comparable U sources edge → DiagnosticsAgree U notes sources edges batchSize edge) ∧
      (PartedByDesign U sources edge →
        let reports := resolveDiagnosticTargets U notes (edges.map GraphSourceEdge.diagnostic)
        (∀ target, ¬ DiagnosedResolved reports edge target) ∧ ¬ DiagnosedAmbiguous reports edge) := by
  constructor
  · intro comparable
    obtain ⟨resolved, ambiguous⟩ := comparable.outcome hsame
    constructor
    · intro target
      rw [DiagnosedResolved, exists_report_iff hedges hedge (fun report => _ ∧ _), resolved,
        projectsTo_iff hnotes hedges hedge (hsources edge hedge)]
    · rw [DiagnosedAmbiguous, exists_report_iff hedges hedge (fun report => _), ambiguous,
        reportsAmbiguous_iff hnotes hedges hedge (hsources edge hedge)]
  · intro parted
    have outcome := parted.outcome hsame
    constructor
    · intro target
      rw [DiagnosedResolved, exists_report_iff hedges hedge (fun report => _ ∧ _)]
      rcases outcome with h | h <;> simp [h]
    · rw [DiagnosedAmbiguous, exists_report_iff hedges hedge (fun report => _)]
      rcases outcome with h | h <;> simp [h]

end Agreement

/-! ## A stale explicit id -/

def plainTables : UnicodeTables := ⟨id, id⟩

def sourceNote (noteId relativePath : String) : GraphSourceNote :=
  ⟨noteId, relativePath, "context", noteId, "current", none, [], .indexed⟩

def diagnosticNote (noteId relativePath : String) : DiagnosticNoteInput :=
  ⟨noteId, relativePath, noteId, "current", "indexed", []⟩

def twoSources : List GraphSourceNote := [sourceNote "a" "a.md", sourceNote "b" "b.md"]

def twoNotes : List DiagnosticNoteInput := [diagnosticNote "a" "a.md", diagnosticNote "b" "b.md"]

def linkTo (targetNoteId : Option String) (targetPath : String) : GraphSourceEdge :=
  ⟨"e", "a", "a.md", targetNoteId, targetPath, "references", 0, "wikilink"⟩

theorem twoNotes_same : List.Forall₂ SameNote twoNotes twoSources := by
  refine .cons ?_ (.cons ?_ .nil)
  · exact ⟨rfl, rfl, rfl, rfl, rfl, by decide, by decide, by decide⟩
  · exact ⟨rfl, rfl, rfl, rfl, rfl, by decide, by decide, by decide⟩

/-- The path of the edge resolves in the projection, but its id is of no note. -/
theorem stale_id_disagrees : ¬ ∀ (U : UnicodeTables) (notes : List DiagnosticNoteInput) (sources : List GraphSourceNote)
    (edges : List GraphSourceEdge) (batchSize : ℕ+), List.Forall₂ SameNote notes sources →
    (sources.map (·.noteId)).Nodup → (edges.map (·.edgeId)).Nodup →
    (∀ edge ∈ edges, ∃ source, noteById (indexedNotes sources) edge.sourceNoteId = some source) →
    ∀ edge ∈ edges, DiagnosticsAgree U notes sources edges batchSize edge := by
  intro agree
  have nodup : (twoSources.map (·.noteId)).Nodup := by decide
  have healthy : ∃ source, noteById (indexedNotes twoSources) "a" = some source := ⟨sourceNote "a" "a.md", by decide⟩
  obtain ⟨resolved, -⟩ := agree plainTables twoNotes twoSources [linkTo (some "gone") "b.md"] 1 twoNotes_same nodup
    (by decide) (by simpa [linkTo] using healthy) _ (List.mem_singleton_self _)
  have projects : ProjectsTo (buildProjection plainTables twoSources [linkTo (some "gone") "b.md"] 1)
      (linkTo (some "gone") "b.md") "b" :=
    (projectsTo_iff nodup (by decide) (List.mem_singleton_self _) healthy).mpr
      ⟨sourceNote "b" "b.md", by decide, rfl⟩
  obtain ⟨report, hmem, -, houtcome, -⟩ := (resolved "b").mpr projects
  rw [List.mem_singleton.mp hmem] at houtcome
  exact absurd houtcome (by decide)

theorem diagnostics_agree_on_path :
    DiagnosticsAgree plainTables twoNotes twoSources [linkTo none "b.md"] 1 (linkTo none "b.md") ∧
      let reports := resolveDiagnosticTargets plainTables twoNotes
        ([linkTo (some "gone") "b.md"].map GraphSourceEdge.diagnostic)
      (∀ target, ¬ DiagnosedResolved reports (linkTo (some "gone") "b.md") target) ∧
        ¬ DiagnosedAmbiguous reports (linkTo (some "gone") "b.md") := by
  have healthy : ∀ edge : GraphSourceEdge, edge.sourceNoteId = "a" →
      ∃ source, noteById (indexedNotes twoSources) edge.sourceNoteId = some source := by
    intro edge hedge
    exact ⟨sourceNote "a" "a.md", by rw [hedge]; decide⟩
  constructor
  · refine (diagnostics_agree 1 twoNotes_same (by decide) (by decide) ?_ (List.mem_singleton_self _)).1 ?_
    · simpa [linkTo] using healthy (linkTo none "b.md") rfl
    · exact Or.inl ⟨sourceNote "b" "b.md", by decide⟩
  · refine (diagnostics_agree 1 twoNotes_same (by decide) (by decide) ?_ (List.mem_singleton_self _)).2 ?_
    · simpa [linkTo] using healthy (linkTo (some "gone") "b.md") rfl
    · show noteById (indexedNotes twoSources) "gone" = none
      decide

end Alexandria.Compile
