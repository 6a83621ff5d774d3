import Alexandria.Compile.Graph
import Alexandria.Foundations.Representative

/-! # Well-formed projections

Of the notes and of the edges one with each id is kept. The kept notes that are healthy are the nodes, and the kept
edges from a node that resolve to one node are the edges, so that an index can be built on every projection.
-/

namespace Alexandria.Compile
set_option autoImplicit false

open Representative

theorem noteSortKey_mono (left right : GraphSourceNote) (h : noteSortKey left ≤ noteSortKey right) :
    left.noteId ≤ right.noteId := by
  rcases (Prod.Lex.le_iff).mp h with h | h
  · exact h.le
  · exact h.1.le

theorem edgeSortKey_mono (left right : GraphSourceEdge) (h : edgeSortKey left ≤ edgeSortKey right) :
    left.edgeId ≤ right.edgeId := by
  rcases (Prod.Lex.le_iff).mp h with h | h
  · exact h.le
  · exact h.1.le

theorem canonicalNotes_eq (notes : List GraphSourceNote) :
    canonicalNotes notes = representatives noteSortKey (·.noteId) notes := rfl

/-- A first note of its id in the order of the notes, and indexed. -/
structure HealthyFirst (notes : List GraphSourceNote) (note : GraphSourceNote) : Prop where
  least : Least noteSortKey (·.noteId) notes note
  indexed : note.indexStatus = .indexed

/-- A first edge of its id in the order of the edges. -/
abbrev FirstEdge (edges : List GraphSourceEdge) (edge : GraphSourceEdge) : Prop :=
  Least edgeSortKey (·.edgeId) edges edge

/-- The notes that become nodes. -/
abbrev healthyNotes (notes : List GraphSourceNote) : List GraphSourceNote := indexedNotes (canonicalNotes notes)

section Kept
variable {notes : List GraphSourceNote} {edges : List GraphSourceEdge} {note : GraphSourceNote} {edge : GraphSourceEdge}

theorem mem_healthyNotes : note ∈ healthyNotes notes ↔ note ∈ canonicalNotes notes ∧ note.indexStatus = .indexed := by
  simp [healthyNotes, indexedNotes]

theorem healthyFirst_of_mem (h : note ∈ healthyNotes notes) : HealthyFirst notes note := by
  obtain ⟨hmem, hindexed⟩ := mem_healthyNotes.mp h
  exact ⟨least_of_mem noteSortKey_mono hmem, hindexed⟩

/-- Every healthy first note has a note with its key among the nodes. -/
theorem HealthyFirst.kept (h : HealthyFirst notes note) :
    ∃ kept ∈ healthyNotes notes, noteSortKey kept = noteSortKey note := by
  obtain ⟨kept, hmem, hid⟩ := exists_representative noteSortKey_mono h.least.mem
  have hkey := (least_of_mem noteSortKey_mono hmem).key_eq h.least hid
  refine ⟨kept, mem_healthyNotes.mpr ⟨hmem, ?_⟩, hkey⟩
  have hrank : indexStatusRank kept.indexStatus = indexStatusRank note.indexStatus := by
    have := congrArg (fun key => (ofLex (ofLex (ofLex (ofLex (ofLex key).2).2).2).2).2) hkey
    exact this
  rw [h.indexed] at hrank
  cases hstatus : kept.indexStatus <;> simp_all [indexStatusRank]

theorem healthyNotes_nodup (notes : List GraphSourceNote) : ((healthyNotes notes).map (·.noteId)).Nodup :=
  (List.filter_sublist.map _).nodup (representatives_nodup noteSortKey_mono notes)

theorem canonicalEdges_nodup (edges : List GraphSourceEdge) : ((canonicalEdges edges).map (·.edgeId)).Nodup :=
  representatives_nodup edgeSortKey_mono edges

end Kept

/-! ## What a target resolves to -/

/-- The only element of a list with a property. -/
structure Only {α : Type} (xs : List α) (p : α → Prop) (x : α) : Prop where
  mem : x ∈ xs
  holds : p x
  unique : ∀ y ∈ xs, p y → y = x

theorem filter_eq_singleton_iff {α : Type} {xs : List α} (h : xs.Nodup) (p : α → Bool) {x : α} :
    xs.filter p = [x] ↔ Only xs (fun y => p y = true) x := by
  constructor
  · intro hfilter
    have hmem : ∀ y, y ∈ xs ∧ p y = true ↔ y = x := by
      intro y
      rw [← List.mem_filter, hfilter, List.mem_singleton]
    exact ⟨((hmem x).mpr rfl).1, ((hmem x).mpr rfl).2, fun y hy hp => (hmem y).mp ⟨hy, hp⟩⟩
  · intro honly
    refine List.perm_singleton.mp ((List.perm_ext_iff_of_nodup (h.filter _) (List.nodup_singleton x)).mpr fun y => ?_)
    rw [List.mem_filter, List.mem_singleton]
    exact ⟨fun hy => honly.unique y hy.1 hy.2, fun hy => hy ▸ ⟨honly.mem, honly.holds⟩⟩

section Resolution
variable (U : UnicodeTables)

/-- The identity of a target names a node; or its path is that of one node alone; or no node has its path, and one
node alone answers to its link name. -/
inductive ResolvesTo (healthy : List GraphSourceNote) (edge : GraphSourceEdge) (target : GraphSourceNote) : Prop
  | byId (mem : target ∈ healthy) (id : edge.targetNoteId = some target.noteId)
  | byPath (noId : ∀ note ∈ healthy, edge.targetNoteId ≠ some note.noteId)
      (only : Only healthy (fun note => canonicalPathKey U note.relativePath = canonicalPathKey U edge.targetPath) target)
  | byLinkName (noId : ∀ note ∈ healthy, edge.targetNoteId ≠ some note.noteId)
      (noPath : ∀ note ∈ healthy, canonicalPathKey U note.relativePath ≠ canonicalPathKey U edge.targetPath)
      (named : linkName U edge.targetPath ≠ "")
      (only : Only healthy (fun note => linkName U edge.targetPath ∈ noteLinkNames U note) target)

variable {U} {healthy : List GraphSourceNote} (nodup : (healthy.map (·.noteId)).Nodup)

theorem ResolvesTo.mem {edge : GraphSourceEdge} {target : GraphSourceNote} (h : ResolvesTo U healthy edge target) :
    target ∈ healthy := by
  cases h with
  | byId mem id => exact mem
  | byPath noId only => exact only.mem
  | byLinkName noId noPath named only => exact only.mem

theorem sortedByPath_eq_singleton {notes : List GraphSourceNote} {note : GraphSourceNote} :
    sortedByPath notes = [note] ↔ notes = [note] := by
  constructor
  · intro h
    exact List.perm_singleton.mp (h ▸ (sortedByPath_perm notes).symm)
  · rintro rfl
    rfl

theorem sortedByPath_eq_nil {notes : List GraphSourceNote} : sortedByPath notes = [] ↔ notes = [] := by
  constructor
  · intro h
    exact List.perm_nil.mp (h ▸ (sortedByPath_perm notes).symm)
  · rintro rfl
    rfl

theorem chooseOne_eq_resolved {candidates : List GraphSourceNote} {fallback : TargetResolution} {target : GraphSourceNote} :
    chooseOne .resolved fallback .ambiguous candidates = .resolved target ↔
      candidates = [target] ∨ candidates = [] ∧ fallback = .resolved target := by
  rcases candidates with - | ⟨a, - | ⟨b, rest⟩⟩ <;> simp [chooseOne]

include nodup

theorem nodup_of_ids : healthy.Nodup := List.Nodup.of_map _ nodup

theorem targetById_eq_none {targetNoteId : Option String} :
    targetNoteId.bind (noteById healthy) = none ↔ ∀ note ∈ healthy, targetNoteId ≠ some note.noteId := by
  cases targetNoteId with
  | none => simp
  | some id =>
    rw [Option.bind_some, Option.eq_none_iff_forall_ne_some]
    constructor
    · intro h note hnote hid
      exact h note ((noteById_eq_some nodup).mpr ⟨hnote, (Option.some.inj hid).symm⟩)
    · intro h note hnote
      obtain ⟨hmem, hid⟩ := (noteById_eq_some nodup).mp hnote
      exact h note hmem (congrArg some hid.symm)

theorem targetById_eq_some {targetNoteId : Option String} {target : GraphSourceNote} :
    targetNoteId.bind (noteById healthy) = some target ↔ target ∈ healthy ∧ targetNoteId = some target.noteId := by
  rw [Option.bind_eq_some_iff]
  constructor
  · rintro ⟨id, rfl, hfound⟩
    obtain ⟨hmem, hid⟩ := (noteById_eq_some nodup).mp hfound
    exact ⟨hmem, congrArg some hid.symm⟩
  · rintro ⟨hmem, hid⟩
    exact ⟨target.noteId, hid, (noteById_eq_some nodup).mpr ⟨hmem, rfl⟩⟩

/-- The three lookups find a note exactly when the target resolves to it. -/
theorem resolveTarget_eq_resolved {edge : GraphSourceEdge} {target : GraphSourceNote} :
    resolveTarget U edge healthy = .resolved target ↔ ResolvesTo U healthy edge target := by
  have byName : resolveByLinkName U healthy (candidateLinkNames U edge.targetPath) = .resolved target ↔
      linkName U edge.targetPath ≠ "" ∧
        Only healthy (fun note => linkName U edge.targetPath ∈ noteLinkNames U note) target := by
    unfold candidateLinkNames
    by_cases hempty : linkName U edge.targetPath = ""
    · simp [hempty, resolveByLinkName]
    · simp only [String.isEmpty_iff, hempty, if_false, resolveByLinkName_cons, resolveByLinkName, chooseOne_eq_resolved,
        reduceCtorEq, and_false, or_false, ne_eq, not_false_eq_true, true_and]
      rw [notesByLinkName, sortedByPath_eq_singleton, filter_eq_singleton_iff (nodup_of_ids nodup)]
      simp only [decide_eq_true_eq]
  have byPath : notesByPath U healthy (canonicalPathKey U edge.targetPath) = [target] ↔
      Only healthy (fun note => canonicalPathKey U note.relativePath = canonicalPathKey U edge.targetPath) target := by
    rw [notesByPath, sortedByPath_eq_singleton, filter_eq_singleton_iff (nodup_of_ids nodup)]
    simp only [decide_eq_true_eq]
  have noPath : notesByPath U healthy (canonicalPathKey U edge.targetPath) = [] ↔
      ∀ note ∈ healthy, canonicalPathKey U note.relativePath ≠ canonicalPathKey U edge.targetPath := by
    rw [notesByPath, sortedByPath_eq_nil, List.filter_eq_nil_iff]
    simp only [decide_eq_true_eq, ne_eq]
  rw [resolveTarget, resolveTargetReference_eq]
  cases hid : edge.targetNoteId.bind (noteById healthy) with
  | some found =>
    obtain ⟨hmem, hname⟩ := (targetById_eq_some nodup).mp hid
    rw [Option.map_some, Option.getD_some, TargetResolution.resolved.injEq]
    constructor
    · rintro rfl
      exact .byId hmem hname
    · intro h
      cases h with
      | byId mem id =>
        have hsame := (targetById_eq_some nodup).mpr ⟨mem, id⟩
        exact Option.some.inj (hid.symm.trans hsame)
      | byPath noId only => exact absurd hname (noId found hmem)
      | byLinkName noId noPath named only => exact absurd hname (noId found hmem)
  | none =>
    have hnone := (targetById_eq_none nodup).mp hid
    rw [Option.map_none, Option.getD_none, chooseOne_eq_resolved, byPath, noPath, byName]
    constructor
    · rintro (honly | ⟨hno, hnamed, honly⟩)
      · exact .byPath hnone honly
      · exact .byLinkName hnone hno hnamed honly
    · intro h
      cases h with
      | byId mem id => exact absurd id (hnone target mem)
      | byPath noId only => exact .inl only
      | byLinkName noId noPath named only => exact .inr ⟨noPath, named, only⟩

end Resolution

/-! ## The projected edges -/

section Built
variable {U : UnicodeTables} {notes : List GraphSourceNote} {edges : List GraphSourceEdge} {batchSize : ℕ+}

/-- The projected edges are those of the kept edges from a node to the node they resolve to. -/
theorem mem_built_edges {projected : GraphProjectionEdge} :
    projected ∈ (buildProjection U notes edges batchSize).projection.edges ↔
      ∃ edge ∈ canonicalEdges edges, ∃ source ∈ healthyNotes notes, ∃ target, source.noteId = edge.sourceNoteId ∧
        ResolvesTo U (healthyNotes notes) edge target ∧ projected = edge.projected source target := by
  have hmem : projected ∈ (buildProjection U notes edges batchSize).projection.edges ↔
      ∃ edge ∈ canonicalEdges edges, projectEdge U (healthyNotes notes) edge = some (.inl projected) := by
    simp [buildProjection, projectionEdges, List.mem_filterMap, Sum.getLeft?_eq_some_iff]
  rw [hmem]
  refine exists_congr fun edge => and_congr_right fun _ => ?_
  rw [projectEdge_inl]
  constructor
  · rintro ⟨source, target, hsource, hresolved, hprojected⟩
    obtain ⟨hkept, hid⟩ := (noteById_eq_some (healthyNotes_nodup notes)).mp hsource
    exact ⟨source, hkept, target, hid, (resolveTarget_eq_resolved (healthyNotes_nodup notes)).mp hresolved, hprojected⟩
  · rintro ⟨source, hkept, target, hid, hresolves, hprojected⟩
    exact ⟨source, target, (noteById_eq_some (healthyNotes_nodup notes)).mpr ⟨hkept, hid⟩,
      (resolveTarget_eq_resolved (healthyNotes_nodup notes)).mpr hresolves, hprojected⟩

theorem getLeft?_projectEdge {edge : GraphSourceEdge} {healthy : List GraphSourceNote} {projected : GraphProjectionEdge}
    (h : (projectEdge U healthy edge).bind Sum.getLeft? = some projected) : projected.edgeId = edge.edgeId := by
  obtain ⟨outcome, houtcome, hleft⟩ := Option.bind_eq_some_iff.mp h
  rw [Sum.getLeft?_eq_some_iff] at hleft
  obtain ⟨source, target, -, -, rfl⟩ := projectEdge_inl.mp (hleft ▸ houtcome)
  rfl

/-- Each kept edge contributes one projected edge at most, with its own id. -/
theorem projectionEdges_sublist (healthy : List GraphSourceNote) (edges : List GraphSourceEdge) :
    ((projectionEdges U edges healthy).edges.map (·.edgeId)).Sublist (edges.map (·.edgeId)) := by
  simp only [projectionEdges, List.filterMap_filterMap]
  induction edges with
  | nil => exact List.Sublist.refl _
  | cons edge edges ih =>
    cases hproj : (projectEdge U healthy edge).bind Sum.getLeft? with
    | none =>
      simp only [List.filterMap_cons, hproj, List.map_cons]
      exact ih.cons _
    | some projected =>
      simp only [List.filterMap_cons, hproj, List.map_cons, getLeft?_projectEdge hproj]
      exact ih.cons_cons _

end Built

/-! ## The index of a well-formed projection -/

/-- Node ids and edge ids are distinct, and the end points of every edge are nodes. -/
structure GraphProjection.WellFormed (projection : GraphProjection) : Prop where
  nodeIds : (projection.nodes.map (·.noteId)).Nodup
  edgeIds : (projection.edges.map (·.edgeId)).Nodup
  sources : ∀ edge ∈ projection.edges, edge.sourceNoteId ∈ projection.nodes.map (·.noteId)
  targets : ∀ edge ∈ projection.edges, edge.targetNoteId ∈ projection.nodes.map (·.noteId)

theorem nodeLookup_isSome {projection : GraphProjection} {id : String} (h : id ∈ projection.nodes.map (·.noteId)) :
    ∃ i, nodeLookup projection id = some i := by
  obtain ⟨node, hnode, hid⟩ := List.mem_map.mp h
  obtain ⟨i, hi, hget⟩ := List.mem_iff_getElem.mp hnode
  refine Option.isSome_iff_exists.mp (List.find?_isSome.mpr ⟨⟨i, hi⟩, List.mem_finRange _, ?_⟩)
  simp [nodeId, hget, hid]

/-- Building the index of a well-formed projection does not fail. -/
theorem GraphProjection.WellFormed.index {projection : GraphProjection} (h : projection.WellFormed) :
    ∃ index, GraphIndex.new projection = .ok index := by
  have hlinks : ∃ links, projection.edges.mapM (indexEdge projection) = .ok links ∧
      links.map (·.edge) = projection.edges.map id := by
    refine Lists.mapM_ok fun edge hedge => ?_
    obtain ⟨source, hsource⟩ := nodeLookup_isSome (h.sources edge hedge)
    obtain ⟨target, htarget⟩ := nodeLookup_isSome (h.targets edge hedge)
    exact ⟨⟨source, target, edge⟩, by simp only [indexEdge, hsource, htarget], rfl⟩
  obtain ⟨links, hlinks, -⟩ := hlinks
  refine ⟨⟨links⟩, ?_⟩
  rw [GraphIndex.new, (Keyed.firstRepeated_eq_none _).mpr h.nodeIds, hlinks]
  rfl

section Built
variable {U : UnicodeTables} {notes : List GraphSourceNote} {edges : List GraphSourceEdge} {batchSize : ℕ+}

theorem built_nodeIds :
    (buildProjection U notes edges batchSize).projection.nodes.map (·.noteId) = (healthyNotes notes).map (·.noteId) := by
  simp only [buildProjection, List.map_map]
  rfl

theorem buildProjection_wellFormed : (buildProjection U notes edges batchSize).projection.WellFormed where
  nodeIds := built_nodeIds ▸ healthyNotes_nodup notes
  edgeIds := (projectionEdges_sublist _ _).nodup (canonicalEdges_nodup edges)
  sources := by
    intro projected hprojected
    obtain ⟨edge, -, source, hsource, target, hid, -, rfl⟩ := mem_built_edges.mp hprojected
    rw [built_nodeIds]
    exact List.mem_map.mpr ⟨source, hsource, hid⟩
  targets := by
    intro projected hprojected
    obtain ⟨edge, -, source, -, target, -, hresolves, rfl⟩ := mem_built_edges.mp hprojected
    rw [built_nodeIds]
    exact List.mem_map.mpr ⟨target, hresolves.mem, rfl⟩

end Built

section Computed
variable (U : UnicodeTables) (kosarajuScc : ComponentFinder) (request : GraphComputeRequest)

theorem build_wellFormed : (request.build U).projection.WellFormed := buildProjection_wellFormed

theorem computeGraph_ok : ∃ analysis, computeGraph U kosarajuScc request = .ok ⟨request.build U, analysis⟩ := by
  obtain ⟨index, hindex⟩ := (build_wellFormed U request).index
  simp only [computeGraph, analyzeProjection, hindex]
  exact ⟨_, rfl⟩

end Computed

end Alexandria.Compile
