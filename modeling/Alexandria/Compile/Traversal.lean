import Alexandria.Compile.WellFormed
import Alexandria.Foundations.BreadthFirst

/-! # Traversal of a projection

A traversal visits the notes in breadth first order, up to a depth and up to a number of results. Of its truncation flag the
last test decides when both limits are met at once.
-/

namespace Alexandria.Compile
set_option autoImplicit false
open BreadthFirst (Walk Distance Next grow spread found layer before)

def GraphTraversalRequest.spec (request : GraphTraversalRequest) : TraversalSpec :=
  ⟨request.startNoteId, request.direction, request.relations, request.maxDepth, request.maxResults⟩

/-! ## Steps between notes -/

/-- An edge that the filter takes leads from a note to another, in a direction that is asked for. -/
def StepsTo (projection : GraphProjection) (direction : TraversalDirection) (relations : List String)
    (source target : String) : Prop :=
  ∃ edge ∈ projection.edges, (relations = [] ∨ edge.relation ∈ relations) ∧
    (direction ≠ .incoming ∧ edge.sourceNoteId = source ∧ edge.targetNoteId = target ∨
      direction ≠ .outgoing ∧ edge.targetNoteId = source ∧ edge.sourceNoteId = target)

section Index
variable {projection : GraphProjection} {index : GraphIndex projection}

theorem nodup_of_new (h : GraphIndex.new projection = .ok index) : (projection.nodes.map (·.noteId)).Nodup := by
  unfold GraphIndex.new at h
  split at h
  · cases h
  · rename_i hnone
    exact (Keyed.firstRepeated_eq_none _).mp hnone

theorem nodeId_injective (h : (projection.nodes.map (·.noteId)).Nodup) : (nodeId projection).Injective := by
  intro i j hij
  have hget := List.Nodup.get_inj_iff h (i := ⟨i, by simp⟩) (j := ⟨j, by simp⟩)
  have hsame := hget.mp (by simpa [nodeId] using hij)
  exact Fin.ext (Fin.mk.inj_iff.mp hsame)

theorem nodeId_mem (i : NodeIndex projection) : nodeId projection i ∈ projection.nodes.map (·.noteId) :=
  List.mem_map.mpr ⟨_, List.get_mem _ _, rfl⟩

theorem nodeLookup_eq_some (h : (projection.nodes.map (·.noteId)).Nodup) {id : String} {i : NodeIndex projection} :
    nodeLookup projection id = some i ↔ nodeId projection i = id := by
  have hread : ∀ j, nodeLookup projection id = some j → nodeId projection j = id := by
    intro j hj
    have hfound := List.find?_some hj
    simpa using hfound
  constructor
  · exact hread i
  · intro hid
    obtain ⟨j, hj⟩ := nodeLookup_isSome (hid ▸ nodeId_mem i)
    rw [hj, nodeId_injective h ((hread j hj).trans hid.symm)]

/-- The links of an index are the edges of the projection. -/
theorem link_of_new (h : GraphIndex.new projection = .ok index) :
    (∀ edge ∈ projection.edges, ∃ link ∈ index.links, link.edge = edge) ∧
      ∀ link ∈ index.links, link.edge ∈ projection.edges ∧ nodeId projection link.source = link.edge.sourceNoteId ∧
        nodeId projection link.target = link.edge.targetNoteId := by
  have hnodup := nodup_of_new h
  have hread : ∀ edge link, indexEdge projection edge = .ok link → link.edge = edge ∧
      nodeId projection link.source = edge.sourceNoteId ∧ nodeId projection link.target = edge.targetNoteId := by
    intro edge link hlink
    unfold indexEdge at hlink
    split at hlink
    · cases hlink
    · rename_i source hsource
      split at hlink
      · cases hlink
      · rename_i target htarget
        cases hlink
        exact ⟨rfl, (nodeLookup_eq_some hnodup).mp hsource, (nodeLookup_eq_some hnodup).mp htarget⟩
  unfold GraphIndex.new at h
  split at h
  · cases h
  · obtain ⟨links, hlinks, rfl⟩ := Keyed.map_eq_ok h
    constructor
    · intro edge hedge
      obtain ⟨link, hmem, hlink⟩ := Keyed.mapM_ok_of_mem hlinks hedge
      exact ⟨link, hmem, (hread edge link hlink).1⟩
    · intro link hmem
      obtain ⟨edge, hedge, hlink⟩ := Keyed.mapM_ok_source hlinks hmem
      obtain ⟨rfl, hends⟩ := hread edge link hlink
      exact ⟨hedge, hends⟩

theorem mem_filteredNeighbors {relations : List String} {candidates : List (IndexedNeighbor projection)}
    {b : NodeIndex projection} : b ∈ GraphIndex.filteredNeighbors relations candidates ↔
      ∃ candidate ∈ candidates, (relations = [] ∨ candidate.edge.relation ∈ relations) ∧ candidate.nodeIndex = b := by
  unfold GraphIndex.filteredNeighbors
  simp only [List.mem_map, List.mem_filter, Bool.or_eq_true, List.isEmpty_iff, decide_eq_true_eq, and_assoc]

theorem mem_outgoing {a : NodeIndex projection} {candidate : IndexedNeighbor projection} :
    candidate ∈ index.outgoing a ↔ ∃ link ∈ index.links, link.source = a ∧ ⟨link.target, link.edge⟩ = candidate := by
  unfold GraphIndex.outgoing sortedNeighbors
  rw [List.mem_insertionSort]
  simp [and_assoc]

theorem mem_incoming {a : NodeIndex projection} {candidate : IndexedNeighbor projection} :
    candidate ∈ index.incoming a ↔ ∃ link ∈ index.links, link.target = a ∧ ⟨link.source, link.edge⟩ = candidate := by
  unfold GraphIndex.incoming sortedNeighbors
  rw [List.mem_insertionSort]
  simp [and_assoc]

theorem mem_neighbors (h : GraphIndex.new projection = .ok index) {a b : NodeIndex projection} {spec : TraversalSpec} :
    b ∈ index.neighbors a spec ↔
      StepsTo projection spec.direction spec.relations (nodeId projection a) (nodeId projection b) := by
  have hinjective := nodeId_injective (nodup_of_new h)
  obtain ⟨hedges, hlinks⟩ := link_of_new h
  unfold GraphIndex.neighbors
  simp only [List.mem_insertionSort, List.mem_dedup, List.mem_append]
  constructor
  · rintro (hb | hb)
    · split at hb
      · cases hb
      · rename_i hdirection
        obtain ⟨candidate, hcandidate, hrelation, rfl⟩ := mem_filteredNeighbors.mp hb
        obtain ⟨link, hlink, rfl, rfl⟩ := mem_outgoing.mp hcandidate
        obtain ⟨hedge, hsource, htarget⟩ := hlinks link hlink
        exact ⟨link.edge, hedge, hrelation, .inl ⟨hdirection, hsource.symm, htarget.symm⟩⟩
    · split at hb
      · cases hb
      · rename_i hdirection
        obtain ⟨candidate, hcandidate, hrelation, rfl⟩ := mem_filteredNeighbors.mp hb
        obtain ⟨link, hlink, rfl, rfl⟩ := mem_incoming.mp hcandidate
        obtain ⟨hedge, hsource, htarget⟩ := hlinks link hlink
        exact ⟨link.edge, hedge, hrelation, .inr ⟨hdirection, htarget.symm, hsource.symm⟩⟩
  · rintro ⟨edge, hedge, hrelation, hends⟩
    obtain ⟨link, hlink, rfl⟩ := hedges edge hedge
    obtain ⟨-, hsource, htarget⟩ := hlinks link hlink
    obtain ⟨hdirection, ha, hb⟩ | ⟨hdirection, ha, hb⟩ := hends
    · left
      rw [if_neg hdirection]
      exact mem_filteredNeighbors.mpr ⟨⟨link.target, link.edge⟩,
        mem_outgoing.mpr ⟨link, hlink, hinjective (hsource.trans ha), rfl⟩, hrelation, hinjective (htarget.trans hb)⟩
    · right
      rw [if_neg hdirection]
      exact mem_filteredNeighbors.mpr ⟨⟨link.source, link.edge⟩,
        mem_incoming.mpr ⟨link, hlink, hinjective (htarget.trans ha), rfl⟩, hrelation, hinjective (hsource.trans hb)⟩

/-- Steps lead from nodes to nodes. -/
theorem stepsTo_nodeId (h : GraphIndex.new projection = .ok index) (spec : TraversalSpec) (a : NodeIndex projection)
    (id : String) : StepsTo projection spec.direction spec.relations (nodeId projection a) id ↔
      ∃ b, id = nodeId projection b ∧ Next (fun a => index.neighbors a spec) a b := by
  obtain ⟨hedges, hlinks⟩ := link_of_new h
  constructor
  · intro hstep
    have hnode : ∃ b, id = nodeId projection b := by
      obtain ⟨edge, hedge, -, hends⟩ := hstep
      obtain ⟨link, hlink, rfl⟩ := hedges edge hedge
      obtain ⟨-, hsource, htarget⟩ := hlinks link hlink
      obtain ⟨-, -, rfl⟩ | ⟨-, -, rfl⟩ := hends
      · exact ⟨link.target, htarget.symm⟩
      · exact ⟨link.source, hsource.symm⟩
    obtain ⟨b, rfl⟩ := hnode
    exact ⟨b, rfl, (mem_neighbors h).mpr hstep⟩
  · rintro ⟨b, rfl, hb⟩
    exact (mem_neighbors h).mp hb

theorem distance_nodeId (h : GraphIndex.new projection = .ok index) (spec : TraversalSpec)
    {start a : NodeIndex projection} {n : ℕ} :
    Distance (StepsTo projection spec.direction spec.relations) (nodeId projection start) n (nodeId projection a) ↔
      Distance (Next fun a => index.neighbors a spec) start n a :=
  BreadthFirst.distance_map (stepsTo_nodeId h spec) (nodeId_injective (nodup_of_new h))

/-- The notes that are reached are nodes. -/
theorem walk_nodeId (h : GraphIndex.new projection = .ok index) (spec : TraversalSpec)
    {start : NodeIndex projection} {n : ℕ} {id : String} :
    Walk (StepsTo projection spec.direction spec.relations) (nodeId projection start) n id ↔
      ∃ a, id = nodeId projection a ∧ Walk (Next fun a => index.neighbors a spec) start n a := by
  have hstep := stepsTo_nodeId h spec
  constructor
  · intro hwalk
    exact hwalk.source hstep
  · rintro ⟨a, rfl, ha⟩
    exact (BreadthFirst.walk_map hstep (nodeId_injective (nodup_of_new h))).mpr ha

end Index

/-! ## The loop -/

section Loop
variable {projection : GraphProjection} (index : GraphIndex projection) (spec : TraversalSpec)

/-- The neighbors that the traversal takes. -/
abbrev GraphIndex.next (a : NodeIndex projection) : List (NodeIndex projection) := index.neighbors a spec

def visitOf (x : NodeIndex projection × ℕ) : GraphTraversalVisit := ⟨nodeId projection x.1, x.2⟩

variable (start : NodeIndex projection)

/-- The nodes within the depth, in breadth first order. -/
abbrev GraphIndex.inDepth : List (NodeIndex projection × ℕ) := before (index.next spec) start (spec.maxDepth + 1)

/-- A neighbor of the node is further away than the depth. -/
def GraphIndex.beyond (a : NodeIndex projection) : Bool :=
  index.hasUnvisitedNeighbor a (found (index.next spec) start spec.maxDepth).toFinset spec

/-- What the traversal tells of its limits. -/
def GraphIndex.cutFlag : Bool :=
  if spec.maxResults < (index.inDepth spec start).length then true
  else if (index.inDepth spec start).length = spec.maxResults then
    (index.inDepth spec start).getLast?.any fun last => index.beyond spec start last.1
  else (layer (index.next spec) start spec.maxDepth).any (index.beyond spec start)

def GraphIndex.traversed : TraversalState :=
  ⟨true, ((index.inDepth spec start).take spec.maxResults).map visitOf, index.cutFlag spec start⟩

variable {index spec start}

theorem traverseLoop_nil (visited : Finset (NodeIndex projection)) (visits : List GraphTraversalVisit) (truncated : Bool) :
    index.traverseLoop spec ⟨visited, []⟩ visits truncated = ⟨true, visits, truncated⟩ := by
  rw [GraphIndex.traverseLoop]

theorem traverseLoop_cons (visited : Finset (NodeIndex projection)) (current : NodeIndex projection) (depth : ℕ)
    (queue : List (NodeIndex projection × ℕ)) (visits : List GraphTraversalVisit) (truncated : Bool) :
    index.traverseLoop spec ⟨visited, (current, depth) :: queue⟩ visits truncated =
      if spec.maxResults ≤ visits.length + 1 then
        ⟨true, visits ++ [visitOf (current, depth)], !queue.isEmpty || index.hasUnvisitedNeighbor current visited spec⟩
      else if spec.maxDepth ≤ depth then
        index.traverseLoop spec ⟨visited, queue⟩ (visits ++ [visitOf (current, depth)])
          (truncated || index.hasUnvisitedNeighbor current visited spec)
      else
        index.traverseLoop spec ((index.next spec current).foldl (Frontier.enqueue (depth + 1)) ⟨visited, queue⟩)
          (visits ++ [visitOf (current, depth)]) truncated := by
  rw [GraphIndex.traverseLoop]
  simp only [List.length_append, List.length_singleton]
  rfl

/-- The neighbors that are new wait at the end, and are seen. -/
theorem foldl_enqueue (seen new neighbors : List (NodeIndex projection)) (rest : List (NodeIndex projection × ℕ)) (d : ℕ) :
    neighbors.foldl (Frontier.enqueue d) ⟨(seen ++ new).toFinset, rest ++ new.map fun a => (a, d)⟩ =
      ⟨(seen ++ neighbors.foldl (grow seen) new).toFinset, rest ++ (neighbors.foldl (grow seen) new).map fun a => (a, d)⟩ := by
  induction neighbors generalizing new with
  | nil => rfl
  | cons b neighbors ih =>
    rw [List.foldl_cons, List.foldl_cons]
    have hseen : b ∈ (seen ++ new).toFinset ↔ b ∈ seen ∨ b ∈ new := by
      rw [List.mem_toFinset, List.mem_append]
    by_cases hb : b ∈ seen ∨ b ∈ new
    · have hgrow : grow seen new b = new := if_pos hb
      rw [hgrow, Frontier.enqueue, if_pos (hseen.mpr hb)]
      exact ih new
    · have hgrow : grow seen new b = new ++ [b] := if_neg hb
      have hset : insert b (seen ++ new).toFinset = (seen ++ (new ++ [b])).toFinset := by
        ext a
        simp only [Finset.mem_insert, List.mem_toFinset, List.mem_append, List.mem_singleton]
        tauto
      rw [hgrow, Frontier.enqueue, if_neg (mt hseen.mp hb), hset, List.append_assoc]
      have hqueue : (new.map fun a => (a, d)) ++ [(b, d)] = (new ++ [b]).map fun a => (a, d) := by simp
      rw [hqueue]
      exact ih (new ++ [b])

/-- The traversal stops at a node in the order. -/
theorem traversed_cut {front back : List (NodeIndex projection × ℕ)} {x : NodeIndex projection × ℕ}
    (horder : index.inDepth spec start = front ++ x :: back) (hlength : spec.maxResults = front.length + 1) :
    index.traversed spec start =
      ⟨true, front.map visitOf ++ [visitOf x], !back.isEmpty || index.beyond spec start x.1⟩ := by
  unfold GraphIndex.traversed GraphIndex.cutFlag
  have htake : (front ++ x :: back).take (front.length + 1) = front ++ [x] := by
    rw [List.take_append]
    simp
  rw [horder, hlength, htake, List.map_append, List.length_append, List.length_cons]
  cases back with
  | nil =>
    have hlast : (front ++ [x]).getLast? = some x := List.getLast?_concat
    rw [hlast]
    simp
  | cons y back => simp

/-- The layer at the depth: its nodes are not expanded. -/
theorem traverseLoop_last {done rest : List (NodeIndex projection)}
    (hlayer : layer (index.next spec) start spec.maxDepth = done ++ rest)
    (hfew : (before (index.next spec) start spec.maxDepth).length + done.length < spec.maxResults) :
    index.traverseLoop spec ⟨(found (index.next spec) start spec.maxDepth).toFinset, rest.map fun a => (a, spec.maxDepth)⟩
      ((before (index.next spec) start spec.maxDepth ++ done.map fun a => (a, spec.maxDepth)).map visitOf)
      (done.any (index.beyond spec start)) = index.traversed spec start := by
  induction rest generalizing done with
  | nil =>
    rw [List.append_nil] at hlayer
    have horder : index.inDepth spec start =
        before (index.next spec) start spec.maxDepth ++ done.map fun a => (a, spec.maxDepth) := by
      rw [← hlayer]
      rfl
    have hlength : (index.inDepth spec start).length < spec.maxResults := by
      rw [horder, List.length_append, List.length_map]
      exact hfew
    rw [List.map_nil, traverseLoop_nil]
    unfold GraphIndex.traversed GraphIndex.cutFlag
    rw [if_neg (by omega), if_neg (by omega), List.take_of_length_le hlength.le, horder, hlayer]
  | cons c rest ih =>
    rw [List.map_cons, traverseLoop_cons]
    have horder : index.inDepth spec start =
        (before (index.next spec) start spec.maxDepth ++ done.map fun a => (a, spec.maxDepth)) ++
          (c, spec.maxDepth) :: rest.map fun a => (a, spec.maxDepth) := by
      show before (index.next spec) start spec.maxDepth ++ (layer _ _ _).map _ = _
      rw [hlayer]
      simp
    by_cases hcut : spec.maxResults ≤
        ((before (index.next spec) start spec.maxDepth ++ done.map fun a => (a, spec.maxDepth)).map visitOf).length + 1
    · rw [if_pos hcut]
      rw [List.length_map, List.length_append, List.length_map] at hcut
      rw [traversed_cut horder (by simp; omega)]
      rfl
    · rw [if_neg hcut, if_pos le_rfl]
      rw [List.length_map, List.length_append, List.length_map] at hcut
      have hnext := @ih (done ++ [c]) (by rw [hlayer]; simp) (by simp; omega)
      rw [← hnext]
      have hvisits : ∀ l : List (NodeIndex projection × ℕ), (l ++ done.map fun a => (a, spec.maxDepth)).map visitOf ++
          [visitOf (c, spec.maxDepth)] = (l ++ (done ++ [c]).map fun a => (a, spec.maxDepth)).map visitOf := by simp
      have hflag : (done ++ [c]).any (index.beyond spec start) =
          (done.any (index.beyond spec start) || index.beyond spec start c) := by simp
      rw [hvisits, hflag]
      rfl

/-- A layer above the depth: its nodes are expanded into the next one. -/
theorem traverseLoop_expand {n : ℕ} (hdepth : n < spec.maxDepth)
    (hnext : (before (index.next spec) start (n + 1)).length < spec.maxResults →
      index.traverseLoop spec ⟨(found (index.next spec) start (n + 1)).toFinset,
          (layer (index.next spec) start (n + 1)).map fun a => (a, n + 1)⟩
        ((before (index.next spec) start (n + 1)).map visitOf) false = index.traversed spec start)
    {done rest : List (NodeIndex projection)} (hlayer : layer (index.next spec) start n = done ++ rest)
    (hfew : (before (index.next spec) start n).length + done.length < spec.maxResults) :
    index.traverseLoop spec
        ⟨(found (index.next spec) start n ++ spread (index.next spec) (found (index.next spec) start n) done).toFinset,
          (rest.map fun a => (a, n)) ++
            (spread (index.next spec) (found (index.next spec) start n) done).map fun a => (a, n + 1)⟩
      ((before (index.next spec) start n ++ done.map fun a => (a, n)).map visitOf) false = index.traversed spec start := by
  induction rest generalizing done with
  | nil =>
    rw [List.append_nil] at hlayer
    subst hlayer
    refine hnext ?_
    rw [BreadthFirst.before_succ, List.length_append, List.length_map]
    exact hfew
  | cons c rest ih =>
    rw [List.map_cons, List.cons_append, traverseLoop_cons]
    have hall : layer (index.next spec) start n = (done ++ [c]) ++ rest := by
      rw [hlayer]
      simp
    have hspread := BreadthFirst.spread_concat (index.next spec) (found (index.next spec) start n) done c
    set partly := spread (index.next spec) (found (index.next spec) start n) done with hpartly
    by_cases hcut : spec.maxResults ≤
        ((before (index.next spec) start n ++ done.map fun a => (a, n)).map visitOf).length + 1
    · rw [if_pos hcut]
      rw [List.length_map, List.length_append, List.length_map] at hcut
      obtain ⟨more, hmore⟩ : before (index.next spec) start (n + 2) <+: before (index.next spec) start (spec.maxDepth + 1) :=
        BreadthFirst.before_prefix (by omega)
      have horder : index.inDepth spec start = (before (index.next spec) start n ++ done.map fun a => (a, n)) ++
          (c, n) :: ((rest.map fun a => (a, n)) ++
            ((layer (index.next spec) start (n + 1)).map fun a => (a, n + 1)) ++ more) := by
        show before _ _ _ = _
        rw [← hmore, BreadthFirst.before_succ, BreadthFirst.before_succ, hlayer]
        simp
      rw [traversed_cut horder (by simp; omega)]
      congr 1
      cases hrest : rest with
      | cons d rest => simp
      | nil =>
        rw [hrest, List.append_nil] at hall
        have hlayerNext : layer (index.next spec) start (n + 1) =
            (index.next spec c).foldl (grow (found (index.next spec) start n)) partly := by
          rw [BreadthFirst.layer_succ, hall, hspread]
        cases hempty : layer (index.next spec) start (n + 1) with
        | nil =>
          -- nothing lies behind the layer, so that the sets are the same
          have hpartlyNil : partly = [] := by
            refine List.eq_nil_iff_forall_not_mem.mpr fun a ha => ?_
            have hmem := BreadthFirst.mem_foldl_grow.mpr (.inl ha :
              a ∈ partly ∨ a ∈ index.next spec c ∧ a ∉ found (index.next spec) start n)
            rw [← hlayerNext, hempty] at hmem
            cases hmem
          have hfound : found (index.next spec) start spec.maxDepth = found (index.next spec) start n := by
            have horderSame := BreadthFirst.before_of_layer_nil hempty (show n + 1 ≤ spec.maxDepth + 1 by omega)
            rw [← BreadthFirst.map_fst_before, horderSame, BreadthFirst.map_fst_before]
          have hmoreNil : more = [] := by
            have horderSame := BreadthFirst.before_of_layer_nil hempty (show n + 1 ≤ spec.maxDepth + 1 by omega)
            rw [← hmore, BreadthFirst.before_succ, hempty, List.map_nil, List.append_nil] at horderSame
            exact List.append_right_eq_self.mp horderSame
          rw [hpartlyNil, hmoreNil]
          unfold GraphIndex.beyond
          rw [hfound]
          simp
        | cons b layerNext =>
          have hb := BreadthFirst.mem_foldl_grow.mp (hlayerNext ▸ hempty ▸ List.mem_cons_self :
            b ∈ (index.next spec c).foldl (grow (found (index.next spec) start n)) partly)
          obtain hb | ⟨hb, hnew⟩ := hb
          · obtain ⟨d, ds, hds⟩ := List.exists_cons_of_ne_nil (List.ne_nil_of_mem hb)
            simp [hds]
          · by_cases hpartlyNil : partly = []
            · have hunvisited : index.hasUnvisitedNeighbor c
                  (found (index.next spec) start n ++ partly).toFinset spec = true := by
                refine List.any_eq_true.mpr ⟨b, hb, ?_⟩
                rw [hpartlyNil, List.append_nil]
                simpa using hnew
              rw [hunvisited]
              simp
            · obtain ⟨d, ds, hds⟩ := List.exists_cons_of_ne_nil hpartlyNil
              simp [hds]
    · rw [if_neg hcut, if_neg (by omega)]
      rw [List.length_map, List.length_append, List.length_map] at hcut
      have hstep := ih hall (by simp; omega)
      rw [foldl_enqueue, ← hspread]
      have hvisits : (before (index.next spec) start n ++ done.map fun a => (a, n)).map visitOf ++ [visitOf (c, n)] =
          (before (index.next spec) start n ++ (done ++ [c]).map fun a => (a, n)).map visitOf := by simp
      rw [hvisits]
      exact hstep

/-- From the start of a layer. -/
theorem traverseLoop_layer {n : ℕ} (hn : n ≤ spec.maxDepth)
    (hfew : (before (index.next spec) start n).length < spec.maxResults) :
    index.traverseLoop spec ⟨(found (index.next spec) start n).toFinset,
        (layer (index.next spec) start n).map fun a => (a, n)⟩
      ((before (index.next spec) start n).map visitOf) false = index.traversed spec start := by
  induction hleft : spec.maxDepth - n generalizing n with
  | zero =>
    have hlast : n = spec.maxDepth := by omega
    subst hlast
    have hrun := @traverseLoop_last projection index spec start [] _ rfl (by simpa using hfew)
    rw [List.map_nil, List.append_nil, List.any_nil] at hrun
    exact hrun
  | succ left ih =>
    have hrun := @traverseLoop_expand projection index spec start n (by omega)
      (fun hfew => ih (by omega) hfew (by omega)) [] _ rfl (by simpa using hfew)
    rw [BreadthFirst.spread_nil, List.append_nil, List.map_nil, List.map_nil, List.append_nil, List.append_nil] at hrun
    exact hrun

/-- A traversal takes the first of the nodes within its depth. -/
theorem traverse_eq (hresults : 1 ≤ spec.maxResults) (hstart : nodeLookup projection spec.startNoteId = some start) :
    index.traverse spec = index.traversed spec start := by
  unfold GraphIndex.traverse
  rw [hstart]
  exact @traverseLoop_layer projection index spec start 0 (Nat.zero_le _) (show 0 < spec.maxResults by omega)

theorem inDepth_cons : ∃ more, index.inDepth spec start = (start, 0) :: more := by
  obtain ⟨more, hmore⟩ : before (index.next spec) start 1 <+: before (index.next spec) start (spec.maxDepth + 1) :=
    BreadthFirst.before_prefix (by omega)
  exact ⟨more, hmore.symm⟩

/-- The start is visited even where no result is asked for. -/
theorem traverse_visits (hstart : nodeLookup projection spec.startNoteId = some start) :
    (index.traverse spec).visits = ((index.inDepth spec start).take (max 1 spec.maxResults)).map visitOf := by
  obtain hnone | hresults := Nat.eq_zero_or_pos spec.maxResults
  · obtain ⟨more, hmore⟩ : ∃ more, index.inDepth spec start = (start, 0) :: more := inDepth_cons
    unfold GraphIndex.traverse
    rw [hstart, hnone, hmore]
    show (index.traverseLoop spec ⟨{start}, [(start, 0)]⟩ [] false).visits = _
    rw [traverseLoop_cons, if_pos (hnone ▸ Nat.zero_le _)]
    rfl
  · rw [traverse_eq hresults hstart, max_eq_right hresults]
    rfl

end Loop

end Alexandria.Compile
