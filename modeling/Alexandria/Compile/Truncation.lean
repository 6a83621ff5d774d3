import Alexandria.Compile.Traversal

/-! # The truncation flag

What the visits and the flag of a traversal promise, and when the flag keeps the promise. It does not where the results run out
with the last node within the depth: then only the neighbors of that node are asked for.
-/

namespace Alexandria.Compile
set_option autoImplicit false
open BreadthFirst (Walk Distance Next found layer before)

/-! ## What a traversal promises -/

/-- Each note once and with its distance, nearer ones first, within both limits. -/
structure VisitsInOrder (projection : GraphProjection) (spec : TraversalSpec) (visits : List GraphTraversalVisit) : Prop where
  once : (visits.map (·.noteId)).Nodup
  nearest : ∀ visit ∈ visits,
    Distance (StepsTo projection spec.direction spec.relations) spec.startNoteId visit.depth visit.noteId
  ascending : visits.Pairwise fun earlier later => earlier.depth ≤ later.depth
  maxDepth : ∀ visit ∈ visits, visit.depth ≤ spec.maxDepth
  maxResults : visits.length ≤ spec.maxResults

/-- A note that is reached and not visited. -/
def Missing (projection : GraphProjection) (spec : TraversalSpec) (visits : List GraphTraversalVisit) (id : String) : Prop :=
  (∃ n, Walk (StepsTo projection spec.direction spec.relations) spec.startNoteId n id) ∧ id ∉ visits.map (·.noteId)

/-- The flag tells whether a note is missing. -/
structure TraversalFaithful (projection : GraphProjection) (spec : TraversalSpec) (visits : List GraphTraversalVisit)
    (truncated : Bool) : Prop where
  inOrder : VisitsInOrder projection spec visits
  flag : truncated = true ↔ ∃ id, Missing projection spec visits id

/-- One half of a lineage. -/
def GraphLineageRequest.half (request : GraphLineageRequest) (direction : TraversalDirection) (maxResults : ℕ) :
    TraversalSpec := ⟨request.noteId, direction, ["supersedes"], request.maxDepth, maxResults⟩

/-- The note itself is in neither half, and the one flag speaks of both. -/
structure LineageFaithful (projection : GraphProjection) (request : GraphLineageRequest) (result : GraphLineageResult) :
    Prop where
  supersedes : VisitsInOrder projection (request.half .outgoing request.maxResults) result.supersedes
  supersededBy : VisitsInOrder projection (request.half .incoming request.maxResults) result.supersededBy
  flag : result.truncated = true ↔ ∃ id ≠ request.noteId,
    Missing projection (request.half .outgoing request.maxResults) result.supersedes id ∨
      Missing projection (request.half .incoming request.maxResults) result.supersededBy id

/-! ## When the flag is right -/

section Limits
variable {projection : GraphProjection} (index : GraphIndex projection) (spec : TraversalSpec)
  (start : NodeIndex projection)

/-- Some node is out of the limits. -/
def GraphIndex.Exceeded : Prop :=
  spec.maxResults < (index.inDepth spec start).length ∨
    ∃ a ∈ layer (index.next spec) start spec.maxDepth, index.beyond spec start a = true

/-- The results run out with the last node within the depth, which itself leads no further where another one does. -/
def GraphIndex.CutShort : Prop :=
  (index.inDepth spec start).length = spec.maxResults ∧
    (∀ last ∈ (index.inDepth spec start).getLast?, index.beyond spec start last.1 = false) ∧
    ∃ a ∈ layer (index.next spec) start spec.maxDepth, index.beyond spec start a = true

variable {index spec start}

theorem GraphIndex.CutShort.exceeded (h : index.CutShort spec start) : index.Exceeded spec start := .inr h.2.2

/-- What lies beyond the depth is next to the layer at it. -/
theorem mem_layer_of_beyond {a : NodeIndex projection} {d : ℕ} (ha : (a, d) ∈ index.inDepth spec start)
    (hbeyond : index.beyond spec start a = true) : a ∈ layer (index.next spec) start spec.maxDepth := by
  obtain ⟨hd, hdistance⟩ := BreadthFirst.mem_before.mp ha
  obtain ⟨b, hb, hnew⟩ := List.any_eq_true.mp hbeyond
  rw [decide_eq_true_eq, List.mem_toFinset] at hnew
  obtain hd | rfl := Nat.lt_or_eq_of_le (Nat.le_of_lt_succ hd)
  · obtain ⟨m, hm, hnear⟩ := (hdistance.walk.step hb : Walk (Next (index.next spec)) start (d + 1) b).distance
    exact absurd (BreadthFirst.mem_found.mpr ⟨m, by omega, hnear⟩) hnew
  · exact BreadthFirst.mem_layer.mpr hdistance

theorem cutFlag_iff : index.cutFlag spec start = true ↔ index.Exceeded spec start ∧ ¬ index.CutShort spec start := by
  unfold GraphIndex.cutFlag
  split_ifs with hmany hsame
  · refine ⟨fun _ => ⟨.inl hmany, fun hcut => ?_⟩, fun _ => rfl⟩
    have hlength := hcut.1
    omega
  · constructor
    · intro hlast
      obtain ⟨last, hmem, hbeyond⟩ := (Option.any_eq_true _ _).mp hlast
      refine ⟨.inr ⟨last.1, mem_layer_of_beyond (List.mem_of_getLast? hmem) hbeyond, hbeyond⟩, fun hcut => ?_⟩
      rw [hcut.2.1 last hmem] at hbeyond
      cases hbeyond
    · rintro ⟨hmany' | hbeyond, hcut⟩
      · omega
      · by_contra hlast
        refine hcut ⟨hsame, fun last hmem => ?_, hbeyond⟩
        by_contra hlastBeyond
        exact hlast ((Option.any_eq_true _ _).mpr ⟨last, hmem, Bool.eq_true_of_not_eq_false hlastBeyond⟩)
  · rw [List.any_eq_true]
    constructor
    · intro hbeyond
      exact ⟨.inr hbeyond, fun hcut => hsame hcut.1⟩
    · rintro ⟨hmany' | hbeyond, -⟩
      · exact absurd hmany' hmany
      · exact hbeyond

variable (h : GraphIndex.new projection = .ok index)
include h

theorem visitsInOrder_traversed (hstart : nodeId projection start = spec.startNoteId) :
    VisitsInOrder projection spec (index.traversed spec start).visits := by
  have hids : ((index.traversed spec start).visits.map (·.noteId)) =
      ((index.inDepth spec start).take spec.maxResults).map fun x => nodeId projection x.1 := by
    unfold GraphIndex.traversed
    rw [List.map_map]
    rfl
  have htake : ((index.inDepth spec start).take spec.maxResults).Sublist (index.inDepth spec start) := List.take_sublist _ _
  refine ⟨?_, ?_, ?_, ?_, ?_⟩
  · have hnodup : ((index.inDepth spec start).map fun x => nodeId projection x.1).Nodup := by
      have hfound : (found (index.next spec) start spec.maxDepth).Nodup := BreadthFirst.nodup_found
      have hmap := hfound.map (nodeId_injective (nodup_of_new h))
      rwa [← BreadthFirst.map_fst_before, List.map_map] at hmap
    rw [hids]
    exact hnodup.sublist (htake.map _)
  · intro visit hvisit
    obtain ⟨⟨a, d⟩, hmem, rfl⟩ := List.mem_map.mp hvisit
    rw [← hstart]
    exact (distance_nodeId h spec).mpr (BreadthFirst.mem_before.mp (htake.mem hmem)).2
  · exact (BreadthFirst.pairwise_before.sublist htake).map _ fun _ _ hle => hle
  · intro visit hvisit
    obtain ⟨⟨a, d⟩, hmem, rfl⟩ := List.mem_map.mp hvisit
    exact Nat.le_of_lt_succ (BreadthFirst.mem_before.mp (htake.mem hmem)).1
  · unfold GraphIndex.traversed
    rw [List.length_map]
    exact List.length_take_le _ _

/-- A note is missing where the limits are exceeded. -/
theorem exceeded_iff (hstart : nodeId projection start = spec.startNoteId) :
    index.Exceeded spec start ↔ ∃ id, Missing projection spec (index.traversed spec start).visits id := by
  have hinjective := nodeId_injective (nodup_of_new h)
  have hvisited : ∀ b, nodeId projection b ∈ (index.traversed spec start).visits.map (·.noteId) ↔
      b ∈ ((index.inDepth spec start).take spec.maxResults).map Prod.fst := by
    intro b
    unfold GraphIndex.traversed
    simp only [List.map_map, List.mem_map, Function.comp_apply, visitOf, hinjective.eq_iff]
  have hfound : (index.inDepth spec start).map Prod.fst = found (index.next spec) start spec.maxDepth :=
    BreadthFirst.map_fst_before
  have hmissing : (∃ id, Missing projection spec (index.traversed spec start).visits id) ↔
      ∃ b, (∃ n, Walk (Next (index.next spec)) start n b) ∧
        b ∉ ((index.inDepth spec start).take spec.maxResults).map Prod.fst := by
    unfold Missing
    rw [← hstart]
    constructor
    · rintro ⟨id, ⟨n, hwalk⟩, hnew⟩
      obtain ⟨b, rfl, hb⟩ := (walk_nodeId h spec).mp hwalk
      exact ⟨b, ⟨n, hb⟩, mt (hvisited b).mpr hnew⟩
    · rintro ⟨b, ⟨n, hb⟩, hnew⟩
      exact ⟨nodeId projection b, ⟨n, (walk_nodeId h spec).mpr ⟨b, rfl, hb⟩⟩, mt (hvisited b).mp hnew⟩
  rw [hmissing]
  constructor
  · rintro (hmany | ⟨a, ha, hbeyond⟩)
    · -- the first one behind the results
      have hmem : (index.inDepth spec start)[spec.maxResults] ∈ index.inDepth spec start := List.getElem_mem hmany
      refine ⟨((index.inDepth spec start)[spec.maxResults]).1, ⟨_, (BreadthFirst.mem_before.mp hmem).2.walk⟩, fun hin => ?_⟩
      have hnodup : (found (index.next spec) start spec.maxDepth).Nodup := BreadthFirst.nodup_found
      rw [← hfound, ← List.take_append_drop spec.maxResults (index.inDepth spec start), List.map_append] at hnodup
      refine (List.nodup_append.mp hnodup).2.2 _ hin _ (List.mem_map_of_mem ?_) rfl
      rw [List.drop_eq_getElem_cons hmany]
      exact List.mem_cons_self
    · obtain ⟨b, hb, hnew⟩ := List.any_eq_true.mp hbeyond
      rw [decide_eq_true_eq, List.mem_toFinset] at hnew
      refine ⟨b, ⟨_, (BreadthFirst.mem_layer.mp ha).walk.step hb⟩, fun hin => hnew ?_⟩
      rw [← hfound]
      exact ((List.take_sublist _ _).map _).mem hin
  · rintro ⟨b, ⟨n, hb⟩, hnew⟩
    by_contra hwithin
    obtain ⟨hfew, hnone⟩ := not_or.mp hwithin
    rw [List.take_of_length_le (by omega), hfound] at hnew
    -- the walk leaves the nodes within the depth
    obtain ⟨c, d, hc, hd, hout⟩ := hb.leaves BreadthFirst.start_mem_found hnew
    have hbeyond : index.beyond spec start c = true :=
      List.any_eq_true.mpr ⟨d, hd, by simpa using hout⟩
    rw [← hfound] at hc
    obtain ⟨⟨c, k⟩, hmem, rfl⟩ := List.mem_map.mp hc
    exact hnone ⟨c, mem_layer_of_beyond hmem hbeyond, hbeyond⟩

end Limits

/-! ## Both halves of a lineage -/

section Lineage
variable {projection : GraphProjection} {index : GraphIndex projection} {request : GraphLineageRequest}
  {start : NodeIndex projection}

/-- One half is cut short, and the other one does not tell. -/
def GraphIndex.LineageCut (index : GraphIndex projection) (request : GraphLineageRequest) (start : NodeIndex projection) :
    Prop :=
  let supersedes := request.half .outgoing (request.maxResults + 1)
  let supersededBy := request.half .incoming (request.maxResults + 1)
  index.CutShort supersedes start ∧ (index.Exceeded supersededBy start → index.CutShort supersededBy start) ∨
    index.CutShort supersededBy start ∧ (index.Exceeded supersedes start → index.CutShort supersedes start)

/-- Without the note itself there is room for as many others as are asked for. -/
theorem withoutStart_cons {id : String} {depth maxResults : ℕ} {visits : List GraphTraversalVisit}
    (honce : id ∉ visits.map (·.noteId)) (hlength : visits.length ≤ maxResults) :
    GraphIndex.withoutStart (⟨id, depth⟩ :: visits) id maxResults = visits := by
  unfold GraphIndex.withoutStart
  have hkept : visits.filter (fun visit => decide (visit.noteId ≠ id)) = visits := by
    refine List.filter_eq_self.mpr fun visit hvisit => ?_
    have hother : visit.noteId ≠ id := fun hid => honce (hid ▸ List.mem_map_of_mem hvisit)
    simpa using hother
  rw [List.filter_cons_of_neg (by simp), hkept, List.take_of_length_le hlength]

theorem half_traversed (h : GraphIndex.new projection = .ok index) (hstart : nodeId projection start = request.noteId)
    (direction : TraversalDirection) :
    let spec := request.half direction (request.maxResults + 1)
    let visits := GraphIndex.withoutStart (index.traversed spec start).visits request.noteId request.maxResults
    VisitsInOrder projection (request.half direction request.maxResults) visits ∧
      ∀ id, Missing projection spec (index.traversed spec start).visits id ↔
        id ≠ request.noteId ∧ Missing projection (request.half direction request.maxResults) visits id := by
  intro spec visits
  have horder : VisitsInOrder projection spec (index.traversed spec start).visits := visitsInOrder_traversed h hstart
  obtain ⟨more, hmore⟩ : ∃ more, index.inDepth spec start = (start, 0) :: more := inDepth_cons
  have hfirst : (index.traversed spec start).visits = ⟨request.noteId, 0⟩ :: (more.take request.maxResults).map visitOf := by
    unfold GraphIndex.traversed
    rw [hmore, ← hstart]
    rfl
  obtain ⟨honce, hnearest, hascending, hdepth, hlength⟩ := horder
  rw [hfirst] at honce hnearest hascending hdepth hlength
  rw [List.map_cons, List.nodup_cons] at honce
  have hvisits : visits = (more.take request.maxResults).map visitOf := by
    show GraphIndex.withoutStart (index.traversed spec start).visits _ _ = _
    rw [hfirst]
    exact withoutStart_cons honce.1 (Nat.le_of_succ_le_succ hlength)
  rw [hvisits, hfirst]
  refine ⟨⟨honce.2, fun visit hvisit => hnearest visit (.tail _ hvisit), (List.pairwise_cons.mp hascending).2,
    fun visit hvisit => hdepth visit (.tail _ hvisit), Nat.le_of_succ_le_succ hlength⟩, fun id => ?_⟩
  unfold Missing
  rw [List.map_cons, List.mem_cons, not_or]
  exact and_left_comm

theorem lineageRequest_eq (hstart : nodeLookup projection request.noteId = some start) :
    index.lineageRequest request = ⟨request.requestId, request.noteId, true,
      GraphIndex.withoutStart (index.traversed (request.half .outgoing (request.maxResults + 1)) start).visits
        request.noteId request.maxResults,
      GraphIndex.withoutStart (index.traversed (request.half .incoming (request.maxResults + 1)) start).visits
        request.noteId request.maxResults,
      index.cutFlag (request.half .outgoing (request.maxResults + 1)) start ||
        index.cutFlag (request.half .incoming (request.maxResults + 1)) start⟩ := by
  have hrun : ∀ direction, index.traverse (request.half direction (request.maxResults + 1)) =
      index.traversed (request.half direction (request.maxResults + 1)) start :=
    fun direction => traverse_eq (Nat.le_add_left 1 _) hstart
  rw [GraphIndex.lineageRequest, ← GraphLineageRequest.half, ← GraphLineageRequest.half, hrun, hrun]
  rfl

end Lineage

/-! ## The promise and where it is kept -/

/-- Of two flags, each right but where it is cut short, either one tells of what is lost on the two sides. -/
theorem flags_agree_iff {exceeded cut exceeded' cut' : Prop} (hcut : cut → exceeded) (hcut' : cut' → exceeded') :
    (exceeded ∧ ¬ cut ∨ exceeded' ∧ ¬ cut' ↔ exceeded ∨ exceeded') ↔
      ¬ (cut ∧ (exceeded' → cut') ∨ cut' ∧ (exceeded → cut)) := by
  tauto

section Faithful
variable {projection : GraphProjection} {index : GraphIndex projection} {start : NodeIndex projection}
  (h : GraphIndex.new projection = .ok index)
include h

theorem traverseRequest_faithful {request : GraphTraversalRequest}
    (hstart : nodeLookup projection request.startNoteId = some start) (hresults : 1 ≤ request.maxResults) :
    TraversalFaithful projection request.spec (index.traverseRequest request).visits
      (index.traverseRequest request).truncated ↔ ¬ index.CutShort request.spec start := by
  have hid := (nodeLookup_eq_some (nodup_of_new h)).mp hstart
  have hrun : index.traverse request.spec = index.traversed request.spec start := traverse_eq hresults hstart
  show TraversalFaithful _ _ (index.traverse request.spec).visits (index.traverse request.spec).truncated ↔ _
  rw [hrun]
  have hmissing : index.Exceeded request.spec start ↔ _ := exceeded_iff h hid
  have hflag : (index.traversed request.spec start).truncated = true ↔ _ := cutFlag_iff
  constructor
  · rintro ⟨-, htruncated⟩ hcut
    rw [hflag, ← hmissing] at htruncated
    exact (htruncated.mpr hcut.exceeded).2 hcut
  · intro hcut
    refine ⟨visitsInOrder_traversed h hid, ?_⟩
    rw [hflag, ← hmissing]
    exact and_iff_left hcut

theorem lineageRequest_faithful {request : GraphLineageRequest}
    (hstart : nodeLookup projection request.noteId = some start) :
    LineageFaithful projection request (index.lineageRequest request) ↔ ¬ index.LineageCut request start := by
  have hid := (nodeLookup_eq_some (nodup_of_new h)).mp hstart
  obtain ⟨houtgoing, houtgoingMissing⟩ := half_traversed h hid .outgoing
  obtain ⟨hincoming, hincomingMissing⟩ := half_traversed h hid .incoming
  have hmissing : ∀ direction, index.Exceeded (request.half direction (request.maxResults + 1)) start ↔ _ :=
    fun direction => exceeded_iff h hid
  have hresult : index.lineageRequest request = _ := lineageRequest_eq hstart
  have hlost : (∃ id ≠ request.noteId,
      Missing projection (request.half .outgoing request.maxResults) (index.lineageRequest request).supersedes id ∨
        Missing projection (request.half .incoming request.maxResults) (index.lineageRequest request).supersededBy id) ↔
      index.Exceeded (request.half .outgoing (request.maxResults + 1)) start ∨
        index.Exceeded (request.half .incoming (request.maxResults + 1)) start := by
    rw [hmissing, hmissing, hresult]
    simp only [houtgoingMissing, hincomingMissing, ← exists_or, and_or_left]
  have hkept : LineageFaithful projection request (index.lineageRequest request) ↔
      ((index.lineageRequest request).truncated = true ↔ _) :=
    ⟨fun hfaithful => hfaithful.flag, fun hflag => ⟨by rw [hresult]; exact houtgoing, by rw [hresult]; exact hincoming, hflag⟩⟩
  rw [hkept, hlost, hresult, Bool.or_eq_true, cutFlag_iff, cutFlag_iff]
  exact flags_agree_iff GraphIndex.CutShort.exceeded GraphIndex.CutShort.exceeded

/-- All but the flag holds of every traversal, and the flag is right just where the results do not cut the search short. -/
theorem traversals_faithful_iff :
    (∀ request start, nodeLookup projection request.startNoteId = some start → 1 ≤ request.maxResults →
      (TraversalFaithful projection request.spec (index.traverseRequest request).visits
        (index.traverseRequest request).truncated ↔ ¬ index.CutShort request.spec start)) ∧
      ∀ request start, nodeLookup projection request.noteId = some start →
        (LineageFaithful projection request (index.lineageRequest request) ↔ ¬ index.LineageCut request start) :=
  ⟨fun _ _ hstart hresults => traverseRequest_faithful h hstart hresults,
    fun _ _ hstart => lineageRequest_faithful h hstart⟩

end Faithful

/-! ## A search that is cut short -/

def supersedingNode (id : String) : GraphProjectionNode := ⟨id, id, "", "", "", none⟩

def supersedingEdge (id source target : String) : GraphProjectionEdge :=
  ⟨id, source, source, target, target, "supersedes", 0, "frontmatter"⟩

/-- Two notes next to the first one, of which the nearer in the order leads on. -/
def forkedGraph : GraphProjection where
  nodes := ["A", "B", "S", "X"].map supersedingNode
  edges := [supersedingEdge "1" "S" "A", supersedingEdge "2" "S" "B", supersedingEdge "3" "A" "X"]

def forkedNode (i : ℕ) : NodeIndex forkedGraph := ⟨i % 4, Nat.mod_lt i (by decide)⟩

def forkedIndex : GraphIndex forkedGraph where
  links := [⟨forkedNode 2, forkedNode 0, supersedingEdge "1" "S" "A"⟩,
    ⟨forkedNode 2, forkedNode 1, supersedingEdge "2" "S" "B"⟩, ⟨forkedNode 0, forkedNode 3, supersedingEdge "3" "A" "X"⟩]

def forkedRequest (maxResults : ℕ) : GraphTraversalRequest := ⟨"request", "S", .outgoing, [], 1, maxResults⟩

theorem forkedGraph_index : GraphIndex.new forkedGraph = .ok forkedIndex := by
  have hunique : Keyed.firstRepeated (forkedGraph.nodes.map (·.noteId)) = none := rfl
  unfold GraphIndex.new
  rw [hunique]
  rfl

theorem forked_start : nodeLookup forkedGraph "S" = some (forkedNode 2) := rfl

theorem forked_steps : StepsTo forkedGraph .outgoing [] "S" "A" ∧ StepsTo forkedGraph .outgoing [] "A" "X" :=
  ⟨⟨supersedingEdge "1" "S" "A", List.mem_cons_self, .inl rfl, .inl ⟨by decide, rfl, rfl⟩⟩,
    ⟨supersedingEdge "3" "A" "X", .tail _ (.tail _ (.head _)), .inl rfl, .inl ⟨by decide, rfl, rfl⟩⟩⟩

theorem forked_cut : GraphIndex.new forkedGraph = .ok forkedIndex ∧
    ¬ TraversalFaithful forkedGraph (forkedRequest 3).spec (forkedIndex.traverseRequest (forkedRequest 3)).visits
      (forkedIndex.traverseRequest (forkedRequest 3)).truncated := by
  refine ⟨forkedGraph_index, fun hfaithful => ?_⟩
  have hrun : forkedIndex.traverse (forkedRequest 3).spec = forkedIndex.traversed (forkedRequest 3).spec (forkedNode 2) :=
    traverse_eq (by decide) forked_start
  have hvalue : forkedIndex.traversed (forkedRequest 3).spec (forkedNode 2) =
      ⟨true, [⟨"S", 0⟩, ⟨"A", 1⟩, ⟨"B", 1⟩], false⟩ := rfl
  have hflag := hfaithful.flag
  unfold GraphIndex.traverseRequest at hflag
  rw [← GraphTraversalRequest.spec, hrun, hvalue] at hflag
  have hmissing := hflag.mpr ⟨"X", ⟨2, (Walk.refl.step forked_steps.1).step forked_steps.2⟩, by decide⟩
  cases hmissing

/-- With one result less the search tells that it is cut. -/
theorem traversals_faithful_forked : TraversalFaithful forkedGraph (forkedRequest 2).spec
    (forkedIndex.traverseRequest (forkedRequest 2)).visits (forkedIndex.traverseRequest (forkedRequest 2)).truncated :=
  ((traversals_faithful_iff forkedGraph_index).1 (forkedRequest 2) (forkedNode 2) forked_start (by decide)).mpr
    fun hcut => absurd hcut.1 (by decide)

end Alexandria.Compile
