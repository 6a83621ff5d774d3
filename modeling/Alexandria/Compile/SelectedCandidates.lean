import Alexandria.Compile.CandidateSelection
import Alexandria.Foundations.Lists

/-! # Selected candidates

What is selected: the best of the notes that were met and are no seeds, each with a shortest path from a seed. The path is found
backwards, and it is found because the visits of a traversal have every nearer note before a further one.
-/

namespace Alexandria.Compile
set_option autoImplicit false
open BreadthFirst (Walk Distance Next grow before)

/-! ## The order of the candidates -/

section Order

/-- Similarity first, then nearness, support and the order in which they were met. -/
def RankedCandidate.rank (candidate : RankedCandidate) : ℚ ×ₗ ℕ ×ₗ ℕᵒᵈ ×ₗ ℕ ×ₗ String :=
  toLex (-(candidate.sharedTitleTrigrams / candidate.titleTrigramUnion : ℚ), toLex (candidate.minDepth,
    toLex (OrderDual.toDual candidate.seedSupport, toLex (candidate.firstSeen, candidate.noteId))))

theorem isLE_then {α : Type} [LinearOrder α] {a b : α} {rest : Ordering} :
    ((compare a b).then rest).isLE = true ↔ a < b ∨ a = b ∧ rest.isLE = true := by
  obtain hlt | heq | hgt := lt_trichotomy a b
  · rw [compare_lt_iff_lt.mpr hlt]
    simp [hlt]
  · subst heq
    simp
  · rw [compare_gt_iff_gt.mpr hgt]
    simp [hgt.not_gt, hgt.ne']

/-- Multiplying across compares the quotients. -/
theorem cross_lt_iff {left right : RankedCandidate} :
    right.sharedTitleTrigrams * left.titleTrigramUnion < left.sharedTitleTrigrams * right.titleTrigramUnion ↔
      -(left.sharedTitleTrigrams / left.titleTrigramUnion : ℚ) < -(right.sharedTitleTrigrams / right.titleTrigramUnion : ℚ) := by
  have hleft : (0 : ℚ) < left.titleTrigramUnion := Nat.cast_pos.mpr left.unionPositive
  have hright : (0 : ℚ) < right.titleTrigramUnion := Nat.cast_pos.mpr right.unionPositive
  rw [neg_lt_neg_iff, div_lt_div_iff₀ hright hleft]
  exact_mod_cast Iff.rfl

theorem cross_eq_iff {left right : RankedCandidate} :
    right.sharedTitleTrigrams * left.titleTrigramUnion = left.sharedTitleTrigrams * right.titleTrigramUnion ↔
      -(left.sharedTitleTrigrams / left.titleTrigramUnion : ℚ) = -(right.sharedTitleTrigrams / right.titleTrigramUnion : ℚ) := by
  have hleft : (left.titleTrigramUnion : ℚ) ≠ 0 := Nat.cast_ne_zero.mpr left.unionPositive.ne'
  have hright : (right.titleTrigramUnion : ℚ) ≠ 0 := Nat.cast_ne_zero.mpr right.unionPositive.ne'
  rw [neg_inj, div_eq_div_iff hleft hright, eq_comm]
  exact_mod_cast Iff.rfl

/-- The comparison is that of the ranks, so that it is a total order. -/
theorem compareRankedCandidates_isLE {left right : RankedCandidate} :
    (compareRankedCandidates left right).isLE = true ↔ left.rank ≤ right.rank := by
  unfold compareRankedCandidates RankedCandidate.rank
  have hlast : (compare left.noteId right.noteId).isLE = true ↔ left.noteId ≤ right.noteId := by
    rw [← compare_le_iff_le]
    cases compare left.noteId right.noteId <;> simp
  simp only [isLE_then, hlast, Prod.Lex.toLex_le_toLex, cross_lt_iff, cross_eq_iff, OrderDual.toDual_lt_toDual,
    OrderDual.toDual_inj]
  simp only [eq_comm (a := right.seedSupport)]

theorem rank_noteId {left right : RankedCandidate} (h : left.rank = right.rank) : left.noteId = right.noteId := by
  unfold RankedCandidate.rank at h
  simp only [toLex_inj, Prod.mk.injEq] at h
  exact h.2.2.2.2

end Order

/-! ## What is gathered of a note -/

/-- The notes that are no seeds, in the order in which they are met. -/
def firstMet (seeds : List String) (visits : List GraphTraversalVisit) : List String :=
  (visits.map (·.noteId)).foldl (grow seeds) []

/-- What the visits say of one note. -/
structure Gathered (seeds : List String) (visits : List GraphTraversalVisit) (noteId : String)
    (candidate : CandidateAccumulator) : Prop where
  reached : ⟨noteId, candidate.minDepth⟩ ∈ visits
  nearest : ∀ visit ∈ visits, visit.noteId = noteId → candidate.minDepth ≤ visit.depth
  support : candidate.seedSupport = visits.countP fun visit => visit.noteId = noteId
  order : candidate.firstSeen = (firstMet seeds visits).idxOf noteId

/-- The accumulators hold what the visits so far say of each note. -/
structure GatheredAll (seeds : List String) (visits : List GraphTraversalVisit) (accumulators : CandidateAccumulators) :
    Prop where
  notes : accumulators.1.map Prod.fst = firstMet seeds visits
  count : accumulators.2 = (firstMet seeds visits).length
  each : ∀ entry ∈ accumulators.1, Gathered seeds visits entry.1 entry.2

section Gather
variable {seeds : List String} {visits : List GraphTraversalVisit} {accumulators : CandidateAccumulators}
  {visit : GraphTraversalVisit}

theorem firstMet_concat : firstMet seeds (visits ++ [visit]) = grow seeds (firstMet seeds visits) visit.noteId := by
  unfold firstMet
  rw [List.map_append, List.foldl_append]
  rfl

theorem nodup_firstMet : (firstMet seeds visits).Nodup := BreadthFirst.nodup_foldl_grow List.nodup_nil

theorem mem_firstMet {id : String} : id ∈ firstMet seeds visits ↔ id ∈ visits.map (·.noteId) ∧ id ∉ seeds := by
  unfold firstMet
  rw [BreadthFirst.mem_foldl_grow]
  simp

/-- The place of a note does not change any more. -/
theorem idxOf_firstMet {id : String} (h : id ∈ firstMet seeds visits) :
    (firstMet seeds (visits ++ [visit])).idxOf id = (firstMet seeds visits).idxOf id := by
  rw [firstMet_concat]
  unfold grow
  split_ifs
  · rfl
  · exact List.idxOf_append_of_mem h

/-- Another visit changes nothing of a note that it is not of. -/
theorem Gathered.other {id : String} {candidate : CandidateAccumulator} (h : Gathered seeds visits id candidate)
    (hmet : id ∈ firstMet seeds visits) (hid : visit.noteId ≠ id) : Gathered seeds (visits ++ [visit]) id candidate := by
  refine ⟨List.mem_append_left _ h.reached, fun later hlater hsame => ?_, ?_, ?_⟩
  · obtain hlater | hlater := List.mem_append.mp hlater
    · exact h.nearest later hlater hsame
    · exact absurd (List.mem_singleton.mp hlater ▸ hsame) hid
  · rw [h.support, List.countP_append]
    simp [hid]
  · rw [h.order, idxOf_firstMet hmet]

theorem Gathered.again {candidate : CandidateAccumulator} (h : Gathered seeds visits visit.noteId candidate)
    (hmet : visit.noteId ∈ firstMet seeds visits) :
    Gathered seeds (visits ++ [visit]) visit.noteId { candidate with
      minDepth := min candidate.minDepth visit.depth
      seedSupport := candidate.seedSupport + 1 } := by
  refine ⟨?_, fun later hlater hsame => ?_, ?_, ?_⟩
  · obtain hle | hle := le_total candidate.minDepth visit.depth
    · rw [min_eq_left hle]
      exact List.mem_append_left _ h.reached
    · rw [min_eq_right hle]
      exact List.mem_append_right _ List.mem_cons_self
  · obtain hlater | hlater := List.mem_append.mp hlater
    · exact (min_le_left _ _).trans (h.nearest later hlater hsame)
    · rw [List.mem_singleton.mp hlater]
      exact min_le_right _ _
  · rw [List.countP_append, ← h.support]
    simp
  · exact h.order.trans (idxOf_firstMet hmet).symm

/-- The visits say one thing of a note. -/
theorem Gathered.unique {id : String} {candidate other : CandidateAccumulator} (h : Gathered seeds visits id candidate)
    (h' : Gathered seeds visits id other) : candidate = other := by
  obtain ⟨minDepth, seedSupport, firstSeen⟩ := candidate
  obtain ⟨minDepth', seedSupport', firstSeen'⟩ := other
  have hdepth : minDepth = minDepth' :=
    Nat.le_antisymm (h.nearest _ h'.reached rfl) (h'.nearest _ h.reached rfl)
  have hsupport : seedSupport = seedSupport' := h.support.trans h'.support.symm
  have horder : firstSeen = firstSeen' := h.order.trans h'.order.symm
  rw [hdepth, hsupport, horder]

theorem Gathered.first (hseed : visit.noteId ∉ seeds) (hnew : visit.noteId ∉ firstMet seeds visits) :
    Gathered seeds (visits ++ [visit]) visit.noteId ⟨visit.depth, 1, (firstMet seeds visits).length⟩ := by
  have hnone : ∀ earlier ∈ visits, earlier.noteId ≠ visit.noteId := by
    intro earlier hearlier hsame
    exact hnew (mem_firstMet.mpr ⟨List.mem_map.mpr ⟨earlier, hearlier, hsame⟩, hseed⟩)
  refine ⟨List.mem_append_right _ List.mem_cons_self, fun later hlater hsame => ?_, ?_, ?_⟩
  · obtain hlater | hlater := List.mem_append.mp hlater
    · exact absurd hsame (hnone later hlater)
    · rw [List.mem_singleton.mp hlater]
  · rw [List.countP_append, List.countP_eq_zero.mpr (by simpa using hnone)]
    simp
  · rw [firstMet_concat, grow, if_neg (by simp [hseed, hnew]), List.idxOf_append_of_notMem hnew]
    simp

theorem GatheredAll.accumulate (h : GatheredAll seeds visits accumulators) (visit : GraphTraversalVisit) :
    GatheredAll seeds (visits ++ [visit]) (accumulate seeds accumulators visit) := by
  have hmet : ∀ entry ∈ accumulators.1, entry.1 ∈ firstMet seeds visits :=
    fun entry hentry => h.notes ▸ List.mem_map_of_mem hentry
  have hput : ∀ (candidate : CandidateAccumulator), Gathered seeds (visits ++ [visit]) visit.noteId candidate →
      ∀ entry ∈ Keyed.put Prod.fst (visit.noteId, candidate) accumulators.1,
        Gathered seeds (visits ++ [visit]) entry.1 entry.2 := by
    intro candidate hcandidate entry hentry
    obtain rfl | ⟨hentry, hother⟩ := Keyed.mem_put.mp hentry
    · exact hcandidate
    · exact (h.each entry hentry).other (hmet entry hentry) (Ne.symm hother)
  have hgrow : firstMet seeds (visits ++ [visit]) = if visit.noteId ∈ seeds ∨ visit.noteId ∈ firstMet seeds visits then
      firstMet seeds visits else firstMet seeds visits ++ [visit.noteId] := firstMet_concat
  unfold Compile.accumulate
  split_ifs with hseed
  · rw [if_pos (.inl hseed)] at hgrow
    refine ⟨h.notes.trans hgrow.symm, hgrow ▸ h.count, fun entry hentry => ?_⟩
    refine (h.each entry hentry).other (hmet entry hentry) fun hid => ?_
    exact (mem_firstMet.mp (hmet entry hentry)).2 (hid ▸ hseed)
  · cases hlookup : Keyed.lookup Prod.fst visit.noteId accumulators.1 with
    | some entry =>
      obtain ⟨id, candidate⟩ := entry
      obtain ⟨hmem, rfl⟩ := Keyed.lookup_mem hlookup
      have hseen : visit.noteId ∈ firstMet seeds visits := hmet _ hmem
      rw [if_pos (.inr hseen)] at hgrow
      refine ⟨?_, hgrow ▸ h.count, hput _ ((h.each _ hmem).again hseen)⟩
      rw [Keyed.map_key_put, hlookup, hgrow]
      exact h.notes
    | none =>
      have hnew : visit.noteId ∉ firstMet seeds visits := by
        rw [← h.notes]
        rintro hmem
        obtain ⟨entry, hentry, hid⟩ := List.mem_map.mp hmem
        exact Keyed.lookup_eq_none.mp hlookup entry hentry hid
      rw [if_neg (not_or.mpr ⟨hseed, hnew⟩)] at hgrow
      refine ⟨?_, ?_, hput _ (h.count ▸ Gathered.first hseed hnew)⟩
      · rw [Keyed.map_key_put, hlookup, hgrow, h.notes]
        rfl
      · rw [hgrow, List.length_append, ← h.count]
        rfl

theorem gatheredAll_foldl (seeds : List String) (visits : List GraphTraversalVisit) :
    GatheredAll seeds visits (visits.foldl (accumulate seeds) ([], 0)) := by
  induction visits using List.reverseRecOn with
  | nil => exact ⟨rfl, rfl, by simp⟩
  | append_singleton visits visit ih =>
    rw [List.foldl_append]
    exact ih.accumulate visit

end Gather

/-! ## Visits and the nearer ones -/

/-- Each visit has its distance, and with a visit there are those of all nearer notes. -/
structure VisitsReach (projection : GraphProjection) (request : GraphTraversalRequest) (visits : List GraphTraversalVisit) :
    Prop where
  distance : ∀ visit ∈ visits,
    Distance (StepsTo projection request.direction request.relations) request.startNoteId visit.depth visit.noteId
  nearer : ∀ visit ∈ visits, ∀ id depth, depth < visit.depth →
    Distance (StepsTo projection request.direction request.relations) request.startNoteId depth id → ⟨id, depth⟩ ∈ visits

section Traversals
variable {projection : GraphProjection} {index : GraphIndex projection} (h : GraphIndex.new projection = .ok index)
include h

theorem visitsReach_traverseRequest (request : GraphTraversalRequest) :
    VisitsReach projection request (index.traverseRequest request).visits := by
  have hvisits : (index.traverseRequest request).visits = (index.traverse request.spec).visits := rfl
  rw [hvisits]
  cases hstart : nodeLookup projection request.startNoteId with
  | none =>
    have hnone : (index.traverse request.spec).visits = [] := by
      unfold GraphIndex.traverse GraphTraversalRequest.spec
      rw [hstart]
    rw [hnone]
    exact ⟨by simp, by simp⟩
  | some start =>
    have hid := (nodeLookup_eq_some (nodup_of_new h)).mp hstart
    have hdistance : ∀ {id n}, Distance (StepsTo projection request.direction request.relations) request.startNoteId n id ↔
        ∃ a, id = nodeId projection a ∧ Distance (Next (index.next request.spec)) start n a := by
      intro id n
      rw [← hid]
      constructor
      · intro hid
        obtain ⟨a, rfl, -⟩ := (walk_nodeId h request.spec).mp hid.walk
        exact ⟨a, rfl, (distance_nodeId h request.spec).mp hid⟩
      · rintro ⟨a, rfl, ha⟩
        exact (distance_nodeId h request.spec).mpr ha
    rw [traverse_visits hstart]
    constructor
    · intro visit hvisit
      obtain ⟨⟨a, d⟩, hmem, rfl⟩ := List.mem_map.mp hvisit
      exact hdistance.mpr ⟨a, rfl, (BreadthFirst.mem_before.mp (List.mem_of_mem_take hmem)).2⟩
    · intro visit hvisit id depth hlt hid
      obtain ⟨⟨a, d⟩, hmem, rfl⟩ := List.mem_map.mp hvisit
      obtain ⟨b, rfl, hb⟩ := hdistance.mp hid
      have hd := (BreadthFirst.mem_before.mp (List.mem_of_mem_take hmem)).1
      exact List.mem_map.mpr ⟨(b, depth), Lists.mem_take_of_before BreadthFirst.pairwise_before hmem
        (BreadthFirst.mem_before.mpr ⟨hlt.trans hd, hb⟩) hlt, rfl⟩

end Traversals

/-! ## The way back to the seed -/

/-- An edge that the request takes, followed in one direction. -/
structure HopAlong (projection : GraphProjection) (request : GraphTraversalRequest) (hop : GraphCandidatePathHop) : Prop where
  edge : ∃ edge ∈ projection.edges, edge.edgeId = hop.edgeId ∧ edge.relation = hop.relation ∧
    (hop.direction = .outgoing ∧ edge.sourceNoteId = hop.sourceNoteId ∧ edge.targetNoteId = hop.targetNoteId ∨
      hop.direction = .incoming ∧ edge.targetNoteId = hop.sourceNoteId ∧ edge.sourceNoteId = hop.targetNoteId)
  direction : request.direction = .both ∨ request.direction = hop.direction
  relation : request.relations = [] ∨ hop.relation ∈ request.relations

/-- A chain of hops from the seed of a request, as many as it is deep. -/
inductive HopsTo (projection : GraphProjection) (request : GraphTraversalRequest) :
    ℕ → String → List GraphCandidatePathHop → Prop
  | seed : HopsTo projection request 0 request.startNoteId []
  | hop {depth : ℕ} {hops : List GraphCandidatePathHop} {hop : GraphCandidatePathHop}
      (h : HopsTo projection request depth hop.sourceNoteId hops) (along : HopAlong projection request hop)
      (hdepth : hop.depth = depth + 1) : HopsTo projection request (depth + 1) hop.targetNoteId (hops ++ [hop])

section Way
variable {projection : GraphProjection} {request : GraphTraversalRequest} {source target : String}

theorem edgeDirection_eq_some {edge : GraphProjectionEdge} {direction : TraversalDirection}
    (h : edgeDirection request source target edge = some direction) :
    (request.direction = .both ∨ request.direction = direction) ∧
      (direction = .outgoing ∧ edge.sourceNoteId = source ∧ edge.targetNoteId = target ∨
        direction = .incoming ∧ edge.targetNoteId = source ∧ edge.sourceNoteId = target) := by
  unfold edgeDirection at h
  split_ifs at h with hforward hbackward
  · cases h
    refine ⟨?_, .inl ⟨rfl, hforward.2⟩⟩
    cases hdirection : request.direction <;> simp_all
  · cases h
    refine ⟨?_, .inr ⟨rfl, hbackward.2⟩⟩
    cases hdirection : request.direction <;> simp_all

theorem matchingPathEdge_eq_some {edge : GraphProjectionEdge} {direction : TraversalDirection}
    (h : matchingPathEdge projection request source target = some (edge, direction)) (depth : ℕ) :
    HopAlong projection request ⟨edge.edgeId, source, target, edge.relation, direction, depth⟩ := by
  unfold matchingPathEdge at h
  have hmem := List.mem_of_mem_head? h
  rw [List.mem_insertionSort, List.mem_filterMap] at hmem
  obtain ⟨found, hfound, hdirection⟩ := hmem
  obtain ⟨hedge, hrelation⟩ := List.mem_filter.mp hfound
  obtain ⟨taken, htaken, hsame⟩ := Option.map_eq_some_iff.mp hdirection
  cases hsame
  obtain ⟨hrequest, hends⟩ := edgeDirection_eq_some htaken
  exact ⟨⟨edge, hedge, rfl, rfl, hends⟩, hrequest, by simpa using hrelation⟩

/-- Where a step leads, an edge is found. -/
theorem matchingPathEdge_of_stepsTo (h : StepsTo projection request.direction request.relations source target) :
    ∃ found, matchingPathEdge projection request source target = some found := by
  obtain ⟨edge, hedge, hrelation, hends⟩ := h
  obtain ⟨direction, hdirection⟩ : ∃ direction, edgeDirection request source target edge = some direction := by
    unfold edgeDirection
    obtain hforward | hbackward := hends
    · exact ⟨_, if_pos hforward⟩
    · split_ifs
      · exact ⟨_, rfl⟩
      · exact ⟨_, rfl⟩
  unfold matchingPathEdge
  refine Option.isSome_iff_exists.mp (List.isSome_head?.mpr fun hnil => ?_)
  have hmem : (edge, direction) ∈ ([] : List (GraphProjectionEdge × TraversalDirection)) := by
    rw [← hnil, List.mem_insertionSort, List.mem_filterMap]
    exact ⟨edge, List.mem_filter.mpr ⟨hedge, by simpa using hrelation⟩, by rw [hdirection]; rfl⟩
  cases hmem

variable {traversal : GraphTraversalResult} (hreach : VisitsReach projection request traversal.visits)
include hreach

theorem predecessor_exists {depth : ℕ} (hvisit : ⟨target, depth + 1⟩ ∈ traversal.visits) :
    ∃ source edge direction, predecessor projection traversal request depth target = some (source, edge, direction) ∧
      ⟨source, depth⟩ ∈ traversal.visits ∧
      HopAlong projection request ⟨edge.edgeId, source, target, edge.relation, direction, depth + 1⟩ := by
  obtain ⟨nearer, hnearer, hstep⟩ := (hreach.distance _ hvisit).from
  have hmem := hreach.nearer _ hvisit nearer depth (Nat.lt_succ_self depth) hnearer
  obtain ⟨found, hfound⟩ := matchingPathEdge_of_stepsTo hstep
  obtain ⟨⟨source, edge, direction⟩, hpredecessor⟩ :
      ∃ before, predecessor projection traversal request depth target = some before := by
    unfold predecessor
    refine Option.isSome_iff_exists.mp (List.findSome?_isSome_iff.mpr ⟨_, hmem, ?_⟩)
    rw [if_neg (by simp), hfound]
    rfl
  refine ⟨source, edge, direction, hpredecessor, ?_⟩
  unfold predecessor at hpredecessor
  obtain ⟨visit, hvisitMem, hvalue⟩ := List.exists_of_findSome?_eq_some hpredecessor
  split_ifs at hvalue with hdepth
  obtain ⟨taken, htaken, hsame⟩ := Option.map_eq_some_iff.mp hvalue
  cases hsame
  rw [not_not] at hdepth
  subst hdepth
  exact ⟨hvisitMem, matchingPathEdge_eq_some htaken _⟩

/-- From every visit the way back is found, and it is a chain of edges that the request takes. -/
theorem pathHops_exist (hstart : traversal.startNoteId = request.startNoteId) (candidateNoteId : String) {depth : ℕ}
    (hvisit : ⟨target, depth⟩ ∈ traversal.visits) :
    ∃ hops, pathHopsForTraversal projection traversal request candidateNoteId depth target = .ok hops ∧
      HopsTo projection request depth target hops := by
  induction depth generalizing target with
  | zero =>
    obtain rfl := (hreach.distance _ hvisit).zero
    exact ⟨[], by rw [pathHopsForTraversal, if_pos hstart.symm], .seed⟩
  | succ depth ih =>
    obtain ⟨source, edge, direction, hpredecessor, hsource, halong⟩ := predecessor_exists hreach hvisit
    obtain ⟨hops, hhops, hchain⟩ := ih hsource
    refine ⟨hops ++ [⟨edge.edgeId, source, target, edge.relation, direction, depth + 1⟩], ?_, hchain.hop halong rfl⟩
    rw [pathHopsForTraversal, hpredecessor]
    show Except.map _ _ = _
    rw [hhops]
    rfl

end Way

/-! ## What is selected -/

/-- A note that may be selected, with what the visits and its title say of it. -/
structure Eligible (T : LetterTables) (projection : GraphProjection) (query : String) (minSharedTrigrams : ℕ)
    (seeds : List String) (visits : List GraphTraversalVisit) (candidate : RankedCandidate) : Prop where
  asked : (normalizedTrigrams T query).Nonempty
  notSeed : candidate.noteId ∉ seeds
  gathered : Gathered seeds visits candidate.noteId ⟨candidate.minDepth, candidate.seedSupport, candidate.firstSeen⟩
  title : ∃ title, titleOf projection candidate.noteId = some title ∧
    candidate.sharedTitleTrigrams = (normalizedTrigrams T query ∩ normalizedTrigrams T title).card ∧
    candidate.titleTrigramUnion = (normalizedTrigrams T query ∪ normalizedTrigrams T title).card
  enough : minSharedTrigrams ≤ candidate.sharedTitleTrigrams

section Selection
variable {T : LetterTables} {projection : GraphProjection} {query : String} {minSharedTrigrams : ℕ}
  {traversals : List GraphTraversalResult}

theorem rankCandidate_eq_some {queryTrigrams : Finset Trigram} {entry : String × CandidateAccumulator}
    {candidate : RankedCandidate} : rankCandidate T projection queryTrigrams minSharedTrigrams entry = some candidate ↔
      candidate.noteId = entry.1 ∧ entry.2 = ⟨candidate.minDepth, candidate.seedSupport, candidate.firstSeen⟩ ∧
      (∃ title, titleOf projection entry.1 = some title ∧
        candidate.sharedTitleTrigrams = (queryTrigrams ∩ normalizedTrigrams T title).card ∧
        candidate.titleTrigramUnion = (queryTrigrams ∪ normalizedTrigrams T title).card) ∧
      minSharedTrigrams ≤ candidate.sharedTitleTrigrams := by
  obtain ⟨id, minDepth, seedSupport, firstSeen⟩ := entry
  unfold rankCandidate
  cases htitle : titleOf projection id with
  | none => simp
  | some title =>
    rw [Option.bind_eq_bind, Option.bind_some]
    constructor
    · intro h
      dsimp only at h
      split_ifs at h with hfew hpositive
      cases h
      exact ⟨rfl, rfl, ⟨title, rfl, rfl, rfl⟩, not_lt.mp hfew⟩
    · rintro ⟨hid, hentry, ⟨_, hsame, hshared, hunion⟩, henough⟩
      obtain rfl := Option.some.inj hsame
      obtain ⟨_, _, _, _, _, _, hpositive⟩ := candidate
      dsimp only at hid hentry hshared hunion henough
      subst hid hshared hunion
      cases hentry
      rw [if_neg (not_lt.mpr henough), dif_pos hpositive]

theorem mem_rankedCandidates (hasked : (normalizedTrigrams T query).Nonempty) {candidate : RankedCandidate} :
    candidate ∈ rankedCandidates T projection (normalizedTrigrams T query) minSharedTrigrams traversals ↔
      Eligible T projection query minSharedTrigrams (seedsOf traversals) (visitsOf traversals) candidate := by
  have hgathered : GatheredAll (seedsOf traversals) (visitsOf traversals) _ := gatheredAll_foldl _ _
  unfold rankedCandidates
  rw [List.mem_insertionSort, List.mem_filterMap]
  constructor
  · rintro ⟨entry, hentry, hrank⟩
    rw [List.mem_insertionSort] at hentry
    obtain ⟨hid, hvalue, htitle, henough⟩ := rankCandidate_eq_some.mp hrank
    have hmet := hgathered.notes ▸ List.mem_map_of_mem (f := Prod.fst) hentry
    refine ⟨hasked, ?_, ?_, hid ▸ htitle, henough⟩
    · rw [hid]
      exact (mem_firstMet.mp hmet).2
    · rw [hid, ← hvalue]
      exact hgathered.each entry hentry
  · intro h
    have hmet : candidate.noteId ∈ firstMet (seedsOf traversals) (visitsOf traversals) :=
      mem_firstMet.mpr ⟨List.mem_map_of_mem h.gathered.reached, h.notSeed⟩
    rw [← hgathered.notes] at hmet
    obtain ⟨entry, hentry, hid⟩ := List.mem_map.mp hmet
    have hentryGathered := hgathered.each entry hentry
    rw [hid] at hentryGathered
    have hvalue := hentryGathered.unique h.gathered
    refine ⟨entry, List.mem_insertionSort _ |>.mpr hentry, rankCandidate_eq_some.mpr ⟨hid.symm, hvalue, ?_, h.enough⟩⟩
    rw [hid]
    exact h.title

theorem rankCandidates_sublist (queryTrigrams : Finset Trigram) (entries : List (String × CandidateAccumulator)) :
    ((entries.filterMap (rankCandidate T projection queryTrigrams minSharedTrigrams)).map (·.noteId)).Sublist
      (entries.map Prod.fst) := by
  induction entries with
  | nil => exact List.Sublist.slnil
  | cons entry entries ih =>
    cases hrank : rankCandidate T projection queryTrigrams minSharedTrigrams entry with
    | none =>
      rw [List.filterMap_cons_none hrank]
      exact ih.cons entry.1
    | some candidate =>
      rw [List.filterMap_cons_some hrank, List.map_cons, List.map_cons, (rankCandidate_eq_some.mp hrank).1]
      exact ih.cons_cons entry.1

/-- The candidates are strictly in the order of their ranks. -/
theorem pairwise_rankedCandidates (queryTrigrams : Finset Trigram) :
    (rankedCandidates T projection queryTrigrams minSharedTrigrams traversals).Pairwise fun left right =>
      left.rank < right.rank := by
  have hgathered : GatheredAll (seedsOf traversals) (visitsOf traversals) _ := gatheredAll_foldl _ _
  unfold rankedCandidates
  have hnotes : (((accumulators traversals).insertionSort fun left right => left.1 ≤ right.1).map Prod.fst).Nodup := by
    refine ((List.perm_insertionSort _ _).map _).nodup_iff.mpr ?_
    show (_ : List String).Nodup
    rw [accumulators, hgathered.notes]
    exact nodup_firstMet
  set candidates := ((accumulators traversals).insertionSort fun left right => left.1 ≤ right.1).filterMap
    (rankCandidate T projection queryTrigrams minSharedTrigrams)
  have hnodup : ((candidates.map RankedCandidate.rank).insertionSort (· ≤ ·)).Nodup := by
    refine (List.perm_insertionSort _ _).nodup_iff.mpr ?_
    have hids : (candidates.map (·.noteId)).Nodup := hnotes.sublist (rankCandidates_sublist _ _)
    exact List.pairwise_map.mpr ((List.pairwise_map.mp hids).imp fun hne hrank => hne (rank_noteId hrank))
  have hsorted : ((candidates.map RankedCandidate.rank).insertionSort (· ≤ ·)).Pairwise (· < ·) :=
    (List.pairwise_insertionSort (· ≤ ·) _).imp₂ (fun _ _ hle hne => lt_of_le_of_ne hle hne) hnodup
  rw [← List.map_insertionSort (fun left right => (compareRankedCandidates left right).isLE = true) (· ≤ ·) _ _
    fun _ _ _ _ => compareRankedCandidates_isLE] at hsorted
  exact List.pairwise_map.mp hsorted

end Selection

/-- What a selection promises of the candidates it has. -/
structure SelectionFaithful (T : LetterTables) (projection : GraphProjection) (requests : List GraphTraversalRequest)
    (traversals : List GraphTraversalResult) (query : String) (maxCandidates minSharedTrigrams : ℕ)
    (candidates : List GraphSelectedCandidate) : Prop where
  count : candidates.length ≤ maxCandidates
  notSeeds : ∀ candidate ∈ candidates, candidate.noteId ∉ requests.map (·.startNoteId)
  /-- The first ones of all eligible notes, in the strict order of their ranks. -/
  best : ∃ ranked : List RankedCandidate, (∀ candidate, candidate ∈ ranked ↔
      Eligible T projection query minSharedTrigrams (seedsOf traversals) (visitsOf traversals) candidate) ∧
    ranked.Pairwise (fun left right => left.rank < right.rank) ∧
    List.Forall₂ (fun (candidate : RankedCandidate) (selected : GraphSelectedCandidate) =>
      selected.noteId = candidate.noteId ∧ selected.minDepth = candidate.minDepth ∧
        selected.seedSupport = candidate.seedSupport ∧
        selected.sharedTitleTrigrams = candidate.sharedTitleTrigrams ∧
        selected.titleTrigramUnion = candidate.titleTrigramUnion) (ranked.take maxCandidates) candidates
  paths : ∀ candidate ∈ candidates, ∃ request ∈ requests,
    HopsTo projection request candidate.minDepth candidate.noteId candidate.pathHops ∧
      Distance (StepsTo projection request.direction request.relations) request.startNoteId candidate.minDepth
        candidate.noteId

section Faithful
variable {projection : GraphProjection} {index : GraphIndex projection} (h : GraphIndex.new projection = .ok index)
  {requests : List GraphTraversalRequest}
include h

/-- A note that was met has a path from the seed of one of the requests. -/
theorem candidatePathHops_exist {noteId : String} {depth : ℕ}
    (hreached : ⟨noteId, depth⟩ ∈ visitsOf (requests.map index.traverseRequest)) :
    ∃ request ∈ requests, ∃ hops,
      candidatePathHops projection (requests.map index.traverseRequest) requests noteId depth = .ok hops ∧
        HopsTo projection request depth noteId hops ∧
        Distance (StepsTo projection request.direction request.relations) request.startNoteId depth noteId := by
  have hzip : (requests.map index.traverseRequest).zip requests =
      requests.map fun request => (index.traverseRequest request, request) := by
    simpa using (List.zip_map' : (requests.map index.traverseRequest).zip (requests.map id) = _)
  obtain ⟨pair, hpair⟩ : ∃ pair, ((requests.map index.traverseRequest).zip requests).find?
      (fun pair => reachesCandidate pair.1 noteId depth) = some pair := by
    obtain ⟨traversal, htraversal, hvisit⟩ := List.mem_flatMap.mp hreached
    obtain ⟨request, hrequest, rfl⟩ := List.mem_map.mp htraversal
    refine Option.isSome_iff_exists.mp (List.find?_isSome.mpr ⟨(index.traverseRequest request, request), ?_, ?_⟩)
    · rw [hzip]
      exact List.mem_map_of_mem (f := fun request => (index.traverseRequest request, request)) hrequest
    · exact List.any_eq_true.mpr ⟨_, hvisit, by simp⟩
  have hfound := List.mem_of_find?_eq_some hpair
  rw [hzip] at hfound
  obtain ⟨request, hrequest, rfl⟩ := List.mem_map.mp hfound
  have hreaches : reachesCandidate (index.traverseRequest request) noteId depth = true := by
    simpa using List.find?_some hpair
  obtain ⟨visit, hvisit, hsame⟩ := List.any_eq_true.mp hreaches
  rw [Bool.and_eq_true, decide_eq_true_eq, decide_eq_true_eq] at hsame
  obtain ⟨rfl, rfl⟩ := hsame
  have hreach := visitsReach_traverseRequest h request
  obtain ⟨hops, hhops, hchain⟩ := pathHops_exist hreach rfl visit.noteId hvisit
  refine ⟨request, hrequest, hops, ?_, hchain, hreach.distance _ hvisit⟩
  unfold candidatePathHops
  rw [hpair]
  exact hhops

theorem selectCandidates_exist (T : LetterTables) (requests : List GraphTraversalRequest) (primaryNoteIds : List String)
    (query : String) (maxCandidates minSharedTrigrams : ℕ) :
    ∃ selection, selectCandidates T projection (requests.map index.traverseRequest) requests primaryNoteIds query
        maxCandidates minSharedTrigrams = .ok selection ∧
      SelectionFaithful T projection requests (requests.map index.traverseRequest) query maxCandidates minSharedTrigrams
        selection.candidates := by
  have hseeds : seedsOf (requests.map index.traverseRequest) = requests.map (·.startNoteId) := by
    unfold seedsOf
    rw [List.map_map]
    rfl
  unfold selectCandidates
  by_cases hasked : normalizedTrigrams T query = ∅
  · refine ⟨_, if_pos hasked, Nat.zero_le _, by simp, ⟨[], fun candidate => ?_, List.Pairwise.nil, ?_⟩, by simp⟩
    · refine ⟨fun hmem => absurd hmem List.not_mem_nil, fun heligible => ?_⟩
      exact absurd hasked heligible.asked.ne_empty
    · rw [List.take_nil]
      exact List.Forall₂.nil
  · rw [if_neg hasked]
    have heligible : ∀ candidate, candidate ∈ rankedCandidates T projection (normalizedTrigrams T query) minSharedTrigrams
        (requests.map index.traverseRequest) ↔ _ :=
      fun candidate => mem_rankedCandidates (Finset.nonempty_iff_ne_empty.mpr hasked)
    have hpath : ∀ candidate ∈ (rankedCandidates T projection (normalizedTrigrams T query) minSharedTrigrams
        (requests.map index.traverseRequest)).take maxCandidates, _ := fun candidate hmem =>
      candidatePathHops_exist h ((heligible candidate).mp (List.mem_of_mem_take hmem)).gathered.reached
    obtain ⟨candidates, hcandidates⟩ : ∃ candidates, ((rankedCandidates T projection (normalizedTrigrams T query)
        minSharedTrigrams (requests.map index.traverseRequest)).take maxCandidates).mapM
          (selectCandidate projection (requests.map index.traverseRequest) requests) = .ok candidates := by
      refine Keyed.exists_mapM_ok fun candidate hmem => ?_
      obtain ⟨request, -, hops, hhops, -⟩ := hpath candidate hmem
      exact ⟨_, congrArg (Except.map _) hhops⟩
    refine ⟨_, congrArg (Except.map _) hcandidates, ?_⟩
    have hselected := Keyed.mapM_eq_ok.mp hcandidates
    have hsource : ∀ selected ∈ candidates, ∃ candidate ∈ (rankedCandidates T projection (normalizedTrigrams T query)
        minSharedTrigrams (requests.map index.traverseRequest)).take maxCandidates, _ :=
      fun selected hmem => Keyed.mapM_ok_source hcandidates hmem
    refine ⟨?_, fun selected hmem => ?_, ⟨_, heligible, pairwise_rankedCandidates _, ?_⟩, fun selected hmem => ?_⟩
    · show candidates.length ≤ _
      rw [← hselected.length_eq]
      exact List.length_take_le _ _
    · obtain ⟨candidate, hcandidate, hvalue⟩ := hsource selected hmem
      obtain ⟨hops, -, rfl⟩ := Keyed.map_eq_ok hvalue
      exact hseeds ▸ ((heligible candidate).mp (List.mem_of_mem_take hcandidate)).notSeed
    · refine hselected.imp fun candidate selected hvalue => ?_
      obtain ⟨hops, -, rfl⟩ := Keyed.map_eq_ok hvalue
      exact ⟨rfl, rfl, rfl, rfl, rfl⟩
    · obtain ⟨candidate, hcandidate, hvalue⟩ := hsource selected hmem
      obtain ⟨request, hrequest, hops, hhops, hchain, hdistance⟩ := hpath candidate hcandidate
      unfold selectCandidate at hvalue
      rw [hhops] at hvalue
      cases hvalue
      exact ⟨request, hrequest, hchain, hdistance⟩

end Faithful

/-- Selecting from the traversals of any requests does not fail, and gives the best candidates with paths to seeds. -/
theorem selected_candidates {projection : GraphProjection} (hprojection : projection.WellFormed) (T : LetterTables)
    (requests : List GraphTraversalRequest) (primaryNoteIds : List String) (query : String)
    (maxCandidates minSharedTrigrams : ℕ) :
    ∃ index, GraphIndex.new projection = .ok index ∧
      ∃ selection, selectCandidates T projection (requests.map index.traverseRequest) requests primaryNoteIds query
          maxCandidates minSharedTrigrams = .ok selection ∧
        SelectionFaithful T projection requests (requests.map index.traverseRequest) query maxCandidates
          minSharedTrigrams selection.candidates := by
  obtain ⟨index, hindex⟩ := hprojection.index
  exact ⟨index, hindex, selectCandidates_exist hindex T requests primaryNoteIds query maxCandidates minSharedTrigrams⟩

def plainLetters : LetterTables := ⟨Char.isAlphanum, fun character => [character.toLower]⟩

/-- A seed and a note next to it. -/
def pairedGraph : GraphProjection where
  nodes := [⟨"a", "a", "note", "Graph seed", "active", none⟩, ⟨"b", "b", "note", "Graph search", "active", none⟩]
  edges := [⟨"1", "a", "a", "b", "b", "related", 0, "wikilink"⟩]

def pairedRequest : GraphTraversalRequest := ⟨"request", "a", .both, [], 2, 5⟩

theorem selected_candidates_paired : ∃ index, GraphIndex.new pairedGraph = .ok index ∧
    ∃ selection, selectCandidates plainLetters pairedGraph ([pairedRequest].map index.traverseRequest) [pairedRequest] []
        "graph search" 3 1 = .ok selection ∧
      SelectionFaithful plainLetters pairedGraph [pairedRequest] ([pairedRequest].map index.traverseRequest)
        "graph search" 3 1 selection.candidates :=
  selected_candidates ⟨by decide, by decide, by decide, by decide⟩ plainLetters
    [pairedRequest] [] "graph search" 3 1

end Alexandria.Compile
