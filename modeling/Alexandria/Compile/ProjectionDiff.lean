import Alexandria.Compile.WellFormed

/-! # Following a projection by its differences

Between two well-formed projections the three lists of ids tell all that changed: a copy of the earlier one that drops, replaces
and takes in just those records is the later one.
-/

namespace Alexandria.Compile
set_option autoImplicit false

/-- A copy without the removed records, with the updated ones replaced and the added ones behind. Only records of these last
two kinds are read. -/
def followed {α : Type} (ident : α → String) (record : String → Option α) (added removed updated : List String)
    (copy : List α) : List α :=
  let kept := copy.filter fun item => ident item ∉ removed
  kept.map (fun item => if ident item ∈ updated then (record (ident item)).getD item else item) ++ added.filterMap record

def GraphProjectionDiff.follow (diff : GraphProjectionDiff) (current copy : GraphProjection) : GraphProjection where
  nodes := followed (·.noteId) (lastWith (·.noteId) current.nodes) diff.addedNodeIds diff.removedNodeIds diff.updatedNodeIds
    copy.nodes
  edges := followed (·.edgeId) (lastWith (·.edgeId) current.edges) diff.addedEdgeIds diff.removedEdgeIds diff.updatedEdgeIds
    copy.edges

/-- Three lists of ids, each in order and without repetition, no id in two of them. -/
structure SeparateIds (added removed updated : List String) : Prop where
  addedOrder : added.Pairwise (· < ·)
  removedOrder : removed.Pairwise (· < ·)
  updatedOrder : updated.Pairwise (· < ·)
  addedRemoved : added.Disjoint removed
  addedUpdated : added.Disjoint updated
  removedUpdated : removed.Disjoint updated

section Records
variable {α : Type} {ident : α → String}

theorem lastWith_mem {items : List α} {id : String} {item : α} (h : lastWith ident items id = some item) :
    item ∈ items ∧ ident item = id :=
  ⟨List.mem_reverse.mp (List.mem_of_find?_eq_some h), by simpa using List.find?_some h⟩

theorem lastWith_eq_some {items : List α} (hitems : (items.map ident).Nodup) {item : α} (hitem : item ∈ items) :
    lastWith ident items (ident item) = some item := by
  have hreverse : (items.reverse.map ident).Nodup := by
    rw [List.map_reverse]
    exact List.nodup_reverse.mpr hitems
  exact (Keyed.lookup_eq_some hreverse).mpr ⟨List.mem_reverse.mpr hitem, rfl⟩

theorem lastWith_eq_none {items : List α} {id : String} : lastWith ident items id = none ↔ id ∉ items.map ident := by
  unfold lastWith
  simp

theorem mem_mapKeys {items : List α} {id : String} : id ∈ mapKeys ident items ↔ id ∈ items.map ident := by
  unfold mapKeys sortedIds
  rw [List.mem_insertionSort, List.mem_dedup]

theorem pairwise_mapKeys (items : List α) : (mapKeys ident items).Pairwise (· < ·) := by
  unfold mapKeys sortedIds
  have hnodup : ((items.map ident).dedup.insertionSort (· ≤ ·)).Nodup :=
    (List.perm_insertionSort _ _).nodup_iff.mpr (List.nodup_dedup _)
  exact (List.pairwise_insertionSort (· ≤ ·) _).imp₂ (fun _ _ hle hne => lt_of_le_of_ne hle hne) hnodup

theorem mem_differenceKeys {left right : List α} {id : String} :
    id ∈ differenceKeys ident left right ↔ id ∈ left.map ident ∧ id ∉ right.map ident := by
  unfold differenceKeys
  rw [List.mem_filter, mem_mapKeys, Option.isNone_iff_eq_none, lastWith_eq_none]

variable {same : α → α → Bool} {previous current : List α}

theorem mem_updatedKeys {id : String} : id ∈ updatedKeys ident same previous current ↔
    ∃ old new, lastWith ident previous id = some old ∧ lastWith ident current id = some new ∧ same old new = false := by
  unfold updatedKeys
  rw [List.mem_filter, mem_mapKeys]
  constructor
  · rintro ⟨-, hchanged⟩
    split at hchanged
    · rename_i old new hold hnew
      exact ⟨old, new, hold, hnew, by simpa using hchanged⟩
    · cases hchanged
  · rintro ⟨old, new, hold, hnew, hchanged⟩
    obtain ⟨hmem, hid⟩ := lastWith_mem hnew
    rw [hold, hnew]
    exact ⟨hid ▸ List.mem_map_of_mem hmem, by simp [hchanged]⟩

theorem separateIds (ident : α → String) (same : α → α → Bool) (previous current : List α) :
    SeparateIds (differenceKeys ident current previous) (differenceKeys ident previous current)
      (updatedKeys ident same previous current) := by
  have hupdated : ∀ id ∈ updatedKeys ident same previous current, id ∈ previous.map ident ∧ id ∈ current.map ident := by
    intro id hid
    obtain ⟨old, new, hold, hnew, -⟩ := mem_updatedKeys.mp hid
    obtain ⟨holdMem, rfl⟩ := lastWith_mem hold
    obtain ⟨hnewMem, hsame⟩ := lastWith_mem hnew
    exact ⟨List.mem_map_of_mem holdMem, hsame ▸ List.mem_map_of_mem hnewMem⟩
  refine ⟨(pairwise_mapKeys current).filter _, (pairwise_mapKeys previous).filter _, (pairwise_mapKeys current).filter _,
    fun id hadded hremoved => ?_, fun id hadded hid => ?_, fun id hremoved hid => ?_⟩
  · exact (mem_differenceKeys.mp hadded).2 (mem_differenceKeys.mp hremoved).1
  · exact (mem_differenceKeys.mp hadded).2 (hupdated id hid).1
  · exact (mem_differenceKeys.mp hremoved).2 (hupdated id hid).2

variable (hsame : ∀ old new, same old new = true ↔ old = new)
  (hprevious : (previous.map ident).Nodup) (hcurrent : (current.map ident).Nodup)
include hsame hprevious hcurrent

theorem mem_followed {item : α} :
    item ∈ followed ident (lastWith ident current) (differenceKeys ident current previous)
      (differenceKeys ident previous current) (updatedKeys ident same previous current) previous ↔ item ∈ current := by
  unfold followed
  rw [List.mem_append, List.mem_map, List.mem_filterMap]
  constructor
  · rintro (⟨old, hold, hreplaced⟩ | ⟨id, -, hadded⟩)
    · obtain ⟨hmem, hkept⟩ := List.mem_filter.mp hold
      have hid : ident old ∈ current.map ident := by
        by_contra hgone
        exact of_decide_eq_true hkept (mem_differenceKeys.mpr ⟨List.mem_map_of_mem hmem, hgone⟩)
      obtain ⟨new, hnew, hident⟩ := List.mem_map.mp hid
      have hrecord : lastWith ident current (ident old) = some new := hident ▸ lastWith_eq_some hcurrent hnew
      split_ifs at hreplaced with hupdated
      · rw [hrecord] at hreplaced
        exact hreplaced ▸ hnew
      · have hunchanged : same old new = true := by
          by_contra hchanged
          exact hupdated (mem_updatedKeys.mpr
            ⟨old, new, lastWith_eq_some hprevious hmem, hrecord, Bool.eq_false_of_not_eq_true hchanged⟩)
        rw [← hreplaced, (hsame old new).mp hunchanged]
        exact hnew
    · exact (lastWith_mem hadded).1
  · intro hitem
    have hrecord := lastWith_eq_some hcurrent hitem
    by_cases hid : ident item ∈ previous.map ident
    · left
      obtain ⟨old, hold, hident⟩ := List.mem_map.mp hid
      refine ⟨old, List.mem_filter.mpr ⟨hold, decide_eq_true fun hremoved => ?_⟩, ?_⟩
      · rw [hident] at hremoved
        exact (mem_differenceKeys.mp hremoved).2 (List.mem_map_of_mem hitem)
      · split_ifs with hupdated
        · rw [hident, hrecord]
          rfl
        · by_contra hdifferent
          have hchanged : same old item = false := Bool.eq_false_of_not_eq_true fun h => hdifferent ((hsame old item).mp h)
          exact hupdated (mem_updatedKeys.mpr
            ⟨old, item, lastWith_eq_some hprevious hold, hident ▸ hrecord, hchanged⟩)
    · exact .inr ⟨ident item, mem_differenceKeys.mpr ⟨List.mem_map_of_mem hitem, hid⟩, hrecord⟩

theorem followed_perm :
    (followed ident (lastWith ident current) (differenceKeys ident current previous)
      (differenceKeys ident previous current) (updatedKeys ident same previous current) previous).Perm current := by
  refine (List.perm_ext_iff_of_nodup (List.Nodup.of_map ident ?_) (List.Nodup.of_map ident hcurrent)).mpr
    fun item => mem_followed hsame hprevious hcurrent
  unfold followed
  rw [List.map_append, List.map_map]
  -- replacing a record keeps its id
  have hkept : ∀ items : List α, items.map (ident ∘ fun item =>
      if ident item ∈ updatedKeys ident same previous current then (lastWith ident current (ident item)).getD item else item) =
      items.map ident := by
    intro items
    refine List.map_congr_left fun item _ => ?_
    show ident (if _ then _ else _) = _
    split_ifs with hupdated
    · obtain ⟨old, new, -, hnew, -⟩ := mem_updatedKeys.mp hupdated
      rw [hnew]
      exact (lastWith_mem hnew).2
    · rfl
  have hadded : ((differenceKeys ident current previous).filterMap (lastWith ident current)).map ident =
      differenceKeys ident current previous := by
    rw [List.map_filterMap]
    refine (List.filterMap_congr fun id hid => ?_).trans List.filterMap_some
    obtain ⟨item, hitem, rfl⟩ := List.mem_map.mp (mem_differenceKeys.mp hid).1
    rw [lastWith_eq_some hcurrent hitem]
    rfl
  rw [hkept, hadded]
  refine List.Nodup.append (hprevious.sublist (List.filter_sublist.map _))
    (((pairwise_mapKeys current).filter _).imp fun hlt => hlt.ne) fun id hid hnew => ?_
  obtain ⟨item, hitem, rfl⟩ := List.mem_map.mp hid
  exact (mem_differenceKeys.mp hnew).2 (List.mem_map_of_mem (List.mem_filter.mp hitem).1)

end Records

/-! ## Whole projections -/

/-- Two edges are equal when all their fields are, the confidence bit by bit. -/
theorem edgeEqual_iff (left right : GraphProjectionEdge) : edgeEqual left right = true ↔ left = right := by
  unfold edgeEqual
  cases left
  cases right
  simp only [Bool.and_eq_true, decide_eq_true_eq, GraphProjectionEdge.mk.injEq, and_assoc]

theorem nodeEqual_iff (left right : GraphProjectionNode) : decide (left = right) = true ↔ left = right := decide_eq_true_iff

theorem differenceKeys_self {α : Type} (ident : α → String) (items : List α) : differenceKeys ident items items = [] :=
  List.eq_nil_iff_forall_not_mem.mpr fun _ hid => (mem_differenceKeys.mp hid).2 (mem_differenceKeys.mp hid).1

theorem updatedKeys_self {α : Type} {ident : α → String} {same : α → α → Bool}
    (hsame : ∀ old new, same old new = true ↔ old = new) (items : List α) : updatedKeys ident same items items = [] := by
  refine List.eq_nil_iff_forall_not_mem.mpr fun id hid => ?_
  obtain ⟨old, new, hold, hnew, hchanged⟩ := mem_updatedKeys.mp hid
  obtain rfl := Option.some.inj (hold.symm.trans hnew)
  rw [(hsame old old).mpr rfl] at hchanged
  cases hchanged

/-- The difference leads from one projection to the other, its lists are apart, and a projection does not differ from itself. -/
theorem projectionDiff_follow {previous current : GraphProjection} (hprevious : previous.WellFormed)
    (hcurrent : current.WellFormed) :
    let diff := projectionDiff (some previous) current
    (diff.follow current previous).nodes.Perm current.nodes ∧ (diff.follow current previous).edges.Perm current.edges ∧
      SeparateIds diff.addedNodeIds diff.removedNodeIds diff.updatedNodeIds ∧
      SeparateIds diff.addedEdgeIds diff.removedEdgeIds diff.updatedEdgeIds ∧
      projectionDiff (some current) current = ⟨[], [], [], [], [], []⟩ := by
  refine ⟨followed_perm nodeEqual_iff hprevious.nodeIds hcurrent.nodeIds,
    followed_perm edgeEqual_iff hprevious.edgeIds hcurrent.edgeIds, separateIds _ _ _ _, separateIds _ _ _ _, ?_⟩
  simp only [projectionDiff, Option.getD_some, differenceKeys_self, updatedKeys_self nodeEqual_iff,
    updatedKeys_self edgeEqual_iff]

def titledNode (id title : String) : GraphProjectionNode := ⟨id, id, "note", title, "active", none⟩

def weighedEdge (id source target : String) (confidence : BitVec 64) : GraphProjectionEdge :=
  ⟨id, source, source, target, target, "related", confidence, "wikilink"⟩

theorem projectionDiff_follow_retitled :
    let previous : GraphProjection := ⟨[titledNode "a" "A", titledNode "b" "B"], [weighedEdge "1" "a" "b" 0]⟩
    let current : GraphProjection := ⟨[titledNode "b" "Bee", titledNode "c" "C"], [weighedEdge "1" "b" "c" 1]⟩
    ((projectionDiff (some previous) current).follow current previous).nodes.Perm current.nodes :=
  (projectionDiff_follow ⟨by decide, by decide, by decide, by decide⟩
    ⟨by decide, by decide, by decide, by decide⟩).1

end Alexandria.Compile
