import Alexandria.Reconciliation.Candidates

/-! # Which pairs are compared and which qualify

The comparison pairs of a list of items with distinct ids, read as pairs of items in the order of their ids: they do
not depend on the order of the items, and neither do the pairs that qualify.
-/

namespace Alexandria.Reconciliation.Candidates
set_option autoImplicit false

open Lists

/-! ## What is compared -/

def Related (a b : ReconciliationItem) : Prop := b.itemId ∈ a.graphNeighbors ∨ b.itemId ∈ a.lineageAncestors

def SharesBlock (a b : ReconciliationItem) : Prop := ∃ key ∈ a.blockingKeys, key ∈ b.blockingKeys

/-- The first item of a hash group is compared with the others. -/
def Represents (items : List ReconciliationItem) (a b : ReconciliationItem) : Prop :=
  ∃ contentHash, a.contentHash = some contentHash ∧ b.contentHash = some contentHash ∧
    ∀ c ∈ items, c.contentHash = some contentHash → a.itemId ≤ c.itemId

def Compared (items : List ReconciliationItem) (a b : ReconciliationItem) : Prop :=
  (Related a b ∨ SharesBlock a b ∨ Represents items a b) ∨ (Related b a ∨ SharesBlock b a ∨ Represents items b a)

def Qualifies (env : CandidateEnvironment) (policy : CandidatePolicy) (items : List ReconciliationItem) :
    Set CandidatePair :=
  {pair | ∃ a ∈ items, ∃ b ∈ items, a.itemId < b.itemId ∧ Compared items a b ∧ pairEvidence env policy a b = some pair}

theorem Compared.symm {items : List ReconciliationItem} {a b : ReconciliationItem} (h : Compared items a b) :
    Compared items b a := Or.symm h

variable {items : List ReconciliationItem}

theorem orderedPair_comm {x y : ItemIndex items} (h : x ≠ y) : orderedPair x y = orderedPair y x := by
  unfold orderedPair
  rcases lt_or_gt_of_ne h with hlt | hlt
  · rw [if_pos hlt, if_neg (not_lt.mpr hlt.le)]
  · rw [if_neg (not_lt.mpr hlt.le), if_pos hlt]

/-- The index pairs of a relation between items at different indices. -/
def PairsOf (r : ItemIndex items → ItemIndex items → Prop) (pair : ItemIndex items × ItemIndex items) : Prop :=
  ∃ x y, x ≠ y ∧ r x y ∧ pair = orderedPair x y

theorem pairsOf_or {r s : ItemIndex items → ItemIndex items → Prop} {pair : ItemIndex items × ItemIndex items} :
    PairsOf (fun x y => r x y ∨ s x y) pair ↔ PairsOf r pair ∨ PairsOf s pair := by
  constructor
  · rintro ⟨x, y, hne, h | h, rfl⟩
    · exact .inl ⟨x, y, hne, h, rfl⟩
    · exact .inr ⟨x, y, hne, h, rfl⟩
  · rintro (⟨x, y, hne, h, rfl⟩ | ⟨x, y, hne, h, rfl⟩)
    · exact ⟨x, y, hne, .inl h, rfl⟩
    · exact ⟨x, y, hne, .inr h, rfl⟩

/-- A relation and its converse have the same pairs. -/
theorem pairsOf_symm {r : ItemIndex items → ItemIndex items → Prop} {pair : ItemIndex items × ItemIndex items} :
    PairsOf (fun x y => r x y ∨ r y x) pair ↔ PairsOf r pair := by
  rw [pairsOf_or]
  refine or_iff_left_of_imp ?_
  rintro ⟨x, y, hne, h, rfl⟩
  exact ⟨y, x, hne.symm, h, orderedPair_comm hne⟩

theorem mem_addAllPairs {members : List (ItemIndex items)} {pair : ItemIndex items × ItemIndex items} :
    pair ∈ addAllPairs members ↔ PairsOf (fun x y => x ∈ members ∧ y ∈ members) pair := by
  induction members with
  | nil => simp [addAllPairs, PairsOf]
  | cons left rest ih =>
    rw [addAllPairs, List.mem_append, ih, List.mem_map]
    constructor
    · rintro (⟨right, hright, rfl⟩ | ⟨x, y, hne, ⟨hx, hy⟩, rfl⟩)
      · obtain ⟨hright, hne⟩ : right ∈ rest ∧ left ≠ right := by simpa using hright
        exact ⟨left, right, hne, ⟨List.mem_cons_self, List.mem_cons_of_mem left hright⟩, rfl⟩
      · exact ⟨x, y, hne, ⟨List.mem_cons_of_mem left hx, List.mem_cons_of_mem left hy⟩, rfl⟩
    · rintro ⟨x, y, hne, ⟨hx, hy⟩, rfl⟩
      rcases List.mem_cons.mp hx with rfl | hxrest
      · have hyrest := (List.mem_cons.mp hy).resolve_left hne.symm
        exact .inl ⟨y, by simpa using ⟨hyrest, hne⟩, rfl⟩
      · rcases List.mem_cons.mp hy with rfl | hyrest
        · exact .inl ⟨x, by simpa using ⟨hxrest, hne.symm⟩, orderedPair_comm hne.symm⟩
        · exact .inr ⟨x, y, hne, ⟨hxrest, hyrest⟩, rfl⟩

theorem mem_members {keys : ReconciliationItem → List String} {group : String × List (ItemIndex items)}
    (h : group ∈ grouped items keys) (i : ItemIndex items) : i ∈ group.2 ↔ group.1 ∈ keys (items.get i) := by
  obtain ⟨key, -, rfl⟩ := List.mem_map.mp h
  simp only [List.mem_flatMap, List.mem_map, List.mem_filter, decide_eq_true_eq]
  constructor
  · rintro ⟨j, -, k, ⟨hk, rfl⟩, rfl⟩
    exact hk
  · intro hkey
    exact ⟨i, List.mem_finRange i, key, ⟨hkey, rfl⟩, rfl⟩

theorem exists_group (keys : ReconciliationItem → List String) {key : String} {i : ItemIndex items}
    (h : key ∈ keys (items.get i)) : ∃ group ∈ grouped items keys, group.1 = key := by
  refine ⟨_, List.mem_map.mpr ⟨key, ?_, rfl⟩, rfl⟩
  rw [sortedKeys, List.mem_insertionSort, List.mem_dedup, List.mem_flatMap]
  exact ⟨items.get i, List.get_mem items i, h⟩

/-- How often the items name a key is the size of its block. -/
theorem length_members {keys : ReconciliationItem → List String} {group : String × List (ItemIndex items)}
    (h : group ∈ grouped items keys) : group.2.length = (items.flatMap keys).count group.1 := by
  obtain ⟨key, -, rfl⟩ := List.mem_map.mp h
  have hitems : items = (List.finRange items.length).map items.get := by simp
  show ((List.finRange items.length).flatMap fun i => ((keys (items.get i)).filter (· = key)).map fun _ => i).length = _
  conv_rhs => rw [hitems]
  rw [List.flatMap_map, List.length_flatMap, List.count_flatMap]
  congr 1
  refine List.map_congr_left fun i _ => ?_
  rw [List.length_map, Function.comp_apply, List.count_eq_countP, ← List.countP_eq_length_filter]
  exact List.countP_congr fun k _ => by simp

theorem mem_addRelationPairs {idToIndex : String → Option (ItemIndex items)} {source : ItemIndex items}
    {relationIds : List String} {pair : ItemIndex items × ItemIndex items} :
    pair ∈ addRelationPairs idToIndex source relationIds ↔
      ∃ target, (∃ id ∈ relationIds, idToIndex id = some target) ∧ source ≠ target ∧ pair = orderedPair source target := by
  unfold addRelationPairs
  rw [List.mem_filterMap]
  constructor
  · rintro ⟨id, hid, h⟩
    obtain ⟨target, htarget, h⟩ := Option.bind_eq_some_iff.mp h
    by_cases hne : source ≠ target
    · rw [if_pos hne] at h
      exact ⟨target, ⟨id, hid, htarget⟩, hne, (Option.some.inj h).symm⟩
    · rw [if_neg hne] at h
      cases h
  · rintro ⟨target, ⟨id, hid, htarget⟩, hne, rfl⟩
    exact ⟨id, hid, by rw [htarget]; exact if_pos hne⟩

section Distinct
variable (hids : (items.map (·.itemId)).Nodup)
include hids

theorem itemId_injective {i j : ItemIndex items} (h : (items.get i).itemId = (items.get j).itemId) : i = j := by
  have hget := List.inj_on_of_nodup_map hids (List.get_mem items i) (List.get_mem items j) h
  exact List.nodup_iff_injective_get.mp (hids.of_map _) hget

/-- Distinct ids are looked up at their items. -/
theorem uniqueItemIndex_ok : ∃ idToIndex, uniqueItemIndex items = .ok idToIndex ∧
    ∀ id i, idToIndex id = some i ↔ (items.get i).itemId = id := by
  refine ⟨fun id => (List.finRange items.length).find? fun i => (items.get i).itemId = id, ?_, fun id i => ?_⟩
  · unfold uniqueItemIndex
    rw [(Keyed.firstRepeated_eq_none _).mpr hids]
  · constructor
    · intro h
      simpa using List.find?_some h
    · intro h
      cases hfound : (List.finRange items.length).find? fun i => (items.get i).itemId = id with
      | none => exact absurd h (by simpa using List.find?_eq_none.mp hfound i (List.mem_finRange i))
      | some j =>
        have hj : (items.get j).itemId = id := by simpa using List.find?_some hfound
        rw [← itemId_injective hids (hj.trans h.symm)]
        exact hfound

omit hids in
theorem nodup_hashMembers {group : String × List (ItemIndex items)} (h : group ∈ grouped items (·.contentHash.toList)) :
    group.2.Nodup := by
  obtain ⟨key, -, rfl⟩ := List.mem_map.mp h
  refine List.nodup_flatMap.mpr ⟨fun i _ => ?_, ?_⟩
  · have hlength : (items.get i).contentHash.toList.length ≤ 1 := by cases (items.get i).contentHash <;> simp
    have hkept := (List.length_filter_le (fun k => decide (k = key)) (items.get i).contentHash.toList).trans hlength
    rw [List.map_const', List.nodup_replicate]
    exact hkept
  · refine (List.nodup_finRange _).imp fun {i j} hij => ?_
    intro k hi hj
    obtain ⟨-, -, rfl⟩ := List.mem_map.mp hi
    obtain ⟨-, -, rfl⟩ := List.mem_map.mp hj
    exact hij rfl

/-- The pairs of a hash group join its first member to every other one. -/
theorem mem_representativePairs {group : String × List (ItemIndex items)} (h : group ∈ grouped items (·.contentHash.toList))
    {pair : ItemIndex items × ItemIndex items} : pair ∈ representativePairs group.2 ↔
      PairsOf (fun x y => x ∈ group.2 ∧ y ∈ group.2 ∧ ∀ z ∈ group.2, (items.get x).itemId ≤ (items.get z).itemId) pair := by
  have hordered := sorted_pairwise (fun i : ItemIndex items => (items.get i).itemId) group.2
  have hmem : ∀ i, i ∈ sorted (fun i : ItemIndex items => (items.get i).itemId) group.2 ↔ i ∈ group.2 := fun i => mem_sorted
  have hnodup : (sorted (fun i : ItemIndex items => (items.get i).itemId) group.2).Nodup :=
    (List.perm_insertionSort _ _).nodup_iff.mpr (nodup_hashMembers h)
  unfold representativePairs
  unfold sorted at hordered hmem hnodup
  cases hsorted : group.2.insertionSort fun left right => (items.get left).itemId ≤ (items.get right).itemId with
  | nil =>
    rw [hsorted] at hmem
    constructor
    · intro hpair
      cases hpair
    · rintro ⟨x, y, -, ⟨hx, -⟩, -⟩
      cases (hmem x).mpr hx
  | cons representative rest =>
    rw [hsorted] at hordered hmem hnodup
    have hleast : ∀ z ∈ group.2, (items.get representative).itemId ≤ (items.get z).itemId := by
      intro z hz
      rcases List.mem_cons.mp ((hmem z).mpr hz) with rfl | hz
      · exact le_rfl
      · exact (List.pairwise_cons.mp hordered).1 z hz
    have hfirst : representative ∈ group.2 := (hmem _).mp List.mem_cons_self
    simp only [List.mem_map]
    constructor
    · rintro ⟨y, hy, rfl⟩
      have hne : representative ≠ y := fun e => (List.nodup_cons.mp hnodup).1 (e ▸ hy)
      exact ⟨representative, y, hne, ⟨hfirst, (hmem y).mp (List.mem_cons_of_mem _ hy), hleast⟩, rfl⟩
    · rintro ⟨x, y, hne, ⟨hx, hy, hle⟩, rfl⟩
      obtain rfl := itemId_injective hids (le_antisymm (hle representative hfirst) (hleast x hx))
      exact ⟨y, (List.mem_cons.mp ((hmem y).mpr hy)).resolve_left hne.symm, rfl⟩

/-! ## The comparison pairs of items -/

omit hids in
theorem blockPairs_eq_ok {debug : String → String} {maxBlockSize : ℕ} {block : String × List (ItemIndex items)}
    {pairs : List (ItemIndex items × ItemIndex items)} :
    blockPairs debug maxBlockSize block = .ok pairs ↔ block.2.length ≤ maxBlockSize ∧ addAllPairs block.2 = pairs := by
  unfold blockPairs
  by_cases hsize : maxBlockSize < block.2.length
  · rw [if_pos hsize]
    exact iff_of_false (by simp) fun h => absurd h.1 (not_le.mpr hsize)
  · rw [if_neg hsize, Except.ok.injEq]
    exact (and_iff_right (not_lt.mp hsize)).symm

omit hids in
/-- All blocks are expanded where none is oversized. -/
theorem blocks_eq_ok {debug : String → String} {maxBlockSize : ℕ} {groups : List (String × List (ItemIndex items))}
    {blocks : List (List (ItemIndex items × ItemIndex items))} :
    groups.mapM (blockPairs debug maxBlockSize) = .ok blocks ↔
      (∀ group ∈ groups, group.2.length ≤ maxBlockSize) ∧ groups.map (addAllPairs ·.2) = blocks := by
  rw [Keyed.mapM_eq_ok]
  simp only [blockPairs_eq_ok]
  constructor
  · intro h
    induction h with
    | nil => exact ⟨by simp, rfl⟩
    | cons hfirst _ ih =>
      obtain ⟨hall, hmap⟩ := ih
      exact ⟨List.forall_mem_cons.mpr ⟨hfirst.1, hall⟩, by rw [List.map_cons, hfirst.2, hmap]⟩
  · rintro ⟨hall, rfl⟩
    induction groups with
    | nil => exact .nil
    | cons group groups ih =>
      obtain ⟨hfirst, hrest⟩ := List.forall_mem_cons.mp hall
      exact .cons ⟨hfirst, rfl⟩ (ih hrest)

/-- No blocking key is named more often than a block may have members. -/
def BlocksFit (items : List ReconciliationItem) (maxBlockSize : ℕ) : Prop :=
  ∀ key, (items.flatMap (·.blockingKeys)).count key ≤ maxBlockSize

omit hids in
theorem blocksFit_iff {maxBlockSize : ℕ} :
    (∀ group ∈ grouped items (·.blockingKeys), group.2.length ≤ maxBlockSize) ↔ BlocksFit items maxBlockSize := by
  constructor
  · intro h key
    by_cases hkey : key ∈ items.flatMap (·.blockingKeys)
    · obtain ⟨item, hitem, hkey⟩ := List.mem_flatMap.mp hkey
      obtain ⟨i, rfl⟩ := List.mem_iff_get.mp hitem
      obtain ⟨group, hgroup, rfl⟩ := exists_group (·.blockingKeys) hkey
      exact length_members hgroup ▸ h group hgroup
    · rw [List.count_eq_zero_of_not_mem hkey]
      exact Nat.zero_le _
  · intro h group hgroup
    rw [length_members hgroup]
    exact h group.1

omit hids in
theorem mem_relationPairs {idToIndex : String → Option (ItemIndex items)}
    (hindex : ∀ id i, idToIndex id = some i ↔ (items.get i).itemId = id) {pair : ItemIndex items × ItemIndex items} :
    (pair ∈ (List.finRange items.length).flatMap fun i => addRelationPairs idToIndex i (items.get i).graphNeighbors ++
      addRelationPairs idToIndex i (items.get i).lineageAncestors) ↔
      PairsOf (fun x y => Related (items.get x) (items.get y)) pair := by
  have htarget : ∀ (ids : List String) (y : ItemIndex items),
      (∃ id ∈ ids, idToIndex id = some y) ↔ (items.get y).itemId ∈ ids := by
    intro ids y
    simp only [hindex]
    exact ⟨fun ⟨id, hid, h⟩ => h ▸ hid, fun h => ⟨_, h, rfl⟩⟩
  simp only [List.mem_flatMap, List.mem_append, mem_addRelationPairs, htarget]
  constructor
  · rintro ⟨x, -, ⟨y, h, hne, rfl⟩ | ⟨y, h, hne, rfl⟩⟩
    · exact ⟨x, y, hne, .inl h, rfl⟩
    · exact ⟨x, y, hne, .inr h, rfl⟩
  · rintro ⟨x, y, hne, h | h, rfl⟩
    · exact ⟨x, List.mem_finRange x, .inl ⟨y, h, hne, rfl⟩⟩
    · exact ⟨x, List.mem_finRange x, .inr ⟨y, h, hne, rfl⟩⟩

omit hids in
theorem mem_allBlockPairs {pair : ItemIndex items × ItemIndex items} :
    pair ∈ ((grouped items (·.blockingKeys)).map (addAllPairs ·.2)).flatten ↔
      PairsOf (fun x y => SharesBlock (items.get x) (items.get y)) pair := by
  simp only [List.mem_flatten, List.mem_map]
  constructor
  · rintro ⟨_, ⟨group, hgroup, rfl⟩, hpair⟩
    obtain ⟨x, y, hne, ⟨hx, hy⟩, rfl⟩ := mem_addAllPairs.mp hpair
    exact ⟨x, y, hne, ⟨group.1, (mem_members hgroup x).mp hx, (mem_members hgroup y).mp hy⟩, rfl⟩
  · rintro ⟨x, y, hne, ⟨key, hx, hy⟩, rfl⟩
    obtain ⟨group, hgroup, rfl⟩ := exists_group (·.blockingKeys) hx
    exact ⟨_, ⟨group, hgroup, rfl⟩, mem_addAllPairs.mpr
      ⟨x, y, hne, ⟨(mem_members hgroup x).mpr hx, (mem_members hgroup y).mpr hy⟩, rfl⟩⟩

theorem mem_allRepresentativePairs {pair : ItemIndex items × ItemIndex items} :
    (pair ∈ (grouped items (·.contentHash.toList)).flatMap fun group => representativePairs group.2) ↔
      PairsOf (fun x y => Represents items (items.get x) (items.get y)) pair := by
  have hmembers : ∀ {group : String × List (ItemIndex items)}, group ∈ grouped items (·.contentHash.toList) →
      ∀ i, i ∈ group.2 ↔ (items.get i).contentHash = some group.1 := fun hgroup i =>
    (mem_members hgroup i).trans Option.mem_toList
  rw [List.mem_flatMap]
  constructor
  · rintro ⟨group, hgroup, hpair⟩
    obtain ⟨x, y, hne, ⟨hx, hy, hle⟩, rfl⟩ := (mem_representativePairs hids hgroup).mp hpair
    refine ⟨x, y, hne, ⟨group.1, (hmembers hgroup x).mp hx, (hmembers hgroup y).mp hy, fun c hc hhash => ?_⟩, rfl⟩
    obtain ⟨z, rfl⟩ := List.mem_iff_get.mp hc
    exact hle z ((hmembers hgroup z).mpr hhash)
  · rintro ⟨x, y, hne, ⟨contentHash, hx, hy, hle⟩, rfl⟩
    obtain ⟨group, hgroup, rfl⟩ := exists_group (fun item => item.contentHash.toList) (Option.mem_toList.mpr hx)
    refine ⟨group, hgroup, (mem_representativePairs hids hgroup).mpr ⟨x, y, hne, ⟨?_, ?_, fun z hz => ?_⟩, rfl⟩⟩
    · exact (hmembers hgroup x).mpr hx
    · exact (hmembers hgroup y).mpr hy
    · exact hle _ (List.get_mem items z) ((hmembers hgroup z).mp hz)

/-- The comparison succeeds where the blocks fit, and then compares each two items that are related in some way once. -/
theorem comparisonPairIndexes_ok (debug : String → String) {idToIndex : String → Option (ItemIndex items)}
    (hindex : ∀ id i, idToIndex id = some i ↔ (items.get i).itemId = id) {maxBlockSize : ℕ}
    (hfit : BlocksFit items maxBlockSize) :
    ∃ pairs, comparisonPairIndexes items debug idToIndex maxBlockSize = .ok pairs ∧ pairs.Nodup ∧
      ∀ pair, pair ∈ pairs ↔ PairsOf (fun x y => Compared items (items.get x) (items.get y)) pair := by
  unfold comparisonPairIndexes
  rw [blocks_eq_ok.mpr ⟨blocksFit_iff.mpr hfit, rfl⟩]
  refine ⟨_, rfl, (List.perm_insertionSort _ _).nodup_iff.mpr (List.nodup_dedup _), fun pair => ?_⟩
  rw [List.mem_insertionSort, List.mem_dedup, List.mem_append, List.mem_append, mem_relationPairs hindex,
    mem_allBlockPairs, mem_allRepresentativePairs hids]
  unfold Compared
  rw [pairsOf_symm, pairsOf_or, pairsOf_or, or_assoc]

omit hids in
theorem blocksFit_of_ok {debug : String → String} {idToIndex : String → Option (ItemIndex items)} {maxBlockSize : ℕ}
    {pairs : List (ItemIndex items × ItemIndex items)}
    (h : comparisonPairIndexes items debug idToIndex maxBlockSize = .ok pairs) : BlocksFit items maxBlockSize := by
  unfold comparisonPairIndexes at h
  cases hblocks : (grouped items (·.blockingKeys)).mapM (blockPairs debug maxBlockSize) with
  | error e =>
    rw [hblocks] at h
    cases h
  | ok blocks => exact blocksFit_iff.mp (blocks_eq_ok.mp hblocks).1

/-! ## The order of the items does not matter -/

theorem inIdOrder_orderedPair {x y : ItemIndex items} (h : x ≠ y) :
    inIdOrder (items.get (orderedPair x y).1) (items.get (orderedPair x y).2) = inIdOrder (items.get x) (items.get y) := by
  have hne : (items.get x).itemId ≠ (items.get y).itemId := fun e => h (itemId_injective hids e)
  unfold orderedPair
  by_cases hxy : x < y
  · rw [if_pos hxy]
  · rw [if_neg hxy]
    unfold inIdOrder
    rcases lt_or_gt_of_ne hne with hlt | hlt
    · rw [if_neg (not_le.mpr hlt), if_pos hlt.le]
    · rw [if_pos hlt.le, if_neg (not_le.mpr hlt)]

/-- The compared items, each two in the order of their ids. -/
def comparedItems (pairs : List (ItemIndex items × ItemIndex items)) : List (ReconciliationItem × ReconciliationItem) :=
  pairs.map fun pair => inIdOrder (items.get pair.1) (items.get pair.2)

variable {pairs : List (ItemIndex items × ItemIndex items)}
  (hpairs : ∀ pair, pair ∈ pairs ↔ PairsOf (fun x y => Compared items (items.get x) (items.get y)) pair)
include hpairs

theorem mem_comparedItems {a b : ReconciliationItem} : (a, b) ∈ comparedItems pairs ↔
    a ∈ items ∧ b ∈ items ∧ a.itemId < b.itemId ∧ Compared items a b := by
  simp only [comparedItems, List.mem_map, hpairs]
  constructor
  · rintro ⟨_, ⟨x, y, hne, h, rfl⟩, hab⟩
    have hids' : (items.get x).itemId ≠ (items.get y).itemId := fun e => hne (itemId_injective hids e)
    rw [inIdOrder_orderedPair hids hne] at hab
    unfold inIdOrder at hab
    rcases lt_or_gt_of_ne hids' with hlt | hlt
    · rw [if_pos hlt.le] at hab
      cases hab
      exact ⟨List.get_mem items x, List.get_mem items y, hlt, h⟩
    · rw [if_neg (not_le.mpr hlt)] at hab
      cases hab
      exact ⟨List.get_mem items y, List.get_mem items x, hlt, h.symm⟩
  · rintro ⟨ha, hb, hlt, h⟩
    obtain ⟨x, rfl⟩ := List.mem_iff_get.mp ha
    obtain ⟨y, rfl⟩ := List.mem_iff_get.mp hb
    have hne : x ≠ y := by
      rintro rfl
      exact lt_irrefl _ hlt
    exact ⟨orderedPair x y, ⟨x, y, hne, h, rfl⟩, by rw [inIdOrder_orderedPair hids hne, inIdOrder, if_pos hlt.le]⟩

theorem nodup_comparedItems (hnodup : pairs.Nodup) : (comparedItems pairs).Nodup := by
  refine List.Nodup.map_on ?_ hnodup
  intro p hp q hq heq
  obtain ⟨x, y, hxy, -, rfl⟩ := (hpairs p).mp hp
  obtain ⟨z, w, hzw, -, rfl⟩ := (hpairs q).mp hq
  rw [inIdOrder_orderedPair hids hxy, inIdOrder_orderedPair hids hzw] at heq
  have hget : ∀ {i j : ItemIndex items}, items.get i = items.get j → i = j := fun h => itemId_injective hids (by rw [h])
  unfold inIdOrder at heq
  split at heq <;> split at heq <;> obtain ⟨h₁, h₂⟩ := Prod.mk.inj heq
  · rw [hget h₁, hget h₂]
  · rw [hget h₁, hget h₂]
    exact orderedPair_comm hzw.symm
  · rw [hget h₁, hget h₂]
    exact orderedPair_comm hzw.symm
  · rw [hget h₁, hget h₂]

end Distinct

theorem Compared.perm {others : List ReconciliationItem} (h : items.Perm others) {a b : ReconciliationItem} :
    Compared items a b ↔ Compared others a b := by
  simp only [Compared, Represents, h.mem_iff]

theorem BlocksFit.perm {others : List ReconciliationItem} (h : items.Perm others) {maxBlockSize : ℕ}
    (hfit : BlocksFit items maxBlockSize) : BlocksFit others maxBlockSize := fun key =>
  ((h.flatMap_right _).count_eq key) ▸ hfit key

theorem exactDuplicateGroups_perm {others : List ReconciliationItem} (h : items.Perm others) :
    exactDuplicateGroups items = exactDuplicateGroups others := by
  unfold exactDuplicateGroups
  have hkeys : sortedKeys (items.filterMap (·.contentHash)) = sortedKeys (others.filterMap (·.contentHash)) :=
    insertionSort_perm id ((h.filterMap _).dedup) fun _ _ _ _ e => e
  rw [hkeys]
  congr 1
  funext contentHash
  have hids := (h.filter fun item => item.contentHash = some contentHash).map (·.itemId)
  have hsorted := insertionSort_perm id hids fun _ _ _ _ e => e
  simp only [id] at hsorted
  simp only [hids.length_eq, hsorted]

end Alexandria.Reconciliation.Candidates
