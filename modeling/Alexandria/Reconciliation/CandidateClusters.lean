import Alexandria.Reconciliation.CandidatePairs
import Mathlib.Data.List.Perm.Subperm
import Mathlib.Tactic.NormNum

/-! # Candidate clusters

Discovery is the same for every order of its items. The cap keeps the pairs that have room where they stand in the
order of the evidence, and the clusters are what the retained pairs join; a group of duplicates stays together exactly
where the pairs with room join it.
-/

namespace Alexandria.Reconciliation.Candidates
set_option autoImplicit false

open Lists CappedSelection

/-! ## The cap -/

def Touches (id : String) (pair : CandidatePair) : Prop := pair.leftId = id ∨ pair.rightId = id

instance (id : String) : DecidablePred (Touches id) := fun _ => instDecidableOr

theorem counts_insert {counts : String → ℕ} {chosen : Finset CandidatePair}
    (hcounts : ∀ id, counts id = (chosen.filter (Touches id)).card) {c : CandidatePair} (hnew : c ∉ chosen)
    (hne : c.leftId ≠ c.rightId) (id : String) :
    Function.update (Function.update counts c.leftId (counts c.leftId + 1)) c.rightId
      (Function.update counts c.leftId (counts c.leftId + 1) c.rightId + 1) id =
      ((insert c chosen).filter (Touches id)).card := by
  rw [Finset.filter_insert, Function.update_of_ne hne.symm]
  have hnot : c ∉ chosen.filter (Touches id) := fun h => hnew (Finset.mem_filter.mp h).1
  by_cases hright : id = c.rightId
  · subst hright
    rw [Function.update_self, if_pos (.inr rfl), Finset.card_insert_of_notMem hnot, hcounts]
  · rw [Function.update_of_ne hright]
    by_cases hleft : id = c.leftId
    · subst hleft
      rw [Function.update_self, if_pos (.inl rfl), Finset.card_insert_of_notMem hnot, hcounts]
    · have htouch : ¬ Touches id c := not_or.mpr ⟨Ne.symm hleft, Ne.symm hright⟩
      rw [Function.update_of_ne hleft, if_neg htouch, hcounts]

/-- The counts of the loop are those of the pairs it has chosen. -/
theorem capLoop_spec (cap : ℕ) {counts : String → ℕ} {candidates : List CandidatePair} {chosen : Finset CandidatePair}
    (hcounts : ∀ id, counts id = (chosen.filter (Touches id)).card)
    (hordered : candidates.Pairwise fun a b => candidateRank a < candidateRank b)
    (hlater : ∀ a ∈ chosen, ∀ b ∈ candidates, candidateRank a < candidateRank b)
    (hends : ∀ a ∈ candidates, a.leftId ≠ a.rightId) :
    (capLoop cap counts candidates).Sublist candidates ∧ ∀ c ∈ candidates, c ∈ capLoop cap counts candidates ↔
      ∀ id, Touches id c → load candidateRank Touches (chosen ∪ (capLoop cap counts candidates).toFinset) id c < cap := by
  induction candidates generalizing counts chosen with
  | nil => exact ⟨.slnil, by simp⟩
  | cons c rest ih =>
    obtain ⟨hfirst, hrest⟩ := List.pairwise_cons.mp hordered
    have hlaterRest : ∀ a ∈ chosen, ∀ b ∈ rest, candidateRank a < candidateRank b := fun a ha b hb =>
      hlater a ha b (List.mem_cons_of_mem c hb)
    have hendsRest : ∀ a ∈ rest, a.leftId ≠ a.rightId := fun a ha => hends a (List.mem_cons_of_mem c ha)
    -- what is chosen later does not count where the candidate stands
    have hload : ∀ (later : List CandidatePair), (∀ a ∈ later, a = c ∨ a ∈ rest) → ∀ id,
        load candidateRank Touches (chosen ∪ later.toFinset) id c = counts id := by
      intro later hl id
      rw [hcounts, load]
      congr 1
      ext a
      simp only [Finset.mem_filter, Finset.mem_union, List.mem_toFinset]
      constructor
      · rintro ⟨ha | ha, hid, hlt⟩
        · exact ⟨ha, hid⟩
        · rcases hl a ha with rfl | ha
          · exact absurd hlt (lt_irrefl _)
          · exact absurd hlt (not_lt.mpr (hfirst a ha).le)
      · rintro ⟨ha, hid⟩
        exact ⟨.inl ha, hid, hlater a ha c List.mem_cons_self⟩
    unfold capLoop
    by_cases hfull : cap ≤ counts c.leftId ∨ cap ≤ counts c.rightId
    · rw [if_pos hfull]
      obtain ⟨hsub, hmem⟩ := ih hcounts hrest hlaterRest hendsRest
      refine ⟨hsub.cons c, List.forall_mem_cons.mpr ⟨?_, hmem⟩⟩
      refine iff_of_false (fun h => absurd (hfirst c (hsub.subset h)) (lt_irrefl _)) fun hroom => ?_
      have hcount := fun id hid => hload _ (fun a ha => .inr (hsub.subset ha)) id ▸ hroom id hid
      rcases hfull with hleft | hright
      · exact absurd (hcount c.leftId (.inl rfl)) (not_lt.mpr hleft)
      · exact absurd (hcount c.rightId (.inr rfl)) (not_lt.mpr hright)
    · rw [if_neg hfull]
      rw [not_or, not_le, not_le] at hfull
      have hne := hends c List.mem_cons_self
      have hnew : c ∉ chosen := fun h => absurd (hlater c h c List.mem_cons_self) (lt_irrefl _)
      have hlaterNew : ∀ a ∈ insert c chosen, ∀ b ∈ rest, candidateRank a < candidateRank b := by
        intro a ha b hb
        rcases Finset.mem_insert.mp ha with rfl | ha
        · exact hfirst b hb
        · exact hlaterRest a ha b hb
      obtain ⟨hsub, hmem⟩ := ih (counts_insert hcounts hnew hne) hrest hlaterNew hendsRest
      refine ⟨hsub.cons_cons c, List.forall_mem_cons.mpr ⟨?_, fun a ha => ?_⟩⟩
      · refine iff_of_true List.mem_cons_self fun id hid => ?_
        rw [hload _ fun a ha => (List.mem_cons.mp ha).imp_right fun h => hsub.subset h]
        rcases hid with rfl | rfl
        · exact hfull.1
        · exact hfull.2
      · have hac : a ≠ c := by
          rintro rfl
          exact lt_irrefl _ (hfirst a ha)
        rw [List.mem_cons, or_iff_right hac, hmem a ha, List.toFinset_cons, Finset.union_insert, Finset.insert_union]

section Cap
variable {cap : ℕ} {candidates : List CandidatePair}
  (hids : ∀ a ∈ candidates, ∀ b ∈ candidates, a.leftId = b.leftId → a.rightId = b.rightId → a = b)
  (hends : ∀ a ∈ candidates, a.leftId ≠ a.rightId) (hnodup : candidates.Nodup)
include hids

theorem candidateRank_injective : ∀ a ∈ candidates, ∀ b ∈ candidates, candidateRank a = candidateRank b → a = b := by
  intro a ha b hb h
  simp only [candidateRank, EmbeddingLike.apply_eq_iff_eq, Prod.mk.injEq] at h
  exact hids a ha b hb h.2.1 h.2.2

include hends hnodup

variable (cap) in
/-- What is retained follows the rule of the cap. -/
theorem enforcePerItemCap_spec : (enforcePerItemCap candidates cap).Nodup ∧
    Capped candidateRank Touches cap {c | c ∈ candidates} (enforcePerItemCap candidates cap).toFinset := by
  have hperm := candidates.perm_insertionSort fun a b => candidateRank a ≤ candidateRank b
  have hsorted := sorted_pairwise candidateRank candidates
  unfold sorted at hsorted
  have hordered : (candidates.insertionSort fun a b => candidateRank a ≤ candidateRank b).Pairwise
      fun a b => candidateRank a < candidateRank b := by
    refine (hsorted.and (hperm.nodup_iff.mpr hnodup)).imp_of_mem fun {a b} ha hb hab => ?_
    obtain ⟨hle, hne⟩ := hab
    refine lt_of_le_of_ne hle fun e => hne ?_
    exact candidateRank_injective hids a (hperm.mem_iff.mp ha) b (hperm.mem_iff.mp hb) e
  have hnone : ∀ id, (fun _ : String => 0) id = ((∅ : Finset CandidatePair).filter (Touches id)).card := fun _ => rfl
  obtain ⟨hsub, hmem⟩ := capLoop_spec cap hnone hordered (by simp) fun a ha => hends a (hperm.mem_iff.mp ha)
  refine ⟨hsub.nodup (hperm.nodup_iff.mpr hnodup), fun c hc => ?_, fun c hc => ?_⟩
  · exact hperm.mem_iff.mp (hsub.subset (List.mem_toFinset.mp hc))
  · rw [List.mem_toFinset]
    have := hmem c (hperm.mem_iff.mpr hc)
    rw [Finset.empty_union] at this
    exact this

end Cap

/-! ## The clusters -/

section Clusters
variable {pairs : List CandidatePair}

def Linked (pairs : List CandidatePair) (a b : String) : Prop :=
  ∃ pair ∈ pairs, pair.leftId = a ∧ pair.rightId = b ∨ pair.leftId = b ∧ pair.rightId = a

def Joined (pairs : List CandidatePair) : String → String → Prop := Relation.ReflTransGen (Linked pairs)

theorem mem_neighbors {a b : String} : b ∈ (adjacency pairs).neighbors a ↔ Linked pairs a b := by
  simp only [adjacency, pairNeighbors, sortedKeys, List.mem_insertionSort, List.mem_dedup, List.mem_flatMap,
    List.mem_append, List.mem_ite_nil_right, List.mem_singleton, Linked]
  refine exists_congr fun pair => and_congr_right fun _ => or_congr ?_ ?_
  · exact and_congr_right fun _ => eq_comm
  · exact and_comm.trans (and_congr_left fun _ => eq_comm)

theorem joined_iff {a b : String} : (adjacency pairs).Joined a b ↔ Joined pairs a b := by
  have hrel : (fun a b => b ∈ (adjacency pairs).neighbors a) = Linked pairs := by
    funext a b
    exact propext mem_neighbors
  rw [Components.FiniteGraph.Joined, hrel, Joined]

theorem adjacency_symmetric : (adjacency pairs).Symmetric := by
  intro a b h
  rw [mem_neighbors] at h ⊢
  obtain ⟨pair, hpair, h⟩ := h
  exact ⟨pair, hpair, h.symm⟩

theorem mem_nodes {a : String} : a ∈ (adjacency pairs).nodes ↔ ∃ pair ∈ pairs, Touches a pair := by
  simp [adjacency, sortedKeys, CandidatePair.ends, Touches, eq_comm]

theorem clusters_itemIds : (clustersFromPairs pairs).map (·.itemIds) =
    ((adjacency pairs).components.map fun component => component.insertionSort (· ≤ ·)).insertionSort (· ≤ ·) := by
  refine List.ext_getElem (by simp [clustersFromPairs]) fun i h₁ h₂ => ?_
  simp [clustersFromPairs]

/-- The clusters are the sets of ids that the pairs join. -/
theorem mem_clusters {ids : List String} : ids ∈ (clustersFromPairs pairs).map (·.itemIds) ↔
    ids.Pairwise (· < ·) ∧ ∃ a, (∃ pair ∈ pairs, Touches a pair) ∧ ∀ b, b ∈ ids ↔ Joined pairs a b := by
  have hsort : ∀ component : List String, component.Nodup → (component.insertionSort (· ≤ ·)).Pairwise (· < ·) := by
    intro component hnodup
    have hle := sorted_pairwise id component
    have hne : (component.insertionSort (· ≤ ·)).Nodup := (component.perm_insertionSort _).nodup_iff.mpr hnodup
    exact (hle.and hne).imp fun {a b} h => lt_of_le_of_ne h.1 h.2
  rw [clusters_itemIds, List.mem_insertionSort, List.mem_map]
  constructor
  · rintro ⟨component, hcomponent, rfl⟩
    obtain ⟨hnodup, a, ha, hmem⟩ := Components.FiniteGraph.mem_components adjacency_symmetric hcomponent
    refine ⟨hsort component hnodup, a, mem_nodes.mp ha, fun b => ?_⟩
    rw [List.mem_insertionSort, hmem, joined_iff]
  · rintro ⟨hordered, a, ha, hmem⟩
    obtain ⟨component, hcomponent, hjoined⟩ :=
      Components.FiniteGraph.exists_component adjacency_symmetric (mem_nodes.mpr ha)
    obtain ⟨hnodup, -⟩ := Components.FiniteGraph.mem_components adjacency_symmetric hcomponent
    refine ⟨component, hcomponent, ?_⟩
    refine List.Perm.eq_of_pairwise (fun a b _ _ hab hba => absurd hab (not_lt.mpr hba.le)) (hsort component hnodup)
      hordered ?_
    have hnodupIds : ids.Nodup := hordered.imp fun h => h.ne
    have hnodupSorted := (hsort component hnodup).imp fun {a b} h => h.ne
    refine (List.perm_ext_iff_of_nodup hnodupSorted hnodupIds).mpr fun b => ?_
    rw [List.mem_insertionSort, hjoined, joined_iff, hmem]

theorem nodup_clusters : ((clustersFromPairs pairs).map (·.itemIds)).Nodup := by
  rw [clusters_itemIds]
  refine (List.perm_insertionSort _ _).nodup_iff.mpr ?_
  refine List.pairwise_map.mpr ((Components.FiniteGraph.components_disjoint adjacency_symmetric).imp_of_mem
    fun {c d} hc _ hdisjoint heq => ?_)
  obtain ⟨-, a, -, hmem⟩ := Components.FiniteGraph.mem_components adjacency_symmetric hc
  have ha : a ∈ c := (hmem a).mpr .refl
  have hd : a ∈ d.insertionSort (· ≤ ·) := heq ▸ (List.mem_insertionSort _).mpr ha
  exact hdisjoint ha ((List.mem_insertionSort _).mp hd)

theorem exists_cluster {a : String} (h : ∃ pair ∈ pairs, Touches a pair) :
    ∃ cluster ∈ clustersFromPairs pairs, ∀ b, b ∈ cluster.itemIds ↔ Joined pairs a b := by
  obtain ⟨component, hcomponent, hjoined⟩ :=
    Components.FiniteGraph.exists_component adjacency_symmetric (mem_nodes.mpr h)
  have hmem : component.insertionSort (· ≤ ·) ∈ (clustersFromPairs pairs).map (·.itemIds) := by
    rw [clusters_itemIds, List.mem_insertionSort]
    exact List.mem_map_of_mem hcomponent
  obtain ⟨cluster, hcluster, hids⟩ := List.mem_map.mp hmem
  refine ⟨cluster, hcluster, fun b => ?_⟩
  rw [hids, List.mem_insertionSort, hjoined, joined_iff]

theorem Joined.symm {a b : String} (h : Joined pairs a b) : Joined pairs b a := by
  rw [← joined_iff] at h ⊢
  exact Components.FiniteGraph.Joined.symm adjacency_symmetric h

/-- What is joined to something else is in a pair. -/
theorem Joined.touches {a b : String} (h : Joined pairs a b) (hne : a ≠ b) : ∃ pair ∈ pairs, Touches a pair := by
  obtain heq | ⟨c, ⟨pair, hpair, hac⟩, -⟩ := Relation.ReflTransGen.cases_head h
  · exact absurd heq hne
  · exact ⟨pair, hpair, hac.imp And.left And.right⟩

end Clusters

/-! ## The evidence -/

section Evidence
variable {env : CandidateEnvironment} {policy : CandidatePolicy} {a b : ReconciliationItem} {pair : CandidatePair}

theorem pairEvidence_ids (h : pairEvidence env policy a b = some pair) :
    pair.leftId = a.itemId ∧ pair.rightId = b.itemId := by
  unfold pairEvidence at h
  rw [Option.ite_none_right_eq_some] at h
  obtain ⟨-, h⟩ := h
  cases Option.some.inj h
  exact ⟨rfl, rfl⟩

variable (env policy) in
/-- Items with one content hash always qualify. -/
theorem exists_evidence {contentHash : String} (ha : a.contentHash = some contentHash)
    (hb : b.contentHash = some contentHash) : ∃ pair, pairEvidence env policy a b = some pair := by
  unfold pairEvidence
  exact ⟨_, if_pos (by simp [ha, hb])⟩

end Evidence

/-! ## Discovery -/

section Discovery
variable (env : CandidateEnvironment) (policy : CandidatePolicy) (items : List ReconciliationItem)

/-- What discovery makes of the compared items. -/
def discovered (compared : List (ReconciliationItem × ReconciliationItem)) : CandidateEngineResult :=
  let qualifying := compared.filterMap fun pair => pairEvidence env policy pair.1 pair.2
  let candidatePairs := enforcePerItemCap qualifying policy.maxCandidatesPerItem
  { exactDuplicateGroups := exactDuplicateGroups items
    candidatePairs := candidatePairs
    clusters := clustersFromPairs candidatePairs
    metrics :=
      ⟨items.length, compared.length, qualifying.length, candidatePairs.length, (exactDuplicateGroups items).length⟩ }

/-- What discovery accepts. -/
structure Acceptable : Prop where
  distinct : (items.map (·.itemId)).Nodup
  count : items.length ≤ maxItems
  blocks : BlocksFit items policy.maxBlockSize

/-- The items that are compared, each two of them once. -/
structure ComparedOnce (compared : List (ReconciliationItem × ReconciliationItem)) : Prop where
  nodup : compared.Nodup
  mem : ∀ a b, (a, b) ∈ compared ↔ a ∈ items ∧ b ∈ items ∧ a.itemId < b.itemId ∧ Compared items a b

variable {env policy items} {result : CandidateEngineResult} {compared : List (ReconciliationItem × ReconciliationItem)}

theorem acceptable_of_ok (h : discoverCandidates env items policy = .ok result) : Acceptable policy items := by
  unfold discoverCandidates at h
  by_cases hlength : maxItems < items.length
  · rw [if_pos hlength] at h
    cases h
  · rw [if_neg hlength] at h
    cases hrepeated : Keyed.firstRepeated (items.map (·.itemId)) with
    | some itemId =>
      rw [uniqueItemIndex, hrepeated] at h
      cases h
    | none =>
      rw [uniqueItemIndex, hrepeated] at h
      refine ⟨(Keyed.firstRepeated_eq_none _).mp hrepeated, not_lt.mp hlength, ?_⟩
      obtain ⟨idToIndex, -, hrest⟩ := Keyed.bind_eq_ok h
      obtain ⟨pairs, hpairs, -⟩ := Keyed.bind_eq_ok hrest
      exact blocksFit_of_ok hpairs

variable (env) in
theorem discoverCandidates_ok (h : Acceptable policy items) : ∃ compared, ComparedOnce items compared ∧
    discoverCandidates env items policy = .ok (discovered env policy items compared) := by
  obtain ⟨idToIndex, hunique, hindex⟩ := uniqueItemIndex_ok h.distinct
  obtain ⟨pairs, hpairs, hnodup, hmem⟩ := comparisonPairIndexes_ok h.distinct env.debug hindex h.blocks
  refine ⟨comparedItems pairs, ⟨nodup_comparedItems h.distinct hmem hnodup, fun a b => ?_⟩, ?_⟩
  · exact mem_comparedItems h.distinct hmem
  · unfold discoverCandidates discovered comparedItems
    rw [if_neg (not_lt.mpr h.count), hunique, List.filterMap_map, List.length_map]
    show (comparisonPairIndexes items env.debug idToIndex policy.maxBlockSize >>= _) = _
    rw [hpairs]
    rfl

theorem Acceptable.perm {others : List ReconciliationItem} (h : Acceptable policy items) (hperm : items.Perm others) :
    Acceptable policy others :=
  ⟨(hperm.map _).nodup_iff.mp h.distinct, hperm.length_eq ▸ h.count, h.blocks.perm hperm⟩

theorem ComparedOnce.perm {others : List ReconciliationItem} {comparedOthers : List (ReconciliationItem × ReconciliationItem)}
    (h : ComparedOnce items compared) (hothers : ComparedOnce others comparedOthers) (hperm : items.Perm others) :
    compared.Perm comparedOthers := by
  refine (List.perm_ext_iff_of_nodup h.nodup hothers.nodup).mpr fun pair => ?_
  rw [← Prod.mk.eta (p := pair), h.mem, hothers.mem, hperm.mem_iff, hperm.mem_iff, Compared.perm hperm]

section Qualifying
variable (hdistinct : (items.map (·.itemId)).Nodup) (hcompared : ComparedOnce items compared)
include hcompared

theorem mem_qualifying {pair : CandidatePair} :
    (pair ∈ compared.filterMap fun pair => pairEvidence env policy pair.1 pair.2) ↔ pair ∈ Qualifies env policy items := by
  rw [List.mem_filterMap]
  constructor
  · rintro ⟨⟨a, b⟩, hab, hpair⟩
    obtain ⟨ha, hb, hlt, h⟩ := (hcompared.mem a b).mp hab
    exact ⟨a, ha, b, hb, hlt, h, hpair⟩
  · rintro ⟨a, ha, b, hb, hlt, h, hpair⟩
    exact ⟨(a, b), (hcompared.mem a b).mpr ⟨ha, hb, hlt, h⟩, hpair⟩

include hdistinct

omit hcompared in
theorem item_eq {a b : ReconciliationItem} (ha : a ∈ items) (hb : b ∈ items) (h : a.itemId = b.itemId) : a = b :=
  List.inj_on_of_nodup_map hdistinct ha hb h

theorem nodup_qualifying : (compared.filterMap fun pair => pairEvidence env policy pair.1 pair.2).Nodup := by
  refine List.pairwise_filterMap.mpr (hcompared.nodup.imp_of_mem fun {x y} hx hy hne p hp q hq => ?_)
  rintro rfl
  obtain ⟨hx₁, hx₂, -⟩ := (hcompared.mem x.1 x.2).mp hx
  obtain ⟨hy₁, hy₂, -⟩ := (hcompared.mem y.1 y.2).mp hy
  obtain ⟨hleft, hright⟩ := pairEvidence_ids hp
  obtain ⟨hleftAlso, hrightAlso⟩ := pairEvidence_ids hq
  exact hne (Prod.ext (item_eq hdistinct hx₁ hy₁ (hleft.symm.trans hleftAlso))
    (item_eq hdistinct hx₂ hy₂ (hright.symm.trans hrightAlso)))

omit hcompared in
theorem qualifies_eq {p q : CandidatePair} (hp : p ∈ Qualifies env policy items) (hq : q ∈ Qualifies env policy items)
    (hleft : p.leftId = q.leftId) (hright : p.rightId = q.rightId) : p = q := by
  obtain ⟨a, ha, b, hb, -, -, hp⟩ := hp
  obtain ⟨c, hc, d, hd, -, -, hq⟩ := hq
  obtain ⟨hpa, hpb⟩ := pairEvidence_ids hp
  obtain ⟨hqc, hqd⟩ := pairEvidence_ids hq
  obtain rfl := item_eq hdistinct ha hc (by rw [← hpa, ← hqc, hleft])
  obtain rfl := item_eq hdistinct hb hd (by rw [← hpb, ← hqd, hright])
  exact Option.some.inj (hp.symm.trans hq)

theorem qualifying_ids {p q : CandidatePair}
    (hp : p ∈ compared.filterMap fun pair => pairEvidence env policy pair.1 pair.2)
    (hq : q ∈ compared.filterMap fun pair => pairEvidence env policy pair.1 pair.2) (hleft : p.leftId = q.leftId)
    (hright : p.rightId = q.rightId) : p = q :=
  qualifies_eq hdistinct ((mem_qualifying hcompared).mp hp) ((mem_qualifying hcompared).mp hq) hleft hright

variable (env policy) in
/-- The retained pairs are a capped selection of those that qualify. -/
theorem retained_spec : (discovered env policy items compared).candidatePairs.Nodup ∧
    Capped candidateRank Touches policy.maxCandidatesPerItem (Qualifies env policy items)
      (discovered env policy items compared).candidatePairs.toFinset := by
  have hends : ∀ p ∈ compared.filterMap fun pair => pairEvidence env policy pair.1 pair.2, p.leftId ≠ p.rightId := by
    intro p hp
    obtain ⟨a, -, b, -, hlt, -, h⟩ := (mem_qualifying hcompared).mp hp
    obtain ⟨hleft, hright⟩ := pairEvidence_ids h
    rw [hleft, hright]
    exact hlt.ne
  obtain ⟨hnodup, hcapped⟩ := enforcePerItemCap_spec policy.maxCandidatesPerItem
    (fun p hp q hq => qualifying_ids hdistinct hcompared hp hq) hends (nodup_qualifying hdistinct hcompared)
  have hset : {p | p ∈ compared.filterMap fun pair => pairEvidence env policy pair.1 pair.2} = Qualifies env policy items :=
    Set.ext fun p => mem_qualifying hcompared
  exact ⟨hnodup, hset ▸ hcapped⟩

end Qualifying

/-- Discovery answers the same for every order of its items. -/
theorem discoverCandidates_perm {others : List ReconciliationItem} (hperm : items.Perm others)
    (h : discoverCandidates env items policy = .ok result) : discoverCandidates env others policy = .ok result := by
  have hitems := acceptable_of_ok h
  obtain ⟨compared, hcompared, hok⟩ := discoverCandidates_ok env hitems
  obtain ⟨comparedOthers, hcomparedOthers, hokOthers⟩ := discoverCandidates_ok env (hitems.perm hperm)
  have hpairs := hcompared.perm hcomparedOthers hperm
  have hqualifying := hpairs.filterMap fun pair => pairEvidence env policy pair.1 pair.2
  have hsorted := insertionSort_perm candidateRank hqualifying
    (candidateRank_injective fun p hp q hq => qualifying_ids hitems.distinct hcompared hp hq)
  rw [h] at hok
  rw [hokOthers, Except.ok.inj hok]
  simp only [discovered, enforcePerItemCap, exactDuplicateGroups_perm hperm, hperm.length_eq, hpairs.length_eq,
    hqualifying.length_eq, hsorted]

end Discovery

/-! ## What discovery promises -/

section Contract
variable (env : CandidateEnvironment) (policy : CandidatePolicy) (items : List ReconciliationItem)

structure ClusterContract (result : CandidateEngineResult) : Prop where
  clusters : ∀ ids, ids ∈ result.clusters.map (·.itemIds) ↔ ids.Pairwise (· < ·) ∧
    ∃ a, (∃ pair ∈ result.candidatePairs, Touches a pair) ∧ ∀ b, b ∈ ids ↔ Joined result.candidatePairs a b
  once : (result.clusters.map (·.itemIds)).Nodup
  retained : ∀ pair ∈ result.candidatePairs, pair ∈ Qualifies env policy items
  capped : ∀ id, result.candidatePairs.countP (Touches id ·) ≤ policy.maxCandidatesPerItem
  dropped : ∀ pair ∈ Qualifies env policy items, pair ∉ result.candidatePairs → ∃ id, Touches id pair ∧
    policy.maxCandidatesPerItem ≤
      result.candidatePairs.countP fun kept => Touches id kept ∧ candidateRank kept < candidateRank pair
  together : ∀ group ∈ result.exactDuplicateGroups, ∃ cluster ∈ result.clusters,
    ∀ id ∈ group.itemIds, id ∈ cluster.itemIds
  unordered : ∀ others, items.Perm others → discoverCandidates env others policy = .ok result

/-- The qualifying pairs with room under the cap, taken in the order of their evidence, join every two items with one
content hash. A pair has room where fewer than the cap of the pairs with room before it touch either of its ends. -/
def RoomJoinsDuplicates : Prop :=
  ∀ kept : Finset CandidatePair,
    Capped candidateRank Touches policy.maxCandidatesPerItem (Qualifies env policy items) kept →
    ∀ a ∈ items, ∀ b ∈ items, ∀ contentHash, a.contentHash = some contentHash → b.contentHash = some contentHash →
      Joined kept.toList a.itemId b.itemId

variable {env policy items}

theorem mem_exactDuplicateGroups {group : ExactDuplicateGroup} : group ∈ exactDuplicateGroups items ↔
    group.itemIds = ((items.filter fun item => item.contentHash = some group.contentHash).map (·.itemId)).insertionSort
      (· ≤ ·) ∧ 2 ≤ group.itemIds.length := by
  unfold exactDuplicateGroups
  rw [List.mem_filterMap]
  constructor
  · rintro ⟨contentHash, -, h⟩
    rw [Option.ite_none_left_eq_some] at h
    obtain ⟨hlength, h⟩ := h
    cases Option.some.inj h
    refine ⟨rfl, ?_⟩
    rw [List.length_insertionSort]
    exact not_lt.mp hlength
  · rintro ⟨hids, hlength⟩
    rw [hids, List.length_insertionSort] at hlength
    refine ⟨group.contentHash, ?_, ?_⟩
    · obtain ⟨id, hid⟩ := List.exists_mem_of_length_pos (Nat.lt_of_lt_of_le Nat.two_pos hlength)
      obtain ⟨item, hitem, -⟩ := List.mem_map.mp hid
      obtain ⟨hitem, hhash⟩ := List.mem_filter.mp hitem
      rw [sortedKeys, List.mem_insertionSort, List.mem_dedup, List.mem_filterMap]
      exact ⟨item, hitem, by simpa using hhash⟩
    · rw [if_neg (not_lt.mpr hlength), ← hids]

theorem mem_group {group : ExactDuplicateGroup} (h : group ∈ exactDuplicateGroups items) {id : String} :
    id ∈ group.itemIds ↔ ∃ item ∈ items, item.contentHash = some group.contentHash ∧ item.itemId = id := by
  rw [(mem_exactDuplicateGroups.mp h).1, List.mem_insertionSort, List.mem_map]
  simp only [List.mem_filter, decide_eq_true_eq, and_assoc]

theorem exists_duplicateGroup {a b : ReconciliationItem} {contentHash : String} (ha : a ∈ items) (hb : b ∈ items)
    (hha : a.contentHash = some contentHash) (hhb : b.contentHash = some contentHash) (hab : a.itemId ≠ b.itemId) :
    ∃ group ∈ exactDuplicateGroups items, group.contentHash = contentHash := by
  let ids := (items.filter fun item => item.contentHash = some contentHash).map (·.itemId)
  have hmem : ∀ item ∈ items, item.contentHash = some contentHash → item.itemId ∈ ids := fun item hitem hhash =>
    List.mem_map_of_mem (List.mem_filter.mpr ⟨hitem, by simpa using hhash⟩)
  have hsub : [a.itemId, b.itemId].Subperm ids := by
    refine List.subperm_of_subset (List.nodup_cons.mpr ⟨by simpa using hab, List.nodup_singleton _⟩) fun id hid => ?_
    rcases List.mem_cons.mp hid with rfl | hid
    · exact hmem a ha hha
    · rw [List.mem_singleton.mp hid]
      exact hmem b hb hhb
  have hlength : 2 ≤ (ids.insertionSort (· ≤ ·)).length := by
    rw [List.length_insertionSort]
    exact hsub.length_le
  exact ⟨⟨contentHash, ids.insertionSort (· ≤ ·)⟩, mem_exactDuplicateGroups.mpr ⟨rfl, hlength⟩, rfl⟩

theorem exists_two_ids (hdistinct : (items.map (·.itemId)).Nodup) {group : ExactDuplicateGroup}
    (h : group ∈ exactDuplicateGroups items) : ∃ x y, x ∈ group.itemIds ∧ y ∈ group.itemIds ∧ x ≠ y := by
  obtain ⟨hids, hlength⟩ := mem_exactDuplicateGroups.mp h
  have hnodup : group.itemIds.Nodup := by
    rw [hids, (List.perm_insertionSort _ _).nodup_iff]
    exact hdistinct.sublist (List.filter_sublist.map _)
  refine ⟨group.itemIds[0], group.itemIds[1], List.getElem_mem _, List.getElem_mem _, fun heq => ?_⟩
  have := (List.Nodup.getElem_inj_iff hnodup).mp heq
  omega

theorem joined_congr {pairs others : List CandidatePair} (h : ∀ pair, pair ∈ pairs ↔ pair ∈ others) {a b : String} :
    Joined pairs a b ↔ Joined others a b := by
  have hlinked : Linked pairs = Linked others := by
    funext x y
    simp only [Linked, h]
  rw [Joined, Joined, hlinked]

theorem countP_eq_card {pairs : List CandidatePair} (h : pairs.Nodup) (p : CandidatePair → Prop) [DecidablePred p] :
    pairs.countP (p ·) = (pairs.toFinset.filter p).card := by
  rw [List.countP_eq_length_filter, ← List.toFinset_card_of_nodup (h.filter _), List.toFinset_filter]
  congr 1
  ext pair
  simp

section Kept
variable {result : CandidateEngineResult}
  (hcapped : Capped candidateRank Touches policy.maxCandidatesPerItem (Qualifies env policy items)
    result.candidatePairs.toFinset)
  (hclusters : result.clusters = clustersFromPairs result.candidatePairs)
  (hgroups : result.exactDuplicateGroups = exactDuplicateGroups items) (hdistinct : (items.map (·.itemId)).Nodup)
include hcapped

/-- Only what discovery retains has room. -/
theorem room_iff : RoomJoinsDuplicates env policy items ↔
    ∀ a ∈ items, ∀ b ∈ items, ∀ contentHash, a.contentHash = some contentHash → b.contentHash = some contentHash →
      Joined result.candidatePairs a.itemId b.itemId := by
  have hjoined : ∀ {a b}, Joined result.candidatePairs.toFinset.toList a b ↔ Joined result.candidatePairs a b :=
    joined_congr fun pair => by rw [Finset.mem_toList, List.mem_toFinset]
  constructor
  · intro h a ha b hb contentHash hha hhb
    exact hjoined.mp (h _ hcapped a ha b hb contentHash hha hhb)
  · intro h kept hkept a ha b hb contentHash hha hhb
    rw [hkept.unique hcapped]
    exact hjoined.mpr (h a ha b hb contentHash hha hhb)

include hclusters hgroups hdistinct

/-- A group is in one cluster where the retained pairs join it. -/
theorem together_iff : (∀ group ∈ result.exactDuplicateGroups, ∃ cluster ∈ result.clusters,
    ∀ id ∈ group.itemIds, id ∈ cluster.itemIds) ↔ RoomJoinsDuplicates env policy items := by
  rw [room_iff hcapped, hclusters, hgroups]
  constructor
  · intro h a ha b hb contentHash hha hhb
    by_cases hab : a.itemId = b.itemId
    · rw [hab]
      exact .refl
    · obtain ⟨group, hgroup, rfl⟩ := exists_duplicateGroup ha hb hha hhb hab
      obtain ⟨cluster, hcluster, hmem⟩ := h group hgroup
      obtain ⟨-, c, -, hjoined⟩ := mem_clusters.mp (List.mem_map_of_mem hcluster)
      have hca := (hjoined a.itemId).mp (hmem _ ((mem_group hgroup).mpr ⟨a, ha, hha, rfl⟩))
      have hcb := (hjoined b.itemId).mp (hmem _ ((mem_group hgroup).mpr ⟨b, hb, hhb, rfl⟩))
      exact hca.symm.trans hcb
  · intro h group hgroup
    obtain ⟨x, y, hx, hy, hne⟩ := exists_two_ids hdistinct hgroup
    obtain ⟨a, ha, hha, rfl⟩ := (mem_group hgroup).mp hx
    obtain ⟨b, hb, hhb, rfl⟩ := (mem_group hgroup).mp hy
    obtain ⟨cluster, hcluster, hmem⟩ := exists_cluster ((h a ha b hb _ hha hhb).touches hne)
    refine ⟨cluster, hcluster, fun id hid => ?_⟩
    obtain ⟨c, hc, hhc, rfl⟩ := (mem_group hgroup).mp hid
    exact (hmem c.itemId).mpr (h a ha c hc _ hha hhc)

end Kept

/-- Duplicates in no more qualifying pairs than the cap stay together. -/
theorem roomJoinsDuplicates_of_few
    (hfew : ∀ a ∈ items, ∀ pairs : Finset CandidatePair,
      (∀ pair ∈ pairs, pair ∈ Qualifies env policy items ∧ Touches a.itemId pair) →
      a.contentHash.isSome → pairs.card ≤ policy.maxCandidatesPerItem) : RoomJoinsDuplicates env policy items := by
  intro kept hkept a ha b hb contentHash hha hhb
  -- the first item of the group is compared with every other one
  obtain ⟨first, hfirst, hleast⟩ := Finset.exists_min_image
    ((items.filter fun item => item.contentHash = some contentHash).toFinset) (·.itemId) ⟨a, by simpa using ⟨ha, hha⟩⟩
  obtain ⟨hfirst, hhash⟩ : first ∈ items ∧ first.contentHash = some contentHash := by simpa using hfirst
  have hle : ∀ c ∈ items, c.contentHash = some contentHash → first.itemId ≤ c.itemId := fun c hc hhc =>
    hleast c (by simpa using ⟨hc, hhc⟩)
  have hjoined : ∀ c ∈ items, c.contentHash = some contentHash → Joined kept.toList first.itemId c.itemId := by
    intro c hc hhc
    by_cases heq : first.itemId = c.itemId
    · rw [heq]
      exact .refl
    · obtain ⟨pair, hpair⟩ := exists_evidence env policy hhash hhc
      obtain ⟨hleft, hright⟩ := pairEvidence_ids hpair
      have hqualifies : pair ∈ Qualifies env policy items :=
        ⟨first, hfirst, c, hc, lt_of_le_of_ne (hle c hc hhc) heq,
          .inl (.inr (.inr ⟨contentHash, hhash, hhc, hle⟩)), hpair⟩
      have hmem : pair ∈ kept := by
        refine hkept.mem_of_card_le hqualifies fun id hid pairs hpairs => ?_
        rcases hid with rfl | rfl
        · exact hfew first hfirst pairs (fun k hk => hleft ▸ hpairs k hk) (by rw [hhash]; rfl)
        · exact hfew c hc pairs (fun k hk => hright ▸ hpairs k hk) (by rw [hhc]; rfl)
      exact .single ⟨pair, Finset.mem_toList.mpr hmem, .inl ⟨hleft, hright⟩⟩
  exact (hjoined a ha hha).symm.trans (hjoined b hb hhb)

end Contract

/-! ## Duplicates under a cap of one pair -/

def duplicate (itemId : String) : ReconciliationItem := ⟨itemId, some "h", none, ⟨none, none⟩, [], [], []⟩

def onePair : CandidatePolicy := ⟨⟨1, by norm_num⟩, ⟨1, by norm_num⟩, 8, 1⟩

def plainEnvironment : CandidateEnvironment := ⟨fun _ _ => 0, id⟩

def duplicatePair (left right : String) : CandidatePair :=
  ⟨left, right, true, none, true, 0, .none, 1, [.exactContentHash, .temporalOverlap]⟩

def twoDuplicates : List ReconciliationItem := [duplicate "a", duplicate "b"]

def threeDuplicates : List ReconciliationItem := twoDuplicates ++ [duplicate "c"]

theorem acceptable_duplicates : Acceptable onePair twoDuplicates := by
  refine ⟨by decide, by decide, fun key => ?_⟩
  rw [List.count_eq_zero_of_not_mem (by simp [twoDuplicates, duplicate])]
  exact Nat.zero_le _

theorem two_duplicates_joined : RoomJoinsDuplicates plainEnvironment onePair twoDuplicates := by
  refine roomJoinsDuplicates_of_few fun a _ pairs hpairs _ => ?_
  have hids : ∀ pair ∈ Qualifies plainEnvironment onePair twoDuplicates, pair.leftId = "a" ∧ pair.rightId = "b" := by
    rintro pair ⟨x, hx, y, hy, hlt, -, hpair⟩
    obtain ⟨hleft, hright⟩ := pairEvidence_ids hpair
    rw [hleft, hright]
    simp only [twoDuplicates, List.mem_cons, List.not_mem_nil, or_false] at hx hy
    rcases hx with rfl | rfl <;> rcases hy with rfl | rfl
    · exact absurd hlt (lt_irrefl _)
    · exact ⟨rfl, rfl⟩
    · exact absurd hlt (by decide)
    · exact absurd hlt (lt_irrefl _)
  refine Finset.card_le_one.mpr fun p hp q hq => ?_
  obtain ⟨hp, -⟩ := hpairs p hp
  obtain ⟨hq, -⟩ := hpairs q hq
  exact qualifies_eq acceptable_duplicates.distinct hp hq ((hids p hp).1.trans (hids q hq).1.symm)
    ((hids p hp).2.trans (hids q hq).2.symm)

theorem three_duplicates_retained :
    (discoverCandidates plainEnvironment threeDuplicates onePair).map (fun result =>
      (result.candidatePairs, result.exactDuplicateGroups)) =
      .ok ([duplicatePair "a" "b"], [⟨"h", ["a", "b", "c"]⟩]) := by
  decide

end Alexandria.Reconciliation.Candidates
