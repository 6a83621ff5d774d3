import Alexandria.Retrieval.Fusion

/-! # What hybrid fusion ranks

The contexts of both lanes are ranked by the larger contribution of their first occurrences, and among equals by
their first appearance with the lexical lane first. The loops of the fusion keep exactly this evidence.
-/

namespace Alexandria.Retrieval
set_option autoImplicit false

/-! ## The specification -/

section Specification
variable (fts vector : List String)

/-- The contribution of the first occurrence of a context in a lane. -/
def laneContribution (lane : RetrievalLane) (candidates : List String) (contextId : String) : ℚ :=
  ((candidates.idxOf? contextId).map fun i => reciprocalRankContribution lane (i + 1)).getD 0

def bestContribution (contextId : String) : ℚ :=
  max (laneContribution .fts fts contextId) (laneContribution .vector vector contextId)

/-- The contexts of both lanes by first appearance. -/
def appearances : List String := (fts ++ vector).eraseDups

/-- The first occurrence with the larger contribution; of equal ones that in the lexical lane. -/
def representative (contextId : String) : CandidateRepresentative :=
  if laneContribution .vector vector contextId ≤ laneContribution .fts fts contextId then
    ⟨.fts, fts.idxOf contextId⟩
  else ⟨.vector, vector.idxOf contextId⟩

def fused (contextId : String) : FusedRetrievalIndex :=
  ⟨representative fts vector contextId, fts.idxOf? contextId, vector.idxOf? contextId,
    bestContribution fts vector contextId⟩

/-- One context is ranked before another. -/
def Before (first second : String) : Prop :=
  bestContribution fts vector second < bestContribution fts vector first ∨
    bestContribution fts vector first = bestContribution fts vector second ∧
      (fts ++ vector).idxOf first < (fts ++ vector).idxOf second

def contextKey (contextId : String) : ℚᵒᵈ ×ₗ ℕ :=
  toLex (OrderDual.toDual (bestContribution fts vector contextId), (appearances fts vector).idxOf contextId)

/-- All contexts in the order of the ranking. -/
def ranking : List String := Lists.sorted (contextKey fts vector) (appearances fts vector)

end Specification

/-! ## Contributions -/

section Contributions
variable {lane : RetrievalLane} {candidates : List String} {contextId : String}

theorem reciprocalRankContribution_pos (lane : RetrievalLane) (rank : ℕ) : 0 < reciprocalRankContribution lane rank := by
  have hpos : (0 : ℚ) < 1 / ((reciprocalRankFusionConstant : ℚ) + (min rank (2 ^ 32 - 1) : ℕ)) := by
    have : (0 : ℚ) < (reciprocalRankFusionConstant : ℚ) := by norm_num [reciprocalRankFusionConstant]
    positivity
  cases lane with
  | fts => exact hpos
  | vector => exact mul_pos hpos (by norm_num [vectorReciprocalRankWeight])

theorem laneContribution_nonneg : 0 ≤ laneContribution lane candidates contextId := by
  unfold laneContribution
  cases candidates.idxOf? contextId with
  | none => exact le_rfl
  | some i => exact (reciprocalRankContribution_pos lane (i + 1)).le

theorem laneContribution_of_mem (h : contextId ∈ candidates) :
    candidates.idxOf? contextId = some (candidates.idxOf contextId) ∧
      laneContribution lane candidates contextId = reciprocalRankContribution lane (candidates.idxOf contextId + 1) := by
  have hsome := Lists.idxOf?_of_mem h
  exact ⟨hsome, by rw [laneContribution, hsome]; rfl⟩

theorem laneContribution_of_not_mem (h : contextId ∉ candidates) :
    candidates.idxOf? contextId = none ∧ laneContribution lane candidates contextId = 0 := by
  have hnone := List.idxOf?_eq_none_iff.mpr h
  exact ⟨hnone, by rw [laneContribution, hnone]; rfl⟩

theorem laneContribution_concat_of_mem {other : String} (h : contextId ∈ candidates) :
    laneContribution lane (candidates ++ [other]) contextId = laneContribution lane candidates contextId := by
  rw [laneContribution, laneContribution, Lists.idxOf?_concat_of_mem h]

theorem laneContribution_concat_of_ne {other : String} (h : other ≠ contextId) :
    laneContribution lane (candidates ++ [other]) contextId = laneContribution lane candidates contextId := by
  rw [laneContribution, laneContribution, Lists.idxOf?_concat, if_neg h, Option.or_none]

theorem laneContribution_concat_self (h : contextId ∉ candidates) :
    laneContribution lane (candidates ++ [contextId]) contextId =
      reciprocalRankContribution lane (candidates.length + 1) := by
  rw [laneContribution, Lists.idxOf?_concat, List.idxOf?_eq_none_iff.mpr h, if_pos rfl]
  rfl

end Contributions

/-! ## The evidence that the loops keep -/

section Evidence

/-- The evidence for a context once these candidates were merged. -/
def evidenceOf (fts vector : List String) (contextId : String) : FusionIndexEvidence :=
  ⟨representative fts vector contextId, bestContribution fts vector contextId, bestContribution fts vector contextId,
    (appearances fts vector).idxOf contextId, fts.idxOf? contextId, vector.idxOf? contextId⟩

def evidenceMap (fts vector : List String) : EvidenceMap :=
  ⟨(appearances fts vector).map fun contextId => (contextId, evidenceOf fts vector contextId),
    (appearances fts vector).length⟩

variable {fts vector : List String} {contextId other : String}

theorem mem_appearances : contextId ∈ appearances fts vector ↔ contextId ∈ fts ∨ contextId ∈ vector := by
  rw [appearances, List.mem_eraseDups, List.mem_append]

theorem appearances_concat (fts vector : List String) (other : String) : appearances fts (vector ++ [other]) =
    if other ∈ appearances fts vector then appearances fts vector else appearances fts vector ++ [other] := by
  simp only [appearances, ← List.append_assoc, Lists.eraseDups_concat, List.mem_eraseDups]

theorem appearances_fts_concat (fts : List String) (other : String) : appearances (fts ++ [other]) [] =
    if other ∈ appearances fts [] then appearances fts [] else appearances fts [] ++ [other] := by
  simp only [appearances, List.append_nil, Lists.eraseDups_concat, List.mem_eraseDups]

/-- A further candidate of the vector lane does not touch the evidence for another context. -/
theorem evidenceOf_concat (hmem : contextId ∈ appearances fts vector) (hkept : contextId ∈ vector ∨ other ≠ contextId) :
    evidenceOf fts (vector ++ [other]) contextId = evidenceOf fts vector contextId := by
  have hcontribution : laneContribution .vector (vector ++ [other]) contextId = laneContribution .vector vector contextId := by
    rcases hkept with hkept | hne
    · exact laneContribution_concat_of_mem hkept
    · exact laneContribution_concat_of_ne hne
  have hindex : (vector ++ [other]).idxOf? contextId = vector.idxOf? contextId := by
    rcases hkept with hkept | hne
    · exact Lists.idxOf?_concat_of_mem hkept
    · rw [Lists.idxOf?_concat, if_neg hne, Option.or_none]
  have hseen : (appearances fts (vector ++ [other])).idxOf contextId = (appearances fts vector).idxOf contextId := by
    rw [appearances_concat]
    split
    · rfl
    · exact List.idxOf_append_of_mem hmem
  have hrepresentative : representative fts (vector ++ [other]) contextId = representative fts vector contextId := by
    unfold representative
    rw [hcontribution]
    split
    · rfl
    · rename_i hless
      -- only a context of the vector lane has a contribution there
      have hin : contextId ∈ vector := by
        by_contra hout
        rw [(laneContribution_of_not_mem hout).2] at hless
        exact hless laneContribution_nonneg
      rw [List.idxOf_append_of_mem hin]
  simp only [evidenceOf, bestContribution, hrepresentative, hcontribution, hindex, hseen]

/-- A further candidate of the lexical lane does not touch the evidence for another context. -/
theorem evidenceOf_fts_concat (hmem : contextId ∈ fts) :
    evidenceOf (fts ++ [other]) [] contextId = evidenceOf fts [] contextId := by
  have hseen : (appearances (fts ++ [other]) []).idxOf contextId = (appearances fts []).idxOf contextId := by
    rw [appearances_fts_concat]
    split
    · rfl
    · exact List.idxOf_append_of_mem (mem_appearances.mpr (.inl hmem))
  simp only [evidenceOf, bestContribution, representative, laneContribution_concat_of_mem hmem,
    Lists.idxOf?_concat_of_mem hmem, hseen, List.idxOf_append_of_mem hmem]

/-- The first candidate of the vector lane for a context with evidence. -/
theorem observe_vector (hfts : other ∈ fts) (hvector : other ∉ vector) :
    (evidenceOf fts vector other).observe .vector vector.length (reciprocalRankContribution .vector (vector.length + 1)) =
      evidenceOf fts (vector ++ [other]) other := by
  have hmem : other ∈ appearances fts vector := mem_appearances.mpr (.inl hfts)
  have hindex : (vector ++ [other]).idxOf? other = some vector.length := by
    rw [Lists.idxOf?_concat, List.idxOf?_eq_none_iff.mpr hvector, if_pos rfl, Option.none_or]
  have hfirst : (vector ++ [other]).idxOf other = vector.length := by
    rw [List.idxOf_append_of_notMem hvector, List.idxOf_cons_self, Nat.add_zero]
  have hnonneg : 0 ≤ laneContribution .fts fts other := laneContribution_nonneg
  unfold FusionIndexEvidence.observe evidenceOf bestContribution representative
  rw [laneContribution_concat_self hvector, (laneContribution_of_not_mem hvector).2, appearances_concat, if_pos hmem, hindex,
    hfirst, max_eq_left hnonneg, if_pos hnonneg]
  by_cases hless : laneContribution .fts fts other < reciprocalRankContribution .vector (vector.length + 1)
  · simp only [if_pos hless, if_neg (not_le.mpr hless), max_eq_right hless.le]
  · have hle := not_lt.mp hless
    simp only [if_neg hless, if_pos hle, max_eq_left hle]

theorem observe_fresh_vector (hfts : other ∉ fts) (hvector : other ∉ vector) :
    (FusionIndexEvidence.fresh .vector vector.length (reciprocalRankContribution .vector (vector.length + 1))
      (appearances fts vector).length).observe .vector vector.length
        (reciprocalRankContribution .vector (vector.length + 1)) = evidenceOf fts (vector ++ [other]) other := by
  have hmem : other ∉ appearances fts vector := by simp [mem_appearances, hfts, hvector]
  have hindex : (vector ++ [other]).idxOf? other = some vector.length := by
    rw [Lists.idxOf?_concat, List.idxOf?_eq_none_iff.mpr hvector, if_pos rfl, Option.none_or]
  have hfirst : (vector ++ [other]).idxOf other = vector.length := by
    rw [List.idxOf_append_of_notMem hvector, List.idxOf_cons_self, Nat.add_zero]
  have hpos := reciprocalRankContribution_pos .vector (vector.length + 1)
  have hseen : (appearances fts vector ++ [other]).idxOf other = (appearances fts vector).length := by
    rw [List.idxOf_append_of_notMem hmem, List.idxOf_cons_self, Nat.add_zero]
  unfold FusionIndexEvidence.observe FusionIndexEvidence.fresh evidenceOf bestContribution representative
  rw [laneContribution_concat_self hvector, (laneContribution_of_not_mem hfts).2, List.idxOf?_eq_none_iff.mpr hfts,
    appearances_concat, if_neg hmem, hindex, hfirst, hseen]
  simp only [lt_irrefl, if_false, if_neg (not_le.mpr hpos), max_eq_right hpos.le]

theorem observe_fresh_fts (hfts : other ∉ fts) :
    (FusionIndexEvidence.fresh .fts fts.length (reciprocalRankContribution .fts (fts.length + 1))
      (appearances fts []).length).observe .fts fts.length (reciprocalRankContribution .fts (fts.length + 1)) =
        evidenceOf (fts ++ [other]) [] other := by
  have hmem : other ∉ appearances fts [] := by simp [mem_appearances, hfts]
  have hindex : (fts ++ [other]).idxOf? other = some fts.length := by
    rw [Lists.idxOf?_concat, List.idxOf?_eq_none_iff.mpr hfts, if_pos rfl, Option.none_or]
  have hfirst : (fts ++ [other]).idxOf other = fts.length := by
    rw [List.idxOf_append_of_notMem hfts, List.idxOf_cons_self, Nat.add_zero]
  have hpos := reciprocalRankContribution_pos .fts (fts.length + 1)
  have hseen : (appearances fts [] ++ [other]).idxOf other = (appearances fts []).length := by
    rw [List.idxOf_append_of_notMem hmem, List.idxOf_cons_self, Nat.add_zero]
  have hempty : ([] : List String).idxOf? other = none ∧ laneContribution .vector [] other = 0 :=
    laneContribution_of_not_mem List.not_mem_nil
  unfold FusionIndexEvidence.observe FusionIndexEvidence.fresh evidenceOf bestContribution representative
  rw [laneContribution_concat_self hfts, hempty.1, hempty.2, appearances_fts_concat, if_neg hmem, hindex, hfirst, hseen]
  simp only [lt_irrefl, if_false, if_pos hpos.le, max_eq_left hpos.le, max_eq_right hpos.le]

/-! ## The loops -/

theorem toFinset_concat (candidates : List String) (other : String) :
    (candidates ++ [other]).toFinset = insert other candidates.toFinset := by
  ext contextId
  simp

theorem mergeCandidate_vector (fts vector : List String) (other : String) :
    mergeCandidate .vector (evidenceMap fts vector, vector.toFinset) (other, vector.length) =
      (evidenceMap fts (vector ++ [other]), (vector ++ [other]).toFinset) := by
  unfold mergeCandidate
  simp only [List.mem_toFinset, toFinset_concat]
  by_cases hvector : other ∈ vector
  · have hmem : other ∈ appearances fts vector := mem_appearances.mpr (.inr hvector)
    have hmap : evidenceMap fts (vector ++ [other]) = evidenceMap fts vector := by
      unfold evidenceMap
      rw [appearances_concat, if_pos hmem]
      refine congrArg (EvidenceMap.mk · _) (List.map_congr_left fun contextId hcontext => ?_)
      by_cases hsame : other = contextId
      · rw [evidenceOf_concat hcontext (.inl (hsame ▸ hvector))]
      · rw [evidenceOf_concat hcontext (.inr hsame)]
    rw [if_pos hvector, hmap, Finset.insert_eq_of_mem (List.mem_toFinset.mpr hvector)]
  · rw [if_neg hvector]
    have hothers : ∀ contextId ∈ appearances fts vector, contextId ≠ other →
        evidenceOf fts (vector ++ [other]) contextId = evidenceOf fts vector contextId := fun contextId hcontext hne =>
      evidenceOf_concat hcontext (.inr hne.symm)
    simp only [evidenceMap, Keyed.lookup_graph, Keyed.put_graph, appearances_concat]
    by_cases hfts : other ∈ fts
    · have hmem : other ∈ appearances fts vector := mem_appearances.mpr (.inl hfts)
      simp only [if_pos hmem, observe_vector hfts hvector]
      refine congrArg (fun entries => (EvidenceMap.mk entries _, _)) (List.map_congr_left fun contextId hcontext => ?_)
      by_cases hsame : contextId = other
      · rw [if_pos hsame, hsame]
      · rw [if_neg hsame, hothers contextId hcontext hsame]
    · have hmem : other ∉ appearances fts vector := by simp [mem_appearances, hfts, hvector]
      simp only [if_neg hmem, observe_fresh_vector hfts hvector, List.map_append, List.map_cons, List.map_nil,
        List.length_append, List.length_singleton]
      refine congrArg (fun entries => (EvidenceMap.mk (entries ++ _) _, _)) (List.map_congr_left fun contextId hcontext => ?_)
      rw [hothers contextId hcontext fun h => hmem (h ▸ hcontext)]

theorem mergeCandidate_fts (fts : List String) (other : String) :
    mergeCandidate .fts (evidenceMap fts [], fts.toFinset) (other, fts.length) =
      (evidenceMap (fts ++ [other]) [], (fts ++ [other]).toFinset) := by
  unfold mergeCandidate
  simp only [List.mem_toFinset, toFinset_concat]
  have hothers : ∀ contextId ∈ appearances fts [],
      evidenceOf (fts ++ [other]) [] contextId = evidenceOf fts [] contextId := fun contextId hcontext =>
    evidenceOf_fts_concat ((mem_appearances.mp hcontext).resolve_right List.not_mem_nil)
  by_cases hfts : other ∈ fts
  · have hmem : other ∈ appearances fts [] := mem_appearances.mpr (.inl hfts)
    have hmap : evidenceMap (fts ++ [other]) [] = evidenceMap fts [] := by
      unfold evidenceMap
      rw [appearances_fts_concat, if_pos hmem]
      refine congrArg (EvidenceMap.mk · _) (List.map_congr_left fun contextId hcontext => ?_)
      rw [hothers contextId hcontext]
    rw [if_pos hfts, hmap, Finset.insert_eq_of_mem (List.mem_toFinset.mpr hfts)]
  · rw [if_neg hfts]
    have hmem : other ∉ appearances fts [] := by simp [mem_appearances, hfts]
    simp only [evidenceMap, Keyed.lookup_graph, Keyed.put_graph, appearances_fts_concat, if_neg hmem, observe_fresh_fts hfts,
      List.map_append, List.map_cons, List.map_nil, List.length_append, List.length_singleton]
    refine congrArg (fun entries => (EvidenceMap.mk (entries ++ _) _, _)) (List.map_congr_left fun contextId hcontext => ?_)
    rw [hothers contextId hcontext]

theorem mergeLaneIndices_fts (fts : List String) :
    mergeLaneIndices .fts fts ⟨[], 0⟩ = (evidenceMap fts [], fts.toFinset.card) := by
  have hfold : fts.zipIdx.foldl (mergeCandidate .fts) (⟨[], 0⟩, ∅) = (evidenceMap fts [], fts.toFinset) := by
    induction fts using List.reverseRecOn with
    | nil => rfl
    | append_singleton fts other ih =>
      rw [List.zipIdx_append, List.foldl_append, ih]
      simpa using mergeCandidate_fts fts other
  simp only [mergeLaneIndices, hfold]

theorem mergeLaneIndices_vector (fts vector : List String) :
    mergeLaneIndices .vector vector (evidenceMap fts []) = (evidenceMap fts vector, vector.toFinset.card) := by
  have hfold : vector.zipIdx.foldl (mergeCandidate .vector) (evidenceMap fts [], ∅) =
      (evidenceMap fts vector, vector.toFinset) := by
    induction vector using List.reverseRecOn with
    | nil => rfl
    | append_singleton vector other ih =>
      rw [List.zipIdx_append, List.foldl_append, ih]
      simpa using mergeCandidate_vector fts vector other
  simp only [mergeLaneIndices, hfold]

end Evidence

/-! ## The ranking -/

section Ranking
variable {fts vector : List String} {contextId : String}

theorem mem_ranking : contextId ∈ ranking fts vector ↔ contextId ∈ fts ∨ contextId ∈ vector :=
  Lists.mem_sorted.trans mem_appearances

theorem ranking_perm (fts vector : List String) : (ranking fts vector).Perm (appearances fts vector) :=
  List.perm_insertionSort _ _

theorem ranking_nodup (fts vector : List String) : (ranking fts vector).Nodup :=
  (ranking_perm fts vector).nodup_iff.mpr (Lists.nodup_eraseDups _)

/-- Among the contexts of both lanes the earlier one is the one that appears first. -/
theorem idxOf_lt_of_appearances {first second : String} (hfirst : first ∈ appearances fts vector)
    (hsecond : second ∈ appearances fts vector)
    (h : (appearances fts vector).idxOf first < (appearances fts vector).idxOf second) :
    (fts ++ vector).idxOf first < (fts ++ vector).idxOf second := by
  have hordered := List.pairwise_iff_getElem.mp (Lists.pairwise_eraseDups (fts ++ vector)) _ _
    (List.idxOf_lt_length_of_mem hfirst) (List.idxOf_lt_length_of_mem hsecond) h
  rwa [List.getElem_idxOf, List.getElem_idxOf] at hordered

theorem ranking_pairwise (fts vector : List String) : (ranking fts vector).Pairwise (Before fts vector) := by
  have hsorted := Lists.sorted_pairwise (contextKey fts vector) (appearances fts vector)
  refine (hsorted.and (ranking_nodup fts vector)).imp_of_mem fun {first second} hfirst hsecond h => ?_
  obtain ⟨hle, hne⟩ := h
  have hfirst := Lists.mem_sorted.mp hfirst
  have hsecond := Lists.mem_sorted.mp hsecond
  rcases Prod.Lex.le_iff.mp hle with hless | ⟨hequal, hseen⟩
  · exact .inl hless
  · refine .inr ⟨hequal, idxOf_lt_of_appearances hfirst hsecond (lt_of_le_of_ne hseen fun hindex => hne ?_)⟩
    exact (List.idxOf_inj hfirst).mp hindex

/-- Whatever order the map yields its evidence in, it is ranked the same. -/
theorem ranked_values (order : ValueOrder) (fts vector : List String) :
    (order.arrange ((evidenceMap fts vector).entries.map Prod.snd)).insertionSort
      (fun left right => left.rankKey ≤ right.rankKey) = (ranking fts vector).map (evidenceOf fts vector) := by
  have hvalues : (evidenceMap fts vector).entries.map Prod.snd = (appearances fts vector).map (evidenceOf fts vector) := by
    rw [evidenceMap, List.map_map]
    rfl
  have hperm := order.perm ((evidenceMap fts vector).entries.map Prod.snd)
  rw [Lists.insertionSort_perm FusionIndexEvidence.rankKey hperm, hvalues, ranking, Lists.sorted]
  · exact (List.map_insertionSort (fun a b => contextKey fts vector a ≤ contextKey fts vector b)
      (fun left right => left.rankKey ≤ right.rankKey) (evidenceOf fts vector) (appearances fts vector)
      fun _ _ _ _ => Iff.rfl).symm
  · intro left hleft right hright hkey
    rw [hperm.mem_iff, hvalues] at hleft hright
    obtain ⟨first, hfirst, rfl⟩ := List.mem_map.mp hleft
    obtain ⟨second, hsecond, rfl⟩ := List.mem_map.mp hright
    have hseen : (appearances fts vector).idxOf first = (appearances fts vector).idxOf second :=
      congrArg (fun key => (ofLex key).2) hkey
    rw [(List.idxOf_inj hfirst).mp hseen]

/-- The representative is an occurrence of the context with the best contribution. -/
theorem representative_attains (h : contextId ∈ ranking fts vector) :
    representativeOf fts vector (representative fts vector contextId) = some contextId ∧
      reciprocalRankContribution (representative fts vector contextId).lane
        ((representative fts vector contextId).laneIndex + 1) = bestContribution fts vector contextId := by
  unfold representative bestContribution
  by_cases hle : laneContribution .vector vector contextId ≤ laneContribution .fts fts contextId
  · have hin : contextId ∈ fts := by
      by_contra hout
      have hvector := (mem_ranking.mp h).resolve_left hout
      rw [(laneContribution_of_not_mem hout).2, (laneContribution_of_mem hvector).2] at hle
      exact absurd (reciprocalRankContribution_pos _ _) (not_lt.mpr hle)
    rw [if_pos hle, max_eq_left hle, (laneContribution_of_mem hin).2]
    refine ⟨?_, rfl⟩
    simp only [representativeOf, List.getElem?_eq_getElem (List.idxOf_lt_length_of_mem hin), List.getElem_idxOf]
  · have hin : contextId ∈ vector := by
      by_contra hout
      rw [(laneContribution_of_not_mem hout).2] at hle
      exact hle laneContribution_nonneg
    rw [if_neg hle, max_eq_right (not_le.mp hle).le, (laneContribution_of_mem hin).2]
    refine ⟨?_, rfl⟩
    simp only [representativeOf, List.getElem?_eq_getElem (List.idxOf_lt_length_of_mem hin), List.getElem_idxOf]

end Ranking

/-! ## Fusion and its trace -/

section Fusion
variable {fts vector : List String}

/-- What a trace counts: the rows and contexts of each lane, of both together, and what was returned. -/
structure TraceCounts (fts vector : List String) (returned : List FusedRetrievalIndex) (trace : RetrievalFusionTrace) :
    Prop where
  ftsInput : trace.ftsInputCount = fts.length
  vectorInput : trace.vectorInputCount = vector.length
  ftsUnique : trace.ftsUniqueCount = fts.toFinset.card
  vectorUnique : trace.vectorUniqueCount = vector.toFinset.card
  ftsRows : trace.ftsUniqueCount + trace.ftsDuplicateCount = trace.ftsInputCount
  vectorRows : trace.vectorUniqueCount + trace.vectorDuplicateCount = trace.vectorInputCount
  union : trace.fusedCandidateCount = (fts.toFinset ∪ vector.toFinset).card
  intersection : trace.crossLaneCount = (fts.toFinset ∩ vector.toFinset).card
  returned : trace.returnedCount = returned.length
  representatives : trace.representativeFtsCount + trace.representativeVectorCount = trace.returnedCount

theorem zeroLimitTrace_counts : TraceCounts fts vector [] (zeroLimitTrace fts vector) where
  ftsInput := rfl
  vectorInput := rfl
  ftsUnique := rfl
  vectorUnique := rfl
  ftsRows := Nat.add_sub_cancel' (List.toFinset_card_le fts)
  vectorRows := Nat.add_sub_cancel' (List.toFinset_card_le vector)
  union := rfl
  intersection := rfl
  returned := rfl
  representatives := rfl

theorem length_appearances : (appearances fts vector).length = (fts.toFinset ∪ vector.toFinset).card := by
  rw [appearances, ← List.toFinset_append, ← List.toFinset_card_of_nodup (Lists.nodup_eraseDups _)]
  refine congrArg Finset.card (Finset.ext fun contextId => ?_)
  rw [List.mem_toFinset, List.mem_toFinset, List.mem_eraseDups]

/-- The contexts with evidence from both lanes are those of both lanes. -/
theorem cross_lane_count (order : ValueOrder) (fts vector : List String) :
    (order.arrange ((evidenceMap fts vector).entries.map Prod.snd)).countP
      (fun evidence => evidence.ftsIndex.isSome && evidence.vectorIndex.isSome) = (fts.toFinset ∩ vector.toFinset).card := by
  rw [(order.perm _).countP_eq, evidenceMap, List.map_map, List.countP_map, List.countP_eq_length_filter, appearances,
    ← List.toFinset_card_of_nodup ((Lists.nodup_eraseDups (fts ++ vector)).filter _)]
  refine congrArg Finset.card (Finset.ext fun contextId => ?_)
  have hindex : ∀ candidates : List String, (candidates.idxOf? contextId).isSome = true ↔ contextId ∈ candidates := by
    intro candidates
    rw [Option.isSome_iff_ne_none, ne_eq, List.idxOf?_eq_none_iff, not_not]
  simp only [List.mem_toFinset, List.mem_filter, Function.comp_apply, evidenceOf, Bool.and_eq_true, hindex,
    Finset.mem_inter, List.mem_eraseDups, List.mem_append]
  exact ⟨fun h => h.2, fun h => ⟨.inl h.1, h⟩⟩

/-- The trace of a fusion that returns something. -/
def fusionTrace (fts vector : List String) (limit : ℕ) : RetrievalFusionTrace :=
  let ranked := ((ranking fts vector).map (evidenceOf fts vector)).take limit
  let representativeFtsCount := ranked.countP fun evidence => evidence.representative.lane = .fts
  { ftsInputCount := fts.length
    vectorInputCount := vector.length
    ftsUniqueCount := fts.toFinset.card
    vectorUniqueCount := vector.toFinset.card
    ftsDuplicateCount := fts.length - fts.toFinset.card
    vectorDuplicateCount := vector.length - vector.toFinset.card
    fusedCandidateCount := (appearances fts vector).length
    crossLaneCount := (fts.toFinset ∩ vector.toFinset).card
    returnedCount := ranked.length
    representativeFtsCount
    representativeVectorCount := ranked.length - representativeFtsCount }

theorem fusionTrace_counts (fts vector : List String) (limit : ℕ) :
    TraceCounts fts vector (((ranking fts vector).take limit).map (fused fts vector)) (fusionTrace fts vector limit) where
  ftsInput := rfl
  vectorInput := rfl
  ftsUnique := rfl
  vectorUnique := rfl
  ftsRows := Nat.add_sub_cancel' (List.toFinset_card_le fts)
  vectorRows := Nat.add_sub_cancel' (List.toFinset_card_le vector)
  union := length_appearances
  intersection := rfl
  returned := by simp only [fusionTrace, List.length_take, List.length_map]
  representatives := Nat.add_sub_cancel' List.countP_le_length

/-- The merged result is the head of the ranking. -/
theorem mergeHybridIndexed_eq (hfts : fts.length ≤ maxLaneCandidates) (hvector : vector.length ≤ maxLaneCandidates)
    (order : ValueOrder) (limit : ℕ) (collectTrace : Bool) : ∃ trace,
      mergeHybridIndexed order fts vector limit collectTrace =
        .ok ⟨((ranking fts vector).take limit).map (fused fts vector), if collectTrace then some trace else none⟩ ∧
      TraceCounts fts vector (((ranking fts vector).take limit).map (fused fts vector)) trace := by
  have hchecked : validateLaneCount .fts fts.length = .ok () ∧ validateLaneCount .vector vector.length = .ok () :=
    ⟨if_neg (not_lt.mpr hfts), if_neg (not_lt.mpr hvector)⟩
  by_cases hzero : limit = 0
  · subst hzero
    refine ⟨zeroLimitTrace fts vector, ?_, zeroLimitTrace_counts⟩
    simp only [mergeHybridIndexed, hchecked.1, hchecked.2, bind, Except.bind, if_true, List.take_zero, List.map_nil]
    rfl
  · refine ⟨fusionTrace fts vector limit, ?_, fusionTrace_counts fts vector limit⟩
    have hresults : ((ranking fts vector).take limit).map (fused fts vector) =
        (((ranking fts vector).map (evidenceOf fts vector)).take limit).map (·.intoResult) := by
      rw [← List.map_take, List.map_map]
      rfl
    have hentries : (evidenceMap fts vector).entries.length = (appearances fts vector).length := List.length_map _
    simp only [mergeHybridIndexed, hchecked.1, hchecked.2, bind, Except.bind, hzero, if_false, mergeLaneIndices_fts,
      mergeLaneIndices_vector, ranked_values, cross_lane_count, hentries]
    rw [hresults]
    cases collectTrace <;> rfl

/-- Every fused index names a candidate of its context. -/
theorem materializeFused_ok {ftsCandidates vectorCandidates : List RetrievalCandidate} {contextId : String}
    (h : contextId ∈ ranking (ftsCandidates.map (·.contextId)) (vectorCandidates.map (·.contextId))) :
    ∃ item, materializeFused ftsCandidates vectorCandidates
      (fused (ftsCandidates.map (·.contextId)) (vectorCandidates.map (·.contextId)) contextId) = .ok item ∧
        item.contextId = contextId := by
  obtain ⟨hoccurs, -⟩ := representative_attains h
  have hfound : (representativeOf ftsCandidates vectorCandidates (representative (ftsCandidates.map (·.contextId))
      (vectorCandidates.map (·.contextId)) contextId)).map (·.contextId) = some contextId := by
    rw [← hoccurs]
    unfold representativeOf
    split <;> rw [List.getElem?_map]
  obtain ⟨candidate, hcandidate, rfl⟩ := Option.map_eq_some_iff.mp hfound
  unfold materializeFused
  rw [show (fused (ftsCandidates.map (·.contextId)) (vectorCandidates.map (·.contextId)) candidate.contextId).representative =
    representative (ftsCandidates.map (·.contextId)) (vectorCandidates.map (·.contextId)) candidate.contextId from rfl,
    hcandidate]
  exact ⟨_, rfl, rfl⟩

theorem mergeHybridCandidates_ok {ftsCandidates vectorCandidates : List RetrievalCandidate}
    (hfts : ftsCandidates.length ≤ maxLaneCandidates) (hvector : vectorCandidates.length ≤ maxLaneCandidates)
    (order : ValueOrder) (limit : ℕ) :
    ∃ items, mergeHybridCandidates order ftsCandidates vectorCandidates limit = .ok items ∧
      items.map (·.contextId) =
        (ranking (ftsCandidates.map (·.contextId)) (vectorCandidates.map (·.contextId))).take limit := by
  obtain ⟨trace, hmerged, -⟩ := mergeHybridIndexed_eq ((List.length_map _).trans_le hfts)
    ((List.length_map _).trans_le hvector) order limit false
  have hitems : ∀ contextId ∈ (ranking (ftsCandidates.map (·.contextId)) (vectorCandidates.map (·.contextId))).take limit,
      ∃ item, materializeFused ftsCandidates vectorCandidates
        (fused (ftsCandidates.map (·.contextId)) (vectorCandidates.map (·.contextId)) contextId) = .ok item ∧
          item.contextId = id contextId :=
    fun contextId hcontext => materializeFused_ok (List.mem_of_mem_take hcontext)
  obtain ⟨items, hmap, hids⟩ := Lists.mapM_ok hitems
  refine ⟨items, ?_, by rw [hids, List.map_id]⟩
  unfold mergeHybridCandidates
  rw [hmerged]
  simp only [bind, Except.bind, List.mapM_map]
  exact hmap

/-- The merged result is the list of the contexts of both lanes in the order of their best contributions, cut to the
limit; it does not depend on the order of the map, and every trace counts what it names. -/
theorem hybrid_fusion_spec (hfts : fts.length ≤ maxLaneCandidates) (hvector : vector.length ≤ maxLaneCandidates) :
    (ranking fts vector).Nodup ∧
    (∀ contextId, contextId ∈ ranking fts vector ↔ contextId ∈ fts ∨ contextId ∈ vector) ∧
    (ranking fts vector).Pairwise (Before fts vector) ∧
    (∀ contextId ∈ ranking fts vector,
      representativeOf fts vector (fused fts vector contextId).representative = some contextId ∧
      reciprocalRankContribution (fused fts vector contextId).representative.lane
        ((fused fts vector contextId).representative.laneIndex + 1) = bestContribution fts vector contextId ∧
      (fused fts vector contextId).score = bestContribution fts vector contextId) ∧
    (∀ (order : ValueOrder) (limit : ℕ) (collectTrace : Bool), ∃ trace,
      mergeHybridIndexed order fts vector limit collectTrace =
        .ok ⟨((ranking fts vector).take limit).map (fused fts vector), if collectTrace then some trace else none⟩ ∧
      TraceCounts fts vector (((ranking fts vector).take limit).map (fused fts vector)) trace) ∧
    (∀ (order : ValueOrder) (limit : ℕ) (ftsCandidates vectorCandidates : List RetrievalCandidate),
      ftsCandidates.map (·.contextId) = fts → vectorCandidates.map (·.contextId) = vector →
        ∃ items, mergeHybridCandidates order ftsCandidates vectorCandidates limit = .ok items ∧
          items.map (·.contextId) = (ranking fts vector).take limit) ∧
    ∀ (order order' : ValueOrder) (m n : ℕ), m ≤ n → ∃ short long,
      mergeHybridIndexed order fts vector m false = .ok ⟨short, none⟩ ∧
        mergeHybridIndexed order' fts vector n false = .ok ⟨long, none⟩ ∧ short <+: long := by
  refine ⟨ranking_nodup fts vector, fun _ => mem_ranking, ranking_pairwise fts vector, fun contextId hcontext => ?_,
    mergeHybridIndexed_eq hfts hvector, ?_, fun order order' m n hmn => ?_⟩
  · obtain ⟨hoccurs, hattains⟩ := representative_attains hcontext
    exact ⟨hoccurs, hattains, rfl⟩
  · rintro order limit ftsCandidates vectorCandidates rfl rfl
    rw [List.length_map] at hfts hvector
    exact mergeHybridCandidates_ok hfts hvector order limit
  · obtain ⟨_, hshort, -⟩ := mergeHybridIndexed_eq hfts hvector order m false
    obtain ⟨_, hlong, -⟩ := mergeHybridIndexed_eq hfts hvector order' n false
    refine ⟨_, _, hshort, hlong, List.IsPrefix.map _ ?_⟩
    exact List.take_prefix_take_left hmn

end Fusion

/-- Two lanes that share a context: it is ranked by its first place in the vector lane. -/
theorem hybrid_fusion_spec_shared : ranking ["a", "b", "a"] ["b", "c"] = ["b", "a", "c"] ∧
    ∀ (order : ValueOrder) (limit : ℕ), ∃ trace,
      mergeHybridIndexed order ["a", "b", "a"] ["b", "c"] limit true =
        .ok ⟨((ranking ["a", "b", "a"] ["b", "c"]).take limit).map (fused ["a", "b", "a"] ["b", "c"]), some trace⟩ := by
  refine ⟨by decide +kernel, fun order limit => ?_⟩
  obtain ⟨-, -, -, -, hmerged, -⟩ :=
    hybrid_fusion_spec (show ["a", "b", "a"].length ≤ maxLaneCandidates by decide)
      (show ["b", "c"].length ≤ maxLaneCandidates by decide)
  obtain ⟨trace, hresult, -⟩ := hmerged order limit true
  exact ⟨trace, hresult⟩

end Alexandria.Retrieval
