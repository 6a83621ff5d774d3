import Mathlib.Data.Finset.Max
import Mathlib.Data.Finset.Card
import Mathlib.Order.Basic

/-! # Selection under a cap

Candidates are taken in the order of a rank; each touches some places, and no place takes more than `cap` of them. The
rule that a candidate is kept where every place it touches has room left by those ranked before it determines the
selection.
-/

namespace Alexandria.CappedSelection
set_option autoImplicit false

variable {α ι κ : Type} [LinearOrder κ] (rank : α → κ) (touches : ι → α → Prop) [∀ i, DecidablePred (touches i)] (cap : ℕ)

/-- How many of the kept candidates at a place are ranked before the one given. -/
def load (kept : Finset α) (i : ι) (c : α) : ℕ := (kept.filter fun k => touches i k ∧ rank k < rank c).card

structure Capped (candidates : Set α) (kept : Finset α) : Prop where
  subset : ∀ c ∈ kept, c ∈ candidates
  rule : ∀ c ∈ candidates, c ∈ kept ↔ ∀ i, touches i c → load rank touches kept i c < cap

variable {rank touches cap} {candidates : Set α} {kept other : Finset α} {c : α} {i : ι}

theorem load_congr (h : ∀ k, rank k < rank c → (k ∈ kept ↔ k ∈ other)) :
    load rank touches kept i c = load rank touches other i c := by
  unfold load
  congr 1
  ext k
  simp only [Finset.mem_filter]
  constructor
  · rintro ⟨hk, hi, hlt⟩
    exact ⟨(h k hlt).mp hk, hi, hlt⟩
  · rintro ⟨hk, hi, hlt⟩
    exact ⟨(h k hlt).mpr hk, hi, hlt⟩

/-- Only one selection follows the rule. -/
theorem Capped.unique [DecidableEq α] (hkept : Capped rank touches cap candidates kept)
    (hother : Capped rank touches cap candidates other) : kept = other := by
  have agree : ∀ n, ∀ c ∈ candidates, ((kept ∪ other).filter fun k => rank k < rank c).card = n →
      (c ∈ kept ↔ c ∈ other) := by
    intro n
    induction n using Nat.strong_induction_on with
    | _ n ih =>
      intro c hc hn
      have hload : ∀ i, load rank touches kept i c = load rank touches other i c := by
        intro i
        refine load_congr fun k hk => ?_
        by_cases hmem : k ∈ kept ∪ other
        · have hk' : k ∈ candidates := (Finset.mem_union.mp hmem).elim (hkept.subset k) (hother.subset k)
          refine ih _ ?_ k hk' rfl
          rw [← hn]
          refine Finset.card_lt_card (Finset.ssubset_iff_of_subset ?_ |>.mpr ⟨k, ?_, ?_⟩)
          · intro l hl
            rw [Finset.mem_filter] at hl ⊢
            exact ⟨hl.1, hl.2.trans hk⟩
          · exact Finset.mem_filter.mpr ⟨hmem, hk⟩
          · simp
        · rw [Finset.mem_union, not_or] at hmem
          exact iff_of_false hmem.1 hmem.2
      rw [hkept.rule c hc, hother.rule c hc]
      simp only [hload]
  ext c
  by_cases hc : c ∈ candidates
  · exact agree _ c hc rfl
  · exact iff_of_false (fun h => hc (hkept.subset c h)) fun h => hc (hother.subset c h)

/-- A place takes no more than the cap. -/
theorem Capped.card_le (h : Capped rank touches cap candidates kept) (hrank : ∀ a ∈ kept, ∀ b ∈ kept, rank a = rank b → a = b)
    (i : ι) : (kept.filter (touches i)).card ≤ cap := by
  by_cases hnone : (kept.filter (touches i)).Nonempty
  · obtain ⟨c, hc, hmax⟩ := Finset.exists_max_image _ rank hnone
    obtain ⟨hkept, hi⟩ := Finset.mem_filter.mp hc
    have hroom := (h.rule c (h.subset c hkept)).mp hkept i hi
    -- the others at the place are ranked before the last one
    have hsubset : (kept.filter (touches i)) ⊆
        Finset.cons c (kept.filter fun k => touches i k ∧ rank k < rank c) (by simp) := by
      intro k hk
      rw [Finset.mem_cons]
      obtain ⟨hkk, hki⟩ := Finset.mem_filter.mp hk
      rcases (hmax k hk).lt_or_eq with hlt | heq
      · exact .inr (Finset.mem_filter.mpr ⟨hkk, hki, hlt⟩)
      · exact .inl (hrank k hkk c hkept heq)
    have hcard := Finset.card_le_card hsubset
    rw [Finset.card_cons] at hcard
    unfold load at hroom
    omega
  · rw [Finset.not_nonempty_iff_eq_empty.mp hnone, Finset.card_empty]
    exact Nat.zero_le cap

/-- A candidate that is not kept touches a place that was full before it. -/
theorem Capped.dropped (h : Capped rank touches cap candidates kept) (hc : c ∈ candidates) (hnot : c ∉ kept) :
    ∃ i, touches i c ∧ cap ≤ load rank touches kept i c := by
  rw [h.rule c hc] at hnot
  push Not at hnot
  exact hnot

/-- A candidate is kept where no more candidates than the cap touch a place of it. -/
theorem Capped.mem_of_card_le [DecidableEq α] (h : Capped rank touches cap candidates kept) (hc : c ∈ candidates)
    (hroom : ∀ i, touches i c → ∀ others : Finset α, (∀ k ∈ others, k ∈ candidates ∧ touches i k) → others.card ≤ cap) :
    c ∈ kept := by
  refine (h.rule c hc).mpr fun i hi => ?_
  have hnot : c ∉ kept.filter fun k => touches i k ∧ rank k < rank c := by simp
  have hcard := hroom i hi (insert c (kept.filter fun k => touches i k ∧ rank k < rank c)) fun k hk => by
    rcases Finset.mem_insert.mp hk with rfl | hk
    · exact ⟨hc, hi⟩
    · obtain ⟨hk, hki, -⟩ := Finset.mem_filter.mp hk
      exact ⟨h.subset k hk, hki⟩
  rw [Finset.card_insert_of_notMem hnot] at hcard
  unfold load
  omega

end Alexandria.CappedSelection
