import Mathlib.Order.Lattice
import Mathlib.Order.Interval.Set.Defs
import Mathlib.Tactic.Common

/-! # Closed spans with optional ends

A span of a linear order has an end on each side or none there. Two spans meet unless one ends before the other starts;
for spans that are not empty that is the same as having an element in common, and in general spans that do not meet
have none.
-/

namespace Alexandria
set_option autoImplicit false

universe u

structure Span (τ : Type u) where
  start : Option τ
  finish : Option τ

namespace Span
variable {τ : Type u} [LinearOrder τ] {s t : Span τ} {x b : τ}

def Covers (s : Span τ) (x : τ) : Prop := (∀ a, s.start = some a → a ≤ x) ∧ ∀ b, s.finish = some b → x ≤ b

/-- The first span ends before the second one starts. -/
def Before (s t : Span τ) : Prop := ∃ a b, s.finish = some a ∧ t.start = some b ∧ a < b

def Meets (s t : Span τ) : Prop := ¬ s.Before t ∧ ¬ t.Before s

theorem Before.disjoint (h : s.Before t) : ¬ (s.Covers x ∧ t.Covers x) := by
  intro hx
  obtain ⟨a, b, ha, hb, hab⟩ := h
  have hle : b ≤ a := (hx.2.1 b hb).trans (hx.1.2 a ha)
  exact absurd hab (not_lt.mpr hle)

theorem disjoint_of_not_meets (h : ¬ s.Meets t) : ¬ (s.Covers x ∧ t.Covers x) := by
  intro hx
  refine h ⟨?_, ?_⟩
  · intro hbefore
    exact hbefore.disjoint hx
  · intro hbefore
    exact hbefore.disjoint hx.symm

/-- A span that is given the end `b` stays inside what it was, unless it ended earlier and still covers `b`. -/
theorem endAt_subset_iff :
    (∀ x, (⟨s.start, some b⟩ : Span τ).Covers x → s.Covers x) ↔
      (∀ a, s.finish = some a → b ≤ a) ∨ ∃ a, s.start = some a ∧ b < a := by
  constructor
  · intro hsub
    by_cases hempty : ∃ a, s.start = some a ∧ b < a
    · exact .inr hempty
    · refine .inl ?_
      intro a ha
      have hcovers : (⟨s.start, some b⟩ : Span τ).Covers b := by
        refine ⟨?_, ?_⟩
        · intro c hc
          exact not_lt.mp fun hlt => hempty ⟨c, hc, hlt⟩
        · intro c hc
          exact le_of_eq (Option.some.inj hc)
      exact (hsub b hcovers).2 a ha
  · intro h x hx
    refine ⟨hx.1, ?_⟩
    intro a ha
    obtain hle | ⟨c, hc, hlt⟩ := h
    · exact (hx.2 b rfl).trans (hle a ha)
    · exact absurd ((hx.1 c hc).trans (hx.2 b rfl)) (not_le.mpr hlt)

end Span

end Alexandria
