import Alexandria.Foundations.Run
import Mathlib.Order.Defs.Unbundled

/-! # Stores whose entries settle

A store is a partial function from keys to values. It grows along a relation between values when no entry is lost and every
entry is followed by one that it is related to. Growth composes, and one replaced entry is growth. What relates every step of a
machine relates the ends of its runs.
-/

namespace Alexandria.Growth
set_option autoImplicit false

variable {K V σ ι : Type*} {R : V → V → Prop} {a b c : K → Option V}

def Grows (R : V → V → Prop) (a b : K → Option V) : Prop := ∀ k v, a k = some v → ∃ w, b k = some w ∧ R v w

theorem Grows.refl [Std.Refl R] (a : K → Option V) : Grows R a a := fun _ v h => ⟨v, h, Std.Refl.refl v⟩

theorem Grows.trans [IsTrans V R] (h : Grows R a b) (h' : Grows R b c) : Grows R a c := by
  intro k v hv
  obtain ⟨w, hw, hvw⟩ := h k v hv
  obtain ⟨x, hx, hwx⟩ := h' k w hw
  exact ⟨x, hx, IsTrans.trans v w x hvw hwx⟩

/-- An entry is added, or replaced by one that it may be followed by. -/
theorem Grows.update [DecidableEq K] [Std.Refl R] {k : K} {w : V} (h : ∀ v, a k = some v → R v w) :
    Grows R a (Function.update a k (some w)) := by
  intro j v hv
  rw [Function.update_apply]
  split
  · rename_i hj
    exact ⟨w, rfl, h v (hj ▸ hv)⟩
  · exact ⟨v, hv, Std.Refl.refl v⟩

/-- A machine that keeps an invariant and steps along a preorder runs along it. -/
theorem of_guarded {step : σ → ι → Option σ} {ok : σ → ι → Prop} {I : σ → Prop} {C : σ → σ → Prop} [Std.Refl C] [IsTrans σ C]
    (keep : ∀ s l t, I s → ok s l → step s l = some t → I t ∧ C s t) {s t : σ} (h : Run.Guarded step ok s t) (hs : I s) :
    I t ∧ C s t := by
  induction h with
  | refl => exact ⟨hs, Std.Refl.refl s⟩
  | next _ hok hstep ih =>
    obtain ⟨hinv, hreached⟩ := ih
    obtain ⟨hinv', hnext⟩ := keep _ _ _ hinv hok hstep
    exact ⟨hinv', IsTrans.trans _ _ _ hreached hnext⟩

end Alexandria.Growth
