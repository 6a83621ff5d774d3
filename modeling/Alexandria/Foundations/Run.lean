import Mathlib.Logic.Function.Basic

/-! # Guarded runs of a labelled machine

A machine is a partial step function `step : σ → ι → Option σ`: the label names which party moves
and how, `none` says that the move is not enabled. `exec` performs a list of labels, `Guarded step ok`
relates a state to every state that is reached by enabled moves each of which meets `ok` in the state
it leaves. A run without a side condition is `Guarded step (fun _ _ => True)`.
-/

namespace Alexandria.Run
set_option autoImplicit false

universe u v
variable {σ : Type u} {ι : Type v} {step : σ → ι → Option σ} {ok : σ → ι → Prop}

/-- Perform the labels in order; `none` as soon as one of them is not enabled. -/
def exec (step : σ → ι → Option σ) : σ → List ι → Option σ
  | s, [] => some s
  | s, l :: ls => (step s l).bind fun t => exec step t ls

/-- The machine that performs only the moves a check passes. -/
def checked (step : σ → ι → Option σ) (check : σ → ι → Bool) (s : σ) (l : ι) : Option σ :=
  if check s l then step s l else none

/-- `t` is reached from `s` by enabled moves that all meet `ok`. -/
inductive Guarded (step : σ → ι → Option σ) (ok : σ → ι → Prop) (s : σ) : σ → Prop
  | refl : Guarded step ok s s
  | next {t u : σ} {l : ι} : Guarded step ok s t → ok t l → step t l = some u → Guarded step ok s u

/-- A run with no side condition on its moves. -/
abbrev Runs (step : σ → ι → Option σ) : σ → σ → Prop := Guarded step fun _ _ => True

theorem Guarded.trans {s t u : σ} (h : Guarded step ok s t) (h' : Guarded step ok t u) :
    Guarded step ok s u := by
  induction h' with
  | refl => exact h
  | next _ hok hstep ih => exact ih.next hok hstep

/-- The induction rule: what holds at the start and is kept by every permitted move holds at the end. -/
theorem Guarded.invariant {P : σ → Prop} {s t : σ} (h : Guarded step ok s t) (start : P s)
    (keep : ∀ a l b, P a → ok a l → step a l = some b → P b) : P t := by
  induction h with
  | refl => exact start
  | next _ hok hstep ih => exact keep _ _ _ ih hok hstep

/-- A list of enabled labels that pass a check for the side condition. -/
theorem Guarded.of_exec {check : σ → ι → Bool} (hcheck : ∀ s l, check s l = true → ok s l) {s t : σ} (ls : List ι)
    (h : exec (checked step check) s ls = some t) : Guarded step ok s t := by
  induction ls generalizing s with
  | nil =>
    cases Option.some.inj h
    exact .refl
  | cons l ls ih =>
    obtain ⟨a, ha, hrest⟩ := Option.bind_eq_some_iff.mp h
    unfold checked at ha
    split at ha
    · rename_i hpass
      have first : Guarded step ok s a := Guarded.refl.next (hcheck s l hpass) ha
      exact first.trans (ih hrest)
    · simp at ha

/-- A list of enabled labels is a run. -/
theorem Runs.of_exec {s t : σ} (ls : List ι) (h : exec step s ls = some t) : Runs step s t := by
  have free : checked step (fun _ _ => true) = step := by
    funext s l
    rfl
  rw [← free] at h
  exact Guarded.of_exec (fun _ _ _ => trivial) ls h

/-- What holds of a party after one party moved: it moved itself, or it is as it was. -/
theorem of_update {α β : Type*} [DecidableEq α] {f : α → β} {a b : α} {x : β} (P : β → Prop)
    (h : P (Function.update f a x b)) : (b = a ∧ P x) ∨ (b ≠ a ∧ P (f b)) := by
  by_cases hb : b = a
  · subst hb
    rw [Function.update_self] at h
    exact .inl ⟨rfl, h⟩
  · rw [Function.update_of_ne hb] at h
    exact .inr ⟨hb, h⟩

end Alexandria.Run
