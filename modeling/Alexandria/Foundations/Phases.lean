import Mathlib.Logic.Basic
import Mathlib.Tactic.Common

/-! # Phases that may stop with an exception

A phase is a step of straight-line code with a mutable state: it goes on from the state it leaves, or it raises in the
state it has reached so far. Nothing is undone when it raises, so the handler around a sequence of phases sees every
assignment made before the exception.
-/

namespace Alexandria.Phases
set_option autoImplicit false

universe u v
variable {σ : Type u} {ε : Type v}

abbrev Phase (σ : Type u) (ε : Type v) := σ → Except (ε × σ) σ

namespace Phase

def andThen (f g : Phase σ ε) : Phase σ ε := fun s => (f s).bind g

def sequence : List (Phase σ ε) → Phase σ ε
  | [] => .ok
  | f :: fs => f.andThen (sequence fs)

/-- The state in which the phase has ended, and the exception if it has raised one. -/
def run (f : Phase σ ε) (s : σ) : σ × Option ε :=
  match f s with
  | .ok t => (t, none)
  | .error (e, t) => (t, some e)

/-- From a state with `P` the phase goes on in a state with `Q` or raises in a state with `E`. -/
def Triple (P : σ → Prop) (f : Phase σ ε) (Q E : σ → Prop) : Prop :=
  ∀ s, P s → match f s with
    | .ok t => Q t
    | .error (_, t) => E t

/-- Whether or not the phase raises, `P` still holds. -/
def Keeps (P : σ → Prop) (f : Phase σ ε) : Prop := Triple P f P P

section Rules
variable {P Q R E : σ → Prop} {f g : Phase σ ε} {fs : List (Phase σ ε)}

theorem Triple.ok_of (h : Triple P f Q E) {s t : σ} (hs : P s) (hf : f s = .ok t) : Q t := by
  have := h s hs
  rw [hf] at this
  exact this

theorem Triple.error_of (h : Triple P f Q E) {s t : σ} {e : ε} (hs : P s) (hf : f s = .error (e, t)) : E t := by
  have := h s hs
  rw [hf] at this
  exact this

theorem Triple.of_cases (hok : ∀ s t, P s → f s = .ok t → Q t) (herror : ∀ s e t, P s → f s = .error (e, t) → E t) :
    Triple P f Q E := by
  intro s hs
  split
  · rename_i t hf
    exact hok s t hs hf
  · rename_i e t hf
    exact herror s e t hs hf

theorem Triple.andThen (hf : Triple P f Q E) (hg : Triple Q g R E) : Triple P (f.andThen g) R E := by
  intro s hs
  have hfirst := hf s hs
  unfold Phase.andThen
  cases h : f s with
  | ok t =>
    rw [h] at hfirst
    exact hg t hfirst
  | error failure =>
    rw [h] at hfirst
    exact hfirst

theorem Triple.weaken {P' Q' E' : σ → Prop} (h : Triple P f Q E) (hP : ∀ s, P' s → P s) (hQ : ∀ s, Q s → Q' s)
    (hE : ∀ s, E s → E' s) : Triple P' f Q' E' :=
  Triple.of_cases (fun s _ hs hf => hQ _ (h.ok_of (hP s hs) hf)) fun s _ _ hs hf => hE _ (h.error_of (hP s hs) hf)

theorem Triple.nil : Triple P (sequence [] : Phase σ ε) P E := fun _ hs => hs

theorem Triple.cons (hf : Triple P f Q E) (hfs : Triple Q (sequence fs) R E) : Triple P (sequence (f :: fs)) R E :=
  hf.andThen hfs

theorem Keeps.sequence (h : ∀ f ∈ fs, Keeps P f) : Keeps P (sequence fs) := by
  induction fs with
  | nil =>
    intro s hs
    exact hs
  | cons f fs ih =>
    have hfirst : Keeps P f := h f (List.mem_cons_self ..)
    exact hfirst.andThen (ih fun g hg => h g (List.mem_cons_of_mem f hg))

theorem Keeps.run (h : Keeps P f) {s : σ} (hs : P s) : P (f.run s).1 := by
  have := h s hs
  unfold Phase.run
  split <;> simp_all

/-- A sequence that goes on to its end went on from each of its phases. -/
theorem andThen_eq_ok {s u : σ} : (f.andThen g) s = .ok u ↔ ∃ t, f s = .ok t ∧ g t = .ok u := by
  unfold Phase.andThen
  cases f s with
  | ok t => simp [Except.bind]
  | error failure => simp [Except.bind]

theorem run_cons_ok {s t : σ} (h : f s = .ok t) : (sequence (f :: fs)).run s = (sequence fs).run t := by
  simp [Phase.run, Phase.sequence, Phase.andThen, h, Except.bind]

theorem run_cons_error {s t : σ} {e : ε} (h : f s = .error (e, t)) : (sequence (f :: fs)).run s = (t, some e) := by
  simp [Phase.run, Phase.sequence, Phase.andThen, h, Except.bind]

end Rules

end Phase

end Alexandria.Phases
