import Mathlib.Logic.Function.Basic

/-! # Mutexes and the threads under them

`holder` says of every lock which thread has its guard, `guard` of every thread which lock it is under. `Owned` keeps the two in
agreement; acquiring a free lock and releasing it keep it, and no two threads are under one lock.
-/

namespace Alexandria.Mutex
set_option autoImplicit false

variable {L T : Type*} {holder : L → Option T} {guard : T → Option L} {l : L} {t u : T}

/-- A thread has the guard of a lock exactly when it is under it. -/
def Owned (holder : L → Option T) (guard : T → Option L) : Prop := ∀ l t, holder l = some t ↔ guard t = some l

theorem Owned.exclusive (h : Owned holder guard) (ht : guard t = some l) (hu : guard u = some l) : t = u := by
  have hsame : some t = some u := ((h l t).mpr ht).symm.trans ((h l u).mpr hu)
  exact Option.some.inj hsame

theorem Owned.busy_iff (h : Owned holder guard) : (holder l).isSome = true ↔ ∃ t, guard t = some l := by
  rw [Option.isSome_iff_exists]
  exact exists_congr (h l)

section Update
variable [DecidableEq L] [DecidableEq T]

theorem Owned.acquire (h : Owned holder guard) (hfree : holder l = none) (ht : guard t = none) :
    Owned (Function.update holder l (some t)) (Function.update guard t (some l)) := by
  intro k u
  rw [Function.update_apply, Function.update_apply]
  by_cases hk : k = l
  · subst hk
    by_cases hu : u = t
    · simp [hu]
    · have hother : guard u ≠ some k := by
        intro hguard
        rw [(h k u).mpr hguard] at hfree
        cases hfree
      simp [hu, hother, Ne.symm hu]
  · by_cases hu : u = t
    · subst hu
      have hother : holder k ≠ some u := by
        intro hholder
        rw [(h k u).mp hholder] at ht
        cases ht
      simp [hk, hother, Ne.symm hk]
    · simp [hk, hu, h k u]

theorem Owned.release (h : Owned holder guard) (ht : guard t = some l) :
    Owned (Function.update holder l none) (Function.update guard t none) := by
  intro k u
  rw [Function.update_apply, Function.update_apply]
  by_cases hu : u = t
  · subst hu
    have hother : k ≠ l → holder k ≠ some u := by
      intro hk hholder
      have hsame := (h k u).mp hholder
      rw [ht] at hsame
      exact hk (Option.some.inj hsame).symm
    by_cases hk : k = l
    · simp [hk]
    · simp [hk, hother hk]
  · have hother : guard u ≠ some l := fun hguard => hu (h.exclusive hguard ht)
    by_cases hk : k = l
    · subst hk
      simp [hu, hother]
    · simp [hk, hu, h k u]

end Update

end Alexandria.Mutex
