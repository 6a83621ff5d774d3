import Mathlib.Data.List.Chain
import Mathlib.Logic.Function.Basic
import Mathlib.Logic.Relation
import Mathlib.Order.WellFoundedSet
import Mathlib.Tactic.Common

/-! # Chains of a partial successor function

Every element has at most one successor, so a chain from an element is unique: two elements on it are comparable, and an
element that comes back to itself is met again from everything its chain reaches.
-/

namespace Alexandria.Successor
set_option autoImplicit false

universe u
variable {α : Type u} {next : α → Option α} {a b c : α}

/-- `b` is the successor of `a`. -/
def Follows (next : α → Option α) (a b : α) : Prop := next a = some b

/-- `b` lies on the chain from `a`, which itself does too. -/
abbrev Reaches (next : α → Option α) : α → α → Prop := Relation.ReflTransGen (Follows next)

/-- The chain from `a` comes back to it. -/
def OnCycle (next : α → Option α) (a : α) : Prop := Relation.TransGen (Follows next) a a

theorem follows_rightUnique : Relator.RightUnique (Follows next) := by
  intro a b c hb hc
  exact Option.some.inj (hb.symm.trans hc)

theorem OnCycle.exists_follows (h : OnCycle next a) : ∃ b, next a = some b ∧ Reaches next b a := by
  obtain ⟨b, hb, hba⟩ := Relation.TransGen.head'_iff.mp h
  exact ⟨b, hb, hba⟩

theorem onCycle_of_reaches (hab : next a = some b) (hba : Reaches next b a) : OnCycle next a :=
  Relation.TransGen.head' hab hba

/-- From everything on the chain of a cycle's element the chain comes back to the element. -/
theorem OnCycle.returns (h : OnCycle next a) (hab : Reaches next a b) : Reaches next b a := by
  induction hab with
  | refl => exact .refl
  | tail hac hcb ih =>
    obtain ⟨d, hd, hda⟩ := Relation.ReflTransGen.cases_head ih |>.elim
      (fun heq => by
        subst heq
        exact h.exists_follows)
      (fun hstep => hstep)
    obtain rfl := follows_rightUnique hcb hd
    exact hda

theorem OnCycle.of_reaches (h : OnCycle next a) (hab : Reaches next a b) : OnCycle next b := by
  have hba := h.returns hab
  obtain rfl | ⟨d, hd, hda⟩ := Relation.ReflTransGen.cases_head hba
  · exact h
  · exact onCycle_of_reaches hd (hda.trans hab)

/-- A set that holds each successor of its elements holds their chains. -/
theorem reaches_mem {S : α → Prop} (closed : ∀ a b, S a → next a = some b → S b) (ha : S a) (hab : Reaches next a b) :
    S b := by
  induction hab with
  | refl => exact ha
  | tail _ hcb ih => exact closed _ _ ih hcb

/-! ## Groups

The elements that are linked by successors in either direction make up a group. A group has at most one end, which all
its elements reach, and a chain among finitely many elements without a cycle has an end.
-/

/-- `a` and `b` are connected by successors, followed forwards or backwards. -/
abbrev Linked (next : α → Option α) : α → α → Prop := Relation.EqvGen (Follows next)

/-- Linked elements have chains that meet. -/
theorem Linked.meet (h : Linked next a b) : ∃ c, Reaches next a c ∧ Reaches next b c := by
  have hequivalence : Equivalence (Relation.Join (Reaches next)) := by
    refine Relation.equivalence_join_reflTransGen ?_
    intro a b c hb hc
    obtain rfl := follows_rightUnique hb hc
    exact ⟨b, .refl, .refl⟩
  refine hequivalence.eqvGen_iff.mp (h.mono ?_)
  intro a b hab
  exact ⟨b, .single hab, .refl⟩

theorem eq_of_reaches_end (ha : next a = none) (h : Reaches next a b) : b = a := by
  obtain rfl | ⟨c, hc, -⟩ := Relation.ReflTransGen.cases_head h
  · rfl
  · cases ha.symm.trans hc

/-- Every element of a group reaches its end. -/
theorem Linked.reaches_end (h : Linked next a b) (hb : next b = none) : Reaches next a b := by
  obtain ⟨c, hac, hbc⟩ := h.meet
  obtain rfl := eq_of_reaches_end hb hbc
  exact hac

theorem Linked.of_reaches (h : Reaches next a b) : Linked next a b :=
  Relation.EqvGen.reflTransGen_le_eqvGen _ a b h

/-- From an element on a cycle no end is linked. -/
theorem OnCycle.not_linked_end (h : OnCycle next a) (hb : next b = none) : ¬ Linked next a b := by
  intro hlinked
  obtain ⟨c, hc, -⟩ := (h.of_reaches (hlinked.reaches_end hb)).exists_follows
  cases hb.symm.trans hc

theorem exists_end {S : Set α} (hfinite : S.Finite) (hsource : ∀ a b, next a = some b → a ∈ S)
    (hacyclic : ∀ a, ¬ OnCycle next a) (a : α) : ∃ b, Reaches next a b ∧ next b = none := by
  have : IsStrictOrder α fun b a => Relation.TransGen (Follows next) a b :=
    { irrefl := hacyclic, trans := fun a b c hba hcb => hcb.trans hba }
  have hwf : S.WellFoundedOn fun b a => Relation.TransGen (Follows next) a b := hfinite.wellFoundedOn
  -- along the chain, which cannot come back to an element of the finite set
  have hmember : ∀ x ∈ S, ∃ b, Reaches next x b ∧ next b = none := by
    intro x hx
    refine hwf.induction (P := fun x => ∃ b, Reaches next x b ∧ next b = none) hx ?_
    intro y _ ih
    cases hnext : next y with
    | none => exact ⟨y, .refl, hnext⟩
    | some c =>
      cases hstop : next c with
      | none => exact ⟨c, .single hnext, hstop⟩
      | some d =>
        obtain ⟨b, hcb, hb⟩ := ih c (hsource c d hstop) (.single hnext)
        exact ⟨b, .head hnext hcb, hb⟩
  cases hnext : next a with
  | none => exact ⟨a, .refl, hnext⟩
  | some c => exact hmember a (hsource a c hnext)

/-! ## A new link

An element without a successor gets one. What is reached from the new successor stays as it was as long as the element
itself is not reached from there, and then no cycle arises.
-/

/-- Every link is known at both of its ends. -/
def Mirrored (next prev : α → Option α) : Prop := ∀ a b, prev a = some b ↔ next b = some a

theorem Mirrored.injective {prev : α → Option α} (h : Mirrored next prev) (ha : next a = some c) (hb : next b = some c) :
    a = b := Option.some.inj (((h c a).mpr ha).symm.trans ((h c b).mpr hb))

section Link
variable [DecidableEq α]

theorem Reaches.of_update {s : Option α} (h : Reaches (Function.update next b s) a c) (hout : ¬ Reaches next a b) :
    Reaches next a c := by
  induction h with
  | refl => exact .refl
  | tail _ hstep ih =>
    rename_i x y _
    have hx : x ≠ b := by
      rintro rfl
      exact hout ih
    unfold Follows at hstep
    rw [Function.update_of_ne hx] at hstep
    exact ih.tail hstep

theorem acyclic_update (hacyclic : ∀ x, ¬ OnCycle next x) (hout : ¬ Reaches next a b) (x : α) :
    ¬ OnCycle (Function.update next b (some a)) x := by
  intro hcycle
  by_cases hreach : Reaches (Function.update next b (some a)) x b
  · -- a cycle through the new link comes back from `a` to `b`
    obtain ⟨d, hd, hdb⟩ := (hcycle.of_reaches hreach).exists_follows
    rw [Function.update_self] at hd
    obtain rfl := Option.some.inj hd
    exact hout (Reaches.of_update hdb hout)
  · have hkept : ∀ y, Relation.TransGen (Follows (Function.update next b (some a))) x y →
        Relation.TransGen (Follows next) x y := by
      intro y hxy
      induction hxy with
      | single hstep =>
        have hx : x ≠ b := by
          rintro rfl
          exact hreach .refl
        unfold Follows at hstep
        rw [Function.update_of_ne hx] at hstep
        exact .single hstep
      | tail hxz hstep ih =>
        rename_i z _
        have hz : z ≠ b := by
          rintro rfl
          exact hreach hxz.to_reflTransGen
        unfold Follows at hstep
        rw [Function.update_of_ne hz] at hstep
        exact ih.tail hstep
    exact hacyclic x (hkept x hcycle)

/-- A link between an element that has no successor and one that is nobody's. -/
theorem Mirrored.link {prev : α → Option α} (h : Mirrored next prev) (hnext : next b = none) (hprev : prev a = none) :
    Mirrored (Function.update next b (some a)) (Function.update prev a (some b)) := by
  intro x y
  have hx := h x y
  by_cases hxa : x = a <;> by_cases hyb : y = b
  · subst hxa hyb
    simp
  · subst hxa
    rw [hprev] at hx
    simpa [Function.update_of_ne hyb, Ne.symm hyb] using hx
  · subst hyb
    rw [hnext] at hx
    simpa [Function.update_of_ne hxa, Ne.symm hxa] using hx
  · simpa [Function.update_of_ne hxa, Function.update_of_ne hyb] using hx

end Link

/-! ## Paths

A path lists consecutive elements of a chain.
-/

/-- Each element of the path is followed by the next one. -/
def IsPath (next : α → Option α) (path : List α) : Prop := path.IsChain (Follows next)

theorem IsPath.reaches_getLast {path : List α} (h : IsPath next path) (ha : a ∈ path) (hne : path ≠ []) :
    Reaches next a (path.getLast hne) := by
  induction path generalizing a with
  | nil => exact absurd rfl hne
  | cons x path ih =>
    cases path with
    | nil =>
      obtain rfl := List.mem_singleton.mp ha
      exact .refl
    | cons y rest =>
      obtain ⟨hxy, hrest⟩ := List.isChain_cons_cons.mp h
      rw [List.getLast_cons (List.cons_ne_nil y rest)]
      obtain rfl | ha := List.mem_cons.mp ha
      · exact Relation.ReflTransGen.head hxy (ih hrest (List.mem_cons_self ..) (List.cons_ne_nil y rest))
      · exact ih hrest ha (List.cons_ne_nil y rest)

/-- The head of a path reaches all of it. -/
theorem IsPath.reaches_of_head {path : List α} (h : IsPath next (a :: path)) (hb : b ∈ a :: path) : Reaches next a b := by
  induction path generalizing a with
  | nil =>
    obtain rfl := List.mem_singleton.mp hb
    exact .refl
  | cons y rest ih =>
    obtain ⟨hay, hrest⟩ := List.isChain_cons_cons.mp h
    obtain rfl | hb := List.mem_cons.mp hb
    · exact .refl
    · exact Relation.ReflTransGen.head hay (ih hrest hb)

/-- A path extended by the successor of its last element. -/
theorem IsPath.concat {path : List α} (h : IsPath next path) (hlast : ∀ a, path.getLast? = some a → next a = some b) :
    IsPath next (path ++ [b]) := by
  refine List.isChain_append.mpr ⟨h, List.isChain_singleton b, ?_⟩
  intro x hx y hy
  rw [List.head?_cons, Option.mem_some_iff] at hy
  subst hy
  exact hlast x hx

end Alexandria.Successor
