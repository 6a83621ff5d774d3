import Alexandria.Foundations.Successor
import Alexandria.Reconciliation.Cycle
import Alexandria.Reconciliation.Targets

/-! # Duplicates in a Compact

A Context whose child plan calls it a duplicate contributes no fact: its fact is to be found at the Context it is a
duplicate of. Every Context of a window is classified on its own, so that the duplicates may lead back to each other.
Every group of duplicates keeps a fact, or leads out of the window, exactly when they do not.
-/

namespace Alexandria.Reconciliation
set_option autoImplicit false
open Successor

section Groups
variable {previews : List ExistingMemoryPlanPreview} {item : ExistingMemoryPlanPreview}

/-! ## Duplicate groups -/

/-- The Context that a child plan calls its own a duplicate of, by the decision that the planner has selected. -/
def duplicateTarget (item : ExistingMemoryPlanPreview) : Option String :=
  item.plan.bind fun plan =>
    if plan.primaryDecision = .duplicate then (selectPrimaryDecision plan.decisions).map (·.existingContextId) else none

/-- The same for the Contexts of a window, by their identifiers. -/
def duplicateOf (previews : List ExistingMemoryPlanPreview) (contextId : String) : Option String :=
  (Keyed.lookup (·.context.id) contextId previews).bind duplicateTarget

/-- A plan that was built for a duplicate has a decision about another Context. -/
theorem duplicateTarget_eq_none : duplicateTarget item = none ↔ item.relation ≠ some .duplicate := by
  unfold duplicateTarget ExistingMemoryPlanPreview.relation
  cases hplan : item.plan with
  | none => simp
  | some plan =>
    by_cases hduplicate : plan.primaryDecision = .duplicate
    · have hrelation : primaryRelation (selectPrimaryDecision plan.decisions) = .duplicate :=
        (item.built plan hplan).relation.symm.trans hduplicate
      cases hselected : selectPrimaryDecision plan.decisions with
      | none =>
        rw [hselected] at hrelation
        cases hrelation
      | some decision => simp [hduplicate, hselected]
    · simp [hduplicate]

/-- The fact of the Context is in one of the buckets. -/
def HasFact (previews : List ExistingMemoryPlanPreview) (contextId : String) : Prop :=
  ∃ item ∈ previews, item.context.id = contextId ∧ item.fact ∈ (buildCycleFacts previews).factBuckets.allFacts

/-- Every Context is in a group with one whose fact is kept, or with one outside the window. -/
def KeepsFacts (previews : List ExistingMemoryPlanPreview) : Prop :=
  ∀ item ∈ previews, ∃ contextId, Linked (duplicateOf previews) item.context.id contextId ∧
    (HasFact previews contextId ∨ ∀ other ∈ previews, other.context.id ≠ contextId)

theorem mem_of_duplicateOf {contextId target : String} (h : duplicateOf previews contextId = some target) :
    contextId ∈ {id | ∃ item ∈ previews, item.context.id = id} := by
  obtain ⟨item, hitem, -⟩ := Option.bind_eq_some_iff.mp h
  exact ⟨item, Keyed.lookup_mem hitem⟩

/-- The end of a chain of duplicates has its fact in the Compact, or is outside the window. -/
theorem hasFact_of_end {contextId : String} (h : duplicateOf previews contextId = none) :
    HasFact previews contextId ∨ ∀ other ∈ previews, other.context.id ≠ contextId := by
  cases hlookup : Keyed.lookup (·.context.id) contextId previews with
  | none => exact .inr (Keyed.lookup_eq_none.mp hlookup)
  | some item =>
    obtain ⟨hitem, hid⟩ := Keyed.lookup_mem hlookup
    have hend : duplicateTarget item = none := by
      rw [duplicateOf, hlookup] at h
      exact h
    rw [duplicateTarget_eq_none] at hend
    exact .inl ⟨item, hitem, hid, mem_allFacts_buildCycleFacts.mpr ⟨item, hitem, hend, rfl⟩⟩

/-- In a window that lists each Context once, a Context whose fact is kept ends its chain. -/
theorem HasFact.duplicateOf_eq_none {contextId : String} (hnodup : (previews.map (·.context.id)).Nodup)
    (h : HasFact previews contextId) : duplicateOf previews contextId = none := by
  obtain ⟨item, -, rfl, hfact⟩ := h
  obtain ⟨kept, hkept, hrelation, hsame⟩ := mem_allFacts_buildCycleFacts.mp hfact
  have hid : kept.context.id = item.context.id := (congrArg MemoryCompactFact.contextId hsame).symm
  rw [duplicateOf, (Keyed.lookup_eq_some hnodup).mpr ⟨hkept, hid⟩, Option.bind_some, duplicateTarget_eq_none]
  exact hrelation

theorem duplicateOf_eq_none_of_outside {contextId : String} (h : ∀ other ∈ previews, other.context.id ≠ contextId) :
    duplicateOf previews contextId = none := by
  rw [duplicateOf, Keyed.lookup_eq_none.mpr h]
  rfl

theorem keepsFacts_of_acyclic (hacyclic : ∀ contextId, ¬ OnCycle (duplicateOf previews) contextId) :
    KeepsFacts previews := by
  intro item _
  have hfinite : {id | ∃ item ∈ previews, item.context.id = id}.Finite := by
    refine (List.finite_toSet (previews.map (·.context.id))).subset ?_
    intro id hid
    exact List.mem_map.mpr hid
  obtain ⟨contextId, hreaches, hend⟩ :=
    exists_end hfinite (fun _ _ hnext => mem_of_duplicateOf hnext) hacyclic item.context.id
  exact ⟨contextId, .of_reaches hreaches, hasFact_of_end hend⟩

theorem KeepsFacts.acyclic (hnodup : (previews.map (·.context.id)).Nodup) (h : KeepsFacts previews)
    (contextId : String) : ¬ OnCycle (duplicateOf previews) contextId := by
  intro hcycle
  obtain ⟨target, hnext, -⟩ := hcycle.exists_follows
  obtain ⟨item, hitem, rfl⟩ := mem_of_duplicateOf hnext
  obtain ⟨kept, hlinked, hfact | houtside⟩ := h item hitem
  · exact hcycle.not_linked_end (hfact.duplicateOf_eq_none hnodup) hlinked
  · exact hcycle.not_linked_end (duplicateOf_eq_none_of_outside houtside) hlinked

/-- Where no chain of duplicates comes back, every list of previews keeps a fact of every group that does not lead out
of the window; in a window that lists each Context once, only there. -/
theorem compaction_keeps_facts_iff (previews : List ExistingMemoryPlanPreview) :
    ((∀ contextId, ¬ OnCycle (duplicateOf previews) contextId) → KeepsFacts previews) ∧
      ((previews.map (·.context.id)).Nodup →
        (KeepsFacts previews ↔ ∀ contextId, ¬ OnCycle (duplicateOf previews) contextId)) := by
  refine ⟨keepsFacts_of_acyclic, ?_⟩
  intro hnodup
  exact ⟨fun h => h.acyclic hnodup, keepsFacts_of_acyclic⟩

end Groups

/-! ## Two copies of one note -/

/-- The same body in two notes. -/
def copiedContexts : List ContextRecord :=
  [noteContext "obsidian:a" "service port" "the service listens on port 8080." "a.md",
    noteContext "obsidian:b" "port of the service" "the service listens on port 8080." "b.md"]

/-- Both notes are found for each of them. -/
def copiedPreviews : List ExistingMemoryPlanPreview := previewsOf samplePlatform (fun _ => copiedContexts) copiedContexts

/-- Each of the two notes is called a duplicate of the other, and the Compact has no fact at all. -/
theorem compaction_drops_copies : copiedPreviews.map (·.context.id) = ["obsidian:a", "obsidian:b"] ∧
    (buildCycleFacts copiedPreviews).factBuckets.allFacts = [] ∧ ¬ KeepsFacts copiedPreviews := by
  have hids : copiedPreviews.map (·.context.id) = ["obsidian:a", "obsidian:b"] := by decide
  have hab : duplicateOf copiedPreviews "obsidian:a" = some "obsidian:b" := by decide
  have hba : duplicateOf copiedPreviews "obsidian:b" = some "obsidian:a" := by decide
  refine ⟨hids, by decide, ?_⟩
  intro hkeeps
  have hnodup : (copiedPreviews.map (·.context.id)).Nodup := by
    rw [hids]
    decide
  exact hkeeps.acyclic hnodup "obsidian:a" (onCycle_of_reaches hab (.single hba))

/-- The search finds the second note for the first one, but not the other way round. -/
def foundOnce : RecallSource := fun candidate =>
  if candidate.candidateId = "existing:obsidian:a" then copiedContexts else copiedContexts.drop 1

def foundOncePreviews : List ExistingMemoryPlanPreview := previewsOf samplePlatform foundOnce copiedContexts

theorem compaction_keeps_facts_found_once : KeepsFacts foundOncePreviews := by
  have hids : foundOncePreviews.map (·.context.id) = ["obsidian:a", "obsidian:b"] := by
    decide
  have hab : duplicateOf foundOncePreviews "obsidian:a" = some "obsidian:b" := by decide
  have hend : duplicateOf foundOncePreviews "obsidian:b" = none := by decide
  have hnodup : (foundOncePreviews.map (·.context.id)).Nodup := by
    rw [hids]
    decide
  refine ((compaction_keeps_facts_iff _).2 hnodup).mpr ?_
  intro contextId hcycle
  obtain ⟨target, hnext, hback⟩ := hcycle.exists_follows
  have hmem : contextId ∈ foundOncePreviews.map (·.context.id) :=
    List.mem_map.mpr (mem_of_duplicateOf hnext)
  simp only [hids, List.mem_cons, List.not_mem_nil, or_false] at hmem
  obtain rfl | rfl := hmem
  · obtain rfl := Option.some.inj (hab.symm.trans hnext)
    exact absurd (eq_of_reaches_end hend hback) (by decide)
  · cases hend.symm.trans hnext

end Alexandria.Reconciliation
