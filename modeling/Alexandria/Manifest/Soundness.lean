import Alexandria.Foundations.Successor
import Alexandria.Manifest.Checks

/-! # What the accepted manifest satisfies

The rejected Contexts are those from which the chain of `supersedes` references meets a Context that fails its own
checks or lies on a cycle. Everything about the accepted set follows from that, except for the backlinks: rejection runs
from a Context to its replacements, never from a replacement back to what it replaces.
-/

namespace Alexandria.Manifest
set_option autoImplicit false

open Compile Successor

/-- The valid Context that a valid Context supersedes. -/
def superseded (contexts : List Candidate) (id : String) : Option String :=
  (contextAt contexts id).bind fun c => c.supersedesContextId.filter fun target => (contextAt contexts target).isSome

theorem superseded_eq_some {contexts : List Candidate} {id target : String} :
    superseded contexts id = some target ↔ ∃ c, contextAt contexts id = some c ∧
      c.supersedesContextId = some target ∧ (contextAt contexts target).isSome = true := by
  unfold superseded
  rw [Option.bind_eq_some_iff]
  simp only [Option.filter_eq_some_iff]

/-! ## Cycles -/

section Walk
variable {contexts : List Candidate} {completed path : List String}

/-- A walk that has come along `path` and goes on at `current`. -/
structure Walking (contexts : List Candidate) (completed path : List String) (current : Option String) : Prop where
  chain : IsPath (superseded contexts) path
  nodup : path.Nodup
  known : ∀ id ∈ path, (contextAt contexts id).isSome = true
  fresh : ∀ id ∈ path, id ∉ completed
  current : ∀ id, path.getLast? = some id → (contextAt contexts id).bind (·.supersedesContextId) = current

/-- What a walk returns: it stays among the Contexts it saw or that were completed, and finds what lies on a cycle. -/
structure Walked (contexts : List Candidate) (completed path path' cycle : List String) : Prop where
  extends' : ∀ id ∈ path, id ∈ path'
  known : ∀ id ∈ path', (contextAt contexts id).isSome = true
  closed : ∀ id ∈ path', ∀ target, superseded contexts id = some target → target ∈ path' ∨ target ∈ completed
  cycle_mem : ∀ id ∈ cycle, id ∈ path'
  cyclic : ∀ id ∈ path', OnCycle (superseded contexts) id ↔ id ∈ cycle

/-- The successors of a path lie on it, but for that of its last element. -/
theorem Walking.follows {current : Option String} (h : Walking contexts completed path current) {id target : String}
    (hid : id ∈ path) (hnext : superseded contexts id = some target) :
    target ∈ path ∨ current = some target := by
  obtain ⟨before, after, rfl⟩ := List.append_of_mem hid
  cases after with
  | nil =>
    right
    obtain ⟨c, hc, hforward, -⟩ := superseded_eq_some.mp hnext
    have hlast := h.current id (by simp)
    rw [hc, Option.bind_some, hforward] at hlast
    exact hlast.symm
  | cons next rest =>
    left
    have hchain : List.IsChain (Follows (superseded contexts)) (id :: next :: rest) := h.chain.right_of_append
    have hstep : superseded contexts id = some next := (List.isChain_cons_cons.mp hchain).1
    obtain rfl := Option.some.inj (hstep.symm.trans hnext)
    simp

/-- A walk that leaves its path for nowhere, or for what is completed, has seen no cycle. -/
theorem Walking.stop {current : Option String} (h : Walking contexts completed path current)
    (hclosed : ∀ id ∈ completed, ∀ target, superseded contexts id = some target → target ∈ completed)
    (hleave : ∀ target, current = some target → (contextAt contexts target).isSome = true → target ∈ completed) :
    Walked contexts completed path path [] := by
  have hstep : ∀ id ∈ path, ∀ target, superseded contexts id = some target → target ∈ path ∨ target ∈ completed := by
    intro id hid target hnext
    obtain hpath | hcurrent := h.follows hid hnext
    · exact .inl hpath
    · obtain ⟨-, -, -, hsome⟩ := superseded_eq_some.mp hnext
      exact .inr (hleave target hcurrent hsome)
  refine ⟨fun id hid => hid, h.known, hstep, by simp, ?_⟩
  intro id hid
  simp only [List.not_mem_nil, iff_false]
  intro hcycle
  -- the last element of the path is on the cycle too, and its successor would come back from what is completed
  have hne : path ≠ [] := List.ne_nil_of_mem hid
  have hlast := h.chain.reaches_getLast hid hne
  obtain ⟨target, hnext, hback⟩ := (hcycle.of_reaches hlast).exists_follows
  have hmem : path.getLast hne ∈ path := List.getLast_mem hne
  have hdone : target ∈ completed := by
    obtain ⟨c, hc, hforward, hsome⟩ := superseded_eq_some.mp hnext
    have hcurrent := h.current _ (List.getLast?_eq_some_getLast hne)
    rw [hc, Option.bind_some, hforward] at hcurrent
    exact hleave target hcurrent.symm hsome
  exact h.fresh _ hmem (reaches_mem (fun a b ha hab => hclosed a ha b hab) hdone hback)

/-- A walk that meets its own path has found a cycle: the path from there on, and nothing before it. -/
theorem Walking.close {id : String} (h : Walking contexts completed path (some id))
    (hsome : (contextAt contexts id).isSome = true) (hid : id ∈ path) :
    Walked contexts completed path path (path.drop (path.idxOf id)) := by
  have hdrop : path.drop (path.idxOf id) = id :: path.drop (path.idxOf id + 1) := by
    rw [List.drop_eq_getElem_cons (List.idxOf_lt_length_iff.mpr hid), List.getElem_idxOf]
  have hne : path ≠ [] := List.ne_nil_of_mem hid
  have hlast : superseded contexts (path.getLast hne) = some id := by
    have hcurrent := h.current _ (List.getLast?_eq_some_getLast hne)
    obtain ⟨c, hc, hforward⟩ := Option.bind_eq_some_iff.mp hcurrent
    exact superseded_eq_some.mpr ⟨c, hc, hforward, hsome⟩
  have htail : IsPath (superseded contexts) (id :: path.drop (path.idxOf id + 1)) := by
    rw [← hdrop]
    exact h.chain.drop _
  have honCycle : OnCycle (superseded contexts) id := by
    have hreach := h.chain.reaches_getLast hid hne
    have hback : OnCycle (superseded contexts) (path.getLast hne) := onCycle_of_reaches hlast hreach
    exact hback.of_reaches (Relation.ReflTransGen.single hlast)
  -- everything that the chain reaches from `id` is on the path from `id` on
  have hstay : ∀ a b, a ∈ path.drop (path.idxOf id) → superseded contexts a = some b →
      b ∈ path.drop (path.idxOf id) := by
    intro a b ha hab
    obtain ⟨before, after, hsplit⟩ := List.append_of_mem ha
    cases after with
    | nil =>
      have hend : path.getLast hne = a := by
        have hsuffix : (path.drop (path.idxOf id)).getLast? = some a := by
          rw [hsplit]
          simp
        rw [List.getLast?_drop] at hsuffix
        rw [if_neg (Nat.not_le_of_lt (List.idxOf_lt_length_iff.mpr hid))] at hsuffix
        rw [List.getLast?_eq_some_getLast hne] at hsuffix
        exact Option.some.inj hsuffix
      rw [hend] at hlast
      obtain rfl := Option.some.inj (hlast.symm.trans hab)
      rw [hdrop]
      exact List.mem_cons_self ..
    | cons next rest =>
      rw [← hdrop, hsplit] at htail
      have hchain : List.IsChain (Follows (superseded contexts)) (a :: next :: rest) := List.IsChain.right_of_append htail
      have hstep : superseded contexts a = some next := (List.isChain_cons_cons.mp hchain).1
      obtain rfl := Option.some.inj (hstep.symm.trans hab)
      rw [hsplit]
      simp
  refine ⟨fun _ ha => ha, h.known, ?_, fun a ha => List.mem_of_mem_drop ha, ?_⟩
  · intro a ha target hnext
    obtain hpath | hcurrent := h.follows ha hnext
    · exact .inl hpath
    · obtain rfl := Option.some.inj hcurrent
      exact .inl hid
  · intro a ha
    constructor
    · intro hcycle
      -- `a` reaches the end of the path, hence `id`, and is reached from there
      have hreach : Reaches (superseded contexts) a id := (h.chain.reaches_getLast ha hne).tail hlast
      have hback := hcycle.returns hreach
      exact reaches_mem hstay (by rw [hdrop]; exact List.mem_cons_self ..) hback
    · intro ha'
      rw [hdrop] at ha'
      exact honCycle.of_reaches (htail.reaches_of_head ha')

/-- One step of the walk. -/
theorem Walking.advance {id : String} {c : Candidate} (h : Walking contexts completed path (some id))
    (hc : contextAt contexts id = some c) (hpath : id ∉ path) (hcompleted : id ∉ completed) :
    Walking contexts completed (path ++ [id]) c.supersedesContextId := by
  have hsome : (contextAt contexts id).isSome = true := by
    rw [hc]
    rfl
  refine ⟨h.chain.concat ?_, ?_, ?_, ?_, ?_⟩
  · intro a ha
    obtain ⟨d, hd, hforward⟩ := Option.bind_eq_some_iff.mp (h.current a ha)
    exact superseded_eq_some.mpr ⟨d, hd, hforward, hsome⟩
  · rw [List.nodup_append]
    refine ⟨h.nodup, List.nodup_singleton _, ?_⟩
    intro a ha b hb hab
    rw [List.mem_singleton.mp hb] at hab
    exact hpath (hab ▸ ha)
  · intro a ha
    obtain ha | ha := List.mem_append.mp ha
    · exact h.known a ha
    · rw [List.mem_singleton.mp ha]
      exact hsome
  · intro a ha
    obtain ha | ha := List.mem_append.mp ha
    · exact h.fresh a ha
    · rw [List.mem_singleton.mp ha]
      exact hcompleted
  · intro a ha
    rw [List.getLast?_concat] at ha
    obtain rfl := Option.some.inj ha
    rw [hc]
    rfl

theorem Walking.length_le {current : Option String} (h : Walking contexts completed path current) :
    path.length ≤ contexts.length := by
  have hsub : path ⊆ contexts.map (·.noteId) := by
    intro id hid
    obtain ⟨c, hc⟩ := Option.isSome_iff_exists.mp (h.known id hid)
    have hfound := List.find?_some hc
    rw [decide_eq_true_eq] at hfound
    rw [← hfound]
    exact List.mem_map_of_mem (List.mem_of_find?_eq_some hc)
  have hle := (List.subperm_of_subset h.nodup hsub).length_le
  rw [List.length_map] at hle
  exact hle

theorem walk_walked (hclosed : ∀ id ∈ completed, ∀ target, superseded contexts id = some target → target ∈ completed)
    (fuel : ℕ) (path : List String) (current : Option String) (h : Walking contexts completed path current)
    (hfuel : contexts.length < fuel + path.length) :
    ∃ path' cycle, walk contexts completed fuel path current = some (path', cycle) ∧
      Walked contexts completed path path' cycle ∧
      ∀ id, current = some id → (contextAt contexts id).isSome = true → id ∉ completed → id ∈ path' := by
  induction fuel generalizing path current with
  | zero =>
    have hle := h.length_le
    omega
  | succ fuel ih =>
    cases current with
    | none => exact ⟨path, [], rfl, h.stop hclosed (by simp), by simp⟩
    | some id =>
      unfold walk
      cases hc : contextAt contexts id with
      | none =>
        refine ⟨path, [], rfl, h.stop hclosed ?_, ?_⟩
        · intro target htarget hsome
          obtain rfl := Option.some.inj htarget
          rw [hc] at hsome
          simp at hsome
        · intro target htarget hsome
          obtain rfl := Option.some.inj htarget
          rw [hc] at hsome
          simp at hsome
      | some c =>
        have hsome : (contextAt contexts id).isSome = true := by
          rw [hc]
          rfl
        simp only
        split
        · rename_i hpath
          refine ⟨path, _, rfl, h.close hsome hpath, ?_⟩
          intro target htarget _ _
          exact Option.some.inj htarget ▸ hpath
        · rename_i hpath
          split
          · rename_i hcompleted
            refine ⟨path, [], rfl, h.stop hclosed ?_, ?_⟩
            · intro target htarget _
              exact Option.some.inj htarget ▸ hcompleted
            · intro target htarget _ hnot
              exact absurd (Option.some.inj htarget ▸ hcompleted) hnot
          · rename_i hcompleted
            obtain ⟨path', cycle, hwalk, hwalked, -⟩ := ih (path ++ [id]) c.supersedesContextId
              (h.advance hc hpath hcompleted) (by rw [List.length_append, List.length_singleton]; omega)
            refine ⟨path', cycle, hwalk, ⟨?_, hwalked.known, hwalked.closed, hwalked.cycle_mem, hwalked.cyclic⟩, ?_⟩
            · intro a ha
              exact hwalked.extends' a (List.mem_append_left _ ha)
            · intro target htarget _ _
              obtain rfl := Option.some.inj htarget
              exact hwalked.extends' id (by simp)

/-- The completed ids are closed under their references, and which of them lie on a cycle is known. -/
structure CyclesFound (contexts : List Candidate) (state : List String × List String) : Prop where
  known : ∀ id ∈ state.2, (contextAt contexts id).isSome = true
  closed : ∀ id ∈ state.2, ∀ target, superseded contexts id = some target → target ∈ state.2
  cyclic_mem : ∀ id ∈ state.1, id ∈ state.2
  cyclic : ∀ id ∈ state.2, OnCycle (superseded contexts) id ↔ id ∈ state.1

theorem CyclesFound.append {cyclic path cycle : List String} (h : CyclesFound contexts (cyclic, completed))
    (walked : Walked contexts completed [] path cycle) : CyclesFound contexts (cyclic ++ cycle, completed ++ path) := by
  have hold : ∀ id ∈ completed, id ∈ cycle → id ∈ cyclic := by
    intro id hid hcycle
    exact (h.cyclic id hid).mp ((walked.cyclic id (walked.cycle_mem id hcycle)).mpr hcycle)
  have hnew : ∀ id ∈ path, id ∈ cyclic → id ∈ cycle := by
    intro id hid hcyclic
    exact (walked.cyclic id hid).mp ((h.cyclic id (h.cyclic_mem id hcyclic)).mpr hcyclic)
  refine ⟨?_, ?_, ?_, ?_⟩
  · intro id hid
    obtain hid | hid := List.mem_append.mp hid
    · exact h.known id hid
    · exact walked.known id hid
  · intro id hid target hnext
    obtain hid | hid := List.mem_append.mp hid
    · exact List.mem_append_left _ (h.closed id hid target hnext)
    · obtain hpath | hdone := walked.closed id hid target hnext
      · exact List.mem_append_right _ hpath
      · exact List.mem_append_left _ hdone
  · intro id hid
    obtain hid | hid := List.mem_append.mp hid
    · exact List.mem_append_left _ (h.cyclic_mem id hid)
    · exact List.mem_append_right _ (walked.cycle_mem id hid)
  · intro id hid
    rw [List.mem_append]
    obtain hid | hid := List.mem_append.mp hid
    · rw [h.cyclic id hid]
      exact ⟨.inl, fun hcase => hcase.elim (fun hc => hc) (hold id hid)⟩
    · rw [walked.cyclic id hid]
      exact ⟨.inr, fun hcase => hcase.elim (hnew id hid) (fun hc => hc)⟩

theorem findCycles_found (rest : List Candidate) (hrest : ∀ c ∈ rest, (contextAt contexts c.noteId).isSome = true)
    (state : List String × List String) (h : CyclesFound contexts state) :
    ∃ state', findCycles contexts rest state = some state' ∧ CyclesFound contexts state' ∧
      (∀ id ∈ state.2, id ∈ state'.2) ∧ ∀ c ∈ rest, c.noteId ∈ state'.2 := by
  induction rest generalizing state with
  | nil => exact ⟨state, rfl, h, fun _ hid => hid, by simp⟩
  | cons c rest ih =>
    obtain ⟨cyclic, completed⟩ := state
    have htail : ∀ d ∈ rest, (contextAt contexts d.noteId).isSome = true :=
      fun d hd => hrest d (List.mem_cons_of_mem c hd)
    unfold findCycles
    split
    · rename_i hdone
      obtain ⟨state', hfind, hfound, hsub, hall⟩ := ih htail _ h
      refine ⟨state', hfind, hfound, hsub, ?_⟩
      intro d hd
      obtain rfl | hd := List.mem_cons.mp hd
      · exact hsub _ hdone
      · exact hall d hd
    · rename_i hfresh
      have hstart : Walking contexts completed [] (some c.noteId) :=
        ⟨List.IsChain.nil, List.nodup_nil, by simp, by simp, by simp⟩
      obtain ⟨path, cycle, hwalk, hwalked, hvisit⟩ := walk_walked h.closed (contexts.length + 2) [] _ hstart (by omega)
      rw [hwalk]
      obtain ⟨state', hfind, hfound, hsub, hall⟩ := ih htail _ (h.append hwalked)
      refine ⟨state', hfind, hfound, fun id hid => hsub id (List.mem_append_left _ hid), ?_⟩
      intro d hd
      obtain rfl | hd := List.mem_cons.mp hd
      · exact hsub _ (List.mem_append_right _ (hvisit _ rfl (hrest d (List.mem_cons_self ..)) hfresh))
      · exact hall d hd

end Walk

theorem contextAt_isSome {contexts : List Candidate} {c : Candidate} (hc : c ∈ contexts) :
    (contextAt contexts c.noteId).isSome = true := by
  unfold contextAt
  rw [List.find?_isSome]
  exact ⟨c, hc, decide_eq_true rfl⟩

/-- The ids reported as cyclic are those whose chain comes back to them. -/
theorem cyclicSupersedeIds_spec (contexts : List Candidate) :
    ∃ cyclic, cyclicSupersedeIds contexts = some cyclic ∧
      ∀ id, id ∈ cyclic ↔ OnCycle (superseded contexts) id := by
  obtain ⟨state, hfind, hfound, -, hall⟩ := findCycles_found contexts (fun c hc => contextAt_isSome hc) ([], [])
    ⟨by simp, by simp, by simp, by simp⟩
  refine ⟨state.1, by unfold cyclicSupersedeIds; rw [hfind]; rfl, ?_⟩
  intro id
  constructor
  · intro hid
    exact (hfound.cyclic id (hfound.cyclic_mem id hid)).mpr hid
  · intro hcycle
    obtain ⟨target, hnext, -⟩ := hcycle.exists_follows
    obtain ⟨c, hc, -⟩ := superseded_eq_some.mp hnext
    have hid := List.find?_some hc
    rw [decide_eq_true_eq] at hid
    have hvisited := hall c (List.mem_of_find?_eq_some hc)
    rw [hid] at hvisited
    exact (hfound.cyclic id hvisited).mp hcycle

/-! ## Propagation -/

section Propagation
variable {contexts : List Candidate} {reasons : Reasons}

theorem mem_predecessors (hids : (contexts.map (·.noteId)).Nodup) {target id : String} :
    id ∈ predecessors contexts target ↔ superseded contexts id = some target := by
  unfold predecessors
  rw [superseded_eq_some, List.mem_map]
  constructor
  · intro hid
    obtain ⟨c, hc, rfl⟩ := hid
    obtain ⟨hmem, hforward⟩ := List.mem_filter.mp hc
    rw [decide_eq_true_eq] at hforward
    exact ⟨c, (contextAt_eq_some hids).mpr ⟨hmem, rfl⟩, hforward⟩
  · intro hid
    obtain ⟨c, hc, hforward⟩ := hid
    obtain ⟨hmem, rfl⟩ := (contextAt_eq_some hids).mp hc
    exact ⟨c, List.mem_filter.mpr ⟨hmem, decide_eq_true hforward⟩, rfl⟩

/-- How many Contexts have no reason yet. -/
def unsettled (contexts : List Candidate) (reasons : Reasons) : ℕ := contexts.countP fun c => c.noteId ∉ reasons

theorem unsettled_insert {id : String} (reason : String) (hid : id ∉ reasons) (hmem : id ∈ contexts.map (·.noteId)) :
    unsettled contexts (reasons.insert id reason) < unsettled contexts reasons := by
  obtain ⟨c, hc, rfl⟩ := List.mem_map.mp hmem
  obtain ⟨before, after, rfl⟩ := List.append_of_mem hc
  have himp : ∀ d : Candidate, decide (d.noteId ∉ reasons.insert c.noteId reason) = true →
      decide (d.noteId ∉ reasons) = true := by
    intro d hd
    rw [decide_eq_true_eq] at hd ⊢
    exact fun hin => hd ((AList.mem_insert _).mpr (.inr hin))
  have hbefore := List.countP_mono_left (l := before) fun d _ => himp d
  have hafter := List.countP_mono_left (l := after) fun d _ => himp d
  have hgone : ¬ decide (c.noteId ∉ reasons.insert c.noteId reason) = true := by simp
  unfold unsettled
  simp only [List.countP_append, List.countP_cons]
  rw [if_neg hgone, if_pos (decide_eq_true hid)]
  omega

/-- Rejecting predecessors settles them and queues those that were open. -/
theorem rejectAll_spec (target : String) (ids : List String) (reasons : Reasons)
    (hids : ∀ id ∈ ids, id ∈ contexts.map (·.noteId)) :
    (∀ id, id ∈ (rejectAll target ids reasons).1 ↔ id ∈ reasons ∨ id ∈ ids) ∧
      (∀ id, id ∈ (rejectAll target ids reasons).2 → id ∈ ids) ∧
      (∀ id, id ∈ ids → id ∈ reasons ∨ id ∈ (rejectAll target ids reasons).2) ∧
      (rejectAll target ids reasons).2.length + unsettled contexts (rejectAll target ids reasons).1 ≤
        unsettled contexts reasons := by
  induction ids generalizing reasons with
  | nil => simp [rejectAll]
  | cons first rest ih =>
    have hrest : ∀ id ∈ rest, id ∈ contexts.map (·.noteId) := fun id hid => hids id (List.mem_cons_of_mem first hid)
    unfold rejectAll
    split
    · rename_i hin
      obtain ⟨hmem, hqueued, hall, hcount⟩ := ih reasons hrest
      refine ⟨?_, ?_, ?_, hcount⟩
      · intro id
        rw [hmem, List.mem_cons]
        constructor
        · intro hid
          exact hid.elim .inl fun hid => .inr (.inr hid)
        · intro hid
          obtain hid | rfl | hid := hid
          · exact .inl hid
          · exact .inl hin
          · exact .inr hid
      · intro id hid
        exact List.mem_cons_of_mem first (hqueued id hid)
      · intro id hid
        obtain rfl | hid := List.mem_cons.mp hid
        · exact .inl hin
        · exact hall id hid
    · rename_i hout
      obtain ⟨hmem, hqueued, hall, hcount⟩ :=
        ih (reasons.insert first s!"superseded Context is absent or invalid: {target}") hrest
      have hless := unsettled_insert s!"superseded Context is absent or invalid: {target}" hout
        (hids first (List.mem_cons_self ..))
      refine ⟨?_, ?_, ?_, ?_⟩
      · intro id
        rw [hmem, AList.mem_insert, List.mem_cons]
        constructor
        · intro hid
          obtain (rfl | hid) | hid := hid
          · exact .inr (.inl rfl)
          · exact .inl hid
          · exact .inr (.inr hid)
        · intro hid
          obtain hid | rfl | hid := hid
          · exact .inl (.inr hid)
          · exact .inl (.inl rfl)
          · exact .inr hid
      · intro id hid
        obtain rfl | hid := List.mem_cons.mp hid
        · exact List.mem_cons_self ..
        · exact List.mem_cons_of_mem first (hqueued id hid)
      · intro id hid
        obtain rfl | hid := List.mem_cons.mp hid
        · exact .inr (List.mem_cons_self ..)
        · obtain hid' | hid' := hall id hid
          · obtain rfl | hid' := (AList.mem_insert _).mp hid'
            · exact .inr (List.mem_cons_self ..)
            · exact .inl hid'
          · exact .inr (List.mem_cons_of_mem first hid')
      · simp only [List.length_cons]
        omega

/-- The loop: what is settled is queued or has all its predecessors settled, and leads to a first reason. -/
structure Propagating (contexts : List Candidate) (start : String → Prop) (queue : List String) (reasons : Reasons) :
    Prop where
  started : ∀ id, start id → id ∈ reasons
  queued : ∀ id ∈ queue, id ∈ reasons
  pending : ∀ target ∈ reasons, target ∈ queue ∨ ∀ id, superseded contexts id = some target → id ∈ reasons
  leads : ∀ id ∈ reasons, ∃ origin, start origin ∧ Reaches (superseded contexts) id origin

/-- Once the queue is empty, what leads to a first reason is settled. -/
theorem Propagating.exhausted {start : String → Prop} (h : Propagating contexts start [] reasons) (id : String) :
    id ∈ reasons ↔ ∃ origin, start origin ∧ Reaches (superseded contexts) id origin := by
  constructor
  · exact h.leads id
  · intro hid
    obtain ⟨origin, horigin, hreach⟩ := hid
    induction hreach using Relation.ReflTransGen.head_induction_on with
    | refl => exact h.started origin horigin
    | head hstep _ hmem =>
      obtain hqueue | hall := h.pending _ hmem
      · simp at hqueue
      · exact hall _ hstep

theorem predecessors_known (target : String) :
    ∀ id ∈ predecessors contexts target, id ∈ contexts.map (·.noteId) := by
  intro id hid
  obtain ⟨c, hc, rfl⟩ := List.mem_map.mp hid
  exact List.mem_map_of_mem (List.mem_filter.mp hc).1

/-- One round: the head of the queue has its predecessors settled, and those that were open are queued. -/
theorem Propagating.reject (hids : (contexts.map (·.noteId)).Nodup) {start : String → Prop} {target : String}
    {queue : List String} (h : Propagating contexts start (target :: queue) reasons) :
    Propagating contexts start (queue ++ (rejectAll target (predecessors contexts target) reasons).2)
      (rejectAll target (predecessors contexts target) reasons).1 := by
  obtain ⟨hmem, hqueued, hall, -⟩ := rejectAll_spec target _ reasons (predecessors_known target)
  have hold : ∀ other ∈ reasons, other ∈ queue ∨
      ∀ id, superseded contexts id = some other → id ∈ (rejectAll target (predecessors contexts target) reasons).1 := by
    intro other hother
    obtain hin | hdone := h.pending other hother
    · obtain rfl | hin := List.mem_cons.mp hin
      · right
        intro id hid
        exact (hmem id).mpr (.inr ((mem_predecessors hids).mpr hid))
      · exact .inl hin
    · right
      intro id hid
      exact (hmem id).mpr (.inl (hdone id hid))
  refine ⟨?_, ?_, ?_, ?_⟩
  · intro id hid
    exact (hmem id).mpr (.inl (h.started id hid))
  · intro id hid
    obtain hid | hid := List.mem_append.mp hid
    · exact (hmem id).mpr (.inl (h.queued id (List.mem_cons_of_mem target hid)))
    · exact (hmem id).mpr (.inr (hqueued id hid))
  · intro other hother
    obtain hin | hqueue : other ∈ reasons ∨ other ∈ (rejectAll target (predecessors contexts target) reasons).2 :=
      ((hmem other).mp hother).elim .inl (hall other)
    · exact (hold other hin).imp (List.mem_append_left _) id
    · exact .inl (List.mem_append_right _ hqueue)
  · intro id hid
    obtain hid | hid := (hmem id).mp hid
    · exact h.leads id hid
    · obtain ⟨origin, horigin, hreach⟩ := h.leads target (h.queued target (List.mem_cons_self ..))
      exact ⟨origin, horigin, Relation.ReflTransGen.head ((mem_predecessors hids).mp hid) hreach⟩

theorem propagate_spec (hids : (contexts.map (·.noteId)).Nodup) (start : String → Prop) (fuel : ℕ)
    (queue : List String) (reasons : Reasons) (h : Propagating contexts start queue reasons)
    (hfuel : queue.length + unsettled contexts reasons < fuel) :
    ∃ settled, propagate contexts fuel queue reasons = some settled ∧
      ∀ id, id ∈ settled ↔ ∃ origin, start origin ∧ Reaches (superseded contexts) id origin := by
  induction fuel generalizing queue reasons with
  | zero => omega
  | succ fuel ih =>
    cases queue with
    | nil => exact ⟨reasons, rfl, h.exhausted⟩
    | cons target queue =>
      have hcount := (rejectAll_spec target _ reasons (@predecessors_known contexts target)).2.2.2
      unfold propagate
      refine ih _ _ (h.reject hids) ?_
      simp only [List.length_append, List.length_cons] at hfuel ⊢
      omega

end Propagation

/-- A Context is rejected when its chain meets a Context that fails its own checks or lies on a cycle. -/
theorem invalidSupersedeReasons_spec (order : KeyOrder) {contexts : List Candidate}
    (hids : (contexts.map (·.noteId)).Nodup) :
    ∃ reasons, invalidSupersedeReasons order contexts = some reasons ∧ ∀ id, id ∈ reasons ↔
      ∃ origin, ((∃ c ∈ contexts, c.noteId = origin ∧ ¬ OwnSound contexts c) ∨ OnCycle (superseded contexts) origin) ∧
        Reaches (superseded contexts) id origin := by
  obtain ⟨cyclic, hcyclic, hcycle⟩ := cyclicSupersedeIds_spec contexts
  have hfold : ∀ (ids : List String) (reasons : Reasons) (id : String),
      id ∈ ids.foldl (fun reasons contextId => reasons.insert contextId "supersede relationship contains a cycle") reasons ↔
        id ∈ reasons ∨ id ∈ ids := by
    intro ids
    induction ids with
    | nil => simp
    | cons first rest ih =>
      intro reasons id
      rw [List.foldl_cons, ih, AList.mem_insert, List.mem_cons]
      constructor
      · intro hid
        obtain (rfl | hid) | hid := hid
        · exact .inr (.inl rfl)
        · exact .inl hid
        · exact .inr (.inr hid)
      · intro hid
        obtain hid | rfl | hid := hid
        · exact .inl (.inr hid)
        · exact .inl (.inl rfl)
        · exact .inr hid
  have hstart : ∀ id, id ∈ cyclic.foldl
      (fun reasons contextId => reasons.insert contextId "supersede relationship contains a cycle")
      (checkReferences contexts).invalidReasons ↔
        (∃ c ∈ contexts, c.noteId = id ∧ ¬ OwnSound contexts c) ∨ OnCycle (superseded contexts) id := by
    intro id
    rw [hfold, mem_checkReferences (hids.of_map _), hcycle]
  unfold invalidSupersedeReasons propagateInvalidTargets
  rw [hcyclic]
  simp only
  generalize cyclic.foldl (fun reasons contextId => reasons.insert contextId "supersede relationship contains a cycle")
    (checkReferences contexts).invalidReasons = reasons at hstart ⊢
  have hperm := order.perm reasons.keys
  refine propagate_spec hids _ _ _ _ ⟨fun id hid => (hstart id).mpr hid, ?_, ?_, ?_⟩ ?_
  · intro id hid
    exact AList.mem_keys.mpr (hperm.mem_iff.mp hid)
  · intro id hid
    exact .inl (hperm.mem_iff.mpr (AList.mem_keys.mp hid))
  · intro id hid
    exact ⟨id, (hstart id).mp hid, Relation.ReflTransGen.refl⟩
  · have hcount : unsettled contexts reasons ≤ contexts.length := List.countP_le_length
    rw [hperm.length_eq]
    omega

/-! ## The accepted candidates -/

/-- On the chain of forward references every Context passes its own checks, and the chain runs into no cycle. -/
def SoundChain (contexts : List Candidate) (id : String) : Prop :=
  ∀ other, Reaches (superseded contexts) id other →
    (∀ c ∈ contexts, c.noteId = other → OwnSound contexts c) ∧ ¬ OnCycle (superseded contexts) other

/-- What an accepted manifest should satisfy. References are those of its Contexts. -/
structure ManifestSound (accepted : List Candidate) : Prop where
  noteIds : (accepted.map (·.noteId)).Nodup
  canonicalPaths : (accepted.map (·.canonicalRelativePath)).Nodup
  identities : ((accepted.filter (·.isContext)).map (·.identity)).Nodup
  targets : ∀ c ∈ accepted, c.isContext = true → ∀ target, c.supersedesContextId = some target →
    ∃ d ∈ accepted, d.isContext = true ∧ d.noteId = target
  replacements : ∀ c ∈ accepted, ∀ d ∈ accepted, c.isContext = true → d.isContext = true →
    ∀ target, c.supersedesContextId = some target → d.supersedesContextId = some target → c = d
  acyclic : ∀ c ∈ accepted, ¬ Relation.TransGen (fun a b => a ∈ accepted ∧ b ∈ accepted ∧ a.isContext = true ∧
    b.isContext = true ∧ a.supersedesContextId = some b.noteId) c c
  backlinks : ∀ c ∈ accepted, c.isContext = true → ∀ replacement, c.supersededByContextId = some replacement →
    ∃ d ∈ accepted, d.isContext = true ∧ d.noteId = replacement

section Accepted
variable (candidates : List Candidate)

theorem validContexts_nodup : ((validContexts candidates).map (·.noteId)).Nodup := by
  have hids := (screen_screened candidates).1.ids
  have hmap : ((screen candidates).valid.map (·.1)).map (·.noteId) =
      (screen candidates).valid.map fun entry => entry.1.noteId := List.map_map
  rw [← hmap] at hids
  exact hids.sublist (List.filter_sublist.map _)

theorem valid_getElem? : ∀ entry ∈ (screen candidates).valid, candidates[entry.2]? = some entry.1 := by
  intro entry hentry
  exact List.mem_zipIdx_iff_getElem?.mp ((screen_screened candidates).2.mem hentry)

theorem settle_accepted (reasons : Reasons) (entries : List (Candidate × ℕ))
    (h : ∀ entry ∈ entries, candidates[entry.2]? = some entry.1) :
    (settle reasons entries).1.filterMap (candidates[·]?) = (entries.map (·.1)).filter fun c => c.noteId ∉ reasons := by
  induction entries with
  | nil => rfl
  | cons entry rest ih =>
    obtain ⟨c, i⟩ := entry
    have hrest := ih fun e he => h e (List.mem_cons_of_mem _ he)
    have hhead : candidates[i]? = some c := h (c, i) (List.mem_cons_self ..)
    unfold settle
    cases hlookup : reasons.lookup c.noteId with
    | some reason =>
      have hin : c.noteId ∈ reasons := by
        rw [← AList.lookup_isSome, hlookup]
        rfl
      simp only [List.map_cons]
      rw [List.filter_cons_of_neg (by simp [hin])]
      exact hrest
    | none =>
      have hout : c.noteId ∉ reasons := AList.lookup_eq_none.mp hlookup
      simp only [List.map_cons]
      rw [List.filter_cons_of_pos (by simp [hout]), List.filterMap_cons_some hhead, hrest]

/-- The accepted candidates are the valid ones without a reason. -/
theorem validate_accepted (order : KeyOrder) : ∃ result reasons,
    validateContextReindexManifest order candidates = some result ∧
    invalidSupersedeReasons order (validContexts candidates) = some reasons ∧
    acceptedCandidates candidates result =
      ((screen candidates).valid.map (·.1)).filter fun c => c.noteId ∉ reasons := by
  obtain ⟨reasons, hreasons, -⟩ := invalidSupersedeReasons_spec order (validContexts_nodup candidates)
  have hget := valid_getElem? candidates
  unfold validateContextReindexManifest
  simp only
  rw [hreasons]
  split
  · rename_i hnone hempty
    simp at hempty
  · rename_i found hfound
    obtain rfl := Option.some.inj hfound
    split
    · rename_i hempty
      refine ⟨_, reasons, rfl, rfl, ?_⟩
      have hkeep : ((screen candidates).valid.map (·.1)).filter (fun c => decide (c.noteId ∉ reasons)) =
          (screen candidates).valid.map (·.1) := by
        refine List.filter_eq_self.mpr ?_
        intro c _
        rw [decide_eq_true_eq]
        intro hin
        have hkeys := AList.mem_keys.mp hin
        rw [List.isEmpty_iff.mp hempty] at hkeys
        simp at hkeys
      have hall : (screen candidates).valid.filterMap (fun entry => candidates[entry.2]?) =
          (screen candidates).valid.map (·.1) := by
        rw [← List.filterMap_eq_map]
        exact List.filterMap_congr hget
      rw [hkeep, ← hall]
      exact List.filterMap_map
    · exact ⟨_, reasons, rfl, rfl, settle_accepted candidates reasons _ hget⟩

/-- A candidate is accepted when it is valid and, if it is a Context, its chain is sound. -/
theorem mem_accepted (order : KeyOrder) : ∃ result, validateContextReindexManifest order candidates = some result ∧
    (acceptedCandidates candidates result).Sublist ((screen candidates).valid.map (·.1)) ∧
    ∀ c, c ∈ acceptedCandidates candidates result ↔ c ∈ (screen candidates).valid.map (·.1) ∧
      (c.isContext = true → SoundChain (validContexts candidates) c.noteId) := by
  have hids := validContexts_nodup candidates
  obtain ⟨result, reasons, hresult, hreasons, haccepted⟩ := validate_accepted candidates order
  obtain ⟨found, hfound, hspec⟩ := invalidSupersedeReasons_spec order hids
  obtain rfl : reasons = found := Option.some.inj (hreasons.symm.trans hfound)
  refine ⟨result, hresult, by rw [haccepted]; exact List.filter_sublist, ?_⟩
  intro c
  rw [haccepted, List.mem_filter, decide_eq_true_eq]
  refine and_congr_right fun hvalid => ?_
  rw [hspec]
  constructor
  · intro hnone _ other hreach
    refine ⟨?_, fun hcycle => hnone ⟨other, .inr hcycle, hreach⟩⟩
    intro d hd hdid
    by_contra hown
    exact hnone ⟨other, .inl ⟨d, hd, hdid, hown⟩, hreach⟩
  · intro hsound hreason
    obtain ⟨origin, horigin, hreach⟩ := hreason
    -- a reason is that of a Context, and the ids of the valid candidates differ
    have hcontext : ∃ d ∈ validContexts candidates, d.noteId = c.noteId := by
      obtain hsame | ⟨next, hstep, -⟩ := Relation.ReflTransGen.cases_head hreach
      · obtain ⟨d, hd, hdid, -⟩ | hcycle := horigin
        · exact ⟨d, hd, hdid.trans hsame.symm⟩
        · obtain ⟨next, hstep, -⟩ := hcycle.exists_follows
          obtain ⟨d, hd, -⟩ := superseded_eq_some.mp hstep
          obtain ⟨hmem, hdid⟩ := (contextAt_eq_some hids).mp hd
          exact ⟨d, hmem, hdid.trans hsame.symm⟩
      · obtain ⟨d, hd, -⟩ := superseded_eq_some.mp hstep
        exact ⟨d, (contextAt_eq_some hids).mp hd⟩
    obtain ⟨d, hd, hdid⟩ := hcontext
    obtain ⟨hdvalid, hdctx⟩ := List.mem_filter.mp hd
    have hnodup := (screen_screened candidates).1.ids
    have hmap : ((screen candidates).valid.map (·.1)).map (·.noteId) =
        (screen candidates).valid.map fun entry => entry.1.noteId := List.map_map
    rw [← hmap] at hnodup
    obtain rfl := List.inj_on_of_nodup_map hnodup hdvalid hvalid hdid
    obtain ⟨hown, hacyclic⟩ := hsound hdctx origin hreach
    obtain ⟨e, he, heid, hnot⟩ | hcycle := horigin
    · exact hnot (hown e he heid)
    · exact hacyclic hcycle

end Accepted

/-! ## Soundness -/

/-- A Context whose forward check passes supersedes a valid Context that names no other replacement. -/
theorem ForwardSound.target {contexts : List Candidate} {c : Candidate} (h : ForwardSound contexts c) {target : String}
    (hforward : c.supersedesContextId = some target) : ∃ t, contextAt contexts target = some t ∧
      (t.supersededByContextId = none ∨ t.supersededByContextId = some c.noteId) :=
  (claims_iff.mp (List.find?_some (h target hforward))).2

theorem SoundChain.own {contexts : List Candidate} {c : Candidate} (h : SoundChain contexts c.noteId)
    (hc : c ∈ contexts) : OwnSound contexts c :=
  (h c.noteId Relation.ReflTransGen.refl).1 c hc rfl

/-- The backlink names a valid Context that supersedes this one. -/
theorem replacementReason_eq_none {contexts : List Candidate} {c : Candidate} {replacement : String}
    (h : replacementReason contexts c = none) (hback : c.supersededByContextId = some replacement) :
    ∃ r, contextAt contexts replacement = some r ∧ r.supersedesContextId = some c.noteId := by
  unfold replacementReason at h
  rw [hback] at h
  simp only at h
  split at h
  · simp at h
  · rename_i r hr
    split at h
    · simp at h
    · rename_i hforward
      exact ⟨r, hr, not_not.mp hforward⟩

/-- The replacement that a Context with a sound chain names passes its forward check and is on no cycle. So whether its
own chain is sound depends only on its own backlink. -/
theorem soundChain_replacement {contexts : List Candidate} (hids : (contexts.map (·.noteId)).Nodup) {c r : Candidate}
    (hc : c ∈ contexts) (hr : r ∈ contexts) (hchain : SoundChain contexts c.noteId)
    (hback : c.supersededByContextId = some r.noteId) (hforward : r.supersedesContextId = some c.noteId) :
    SoundChain contexts r.noteId ↔ replacementReason contexts r = none := by
  have hstep : superseded contexts r.noteId = some c.noteId :=
    superseded_eq_some.mpr ⟨r, (contextAt_eq_some hids).mpr ⟨hr, rfl⟩, hforward, contextAt_isSome hc⟩
  have hclaims : claims contexts c.noteId r = true :=
    claims_iff.mpr ⟨hforward, c, (contextAt_eq_some hids).mpr ⟨hc, rfl⟩, .inr hback⟩
  have hsame : ∀ t, contextAt contexts c.noteId = some t → t = c := by
    intro t ht
    obtain ⟨htmem, htid⟩ := (contextAt_eq_some hids).mp ht
    exact List.inj_on_of_nodup_map hids htmem hc htid
  have hsound : ForwardSound contexts r := by
    intro target htarget
    obtain rfl := Option.some.inj (hforward.symm.trans htarget)
    -- whoever claims `c` first is the replacement that `c` names
    cases hfirst : contexts.find? (claims contexts c.noteId) with
    | none => exact absurd hclaims (List.find?_eq_none.mp hfirst r hr)
    | some p =>
      obtain ⟨-, t, ht, hnone | hself⟩ := claims_iff.mp (List.find?_some hfirst)
      · rw [hsame t ht, hback] at hnone
        simp at hnone
      · rw [hsame t ht, hback] at hself
        have hids' : r.noteId = p.noteId := Option.some.inj hself
        rw [List.inj_on_of_nodup_map hids hr (List.mem_of_find?_eq_some hfirst) hids']
  constructor
  · intro h
    exact (h.own hr).2
  · intro hreason other hreach
    obtain rfl | ⟨next, hnext, hrest⟩ := Relation.ReflTransGen.cases_head hreach
    · refine ⟨?_, ?_⟩
      · intro d hd hdid
        rw [List.inj_on_of_nodup_map hids hd hr hdid]
        exact ⟨hsound, hreason⟩
      · intro hcycle
        exact (hchain c.noteId Relation.ReflTransGen.refl).2
          (hcycle.of_reaches (Relation.ReflTransGen.single hstep))
    · obtain rfl := Option.some.inj (hstep.symm.trans hnext)
      exact hchain other hrest

/-- The accepted manifest is sound exactly when no Context whose own backlink is refused replaces, with both references,
a Context whose chain is sound. -/
theorem manifest_sound_iff (order : KeyOrder) (candidates : List Candidate) :
    ∃ result, validateContextReindexManifest order candidates = some result ∧
      (ManifestSound (acceptedCandidates candidates result) ↔
        ∀ c ∈ validContexts candidates, ∀ r ∈ validContexts candidates,
          SoundChain (validContexts candidates) c.noteId →
          c.supersededByContextId = some r.noteId → r.supersedesContextId = some c.noteId →
          replacementReason (validContexts candidates) r = none) := by
  have hids := validContexts_nodup candidates
  have hscreened := (screen_screened candidates).1
  obtain ⟨result, hresult, hsub, hmem⟩ := mem_accepted candidates order
  have hcontext : ∀ c, c ∈ acceptedCandidates candidates result ∧ c.isContext = true ↔
      c ∈ validContexts candidates ∧ SoundChain (validContexts candidates) c.noteId := by
    intro c
    unfold validContexts at hmem ⊢
    rw [hmem, List.mem_filter]
    constructor
    · intro h
      exact ⟨⟨h.1.1, h.2⟩, h.1.2 h.2⟩
    · intro h
      exact ⟨⟨h.1.1, fun _ => h.2⟩, h.1.2⟩
  have hstep : ∀ a ∈ validContexts candidates, ∀ b ∈ validContexts candidates,
      a.supersedesContextId = some b.noteId → superseded (validContexts candidates) a.noteId = some b.noteId := by
    intro a ha b hb hforward
    exact superseded_eq_some.mpr ⟨a, (contextAt_eq_some hids).mpr ⟨ha, rfl⟩, hforward, contextAt_isSome hb⟩
  refine ⟨result, hresult, ?_, ?_⟩
  · intro hsound c hc r hr hchain hback hforward
    obtain ⟨hin, hctx⟩ := (hcontext c).mpr ⟨hc, hchain⟩
    obtain ⟨d, hd, hdctx, hdid⟩ := hsound.backlinks c hin hctx r.noteId hback
    obtain ⟨hdvalid, hdchain⟩ := (hcontext d).mp ⟨hd, hdctx⟩
    obtain rfl := List.inj_on_of_nodup_map hids hdvalid hr hdid
    exact (hdchain.own hdvalid).2
  · intro hcondition
    have hidsAll : ((screen candidates).valid.map (·.1)).map (·.noteId) =
        (screen candidates).valid.map fun entry => entry.1.noteId := List.map_map
    refine ⟨?_, ?_, ?_, ?_, ?_, ?_, ?_⟩
    · exact (hidsAll ▸ hscreened.ids).sublist (hsub.map _)
    · have hcandidates : (acceptedCandidates candidates result).Sublist candidates := by
        have hzip := (screen_screened candidates).2.map (·.1)
        rw [List.zipIdx_map_fst] at hzip
        exact hsub.trans hzip
      refine paths_nodup hcandidates ?_
      intro c hc
      obtain ⟨entry, hentry, rfl⟩ := List.mem_map.mp ((hmem c).mp hc).1
      exact hscreened.paths entry hentry
    · exact hscreened.identities.sublist ((hsub.filter _).map _)
    · intro c hc hctx target hforward
      obtain ⟨hvalid, hchain⟩ := (hcontext c).mp ⟨hc, hctx⟩
      obtain ⟨t, ht, -⟩ := (hchain.own hvalid).1.target hforward
      obtain ⟨htmem, rfl⟩ := (contextAt_eq_some hids).mp ht
      refine ⟨t, ((hcontext t).mpr ⟨htmem, ?_⟩).1, ((hcontext t).mpr ⟨htmem, ?_⟩).2, rfl⟩ <;>
      · intro other hreach
        exact hchain other (Relation.ReflTransGen.head (hstep c hvalid t htmem hforward) hreach)
    · intro c hc d hd hcctx hdctx target hcforward hdforward
      obtain ⟨hcvalid, hcchain⟩ := (hcontext c).mp ⟨hc, hcctx⟩
      obtain ⟨hdvalid, hdchain⟩ := (hcontext d).mp ⟨hd, hdctx⟩
      have hcfirst := (hcchain.own hcvalid).1 target hcforward
      exact Option.some.inj (hcfirst.symm.trans ((hdchain.own hdvalid).1 target hdforward))
    · intro c hc hcycle
      have hmap : ∀ a b : Candidate, (a ∈ acceptedCandidates candidates result ∧ b ∈ acceptedCandidates candidates result ∧
          a.isContext = true ∧ b.isContext = true ∧ a.supersedesContextId = some b.noteId) →
          Follows (superseded (validContexts candidates)) a.noteId b.noteId := by
        intro a b hab
        obtain ⟨ha, hb, hactx, hbctx, hforward⟩ := hab
        exact hstep a ((hcontext a).mp ⟨ha, hactx⟩).1 b ((hcontext b).mp ⟨hb, hbctx⟩).1 hforward
      have hctx : c.isContext = true := by
        obtain ⟨b, hcb, -⟩ := Relation.TransGen.head'_iff.mp hcycle
        exact hcb.2.2.1
      obtain ⟨-, hchain⟩ := (hcontext c).mp ⟨hc, hctx⟩
      have hlift : OnCycle (superseded (validContexts candidates)) c.noteId :=
        Relation.TransGen.lift (fun d : Candidate => d.noteId) hmap _ _ hcycle
      exact (hchain c.noteId Relation.ReflTransGen.refl).2 hlift
    · intro c hc hctx replacement hback
      obtain ⟨hvalid, hchain⟩ := (hcontext c).mp ⟨hc, hctx⟩
      obtain ⟨r, hr, hforward⟩ := replacementReason_eq_none (hchain.own hvalid).2 hback
      obtain ⟨hrmem, rfl⟩ := (contextAt_eq_some hids).mp hr
      have hrchain := (soundChain_replacement hids hvalid hrmem hchain hback hforward).mpr
        (hcondition c hvalid r hrmem hchain hback hforward)
      obtain ⟨hin, hrctx⟩ := (hcontext r).mpr ⟨hrmem, hrchain⟩
      exact ⟨r, hin, hrctx, rfl⟩

/-- The keys in the order in which they are stored. -/
def storedOrder : KeyOrder := ⟨fun keys => keys, fun keys => List.Perm.refl keys⟩

def sampleContext (noteId contentHash : String) (supersedes supersededBy : Option String) : Candidate :=
  ⟨noteId, noteId ++ ".md", noteId ++ ".md", true, ⟨some "PROJECT", some "alexandria", none, none, none, none, some contentHash⟩,
    supersedes, supersededBy⟩

/-- A Context and its replacement name each other, but the replacement names a replacement of its own that is missing. -/
def brokenLineage : List Candidate :=
  [sampleContext "first" "h1" none (some "second"), sampleContext "second" "h2" (some "first") (some "third")]

/-- The replacement is rejected, the Context that is superseded by it is not. -/
theorem manifest_keeps_orphan : ∃ result, validateContextReindexManifest storedOrder brokenLineage = some result ∧
    ¬ ManifestSound (acceptedCandidates brokenLineage result) := by
  have haccepted : (validateContextReindexManifest storedOrder brokenLineage).map
      (fun result => acceptedCandidates brokenLineage result) =
      some [sampleContext "first" "h1" none (some "second")] := by decide
  obtain ⟨result, hresult, hkept⟩ := Option.map_eq_some_iff.mp haccepted
  refine ⟨result, hresult, ?_⟩
  rw [hkept]
  intro h
  obtain ⟨d, hd, -, hid⟩ := h.backlinks _ (List.mem_singleton_self _) rfl "second" rfl
  obtain rfl := List.mem_singleton.mp hd
  exact absurd hid (by decide)

end Alexandria.Manifest
