import Mathlib.Data.Finset.Card
import Mathlib.Data.List.Nodup
import Mathlib.Logic.Relation

/-! # The connected components of a finite graph

A depth first search with a stack of its own finds what a node is joined to. Run from every node that no earlier
search has seen it finds each connected component of a symmetric graph once.
-/

namespace Alexandria.Components
set_option autoImplicit false

/-- A graph given by its nodes and by the neighbors of each, all of them nodes. -/
structure FiniteGraph (ν : Type) where
  nodes : List ν
  neighbors : ν → List ν
  closed : ∀ a, ∀ b ∈ neighbors a, b ∈ nodes

variable {ν : Type} [DecidableEq ν]

/-- The nodes seen so far and those that wait, the next one first. -/
structure Search (ν : Type) where
  seen : Finset ν
  stack : List ν

/-- A neighbor that was not seen yet waits on top. -/
def Search.push (search : Search ν) (neighbor : ν) : Search ν :=
  if neighbor ∈ search.seen then search else ⟨insert neighbor search.seen, neighbor :: search.stack⟩

namespace FiniteGraph
variable (graph : FiniteGraph ν)

def pending (search : Search ν) : ℕ := (graph.nodes.toFinset \ search.seen).card + search.stack.length

theorem pending_push {search : Search ν} {b : ν} (h : b ∈ graph.nodes) :
    graph.pending (search.push b) = graph.pending search := by
  unfold Search.push pending
  by_cases hb : b ∈ search.seen
  · rw [if_pos hb]
  · rw [if_neg hb]
    have hmem : b ∈ graph.nodes.toFinset \ search.seen := Finset.mem_sdiff.mpr ⟨List.mem_toFinset.mpr h, hb⟩
    have hcard := Finset.card_pos.mpr ⟨b, hmem⟩
    rw [Finset.sdiff_insert, Finset.card_erase_of_mem hmem, List.length_cons]
    omega

theorem pending_foldl {search : Search ν} {bs : List ν} (h : ∀ b ∈ bs, b ∈ graph.nodes) :
    graph.pending (bs.foldl .push search) = graph.pending search := by
  induction bs generalizing search with
  | nil => rfl
  | cons b bs ih =>
    rw [List.foldl_cons, ih fun c hc => h c (List.mem_cons_of_mem b hc), pending_push graph (h b List.mem_cons_self)]

/-- The neighbors of a node wait in their order. -/
def expand (search : Search ν) (current : ν) : Search ν := (graph.neighbors current).reverse.foldl .push search

theorem pending_expand (search : Search ν) (current : ν) : graph.pending (graph.expand search current) = graph.pending search :=
  graph.pending_foldl fun b hb => graph.closed current b (List.mem_reverse.mp hb)

/-- Take nodes from the stack until none waits. -/
def collect : Search ν → List ν → Finset ν × List ν
  | ⟨seen, []⟩, component => (seen, component)
  | ⟨seen, current :: stack⟩, component => collect (graph.expand ⟨seen, stack⟩ current) (component ++ [current])
termination_by search => graph.pending search
decreasing_by
  rw [pending_expand]
  simp only [pending, List.length_cons]
  omega

/-- Collect what a node is joined to unless an earlier search has seen it. -/
def collectFrom (found : Finset ν × List (List ν)) (start : ν) : Finset ν × List (List ν) :=
  if start ∈ found.1 then found
  else
    let collected := graph.collect ⟨insert start found.1, [start]⟩ []
    (collected.1, found.2 ++ [collected.2])

def components : List (List ν) := (graph.nodes.foldl graph.collectFrom (∅, [])).2

/-! ## What is joined -/

def Joined : ν → ν → Prop := Relation.ReflTransGen fun a b => b ∈ graph.neighbors a

def Symmetric : Prop := ∀ a b, b ∈ graph.neighbors a → a ∈ graph.neighbors b

variable {graph}

omit [DecidableEq ν] in
theorem Joined.symm (h : graph.Symmetric) {a b : ν} (hab : graph.Joined a b) : graph.Joined b a := by
  induction hab with
  | refl => exact .refl
  | tail _ hbc ih => exact .head (h _ _ hbc) ih

variable (graph) in
/-- A set of nodes that no edge leaves. -/
def Full (seen : Finset ν) : Prop := ∀ a ∈ seen, ∀ b ∈ graph.neighbors a, b ∈ seen

omit [DecidableEq ν] in
theorem Full.joined {seen : Finset ν} (h : graph.Full seen) {a b : ν} (ha : a ∈ seen) (hab : graph.Joined a b) :
    b ∈ seen := by
  induction hab with
  | refl => exact ha
  | tail _ hbc ih => exact h _ ih _ hbc

/-! ## One search -/

theorem push_seen {search : Search ν} {b : ν} : (search.push b).seen = insert b search.seen := by
  unfold Search.push
  by_cases hb : b ∈ search.seen
  · rw [if_pos hb, Finset.insert_eq_of_mem hb]
  · rw [if_neg hb]

/-- What the search has met since `earlier`: none of it twice, and all of it joined to the start. -/
structure Met (graph : FiniteGraph ν) (earlier : Finset ν) (start : ν) (search : Search ν) (component : List ν) :
    Prop where
  nodup : (component ++ search.stack).Nodup
  fresh : ∀ a ∈ component ++ search.stack, a ∉ earlier
  seen : ∀ a, a ∈ search.seen ↔ a ∈ earlier ∨ a ∈ component ++ search.stack
  joined : ∀ a ∈ component ++ search.stack, graph.Joined start a
  started : start ∈ component ++ search.stack

section Search
variable {earlier : Finset ν} {start : ν} {search : Search ν} {component : List ν}

theorem met_start (h : start ∉ earlier) : Met graph earlier start ⟨insert start earlier, [start]⟩ [] := by
  constructor
  · exact List.nodup_singleton start
  · intro a ha
    rw [List.mem_singleton.mp ha]
    exact h
  · intro a
    rw [Finset.mem_insert, or_comm, List.nil_append, List.mem_singleton]
  · intro a ha
    rw [List.mem_singleton.mp ha]
    exact .refl
  · exact List.mem_singleton_self start

theorem Met.push (h : Met graph earlier start search component) {b : ν} (hb : graph.Joined start b) :
    Met graph earlier start (search.push b) component := by
  unfold Search.push
  by_cases hseen : b ∈ search.seen
  · rw [if_pos hseen]
    exact h
  · rw [if_neg hseen]
    have hnew : b ∉ earlier ∧ b ∉ component ++ search.stack := not_or.mp (mt (h.seen b).mpr hseen)
    have hperm : (component ++ b :: search.stack).Perm (b :: (component ++ search.stack)) := List.perm_middle
    constructor
    · exact hperm.nodup_iff.mpr (List.nodup_cons.mpr ⟨hnew.2, h.nodup⟩)
    · intro a ha
      rcases List.mem_cons.mp (hperm.mem_iff.mp ha) with rfl | ha
      · exact hnew.1
      · exact h.fresh a ha
    · intro a
      rw [Finset.mem_insert, h.seen, hperm.mem_iff, List.mem_cons]
      exact or_left_comm
    · intro a ha
      rcases List.mem_cons.mp (hperm.mem_iff.mp ha) with rfl | ha
      · exact hb
      · exact h.joined a ha
    · exact hperm.mem_iff.mpr (List.mem_cons_of_mem b h.started)

theorem Met.foldl (h : Met graph earlier start search component) {bs : List ν}
    (hbs : ∀ b ∈ bs, graph.Joined start b) : Met graph earlier start (bs.foldl .push search) component := by
  induction bs generalizing search with
  | nil => exact h
  | cons b bs ih => exact ih (h.push (hbs b List.mem_cons_self)) fun c hc => hbs c (List.mem_cons_of_mem b hc)

theorem mem_foldl_seen {bs : List ν} {a : ν} : a ∈ (bs.foldl .push search).seen ↔ a ∈ search.seen ∨ a ∈ bs := by
  induction bs generalizing search with
  | nil => simp
  | cons b bs ih => rw [List.foldl_cons, ih, push_seen, Finset.mem_insert, List.mem_cons, or_comm (a := a = b), or_assoc]

/-- The node on top is collected while its neighbors wait. -/
theorem Met.expand {current : ν} {seen : Finset ν} {stack : List ν}
    (h : Met graph earlier start ⟨seen, current :: stack⟩ component) :
    Met graph earlier start (graph.expand ⟨seen, stack⟩ current) (component ++ [current]) := by
  have hlist : component ++ [current] ++ stack = component ++ current :: stack := by simp
  have hpopped : Met graph earlier start ⟨seen, stack⟩ (component ++ [current]) := by
    constructor <;> simp only [hlist]
    · exact h.nodup
    · exact h.fresh
    · exact h.seen
    · exact h.joined
    · exact h.started
  refine hpopped.foldl fun b hb => ?_
  exact (h.joined current (by simp)).tail (List.mem_reverse.mp hb)

/-- What a search collects: the nodes joined to its start, each once, where no edge leaves those seen before. -/
theorem collect_spec (hsym : graph.Symmetric) (hearlier : graph.Full earlier)
    (h : Met graph earlier start search component)
    (hexpanded : ∀ a ∈ component, ∀ b ∈ graph.neighbors a, b ∈ search.seen) :
    (graph.collect search component).2.Nodup ∧
      (∀ a, a ∈ (graph.collect search component).2 ↔ graph.Joined start a) ∧
      (∀ a, a ∈ (graph.collect search component).1 ↔ a ∈ earlier ∨ graph.Joined start a) := by
  induction search, component using collect.induct graph with
  | case1 seen component =>
    have hlist : component ++ [] = component := List.append_nil component
    have hfull : ∀ a, graph.Joined start a → a ∈ component := by
      intro a ha
      induction ha with
      | refl => exact hlist ▸ h.started
      | @tail a b _ hab ih =>
        rcases (h.seen b).mp (hexpanded a ih b hab) with hb | hb
        · -- an edge back to what was seen before would have led here from there
          exact absurd (hearlier b hb a (hsym a b hab)) (h.fresh a (hlist.symm ▸ ih))
        · exact hlist ▸ hb
    have hmem : ∀ a, a ∈ component ↔ graph.Joined start a :=
      fun a => ⟨fun ha => h.joined a (hlist.symm ▸ ha), hfull a⟩
    rw [collect]
    refine ⟨hlist ▸ h.nodup, hmem, fun a => ?_⟩
    rw [h.seen, hlist, hmem]
  | case2 seen component current stack ih =>
    rw [collect]
    refine ih h.expand fun a ha b hb => ?_
    rw [FiniteGraph.expand, mem_foldl_seen, List.mem_reverse]
    rcases List.mem_append.mp ha with ha | ha
    · exact .inl (hexpanded a ha b hb)
    · rw [List.mem_singleton.mp ha] at hb
      exact .inr hb

end Search

/-! ## All components -/

/-- The components found so far: they are what was seen, each is what one of its nodes is joined to, and no two share a
node. -/
structure Found (graph : FiniteGraph ν) (found : Finset ν × List (List ν)) : Prop where
  seen : ∀ a, a ∈ found.1 ↔ ∃ component ∈ found.2, a ∈ component
  component : ∀ component ∈ found.2, component.Nodup ∧ ∃ start ∈ graph.nodes, ∀ a, a ∈ component ↔ graph.Joined start a
  disjoint : found.2.Pairwise List.Disjoint

omit [DecidableEq ν] in
theorem Found.full {found : Finset ν × List (List ν)} (h : Found graph found) : graph.Full found.1 := by
  intro a ha b hab
  obtain ⟨component, hcomponent, ha⟩ := (h.seen a).mp ha
  obtain ⟨-, start, -, hmem⟩ := h.component component hcomponent
  exact (h.seen b).mpr ⟨component, hcomponent, (hmem b).mpr (((hmem a).mp ha).tail hab)⟩

theorem Found.collectFrom {found : Finset ν × List (List ν)} (h : Found graph found) (hsym : graph.Symmetric)
    {start : ν} (hstart : start ∈ graph.nodes) :
    Found graph (graph.collectFrom found start) ∧ start ∈ (graph.collectFrom found start).1 ∧
      found.1 ⊆ (graph.collectFrom found start).1 := by
  unfold FiniteGraph.collectFrom
  by_cases hseen : start ∈ found.1
  · rw [if_pos hseen]
    exact ⟨h, hseen, Finset.Subset.refl _⟩
  · rw [if_neg hseen]
    obtain ⟨hnodup, hmem, hall⟩ := collect_spec hsym h.full (show Met graph _ _ _ _ from met_start hseen) (by simp)
    refine ⟨⟨fun a => ?_, fun component hcomponent => ?_, ?_⟩, ?_, fun a ha => ?_⟩
    · simp only [hall, h.seen, List.mem_append, List.mem_singleton, or_and_right, exists_or, exists_eq_left, hmem]
    · rcases List.mem_append.mp hcomponent with hcomponent | hcomponent
      · exact h.component component hcomponent
      · rw [List.mem_singleton.mp hcomponent]
        exact ⟨hnodup, start, hstart, hmem⟩
    · refine List.pairwise_append.mpr ⟨h.disjoint, List.pairwise_singleton _ _, fun component hcomponent other hother => ?_⟩
      rw [List.mem_singleton.mp hother]
      intro a ha hafter
      have hjoined := Joined.symm hsym ((hmem a).mp hafter)
      exact hseen (h.full.joined ((h.seen a).mpr ⟨component, hcomponent, ha⟩) hjoined)
    · exact (hall start).mpr (.inr .refl)
    · exact (hall a).mpr (.inl ha)

theorem found_foldl (hsym : graph.Symmetric) (starts : List ν) (hstarts : ∀ a ∈ starts, a ∈ graph.nodes)
    {found : Finset ν × List (List ν)} (h : Found graph found) :
    Found graph (starts.foldl graph.collectFrom found) ∧ found.1 ⊆ (starts.foldl graph.collectFrom found).1 ∧
      ∀ a ∈ starts, a ∈ (starts.foldl graph.collectFrom found).1 := by
  induction starts generalizing found with
  | nil => exact ⟨h, Finset.Subset.refl _, by simp⟩
  | cons a starts ih =>
    obtain ⟨hfound, ha, hkept⟩ := h.collectFrom hsym (hstarts a List.mem_cons_self)
    obtain ⟨hfound, hlater, hall⟩ := ih (fun b hb => hstarts b (List.mem_cons_of_mem a hb)) hfound
    refine ⟨hfound, hkept.trans hlater, fun b hb => ?_⟩
    rcases List.mem_cons.mp hb with rfl | hb
    · exact hlater ha
    · exact hall b hb

theorem found_components (hsym : graph.Symmetric) : Found graph (graph.nodes.foldl graph.collectFrom (∅, [])) ∧
    ∀ a ∈ graph.nodes, ∃ component ∈ graph.components, a ∈ component := by
  have hempty : Found graph (∅, []) := ⟨by simp, by simp, .nil⟩
  obtain ⟨hfound, -, hall⟩ := found_foldl hsym graph.nodes (fun _ h => h) hempty
  exact ⟨hfound, fun a ha => (hfound.seen a).mp (hall a ha)⟩

/-- The components are what the nodes are joined to. -/
theorem mem_components (hsym : graph.Symmetric) {component : List ν} (h : component ∈ graph.components) :
    component.Nodup ∧ ∃ start ∈ graph.nodes, ∀ a, a ∈ component ↔ graph.Joined start a :=
  (found_components hsym).1.component component h

theorem exists_component (hsym : graph.Symmetric) {a : ν} (h : a ∈ graph.nodes) :
    ∃ component ∈ graph.components, ∀ b, b ∈ component ↔ graph.Joined a b := by
  obtain ⟨component, hcomponent, ha⟩ := (found_components hsym).2 a h
  obtain ⟨-, start, -, hmem⟩ := mem_components hsym hcomponent
  have hstart := (hmem a).mp ha
  refine ⟨component, hcomponent, fun b => (hmem b).trans ⟨fun hb => ?_, hstart.trans⟩⟩
  exact (Joined.symm hsym hstart).trans hb

theorem components_disjoint (hsym : graph.Symmetric) : graph.components.Pairwise List.Disjoint :=
  (found_components hsym).1.disjoint

end FiniteGraph

end Alexandria.Components
