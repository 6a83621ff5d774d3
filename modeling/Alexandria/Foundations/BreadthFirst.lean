import Mathlib.Data.List.Nodup
import Mathlib.Data.Nat.Find

/-! # Breadth first order

The nodes of a graph by their distance from a start. Each layer is met from the one before it: the nodes next to its nodes
that were not seen yet, in the order in which they are met.
-/

namespace Alexandria.BreadthFirst
set_option autoImplicit false

variable {ν : Type}

/-- There is a walk of so many steps. -/
inductive Walk (step : ν → ν → Prop) (start : ν) : ℕ → ν → Prop
  | refl : Walk step start 0 start
  | step {n : ℕ} {a b : ν} (h : Walk step start n a) (hb : step a b) : Walk step start (n + 1) b

/-- The length of a shortest walk. -/
structure Distance (step : ν → ν → Prop) (start : ν) (n : ℕ) (a : ν) : Prop where
  walk : Walk step start n a
  least : ∀ m, Walk step start m a → n ≤ m

section Distance
variable {step : ν → ν → Prop} {start a b : ν} {n m : ℕ}

theorem Distance.unique (h : Distance step start n a) (h' : Distance step start m a) : n = m :=
  Nat.le_antisymm (h.least m h'.walk) (h'.least n h.walk)

theorem Distance.zero (h : Distance step start 0 a) : a = start := by
  cases h.walk
  rfl

theorem distance_start : Distance step start 0 start := ⟨.refl, fun m _ => Nat.zero_le m⟩

/-- Where there is a walk there is a shortest one. -/
theorem Walk.distance (h : Walk step start n a) : ∃ m ≤ n, Distance step start m a := by
  classical
  have hex : ∃ m, Walk step start m a := ⟨n, h⟩
  exact ⟨Nat.find hex, Nat.find_min' hex h, Nat.find_spec hex, fun m hm => Nat.find_min' hex hm⟩

/-- The last step of a shortest walk comes from a node that is one nearer. -/
theorem Distance.from (h : Distance step start (n + 1) b) : ∃ a, Distance step start n a ∧ step a b := by
  obtain ⟨hwalk, hleast⟩ := h
  cases hwalk with
  | step ha hb =>
    refine ⟨_, ⟨ha, fun m hm => ?_⟩, hb⟩
    have hlonger := hleast (m + 1) (hm.step hb)
    omega

/-- A node that is reached at some distance has nodes at every smaller one on its way. -/
theorem Distance.pass (h : Distance step start n a) (hm : m ≤ n) : ∃ b, Distance step start m b := by
  induction n generalizing a with
  | zero => exact ⟨a, Nat.le_zero.mp hm ▸ h⟩
  | succ n ih =>
    obtain hm | rfl := Nat.lt_or_eq_of_le hm
    · obtain ⟨b, hb, -⟩ := h.from
      exact ih hb (Nat.le_of_lt_succ hm)
    · exact ⟨a, h⟩

/-- Leaving a set of nodes on a walk. -/
theorem Walk.leaves {p : ν → Prop} (h : Walk step start n a) (hstart : p start) (ha : ¬ p a) :
    ∃ b c, p b ∧ step b c ∧ ¬ p c := by
  induction h with
  | refl => exact absurd hstart ha
  | @step n b c _ hc ih =>
    by_cases hb : p b
    · exact ⟨b, c, hb, hc, ha⟩
    · exact ih hb

section Map
variable {μ : Type} {onto : μ → μ → Prop} {f : ν → μ} (hstep : ∀ a y, onto (f a) y ↔ ∃ b, y = f b ∧ step a b)
include hstep

/-- A walk over the images is the image of a walk. -/
theorem Walk.source {y : μ} (h : Walk onto (f start) n y) : ∃ b, y = f b ∧ Walk step start n b := by
  induction h with
  | refl => exact ⟨start, rfl, .refl⟩
  | @step n x y _ hxy ih =>
    obtain ⟨b, rfl, hb⟩ := ih
    obtain ⟨c, rfl, hc⟩ := (hstep b y).mp hxy
    exact ⟨c, rfl, hb.step hc⟩

/-- A map that keeps the steps and loses none keeps the walks. -/
theorem walk_map (hf : f.Injective) : Walk onto (f start) n (f a) ↔ Walk step start n a := by
  constructor
  · intro h
    obtain ⟨b, hsame, hb⟩ := h.source hstep
    exact hf hsame ▸ hb
  · intro h
    induction h with
    | refl => exact .refl
    | @step n a b _ hb ih => exact ih.step ((hstep a (f b)).mpr ⟨b, rfl, hb⟩)

theorem distance_map (hf : f.Injective) : Distance onto (f start) n (f a) ↔ Distance step start n a := by
  constructor
  · intro h
    exact ⟨(walk_map hstep hf).mp h.walk, fun m hm => h.least m ((walk_map hstep hf).mpr hm)⟩
  · intro h
    exact ⟨(walk_map hstep hf).mpr h.walk, fun m hm => h.least m ((walk_map hstep hf).mp hm)⟩

end Map

end Distance

/-! ## Layers -/

/-- The step to a node that a list gives. -/
def Next (next : ν → List ν) (a b : ν) : Prop := b ∈ next a

section Layers
variable [DecidableEq ν]

/-- A node that is new waits at the end. -/
def grow (seen new : List ν) (b : ν) : List ν := if b ∈ seen ∨ b ∈ new then new else new ++ [b]

theorem mem_foldl_grow {seen new bs : List ν} {a : ν} :
    a ∈ bs.foldl (grow seen) new ↔ a ∈ new ∨ a ∈ bs ∧ a ∉ seen := by
  induction bs generalizing new with
  | nil => simp
  | cons b bs ih =>
    rw [List.foldl_cons, ih]
    unfold grow
    by_cases hb : b ∈ seen ∨ b ∈ new
    · rw [if_pos hb]
      constructor
      · rintro (ha | ⟨ha, hseen⟩)
        · exact .inl ha
        · exact .inr ⟨List.mem_cons_of_mem b ha, hseen⟩
      · rintro (ha | ⟨ha, hseen⟩)
        · exact .inl ha
        · obtain rfl | ha := List.mem_cons.mp ha
          · exact .inl (hb.resolve_left hseen)
          · exact .inr ⟨ha, hseen⟩
    · rw [if_neg hb, List.mem_append, List.mem_singleton, List.mem_cons]
      constructor
      · rintro ((ha | rfl) | ⟨ha, hseen⟩)
        · exact .inl ha
        · exact .inr ⟨.inl rfl, fun hseen => hb (.inl hseen)⟩
        · exact .inr ⟨.inr ha, hseen⟩
      · rintro (ha | ⟨rfl | ha, hseen⟩)
        · exact .inl (.inl ha)
        · exact .inl (.inr rfl)
        · exact .inr ⟨ha, hseen⟩

theorem nodup_foldl_grow {seen new bs : List ν} (h : new.Nodup) : (bs.foldl (grow seen) new).Nodup := by
  induction bs generalizing new with
  | nil => exact h
  | cons b bs ih =>
    rw [List.foldl_cons]
    refine ih ?_
    unfold grow
    by_cases hb : b ∈ seen ∨ b ∈ new
    · rw [if_pos hb]
      exact h
    · rw [if_neg hb]
      exact List.Nodup.append h (List.nodup_singleton b) (by simpa using (not_or.mp hb).2)

variable (next : ν → List ν)

/-- What is met from a layer. -/
def spread (seen layer : List ν) : List ν := (layer.flatMap next).foldl (grow seen) []

theorem spread_nil (seen : List ν) : spread next seen [] = [] := rfl

theorem spread_concat (seen layer : List ν) (a : ν) :
    spread next seen (layer ++ [a]) = (next a).foldl (grow seen) (spread next seen layer) := by
  unfold spread
  rw [List.flatMap_append, List.foldl_append, List.flatMap_singleton]

theorem mem_spread {seen layer : List ν} {b : ν} :
    b ∈ spread next seen layer ↔ (∃ a ∈ layer, b ∈ next a) ∧ b ∉ seen := by
  unfold spread
  rw [mem_foldl_grow, List.mem_flatMap]
  simp

/-- The nodes up to a distance, and those at it. -/
def layers (start : ν) : ℕ → List ν × List ν
  | 0 => ([start], [start])
  | n + 1 =>
    let reached := layers start n
    let layer := spread next reached.1 reached.2
    (reached.1 ++ layer, layer)

def found (start : ν) (n : ℕ) : List ν := (layers next start n).1

def layer (start : ν) (n : ℕ) : List ν := (layers next start n).2

/-- The nodes nearer than a distance, each with its own. -/
def before (start : ν) : ℕ → List (ν × ℕ)
  | 0 => []
  | n + 1 => before start n ++ (layer next start n).map fun a => (a, n)

variable {next} {start a b : ν} {n m : ℕ}

theorem found_succ : found next start (n + 1) = found next start n ++ layer next start (n + 1) := rfl

theorem layer_succ : layer next start (n + 1) = spread next (found next start n) (layer next start n) := rfl

theorem nodup_found : (found next start n).Nodup := by
  induction n with
  | zero => exact List.nodup_singleton start
  | succ n ih =>
    refine List.Nodup.append ih (nodup_foldl_grow List.nodup_nil) fun a ha hnew => ?_
    exact ((mem_spread next).mp hnew).2 ha

/-- A layer has the nodes at its distance. -/
theorem mem_layers : (∀ a, a ∈ layer next start n ↔ Distance (Next next) start n a) ∧
    ∀ a, a ∈ found next start n ↔ ∃ m ≤ n, Distance (Next next) start m a := by
  induction n with
  | zero =>
    have hstart : ∀ a, a ∈ [start] ↔ Distance (Next next) start 0 a := by
      intro a
      rw [List.mem_singleton]
      constructor
      · rintro rfl
        exact distance_start
      · exact Distance.zero
    refine ⟨hstart, fun a => (hstart a).trans ?_⟩
    simp
  | succ n ih =>
    have hlayer : ∀ a, a ∈ layer next start (n + 1) ↔ Distance (Next next) start (n + 1) a := by
      intro b
      rw [layer_succ, mem_spread, ih.2]
      constructor
      · rintro ⟨⟨a, ha, hb⟩, hnew⟩
        refine ⟨((ih.1 a).mp ha).walk.step hb, fun m hm => ?_⟩
        by_contra hlt
        obtain ⟨k, hk, hdistance⟩ := hm.distance
        exact hnew ⟨k, by omega, hdistance⟩
      · intro hb
        obtain ⟨a, ha, hnext⟩ := hb.from
        refine ⟨⟨a, (ih.1 a).mpr ha, hnext⟩, ?_⟩
        rintro ⟨m, hm, hdistance⟩
        have hsame := hdistance.unique hb
        omega
    refine ⟨hlayer, fun a => ?_⟩
    rw [found_succ, List.mem_append, ih.2, hlayer]
    constructor
    · rintro (⟨m, hm, hdistance⟩ | hdistance)
      · exact ⟨m, by omega, hdistance⟩
      · exact ⟨n + 1, le_rfl, hdistance⟩
    · rintro ⟨m, hm, hdistance⟩
      obtain hm | rfl := Nat.lt_or_eq_of_le hm
      · exact .inl ⟨m, by omega, hdistance⟩
      · exact .inr hdistance

theorem mem_layer : a ∈ layer next start n ↔ Distance (Next next) start n a := mem_layers.1 a

theorem mem_found : a ∈ found next start n ↔ ∃ m ≤ n, Distance (Next next) start m a := mem_layers.2 a

theorem start_mem_found : start ∈ found next start n := mem_found.mpr ⟨0, Nat.zero_le n, distance_start⟩

/-! ## The order of the nodes -/

theorem before_succ : before next start (n + 1) = before next start n ++ (layer next start n).map fun a => (a, n) := rfl

theorem map_fst_before : (before next start (n + 1)).map Prod.fst = found next start n := by
  induction n with
  | zero => rfl
  | succ n ih =>
    rw [before_succ, List.map_append, ih, List.map_map, found_succ]
    congr 1
    exact List.map_id _

theorem mem_before {d : ℕ} : (a, d) ∈ before next start n ↔ d < n ∧ Distance (Next next) start d a := by
  induction n with
  | zero => simp [before]
  | succ n ih =>
    rw [before_succ, List.mem_append, ih, List.mem_map]
    constructor
    · rintro (⟨hd, ha⟩ | ⟨b, hb, heq⟩)
      · exact ⟨by omega, ha⟩
      · cases heq
        exact ⟨Nat.lt_succ_self d, mem_layer.mp hb⟩
    · rintro ⟨hd, ha⟩
      obtain hd | rfl := Nat.lt_or_eq_of_le (Nat.le_of_lt_succ hd)
      · exact .inl ⟨hd, ha⟩
      · exact .inr ⟨a, mem_layer.mpr ha, rfl⟩

/-- Nearer nodes come first. -/
theorem pairwise_before : (before next start n).Pairwise fun x y => x.2 ≤ y.2 := by
  induction n with
  | zero => exact List.Pairwise.nil
  | succ n ih =>
    refine List.pairwise_append.mpr ⟨ih, ?_, ?_⟩
    · refine List.pairwise_of_forall_mem_list fun x hx y hy => ?_
      obtain ⟨a, -, rfl⟩ := List.mem_map.mp hx
      obtain ⟨b, -, rfl⟩ := List.mem_map.mp hy
      exact le_rfl
    · rintro ⟨a, d⟩ hx y hy
      obtain ⟨b, -, rfl⟩ := List.mem_map.mp hy
      exact Nat.le_of_lt (mem_before.mp hx).1

theorem before_prefix (h : n ≤ m) : before next start n <+: before next start m := by
  induction m with
  | zero =>
    obtain rfl := Nat.le_zero.mp h
    exact List.prefix_refl _
  | succ m ih =>
    obtain h | rfl := Nat.lt_or_eq_of_le h
    · exact (ih (Nat.le_of_lt_succ h)).trans (List.prefix_append _ _)
    · exact List.prefix_refl _

/-- Behind an empty layer there is nothing. -/
theorem layer_nil (h : layer next start n = []) (hm : n ≤ m) : layer next start m = [] := by
  refine List.eq_nil_iff_forall_not_mem.mpr fun a ha => ?_
  obtain ⟨b, hb⟩ := (mem_layer.mp ha).pass hm
  have hmem := mem_layer.mpr hb
  rw [h] at hmem
  cases hmem

theorem before_of_layer_nil (h : layer next start n = []) (hm : n ≤ m) : before next start m = before next start n := by
  induction m with
  | zero => rw [Nat.le_zero.mp hm]
  | succ m ih =>
    obtain hm | rfl := Nat.lt_or_eq_of_le hm
    · rw [before_succ, layer_nil h (Nat.le_of_lt_succ hm), ih (Nat.le_of_lt_succ hm)]
      exact List.append_nil _
    · rfl

end Layers

end Alexandria.BreadthFirst
