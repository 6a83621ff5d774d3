import Mathlib.Data.List.AList
import Mathlib.Data.List.Nodup
import Mathlib.Data.List.Perm.Basic

/-! # Lists keyed by a function

A list of records of which each has a key is the usual reading of a map that is built from a sequence.
`firstRepeated` is the check such a construction makes, `lookup` the access; on lists without repeated
keys the access does not depend on the order.
-/

namespace Alexandria.Keyed
set_option autoImplicit false

universe u v
variable {α : Type u} {κ : Type v} [DecidableEq κ]

/-- The first key of the list that is in `seen` or occurs before. -/
def firstRepeatedFrom (seen : List κ) : List κ → Option κ
  | [] => none
  | k :: ks => if k ∈ seen then some k else firstRepeatedFrom (k :: seen) ks

def firstRepeated (ks : List κ) : Option κ := firstRepeatedFrom [] ks

theorem firstRepeatedFrom_eq_none (seen ks : List κ) :
    firstRepeatedFrom seen ks = none ↔ ks.Nodup ∧ ∀ k ∈ ks, k ∉ seen := by
  induction ks generalizing seen with
  | nil => simp [firstRepeatedFrom]
  | cons k ks ih =>
    by_cases hk : k ∈ seen
    · simp [firstRepeatedFrom, hk]
    · simp only [firstRepeatedFrom, hk, if_false, ih, List.nodup_cons, List.mem_cons, not_or, forall_eq_or_imp]
      constructor
      · rintro ⟨hnd, h⟩
        exact ⟨⟨fun hmem => (h k hmem).1 rfl, hnd⟩, not_false, fun a ha => (h a ha).2⟩
      · rintro ⟨⟨hnot, hnd⟩, -, h⟩
        exact ⟨hnd, fun a ha => ⟨fun hak => hnot (hak ▸ ha), h a ha⟩⟩

@[simp] theorem firstRepeated_eq_none (ks : List κ) : firstRepeated ks = none ↔ ks.Nodup := by
  simp [firstRepeated, firstRepeatedFrom_eq_none]

/-- The first record with the key. -/
def lookup (key : α → κ) (k : κ) (xs : List α) : Option α := xs.find? fun x => key x = k

variable {key : α → κ} {k : κ} {xs ys : List α} {x : α}

theorem lookup_mem (h : lookup key k xs = some x) : x ∈ xs ∧ key x = k :=
  ⟨List.mem_of_find?_eq_some h, by simpa using List.find?_some h⟩

theorem lookup_eq_none : lookup key k xs = none ↔ ∀ x ∈ xs, key x ≠ k := by
  simp [lookup, List.find?_eq_none]

theorem lookup_eq_some (hxs : (xs.map key).Nodup) : lookup key k xs = some x ↔ x ∈ xs ∧ key x = k := by
  refine ⟨lookup_mem, ?_⟩
  rintro ⟨hx, rfl⟩
  cases h : lookup key (key x) xs with
  | none =>
    rw [lookup_eq_none] at h
    exact absurd rfl (h x hx)
  | some y =>
    obtain ⟨hy, hkey⟩ := lookup_mem h
    exact congrArg some (List.inj_on_of_nodup_map hxs hy hx hkey)

theorem lookup_perm (hperm : xs.Perm ys) (hxs : (xs.map key).Nodup) : lookup key k xs = lookup key k ys := by
  have hys : (ys.map key).Nodup := (hperm.map key).nodup_iff.mp hxs
  ext x
  rw [lookup_eq_some hxs, lookup_eq_some hys, hperm.mem_iff]

theorem lookup_append : lookup key k (xs ++ ys) = (lookup key k xs).or (lookup key k ys) := List.find?_append

/-- Filtering by the key alone. -/
theorem lookup_filter (key : α → κ) (k : κ) (xs : List α) (q : κ → Bool) :
    lookup key k (xs.filter fun x => q (key x)) = if q k then lookup key k xs else none := by
  rw [lookup, List.find?_filter]
  split
  case isTrue hk =>
    have same : (fun x => decide (q (key x) = true ∧ decide (key x = k) = true)) = fun x => decide (key x = k) := by
      funext x
      by_cases hx : key x = k <;> simp [hx, hk]
    rw [same, lookup]
  case isFalse hk =>
    refine List.find?_eq_none.mpr ?_
    intro x _ hx
    obtain ⟨hq, hkey⟩ := by simpa using hx
    exact hk (hkey ▸ hq)

/-! ## Writing a record under its key -/

/-- Replace what is stored under the key of the record, or add the record at the end. -/
def put (key : α → κ) (x : α) (xs : List α) : List α :=
  if (lookup key (key x) xs).isSome then xs.map fun y => if key y = key x then x else y else xs ++ [x]

theorem mem_put {y : α} : y ∈ put key x xs ↔ y = x ∨ y ∈ xs ∧ key y ≠ key x := by
  unfold put
  cases hstored : lookup key (key x) xs with
  | none =>
    rw [lookup_eq_none] at hstored
    rw [Option.isSome_none, if_neg Bool.false_ne_true, List.mem_append, List.mem_singleton]
    constructor
    · intro hy
      obtain hy | rfl := hy
      · exact .inr ⟨hy, hstored y hy⟩
      · exact .inl rfl
    · intro hy
      obtain rfl | ⟨hy, -⟩ := hy
      · exact .inr rfl
      · exact .inl hy
  | some stored =>
    obtain ⟨hmem, hkey⟩ := lookup_mem hstored
    rw [Option.isSome_some, if_pos rfl, List.mem_map]
    constructor
    · intro hy
      obtain ⟨z, hz, rfl⟩ := hy
      by_cases hzx : key z = key x
      · rw [if_pos hzx]
        exact .inl rfl
      · rw [if_neg hzx]
        exact .inr ⟨hz, hzx⟩
    · intro hy
      obtain rfl | ⟨hy, hyx⟩ := hy
      · exact ⟨stored, hmem, if_pos hkey⟩
      · exact ⟨y, hy, if_neg hyx⟩

theorem lookup_absent (h : k ∉ xs.map key) : lookup key k xs = none := by
  rw [lookup_eq_none]
  exact fun y hy hsame => h (hsame ▸ List.mem_map_of_mem hy)

theorem put_absent (h : key x ∉ xs.map key) : put key x xs = xs ++ [x] := by
  unfold put
  rw [lookup_absent h]
  rfl

theorem lookup_concat (h : key x ∉ xs.map key) : lookup key (key x) (xs ++ [x]) = some x := by
  rw [lookup_append, lookup_absent h]
  simp [lookup]

/-- A record replaces the last one with its key. -/
theorem put_concat {y : α} (h : key y ∉ xs.map key) (hsame : key x = key y) : put key x (xs ++ [y]) = xs ++ [x] := by
  have hkept : xs.map (fun z => if key z = key y then x else z) = xs := by
    refine (List.map_congr_left fun z hz => ?_).trans (List.map_id xs)
    rw [if_neg]
    · rfl
    · intro heq
      exact h (heq ▸ List.mem_map_of_mem hz)
  unfold put
  rw [hsame, lookup_concat h]
  simp [hkept]

theorem lookup_map_replace (hk : k ≠ key x) (ys : List α) :
    lookup key k (ys.map fun y => if key y = key x then x else y) = lookup key k ys := by
  unfold lookup
  induction ys with
  | nil => rfl
  | cons y ys ih =>
    rw [List.map_cons]
    by_cases hy : key y = key x
    · have hyk : key y ≠ k := fun h => hk (h.symm.trans hy)
      rw [if_pos hy, List.find?_cons_of_neg (by simpa using Ne.symm hk), List.find?_cons_of_neg (by simpa using hyk)]
      exact ih
    · rw [if_neg hy]
      by_cases hyk : key y = k
      · rw [List.find?_cons_of_pos (by simpa using hyk), List.find?_cons_of_pos (by simpa using hyk)]
      · rw [List.find?_cons_of_neg (by simpa using hyk), List.find?_cons_of_neg (by simpa using hyk)]
        exact ih

theorem lookup_map_self (h : ∃ y ∈ xs, key y = key x) :
    lookup key (key x) (xs.map fun y => if key y = key x then x else y) = some x := by
  unfold lookup
  induction xs with
  | nil =>
    obtain ⟨y, hy, -⟩ := h
    cases hy
  | cons y ys ih =>
    rw [List.map_cons]
    by_cases hy : key y = key x
    · rw [if_pos hy, List.find?_cons_of_pos (by simp)]
    · rw [if_neg hy, List.find?_cons_of_neg (by simpa using hy)]
      obtain ⟨z, hz, hzx⟩ := h
      obtain rfl | hz := List.mem_cons.mp hz
      · exact absurd hzx hy
      · exact ih ⟨z, hz, hzx⟩

theorem lookup_put : lookup key k (put key x xs) = if key x = k then some x else lookup key k xs := by
  unfold put
  cases hstored : lookup key (key x) xs with
  | none =>
    rw [Option.isSome_none, if_neg Bool.false_ne_true, lookup_append]
    by_cases hk : key x = k
    · subst hk
      rw [hstored]
      simp [lookup]
    · simp [hk, lookup]
  | some stored =>
    obtain ⟨hmem, hkey⟩ := lookup_mem hstored
    rw [Option.isSome_some, if_pos rfl]
    by_cases hk : key x = k
    · subst hk
      rw [if_pos rfl]
      exact lookup_map_self ⟨stored, hmem, hkey⟩
    · rw [if_neg hk]
      exact lookup_map_replace (Ne.symm hk) xs

/-- The keys after a write: as before when the key was there, one more otherwise. -/
theorem map_key_put : (put key x xs).map key =
    if (lookup key (key x) xs).isSome then xs.map key else xs.map key ++ [key x] := by
  unfold put
  split
  · rw [List.map_map]
    refine List.map_congr_left ?_
    intro y _
    by_cases hy : key y = key x <;> simp [hy]
  · rw [List.map_append]
    rfl

theorem nodup_put (h : (xs.map key).Nodup) : ((put key x xs).map key).Nodup := by
  rw [map_key_put]
  split
  · exact h
  · rename_i hnone
    refine h.append (List.nodup_singleton _) ?_
    rw [List.disjoint_singleton]
    intro hmem
    obtain ⟨y, hy, hkey⟩ := List.mem_map.mp hmem
    exact lookup_eq_none.mp (Option.not_isSome_iff_eq_none.mp hnone) y hy hkey

/-- A second key stays without repetition when the written record takes no value of another one. -/
theorem nodup_map_put {β : Type*} {f : α → β} (hkeys : (xs.map key).Nodup) (hxs : (xs.map f).Nodup)
    (free : ∀ y ∈ xs, f y = f x → key y = key x) : ((put key x xs).map f).Nodup := by
  refine (List.nodup_map_iff_inj_on (List.Nodup.of_map key (nodup_put hkeys))).mpr ?_
  intro a ha b hb hab
  obtain rfl | ⟨hain, hax⟩ := mem_put.mp ha
  · obtain rfl | ⟨hbin, hbx⟩ := mem_put.mp hb
    · rfl
    · exact absurd (free b hbin hab.symm) hbx
  · obtain rfl | ⟨hbin, -⟩ := mem_put.mp hb
    · exact absurd (free a hain hab) hax
    · exact List.inj_on_of_nodup_map hxs hain hbin hab

theorem mem_key_put : k ∈ (put key x xs).map key ↔ k = key x ∨ k ∈ xs.map key := by
  rw [map_key_put]
  split
  · rename_i hsome
    obtain ⟨y, hy⟩ := Option.isSome_iff_exists.mp hsome
    obtain ⟨hmem, hkey⟩ := lookup_mem hy
    constructor
    · exact .inr
    · rintro (rfl | hk)
      · exact List.mem_map.mpr ⟨y, hmem, hkey⟩
      · exact hk
  · rw [List.mem_append, List.mem_singleton, or_comm]

/-! ## Maps from sequences -/

/-- The records written one after another: a later one replaces an earlier one with the same key. -/
def ofList (key : α → κ) (xs : List α) : List α := xs.foldl (fun kept x => put key x kept) []

theorem nodup_foldl_put (hys : (ys.map key).Nodup) :
    ((xs.foldl (fun kept x => put key x kept) ys).map key).Nodup := by
  induction xs generalizing ys with
  | nil => exact hys
  | cons x xs ih => exact ih (nodup_put hys)

theorem mem_key_foldl_put :
    k ∈ (xs.foldl (fun kept x => put key x kept) ys).map key ↔ k ∈ ys.map key ∨ k ∈ xs.map key := by
  induction xs generalizing ys with
  | nil => simp
  | cons x xs ih =>
    rw [List.foldl_cons, ih, mem_key_put, List.map_cons, List.mem_cons, or_assoc, or_left_comm]

theorem nodup_ofList : ((ofList key xs).map key).Nodup := nodup_foldl_put List.nodup_nil

theorem mem_key_ofList : k ∈ (ofList key xs).map key ↔ k ∈ xs.map key := by
  rw [ofList, mem_key_foldl_put]
  simp

theorem foldl_put_eq_append (h : ((ys ++ xs).map key).Nodup) :
    xs.foldl (fun kept x => put key x kept) ys = ys ++ xs := by
  induction xs generalizing ys with
  | nil => simp
  | cons x xs ih =>
    have habsent : key x ∉ ys.map key := by
      intro hmem
      rw [List.map_append, List.nodup_append] at h
      exact h.2.2 (key x) hmem (key x) (List.mem_map_of_mem List.mem_cons_self) rfl
    rw [List.foldl_cons, put_absent habsent, ih (by simpa using h)]
    simp

/-- Records without repeated keys are kept as they are. -/
theorem ofList_eq_self (h : (xs.map key).Nodup) : ofList key xs = xs := foldl_put_eq_append (by simpa using h)

/-- A record of one list has a partner in a list related to it. -/
theorem forall₂_image {β : Type u} {R : α → β → Prop} {zs : List β} (h : List.Forall₂ R xs zs) (hx : x ∈ xs) :
    ∃ z ∈ zs, R x z := by
  induction h with
  | nil => cases hx
  | @cons a z _ _ ha _ ih =>
    obtain rfl | hx := List.mem_cons.mp hx
    · exact ⟨z, List.mem_cons_self, ha⟩
    · obtain ⟨z', hz', hR⟩ := ih hx
      exact ⟨z', List.mem_cons_of_mem z hz', hR⟩

/-! ## Records made by a function of their keys -/

section Graph
variable {β : Type*} (f : κ → β) (ids : List κ) (k : κ)

theorem lookup_graph : lookup Prod.fst k (ids.map fun id => (id, f id)) = if k ∈ ids then some (k, f k) else none := by
  induction ids with
  | nil => rfl
  | cons id ids ih =>
    rw [List.map_cons, lookup, List.find?_cons]
    by_cases hid : id = k
    · simp [hid]
    · have hid' : k ≠ id := fun h => hid h.symm
      simpa [hid, hid', lookup] using ih

theorem put_graph (b : β) : put Prod.fst (k, b) (ids.map fun id => (id, f id)) =
    if k ∈ ids then ids.map fun id => (id, if id = k then b else f id) else (ids.map fun id => (id, f id)) ++ [(k, b)] := by
  rw [put, lookup_graph]
  by_cases hk : k ∈ ids
  · rw [if_pos hk, if_pos hk, Option.isSome_some, if_pos rfl, List.map_map]
    refine List.map_congr_left fun id _ => ?_
    by_cases hid : id = k <;> simp [hid]
  · rw [if_neg hk, if_neg hk, Option.isSome_none, if_neg Bool.false_ne_true]

end Graph

/-! ## A fallible map -/

section Except
variable {β ε : Type u} {f : α → Except ε β} {zs : List β}

theorem mapM_cons_ok {x : α} {y : β} (hx : f x = .ok y) (hxs : xs.mapM f = .ok zs) :
    (x :: xs).mapM f = .ok (y :: zs) := by
  simp [List.mapM_cons, hx, hxs, bind, Except.bind, pure, Except.pure]

theorem mapM_eq_ok : xs.mapM f = .ok zs ↔ List.Forall₂ (fun x z => f x = .ok z) xs zs := by
  induction xs generalizing zs with
  | nil =>
    simp only [List.mapM_nil, pure, Except.pure, Except.ok.injEq, List.forall₂_nil_left_iff]
    exact eq_comm
  | cons x xs ih =>
    constructor
    · intro h
      cases hx : f x with
      | error e => simp [List.mapM_cons, hx, bind, Except.bind] at h
      | ok y =>
        cases hxs : xs.mapM f with
        | error e => simp [List.mapM_cons, hx, hxs, bind, Except.bind] at h
        | ok ys =>
          rw [mapM_cons_ok hx hxs] at h
          cases h
          exact .cons hx (ih.mp hxs)
    · intro h
      cases h with
      | cons hx hxs => exact mapM_cons_ok hx (ih.mpr hxs)

/-- A check of each element that decides its value decides the values of all. -/
theorem mapM_ok_iff {P : α → Prop} {g : α → β}
    (hf : ∀ x y, f x = .ok y ↔ P x ∧ y = g x) :
    xs.mapM f = .ok zs ↔ (∀ x ∈ xs, P x) ∧ zs = xs.map g := by
  constructor
  · intro h
    rw [mapM_eq_ok] at h
    induction h with
    | nil => exact ⟨by simp, rfl⟩
    | cons hx _ ih =>
      obtain ⟨hholds, rfl⟩ := (hf _ _).mp hx
      obtain ⟨hrest, rfl⟩ := ih
      exact ⟨List.forall_mem_cons.mpr ⟨hholds, hrest⟩, rfl⟩
  · rintro ⟨hall, rfl⟩
    rw [mapM_eq_ok, List.forall₂_map_right_iff, List.forall₂_same]
    intro x hx
    exact (hf x (g x)).mpr ⟨hall x hx, rfl⟩

theorem mapM_ok_of_mem (h : xs.mapM f = .ok zs) (hx : x ∈ xs) : ∃ z ∈ zs, f x = .ok z := by
  rw [mapM_eq_ok] at h
  exact forall₂_image h hx

theorem mapM_ok_source {z : β} (h : xs.mapM f = .ok zs) (hz : z ∈ zs) : ∃ x ∈ xs, f x = .ok z := by
  rw [mapM_eq_ok] at h
  exact forall₂_image h.flip hz

omit [DecidableEq κ] in
/-- When the map keeps keys, so does the list of its values. -/
theorem map_key_mapM {key' : β → κ} (hf : ∀ x z, f x = .ok z → key' z = key x) (h : xs.mapM f = .ok zs) :
    zs.map key' = xs.map key := by
  rw [mapM_eq_ok] at h
  induction h with
  | nil => rfl
  | cons hx _ ih => simp only [List.map_cons, hf _ _ hx, ih]

/-- When the map keeps keys, access after the map is the image of access before it. -/
theorem lookup_mapM (k : κ) {key' : β → κ} (hf : ∀ x z, f x = .ok z → key' z = key x) (h : xs.mapM f = .ok zs) :
    lookup key' k zs = (lookup key k xs).bind fun x => (f x).toOption := by
  rw [mapM_eq_ok] at h
  induction h with
  | nil => rfl
  | @cons x z xs zs hx _ ih =>
    have hkey := hf x z hx
    by_cases hk : key x = k
    · have hz : key' z = k := hkey.trans hk
      simp [lookup, hk, hz, hx, Except.toOption]
    · have hz : key' z ≠ k := fun hz => hk (hkey.symm.trans hz)
      have hz' : lookup key' k (z :: zs) = lookup key' k zs := by simp [lookup, hz]
      have hx' : lookup key k (x :: xs) = lookup key k xs := by simp [lookup, hk]
      rw [hz', hx', ih]

/-- Dropping records on which the map succeeds neither adds nor hides an error. -/
theorem mapM_filter {p : α → Bool} (hp : ∀ x ∈ xs, p x = false → ∃ z, f x = .ok z) :
    (∃ zs us, xs.mapM f = .ok zs ∧ (xs.filter p).mapM f = .ok us) ∨
      ∃ e, xs.mapM f = .error e ∧ (xs.filter p).mapM f = .error e := by
  induction xs with
  | nil => exact .inl ⟨[], [], rfl, rfl⟩
  | cons x xs ih =>
    have tail := ih fun a ha => hp a (List.mem_cons_of_mem x ha)
    have error_cons : ∀ {as : List α} {z : β} {e : ε}, f x = .ok z → as.mapM f = .error e →
        (x :: as).mapM f = .error e := by
      intro as z e hx has
      simp [List.mapM_cons, hx, has, bind, Except.bind]
    by_cases hpx : p x = true
    · rw [List.filter_cons_of_pos hpx]
      cases hx : f x with
      | error e => exact .inr ⟨e, by simp [List.mapM_cons, hx, bind, Except.bind]⟩
      | ok z =>
        obtain ⟨zs, us, hzs, hus⟩ | ⟨e, hzs, hus⟩ := tail
        · exact .inl ⟨z :: zs, z :: us, mapM_cons_ok hx hzs, mapM_cons_ok hx hus⟩
        · exact .inr ⟨e, error_cons hx hzs, error_cons hx hus⟩
    · rw [List.filter_cons_of_neg hpx]
      obtain ⟨z, hx⟩ := hp x List.mem_cons_self (by simpa using hpx)
      obtain ⟨zs, us, hzs, hus⟩ | ⟨e, hzs, hus⟩ := tail
      · exact .inl ⟨z :: zs, us, mapM_cons_ok hx hzs, hus⟩
      · exact .inr ⟨e, error_cons hx hzs, hus⟩

theorem exists_mapM_ok (h : ∀ x ∈ xs, ∃ z, f x = .ok z) : ∃ zs, xs.mapM f = .ok zs := by
  obtain ⟨zs, _, hzs, _⟩ | ⟨e, _, he⟩ := mapM_filter (p := fun _ => false) fun x hx _ => h x hx
  · exact ⟨zs, hzs⟩
  · rw [List.filter_false] at he
    cases he

theorem map_eq_ok {γ : Type u} {r : Except ε α} {g : α → γ} {c : γ} (h : r.map g = .ok c) : ∃ a, r = .ok a ∧ g a = c := by
  cases r with
  | error e => cases h
  | ok a => exact ⟨a, rfl, Except.ok.inj h⟩

theorem map_eq_error {γ : Type u} {r : Except ε α} {g : α → γ} {e : ε} (h : r.map g = .error e) : r = .error e := by
  cases r with
  | error e' => exact congrArg Except.error (Except.error.inj h)
  | ok a => cases h

theorem bind_eq_ok {γ : Type u} {r : Except ε α} {g : α → Except ε γ} {c : γ} (h : (r >>= g) = .ok c) :
    ∃ a, r = .ok a ∧ g a = .ok c := by
  cases r with
  | error e => cases h
  | ok a => exact ⟨a, rfl, h⟩

end Except

/-! ## Replacing a value in place -/

section Replace
variable {K V : Type*} [DecidableEq K]

theorem dlookup_kreplace (a k : K) (v : V) (l : List (Sigma fun _ : K => V)) :
    (l.kreplace k v).dlookup a = if a = k ∧ (l.dlookup k).isSome then some v else l.dlookup a := by
  induction l with
  | nil => simp [List.kreplace]
  | cons e l ih =>
    obtain ⟨j, w⟩ := e
    by_cases hkj : k = j
    · subst hkj
      have hhead : List.kreplace k v (⟨k, w⟩ :: l) = ⟨k, v⟩ :: l := List.lookmap_cons_some _ _ (if_pos rfl)
      rw [hhead]
      by_cases hak : a = k
      · subst hak
        simp
      · simp [hak, List.dlookup_cons_ne]
    · have hhead : List.kreplace k v (⟨j, w⟩ :: l) = ⟨j, w⟩ :: l.kreplace k v :=
        List.lookmap_cons_none _ _ (if_neg hkj)
      rw [hhead]
      by_cases haj : a = j
      · subst haj
        simp [Ne.symm hkj]
      · rw [List.dlookup_cons_ne (a := a) _ _ haj, List.dlookup_cons_ne (a := k) _ _ hkj,
          List.dlookup_cons_ne (a := a) _ _ haj, ih]

/-- Replacing the value of a key that is there. -/
theorem lookup_replace (s : AList fun _ : K => V) {k : K} {v w : V} (h : s.lookup k = some w) (a : K) :
    (s.replace k v).lookup a = if a = k then some v else s.lookup a := by
  have hsome : (s.entries.dlookup k).isSome = true := by
    rw [show s.entries.dlookup k = some w from h]
    rfl
  have := dlookup_kreplace a k v s.entries
  rw [hsome] at this
  simpa [AList.lookup, AList.replace] using this

end Replace

end Alexandria.Keyed
