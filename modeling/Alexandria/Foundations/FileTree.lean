import Mathlib.Data.List.AList
import Mathlib.Data.List.Infix
import Mathlib.Tactic.Common

/-! # A tree of files and directories

A path is the list of its components and the empty path is the root, which is a directory and has no entry of its
own. `mkdirs` is `mkdir` with all missing parents, `replace` is an atomic rename that replaces what is there: a
file replaces a file, a directory an empty directory. Links are not modelled, so a path names its entry.
-/

namespace Alexandria.FileTree
set_option autoImplicit false

inductive Node (β : Type)
  | dir
  | file (content : β)
deriving DecidableEq

def Node.content {β : Type} : Node β → Option β
  | .dir => none
  | .file c => some c

structure Tree (κ β : Type) where
  nodes : AList fun _ : List κ => Node β

inductive OsError
  | fileNotFound
  | fileExists
  | notADirectory
  | isADirectory
  | notEmpty
  | invalid
deriving DecidableEq

namespace Tree
variable {κ β : Type} [DecidableEq κ]

def entry (t : Tree κ β) (p : List κ) : Option (Node β) := if p = [] then some .dir else t.nodes.lookup p

def exist (t : Tree κ β) (p : List κ) : Bool := (t.entry p).isSome

def content (t : Tree κ β) (p : List κ) : Option β := (t.entry p).bind Node.content

/-- Add a directory where there is nothing. -/
def ensureDir (t : Tree κ β) (p : List κ) : Tree κ β :=
  match t.entry p with
  | none => ⟨t.nodes.insert p .dir⟩
  | some _ => t

/-- `mkdir(parents=True, exist_ok=True)`: nothing is made when a file is in the way. -/
def mkdirs (t : Tree κ β) (p : List κ) : Except OsError (Tree κ β) :=
  match p.inits.find? fun q => (t.content q).isSome with
  | some q => .error (if q = p then .fileExists else .notADirectory)
  | none => .ok (p.inits.foldl ensureDir t)

/-- The new place of an entry when the directory `src` becomes `dst`. -/
def relocate (src dst : List κ) (e : Sigma fun _ : List κ => Node β) : Sigma fun _ : List κ => Node β :=
  if src <+: e.1 then ⟨dst ++ e.1.drop src.length, e.2⟩ else e

def renameDir (t : Tree κ β) (src dst : List κ) : Tree κ β :=
  ⟨((t.nodes.erase dst).entries.map (relocate src dst)).toAList⟩

def renameFile (t : Tree κ β) (src dst : List κ) (c : β) : Tree κ β := ⟨(t.nodes.erase src).insert dst (.file c)⟩

/-- `os.replace`. -/
def replace (t : Tree κ β) (src dst : List κ) : Except OsError (Tree κ β) :=
  match t.entry src with
  | none => .error .fileNotFound
  | some (.file c) =>
    match t.entry dst with
    | some .dir => .error .isADirectory
    | _ => .ok (t.renameFile src dst c)
  | some .dir =>
    match t.entry dst with
    | some (.file _) => .error .notADirectory
    | _ =>
      if src <+: dst then .error .invalid
      else if t.nodes.entries.any fun e => dst <+: e.1 ∧ e.1 ≠ dst then .error .notEmpty
      else .ok (t.renameDir src dst)

/-- Create a file, or replace its content. -/
def write (t : Tree κ β) (p : List κ) (c : β) : Tree κ β := ⟨t.nodes.insert p (.file c)⟩

def remove (t : Tree κ β) (p : List κ) : Tree κ β := ⟨t.nodes.erase p⟩

/-- Everything above an entry is a directory. -/
def Closed (t : Tree κ β) : Prop := ∀ p q, t.exist p = true → q <+: p → q ≠ p → t.entry q = some .dir

/-- The contents of the files. -/
def contents (t : Tree κ β) : List β := t.nodes.entries.filterMap fun e => e.2.content

/-! ## Entries -/

section Entries
variable {t t' : Tree κ β} {p q src dst : List κ} {c : β}

@[simp] theorem entry_nil : t.entry [] = some .dir := if_pos rfl

theorem entry_of_ne (h : p ≠ []) : t.entry p = t.nodes.lookup p := if_neg h

theorem entry_insert {node : Node β} (hp : p ≠ []) :
    entry ⟨t.nodes.insert p node⟩ q = if q = p then some node else t.entry q := by
  unfold entry
  by_cases hq : q = []
  · subst hq
    rw [if_pos rfl, if_pos rfl, if_neg (Ne.symm hp)]
  · rw [if_neg hq, if_neg hq]
    by_cases hqp : q = p
    · subst hqp
      rw [if_pos rfl, AList.lookup_insert]
    · rw [if_neg hqp, AList.lookup_insert_ne hqp]

theorem content_eq_some : t.content p = some c ↔ t.entry p = some (.file c) := by
  unfold content
  cases t.entry p with
  | none => simp
  | some node => cases node <;> simp [Node.content]

theorem exist_eq_false : t.exist p = false ↔ t.entry p = none := by
  unfold exist
  cases t.entry p <;> simp

theorem ne_nil_of_content (h : t.entry p = some (.file c)) : p ≠ [] := by
  rintro rfl
  rw [entry_nil] at h
  simp at h

theorem ne_nil_of_none (h : t.entry p = none) : p ≠ [] := by
  rintro rfl
  rw [entry_nil] at h
  simp at h

/-- A tree without directories is closed. -/
theorem closed_of_flat (h : ∀ e ∈ t.nodes.entries, e.1.length ≤ 1) : t.Closed := by
  intro p q hp hpre hne
  have hlen : p.length ≤ 1 := by
    by_cases hnil : p = []
    · rw [hnil]
      exact Nat.zero_le 1
    · unfold exist at hp
      rw [entry_of_ne hnil] at hp
      obtain ⟨node, hnode⟩ := Option.isSome_iff_exists.mp hp
      exact h ⟨p, node⟩ (AList.mem_lookup_iff.mp hnode)
  have hshort : q.length < p.length := lt_of_le_of_ne hpre.length_le fun heq => hne (hpre.eq_of_length heq)
  have hq : q = [] := List.length_eq_zero_iff.mp (by omega)
  rw [hq, entry_nil]

/-! ## Making directories -/

theorem entry_ensureDir : (t.ensureDir p).entry q = if q = p ∧ t.entry q = none then some .dir else t.entry q := by
  unfold ensureDir
  cases hp : t.entry p with
  | none =>
    simp only [entry_insert (ne_nil_of_none hp)]
    by_cases hq : q = p
    · subst hq
      simp [hp]
    · simp [hq]
  | some node =>
    by_cases hq : q = p
    · subst hq
      simp [hp]
    · simp [hq]

theorem entry_foldl_ensureDir (ps : List (List κ)) :
    (ps.foldl ensureDir t).entry q = if q ∈ ps ∧ t.entry q = none then some .dir else t.entry q := by
  induction ps generalizing t with
  | nil => simp
  | cons p ps ih =>
    rw [List.foldl_cons, ih, entry_ensureDir]
    by_cases hq : t.entry q = none
    · by_cases hqp : q = p
      · subst hqp
        simp [hq]
      · by_cases hmem : q ∈ ps <;> simp [hq, hqp, hmem]
    · simp [hq]

theorem contents_ensureDir : (t.ensureDir p).contents = t.contents := by
  unfold ensureDir
  cases hp : t.entry p with
  | none =>
    have hlookup : t.nodes.lookup p = none := by
      rwa [entry_of_ne (ne_nil_of_none hp)] at hp
    show contents ⟨t.nodes.insert p .dir⟩ = t.contents
    unfold contents
    rw [AList.entries_insert_of_notMem (AList.lookup_eq_none.mp hlookup)]
    rfl
  | some node => rfl

theorem contents_foldl_ensureDir (ps : List (List κ)) : (ps.foldl ensureDir t).contents = t.contents := by
  induction ps generalizing t with
  | nil => rfl
  | cons p ps ih => rw [List.foldl_cons, ih, contents_ensureDir]

/-- What `mkdirs` makes when no file is in the way. -/
theorem mkdirs_ok (h : t.mkdirs p = .ok t') :
    (∀ q, q <+: p → t.content q = none) ∧
    (∀ q, t'.entry q = if q <+: p ∧ t.entry q = none then some .dir else t.entry q) ∧ t'.contents = t.contents := by
  unfold mkdirs at h
  split at h
  · simp at h
  · rename_i hnone
    cases h
    refine ⟨?_, ?_, contents_foldl_ensureDir _⟩
    · intro q hq
      have hfree := List.find?_eq_none.mp hnone q ((List.mem_inits q p).mpr hq)
      simpa using hfree
    · intro q
      rw [entry_foldl_ensureDir]
      simp only [List.mem_inits]

/-! ## Renaming a file -/

theorem entry_renameFile (hsrc : src ≠ []) (hdst : dst ≠ []) :
    (t.renameFile src dst c).entry q =
      if q = dst then some (.file c) else if q = src then none else t.entry q := by
  unfold renameFile entry
  by_cases hq : q = []
  · subst hq
    simp [Ne.symm hsrc, Ne.symm hdst]
  · by_cases hqd : q = dst
    · subst hqd
      simp [hq]
    · by_cases hqs : q = src
      · subst hqs
        simp [hq, hqd]
      · simp [hq, hqd, hqs]

/-- An entry of the table comes first in a reordering of it. -/
theorem entries_perm_cons {s : AList fun _ : List κ => Node β} {k : List κ} {node : Node β}
    (h : s.lookup k = some node) : s.entries.Perm (⟨k, node⟩ :: (s.erase k).entries) := by
  have hinsert : ((s.erase k).insert k node).entries = ⟨k, node⟩ :: (s.erase k).entries :=
    AList.entries_insert_of_notMem fun hmem => (AList.mem_erase.mp hmem).1 rfl
  have hperm : s.entries.Perm ((s.erase k).insert k node).entries := by
    apply List.lookup_ext s.nodupKeys ((s.erase k).insert k node).nodupKeys
    intro j w
    show w ∈ s.lookup j ↔ w ∈ ((s.erase k).insert k node).lookup j
    by_cases hj : j = k
    · subst hj
      rw [h, AList.lookup_insert]
    · rw [AList.lookup_insert_ne hj, AList.lookup_erase_ne hj]
  rw [hinsert] at hperm
  exact hperm

theorem contents_perm_of_file {k : List κ} (h : t.nodes.lookup k = some (.file c)) :
    t.contents.Perm (c :: contents ⟨t.nodes.erase k⟩) := by
  exact (entries_perm_cons h).filterMap fun e => e.2.content

/-- A file that is renamed to a free place keeps the contents. -/
theorem contents_renameFile (hsrc : t.entry src = some (.file c)) (hdst : t.entry dst = none) :
    (t.renameFile src dst c).contents.Perm t.contents := by
  rw [entry_of_ne (ne_nil_of_content hsrc)] at hsrc
  rw [entry_of_ne (ne_nil_of_none hdst)] at hdst
  have hnot : dst ∉ t.nodes.erase src := fun h => AList.lookup_eq_none.mp hdst (AList.mem_erase.mp h).2
  have hnew : (t.renameFile src dst c).contents = c :: contents ⟨t.nodes.erase src⟩ := by
    unfold contents renameFile
    rw [AList.entries_insert_of_notMem hnot]
    rfl
  rw [hnew]
  exact (contents_perm_of_file hsrc).symm

/-- A file that is renamed onto another one replaces it. -/
theorem contents_renameFile_onto {d : β} (hsrc : t.entry src = some (.file c)) (hdst : t.entry dst = some (.file d))
    (hne : dst ≠ src) : (t.renameFile src dst c).contents.length + 1 = t.contents.length := by
  rw [entry_of_ne (ne_nil_of_content hsrc)] at hsrc
  rw [entry_of_ne (ne_nil_of_content hdst)] at hdst
  have hrest : (t.nodes.erase src).lookup dst = some (.file d) := by
    rwa [AList.lookup_erase_ne hne]
  have hnew : (t.renameFile src dst c).contents = c :: contents ⟨(t.nodes.erase src).erase dst⟩ := by
    unfold contents renameFile
    rw [AList.entries_insert]
    rfl
  have hfirst := (contents_perm_of_file hsrc).length_eq
  have hsecond := (contents_perm_of_file (t := ⟨t.nodes.erase src⟩) hrest).length_eq
  rw [hnew, hfirst, List.length_cons, List.length_cons, hsecond, List.length_cons]

/-! ## Renaming a directory -/

theorem length_filterMap_dedupKeys {γ : Type} (f : (Sigma fun _ : List κ => Node β) → Option γ)
    (l : List (Sigma fun _ : List κ => Node β)) : (l.dedupKeys.filterMap f).length ≤ (l.filterMap f).length := by
  induction l with
  | nil => rfl
  | cons e l ih =>
    have hrest : ((l.dedupKeys.kerase e.1).filterMap f).length ≤ (l.filterMap f).length :=
      le_trans ((List.kerase_sublist e.1 l.dedupKeys).filterMap f).length_le ih
    rw [List.dedupKeys_cons, List.kinsert_def]
    cases he : f e with
    | none => simpa [List.filterMap_cons, he] using hrest
    | some c => simpa [List.filterMap_cons, he] using hrest

/-- Renaming a directory makes no file. -/
theorem contents_renameDir : (t.renameDir src dst).contents.length ≤ t.contents.length := by
  have hkept : ∀ l : List (Sigma fun _ : List κ => Node β),
      (l.map (relocate src dst)).filterMap (fun e => e.2.content) = l.filterMap fun e => e.2.content := by
    intro l
    rw [List.filterMap_map]
    apply List.filterMap_congr
    intro e _
    show (relocate src dst e).2.content = e.2.content
    unfold relocate
    split <;> rfl
  unfold contents renameDir
  rw [AList.entries_toAList]
  refine le_trans (length_filterMap_dedupKeys _ _) ?_
  rw [hkept]
  exact ((List.kerase_sublist dst t.nodes.entries).filterMap _).length_le

theorem dlookup_of_forall {l : List (Sigma fun _ : List κ => Node β)} {k : List κ} {node : Node β}
    (hex : ∃ e ∈ l, e.1 = k) (hall : ∀ e ∈ l, e.1 = k → e.2 = node) : l.dlookup k = some node := by
  induction l with
  | nil =>
    obtain ⟨e, he, -⟩ := hex
    simp at he
  | cons e l ih =>
    obtain ⟨j, w⟩ := e
    by_cases hj : k = j
    · subst hj
      have hw : w = node := hall _ List.mem_cons_self rfl
      rw [List.dlookup_cons_eq, hw]
    · rw [List.dlookup_cons_ne _ _ hj]
      apply ih
      · obtain ⟨e, he, hek⟩ := hex
        obtain rfl | he := List.mem_cons.mp he
        · exact absurd hek.symm hj
        · exact ⟨e, he, hek⟩
      · exact fun e he => hall e (List.mem_cons_of_mem _ he)

/-- The new place of a renamed directory is a directory. -/
theorem entry_renameDir (hsrc : t.entry src = some .dir) (hne : ¬ src <+: dst) :
    (t.renameDir src dst).entry dst = some .dir := by
  by_cases hdst : dst = []
  · subst hdst
    rfl
  · have hnil : src ≠ [] := by
      rintro rfl
      exact hne List.nil_prefix
    have hdiff : src ≠ dst := by
      rintro rfl
      exact hne List.prefix_rfl
    rw [entry_of_ne hnil] at hsrc
    rw [entry_of_ne hdst]
    unfold renameDir
    rw [AList.lookup_to_alist]
    have hmem : (⟨src, .dir⟩ : Sigma fun _ : List κ => Node β) ∈ (t.nodes.erase dst).entries := by
      rw [← AList.mem_lookup_iff, AList.lookup_erase_ne hdiff]
      exact hsrc
    apply dlookup_of_forall
    · refine ⟨relocate src dst ⟨src, .dir⟩, List.mem_map_of_mem hmem, ?_⟩
      simp [relocate]
    · intro e he hkey
      obtain ⟨⟨k, node⟩, hk, rfl⟩ := List.mem_map.mp he
      have hlookup : (t.nodes.erase dst).lookup k = some node := AList.mem_lookup_iff.mpr hk
      unfold relocate at hkey ⊢
      by_cases hpre : src <+: k
      · simp only [if_pos hpre] at hkey ⊢
        -- only the directory itself lands on its new place
        have hdrop : k.drop src.length = [] := by simpa using hkey
        obtain ⟨rest, rfl⟩ := hpre
        rw [List.drop_left] at hdrop
        subst hdrop
        rw [List.append_nil, AList.lookup_erase_ne hdiff, hsrc] at hlookup
        exact (Option.some.inj hlookup).symm
      · simp only [if_neg hpre] at hkey ⊢
        subst hkey
        rw [AList.lookup_erase] at hlookup
        simp at hlookup

/-- Renaming a directory makes no entry outside of its new place. -/
theorem content_renameDir (hp : ¬ dst <+: p) (h : (t.renameDir src dst).content p = some c) :
    t.content p = some c := by
  have hentry := content_eq_some.mp h
  have hnil := ne_nil_of_content hentry
  rw [entry_of_ne hnil] at hentry
  unfold renameDir at hentry
  rw [AList.lookup_to_alist] at hentry
  obtain ⟨⟨k, node⟩, hk, hplace⟩ := List.mem_map.mp (List.of_mem_dlookup hentry)
  unfold relocate at hplace
  by_cases hpre : src <+: k
  · rw [if_pos hpre] at hplace
    cases hplace
    exact absurd (List.prefix_append dst _) hp
  · rw [if_neg hpre] at hplace
    cases hplace
    have hlookup : (t.nodes.erase dst).lookup p = some (.file c) := AList.mem_lookup_iff.mpr hk
    have hne : p ≠ dst := by
      rintro rfl
      exact hp List.prefix_rfl
    rw [AList.lookup_erase_ne hne] at hlookup
    rw [content_eq_some, entry_of_ne hnil]
    exact hlookup

/-! ## Replacing and writing -/

/-- What `replace` did when it did not fail. -/
theorem replace_ok (h : t.replace src dst = .ok t') :
    (∃ c, t.entry src = some (.file c) ∧ t.entry dst ≠ some .dir ∧ t' = t.renameFile src dst c) ∨
    (t.entry src = some .dir ∧ t'.entry dst = some .dir ∧ t' = t.renameDir src dst) := by
  unfold replace at h
  split at h
  · simp at h
  · rename_i c hsrc
    split at h
    · simp at h
    · rename_i hdst
      cases h
      exact .inl ⟨c, hsrc, hdst, rfl⟩
  · rename_i hsrc
    split at h
    · simp at h
    · split at h
      · simp at h
      · rename_i hne
        split at h
        · simp at h
        · cases h
          exact .inr ⟨hsrc, entry_renameDir hsrc hne, rfl⟩

theorem replace_file (hsrc : t.entry src = some (.file c)) (hdst : t.entry dst = none) :
    t.replace src dst = .ok (t.renameFile src dst c) := by
  unfold replace
  rw [hsrc, hdst]

theorem entry_write (hp : p ≠ []) : (t.write p c).entry q = if q = p then some (.file c) else t.entry q :=
  entry_insert hp

theorem remove_write (hp : t.entry p = none) : (t.write p c).remove p = t := by
  have hnot : p ∉ t.nodes := by
    rw [entry_of_ne (ne_nil_of_none hp)] at hp
    exact AList.lookup_eq_none.mp hp
  have hnodes : (t.nodes.insert p (.file c)).erase p = t.nodes := by
    apply AList.ext
    show ((t.nodes.insert p (.file c)).entries).kerase p = t.nodes.entries
    rw [AList.entries_insert_of_notMem hnot]
    exact List.kerase_cons_eq rfl
  show Tree.mk ((t.nodes.insert p (.file c)).erase p) = t
  rw [hnodes]

theorem mkdirs_eq (h : ∀ q, q <+: p → t.content q = none) : t.mkdirs p = .ok (p.inits.foldl ensureDir t) := by
  have hnone : (p.inits.find? fun q => (t.content q).isSome) = none := by
    apply List.find?_eq_none.mpr
    intro q hq
    rw [h q ((List.mem_inits q p).mp hq)]
    simp
  unfold mkdirs
  rw [hnone]

end Entries

end Tree

end Alexandria.FileTree
