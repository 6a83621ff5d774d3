import Alexandria.Vault.Moves

/-! # The renames of a batch of moves

The renames are followed on the resolved paths. As long as each of them finds its source, a free destination and no
file above it, the tree after them is known exactly (`Tracks`). A rename that is not of this kind fails, replaces a
moved note, or renames a directory; the last two are never made up for by later renames.
-/

namespace Alexandria.Vault
set_option autoImplicit false

open FileTree

/-- A vault: a tree in which everything above an entry is a directory. -/
structure VaultTree (β : Type) where
  tree : Tree String β
  closed : tree.Closed

/-- The resolved source and destination of a move. -/
abbrev Ends := NotePath × NotePath

def VaultMove.ends (move : VaultMove) : Option Ends :=
  match resolveNotePath move.sourcePath, resolveNotePath move.destinationPath with
  | .ok source, .ok destination => some (source, destination)
  | _, _ => none

section Renames
variable {β : Type}

/-- The move, against those before it: a new source, a destination neither at, above nor below an earlier one, and no
note above the destination except one that was moved before. -/
def Clear (vault : Tree String β) (done : List Ends) (e : Ends) : Prop :=
  (∀ d ∈ done, d.1 ≠ e.1 ∧ ¬ d.2 <+: e.2 ∧ ¬ e.2 <+: d.2) ∧
    ∀ p c, vault.content p = some c → p <+: e.2 → ∃ d ∈ done, d.1 = p

def Orderly (vault : Tree String β) : List Ends → List Ends → Prop
  | _, [] => True
  | done, e :: rest => Clear vault done e ∧ Orderly vault (done ++ [e]) rest

/-- What a request without an issue is known to be on the vault before the first rename. -/
def Safe (vault : Tree String β) (e : Ends) : Prop := (∃ c, vault.content e.1 = some c) ∧ vault.entry e.2 = none

/-- The rename finds its source, a free destination and no file above it. -/
def Clean (tree : Tree String β) (e : Ends) : Prop :=
  (∃ c, tree.content e.1 = some c) ∧ tree.entry e.2 = none ∧ ∀ q, q <+: e.2.dropLast → tree.content q = none

/-- The tree after the moves of `done`. -/
structure Tracks (vault : Tree String β) (done : List Ends) (tree : Tree String β) : Prop where
  moved : ∀ d ∈ done, tree.content d.2 = vault.content d.1
  others : ∀ p, (∀ d ∈ done, d.2 ≠ p) → ((∃ d ∈ done, d.1 = p) → tree.content p = none) ∧
    ((∀ d ∈ done, d.1 ≠ p) → tree.content p = vault.content p)
  free : ∀ p, vault.entry p = none → (tree.entry p = none ↔ ∀ d ∈ done, ¬ p <+: d.2)
  contents : tree.contents.Perm vault.contents

def renameEnds : Tree String β → List Ends → Except (VaultError × Tree String β) (Tree String β)
  | tree, [] => .ok tree
  | tree, e :: rest =>
    match renameAt tree e.1 e.2 with
    | .error failure => .error failure
    | .ok renamed => renameEnds renamed rest

variable {vault tree tree' final : Tree String β} {done rest : List Ends} {e : Ends}

theorem prefix_dropLast_iff {p q : NotePath} (hq : q ≠ []) : p <+: q.dropLast ↔ p <+: q ∧ p ≠ q := by
  constructor
  · intro h
    refine ⟨h.trans (List.dropLast_prefix q), ?_⟩
    rintro rfl
    have hlen := h.length_le
    have hpos := List.length_pos_of_ne_nil hq
    rw [List.length_dropLast] at hlen
    omega
  · rintro ⟨⟨r, rfl⟩, hne⟩
    have hr : r ≠ [] := by
      rintro rfl
      exact hne (List.append_nil p).symm
    rw [List.dropLast_append_of_ne_nil hr]
    exact List.prefix_append p _

theorem Safe.ne (hs : Safe vault e) : e.1 ≠ e.2 := by
  obtain ⟨⟨c, hc⟩, hnone⟩ := hs
  intro heq
  rw [heq, Tree.content_eq_some, hnone] at hc
  simp at hc

/-- A path that nothing was at is not the source of a safe move, and a note is not its destination. -/
theorem Safe.destination_ne {p : NotePath} {c : β} (hs : Safe vault e) (hp : vault.content p = some c) : e.2 ≠ p := by
  rintro rfl
  rw [Tree.content_eq_some, hs.2] at hp
  simp at hp

theorem tracks_start : Tracks vault [] vault where
  moved := fun _ h => by cases h
  others := fun p _ => ⟨fun ⟨_, h, _⟩ => (nomatch h), fun _ => rfl⟩
  free := fun p hp => ⟨fun _ _ h => (nomatch h), fun _ => hp⟩
  contents := .refl _

/-! ## Clean renames -/

/-- On a tree that is known, a rename is clean exactly if the move is clear. -/
theorem Tracks.clean_iff (ht : Tracks vault done tree) (hdone : ∀ d ∈ done, Safe vault d) (he : Safe vault e) :
    Clean tree e ↔ Clear vault done e := by
  obtain ⟨⟨c, hc⟩, hfree⟩ := he
  have hnil : e.2 ≠ [] := Tree.ne_nil_of_none hfree
  have unmoved : ∀ p c, vault.content p = some c → ∀ d ∈ done, d.2 ≠ p := fun p c hp d hd =>
    (hdone d hd).destination_ne hp
  constructor
  · rintro ⟨⟨c', hc'⟩, hentry, habove⟩
    refine ⟨?_, ?_⟩
    · intro d hd
      have hd1 : d.1 ≠ e.1 := by
        intro heq
        have hgone := (ht.others e.1 (unmoved e.1 c hc)).1 ⟨d, hd, heq⟩
        rw [hgone] at hc'
        simp at hc'
      have hd2 : ¬ e.2 <+: d.2 := (ht.free e.2 hfree).mp hentry d hd
      refine ⟨hd1, ?_, hd2⟩
      intro hpre
      have hne : d.2 ≠ e.2 := by
        intro heq
        exact hd2 (heq ▸ List.prefix_rfl)
      have hnone := habove d.2 ((prefix_dropLast_iff hnil).mpr ⟨hpre, hne⟩)
      obtain ⟨⟨content, hcontent⟩, -⟩ := hdone d hd
      rw [ht.moved d hd, hcontent] at hnone
      simp at hnone
    · intro p content hp hpre
      have hne : p ≠ e.2 := by
        rintro rfl
        rw [Tree.content_eq_some, hfree] at hp
        simp at hp
      have hnone := habove p ((prefix_dropLast_iff hnil).mpr ⟨hpre, hne⟩)
      by_contra hstays
      have hsame := (ht.others p (unmoved p content hp)).2 fun d hd heq => hstays ⟨d, hd, heq⟩
      rw [hsame, hp] at hnone
      simp at hnone
  · rintro ⟨hapart, habove⟩
    refine ⟨⟨c, ?_⟩, ?_, ?_⟩
    · rw [(ht.others e.1 (unmoved e.1 c hc)).2 fun d hd => (hapart d hd).1]
      exact hc
    · exact (ht.free e.2 hfree).mpr fun d hd => (hapart d hd).2.2
    · intro q hq
      obtain ⟨hpre, -⟩ := (prefix_dropLast_iff hnil).mp hq
      have hq2 : ∀ d ∈ done, d.2 ≠ q := by
        rintro d hd rfl
        exact (hapart d hd).2.1 hpre
      by_cases hmoved : ∃ d ∈ done, d.1 = q
      · exact (ht.others q hq2).1 hmoved
      · rw [(ht.others q hq2).2 fun d hd heq => hmoved ⟨d, hd, heq⟩]
        cases hcontent : vault.content q with
        | none => rfl
        | some content => exact absurd (habove q content hcontent hpre) hmoved

/-- What a clean rename does. -/
theorem renameAt_clean (hclean : Clean tree e) : ∃ (made : Tree String β) (c : β), tree.content e.1 = some c ∧
    (∀ q, made.entry q = if q <+: e.2.dropLast ∧ tree.entry q = none then some .dir else tree.entry q) ∧
    made.contents = tree.contents ∧ renameAt tree e.1 e.2 = .ok (made.renameFile e.1 e.2 c) := by
  obtain ⟨⟨c, hc⟩, hfree, habove⟩ := hclean
  have hmade := Tree.mkdirs_eq habove
  obtain ⟨-, hentry, hcontents⟩ := Tree.mkdirs_ok hmade
  have hnil : e.2 ≠ [] := Tree.ne_nil_of_none hfree
  have hsource : (e.2.dropLast.inits.foldl Tree.ensureDir tree).entry e.1 = some (.file c) := by
    rw [hentry, Tree.content_eq_some.mp hc, if_neg (fun h => (nomatch h.2))]
  have hdestination : (e.2.dropLast.inits.foldl Tree.ensureDir tree).entry e.2 = none := by
    rw [hentry, if_neg]
    · exact hfree
    · rintro ⟨hpre, -⟩
      exact ((prefix_dropLast_iff hnil).mp hpre).2 rfl
  refine ⟨_, c, hc, hentry, hcontents, ?_⟩
  unfold renameAt
  rw [hmade]
  simp only
  rw [Tree.replace_file hsource hdestination]

theorem content_of_entry {made : Tree String β} {q : NotePath}
    (h : made.entry q = if q <+: e.2.dropLast ∧ tree.entry q = none then some .dir else tree.entry q) :
    made.content q = tree.content q := by
  unfold Tree.content
  rw [h]
  split
  · rename_i hnew
    rw [hnew.2]
    rfl
  · rfl

/-- After a clean rename the tree is known again. -/
theorem Tracks.step (ht : Tracks vault done tree) (hdone : ∀ d ∈ done, Safe vault d) (he : Safe vault e)
    (hclear : Clear vault done e) : ∃ renamed, renameAt tree e.1 e.2 = .ok renamed ∧
      Tracks vault (done ++ [e]) renamed := by
  have hclean := (ht.clean_iff hdone he).mpr hclear
  obtain ⟨made, c, hc, hentry, hcontents, hrename⟩ := renameAt_clean hclean
  obtain ⟨⟨c₀, hc₀⟩, hfree⟩ := he
  have hnil1 : e.1 ≠ [] := Tree.ne_nil_of_content (Tree.content_eq_some.mp hc)
  have hnil2 : e.2 ≠ [] := Tree.ne_nil_of_none hfree
  have hsource : tree.content e.1 = vault.content e.1 :=
    (ht.others e.1 fun d hd => (hdone d hd).destination_ne hc₀).2 fun d hd => (hclear.1 d hd).1
  have hplace : ∀ q, (made.renameFile e.1 e.2 c).content q =
      if q = e.2 then some c else if q = e.1 then none else tree.content q := by
    intro q
    unfold Tree.content
    rw [Tree.entry_renameFile hnil1 hnil2]
    split
    · rfl
    · split
      · rfl
      · exact content_of_entry (hentry q)
  refine ⟨_, hrename, ?_, ?_, ?_, ?_⟩
  · intro d hd
    rw [hplace]
    obtain hd | hd := List.mem_append.mp hd
    · have hd2 : d.2 ≠ e.2 := fun heq => (hclear.1 d hd).2.1 (heq ▸ List.prefix_rfl)
      rw [if_neg hd2, if_neg ((hdone d hd).destination_ne hc₀)]
      exact ht.moved d hd
    · rw [List.mem_singleton.mp hd, if_pos rfl, ← hsource, hc]
  · intro p hp
    have hpe : p ≠ e.2 := fun heq => hp e (by simp) heq.symm
    have hpd : ∀ d ∈ done, d.2 ≠ p := fun d hd => hp d (List.mem_append_left _ hd)
    rw [hplace, if_neg hpe]
    by_cases hps : p = e.1
    · rw [if_pos hps]
      exact ⟨fun _ => rfl, fun h => absurd hps.symm (h e (by simp))⟩
    · rw [if_neg hps]
      refine ⟨?_, ?_⟩
      · rintro ⟨d, hd, hdp⟩
        obtain hd | hd := List.mem_append.mp hd
        · exact (ht.others p hpd).1 ⟨d, hd, hdp⟩
        · rw [List.mem_singleton.mp hd] at hdp
          exact absurd hdp.symm hps
      · intro h
        exact (ht.others p hpd).2 fun d hd => h d (List.mem_append_left _ hd)
  · intro p hp
    have hps : p ≠ e.1 := by
      rintro rfl
      rw [Tree.content_eq_some, hp] at hc₀
      simp at hc₀
    rw [Tree.entry_renameFile hnil1 hnil2]
    by_cases hpe : p = e.2
    · rw [if_pos hpe]
      constructor
      · intro h
        simp at h
      · intro h
        exact absurd (hpe ▸ List.prefix_rfl) (h e (by simp))
    · rw [if_neg hpe, if_neg hps, hentry]
      have hbelow : p <+: e.2.dropLast ↔ p <+: e.2 := by
        rw [prefix_dropLast_iff hnil2]
        exact and_iff_left hpe
      have hold := ht.free p hp
      constructor
      · intro h d hd
        split at h
        · simp at h
        · rename_i hnew
          obtain hd | hd := List.mem_append.mp hd
          · exact hold.mp h d hd
          · rw [List.mem_singleton.mp hd]
            exact fun hpre => hnew ⟨hbelow.mpr hpre, h⟩
      · intro h
        have hnone := hold.mpr fun d hd => h d (List.mem_append_left _ hd)
        rw [if_neg fun hnew => h e (by simp) (hbelow.mp hnew.1)]
        exact hnone
  · have hsrc : made.entry e.1 = some (.file c) := by
      rw [← Tree.content_eq_some, content_of_entry (hentry e.1)]
      exact hc
    have hdst : made.entry e.2 = none := by
      rw [hentry, if_neg]
      · exact hclean.2.1
      · rintro ⟨hpre, -⟩
        exact ((prefix_dropLast_iff hnil2).mp hpre).2 rfl
    have hperm := Tree.contents_renameFile hsrc hdst
    rw [hcontents] at hperm
    exact hperm.trans ht.contents

/-- Orderly moves are all carried out. -/
theorem renameEnds_orderly (ht : Tracks vault done tree) (hdone : ∀ d ∈ done, Safe vault d)
    (hrest : ∀ d ∈ rest, Safe vault d) (horder : Orderly vault done rest) :
    ∃ renamed, renameEnds tree rest = .ok renamed ∧ Tracks vault (done ++ rest) renamed := by
  induction rest generalizing done tree with
  | nil => exact ⟨tree, rfl, by rwa [List.append_nil]⟩
  | cons e rest ih =>
    obtain ⟨hclear, horder⟩ := horder
    have he := hrest e List.mem_cons_self
    obtain ⟨renamed, hrename, hnext⟩ := ht.step hdone he hclear
    have hdone' : ∀ d ∈ done ++ [e], Safe vault d := by
      intro d hd
      obtain hd | hd := List.mem_append.mp hd
      · exact hdone d hd
      · rw [List.mem_singleton.mp hd]
        exact he
    obtain ⟨final, hfinal, htracks⟩ := ih hnext hdone' (fun d hd => hrest d (List.mem_cons_of_mem e hd)) horder
    refine ⟨final, ?_, ?_⟩
    · unfold renameEnds
      rw [hrename]
      exact hfinal
    · rwa [List.append_assoc] at htracks

/-! ## Renames that are not clean -/

/-- What a rename did when it did not fail. -/
theorem renameAt_ok {renamed : Tree String β} (h : renameAt tree e.1 e.2 = .ok renamed) :
    ∃ made, tree.mkdirs e.2.dropLast = .ok made ∧
      ((∃ c, made.entry e.1 = some (.file c) ∧ made.entry e.2 ≠ some .dir ∧ renamed = made.renameFile e.1 e.2 c) ∨
        (made.entry e.1 = some .dir ∧ renamed.entry e.2 = some .dir ∧ renamed = made.renameDir e.1 e.2)) := by
  unfold renameAt at h
  split at h
  · simp at h
  · rename_i made hmade
    split at h
    · simp at h
    · rename_i hreplace
      cases h
      exact ⟨made, hmade, Tree.replace_ok hreplace⟩

theorem renameEnds_cons (h : renameEnds tree (e :: rest) = .ok final) :
    ∃ renamed, renameAt tree e.1 e.2 = .ok renamed ∧ renameEnds renamed rest = .ok final := by
  rw [renameEnds] at h
  split at h
  · simp at h
  · rename_i renamed hrename
    exact ⟨renamed, hrename, h⟩

/-- No rename makes a file. -/
theorem renameAt_contents {renamed : Tree String β} (hne : e.1 ≠ e.2) (h : renameAt tree e.1 e.2 = .ok renamed) :
    renamed.contents.length ≤ tree.contents.length := by
  obtain ⟨made, hmade, hfile | hdir⟩ := renameAt_ok h
  · obtain ⟨c, hsource, hdestination, rfl⟩ := hfile
    obtain ⟨-, -, hcontents⟩ := Tree.mkdirs_ok hmade
    rw [← hcontents]
    cases hentry : made.entry e.2 with
    | none => exact (Tree.contents_renameFile hsource hentry).length_eq.le
    | some node =>
      cases node with
      | dir => exact absurd hentry hdestination
      | file d =>
        have hlost := Tree.contents_renameFile_onto hsource hentry (Ne.symm hne)
        omega
  · obtain ⟨-, -, rfl⟩ := hdir
    obtain ⟨-, -, hcontents⟩ := Tree.mkdirs_ok hmade
    rw [← hcontents]
    exact Tree.contents_renameDir

theorem renameEnds_contents (hne : ∀ d ∈ rest, d.1 ≠ d.2) (h : renameEnds tree rest = .ok final) :
    final.contents.length ≤ tree.contents.length := by
  induction rest generalizing tree with
  | nil =>
    cases h
    exact le_rfl
  | cons e rest ih =>
    obtain ⟨renamed, hrename, hrest⟩ := renameEnds_cons h
    have hfirst := renameAt_contents (hne e List.mem_cons_self) hrename
    have hlater := ih (fun d hd => hne d (List.mem_cons_of_mem e hd)) hrest
    exact le_trans hlater hfirst

/-- When every destination ends as a file, no directory is renamed, and every directory stays. -/
theorem renameEnds_dir {p : NotePath} (h : renameEnds tree rest = .ok final)
    (hfiles : ∀ d ∈ rest, ∃ c, final.content d.2 = some c) (hp : tree.entry p = some .dir) :
    final.entry p = some .dir := by
  induction rest generalizing tree p with
  | nil =>
    cases h
    exact hp
  | cons e rest ih =>
    obtain ⟨renamed, hrename, hrest⟩ := renameEnds_cons h
    have hlater : ∀ q, renamed.entry q = some .dir → final.entry q = some .dir := fun q =>
      ih hrest fun d hd => hfiles d (List.mem_cons_of_mem e hd)
    obtain ⟨made, hmade, hfile | hdir⟩ := renameAt_ok hrename
    · obtain ⟨c, hsource, hdestination, rfl⟩ := hfile
      obtain ⟨-, hentry, -⟩ := Tree.mkdirs_ok hmade
      have hkept : made.entry p = some .dir := by
        rw [hentry, hp, if_neg fun hnew => (nomatch hnew.2)]
      have hpd : p ≠ e.2 := by
        rintro rfl
        exact hdestination hkept
      have hps : p ≠ e.1 := by
        rintro rfl
        rw [hkept] at hsource
        simp at hsource
      apply hlater
      by_cases hnil : e.2 = []
      · rw [hnil] at hdestination
        exact absurd Tree.entry_nil hdestination
      · rw [Tree.entry_renameFile (Tree.ne_nil_of_content hsource) hnil, if_neg hpd, if_neg hps]
        exact hkept
    · -- the destination would stay a directory
      obtain ⟨-, hdestination, -⟩ := hdir
      obtain ⟨c, hc⟩ := hfiles e List.mem_cons_self
      rw [Tree.content_eq_some, hlater e.2 hdestination] at hc
      simp at hc

/-- Renames that lose no content and leave a file at every destination are orderly. -/
theorem orderly_of_renameEnds (ht : Tracks vault done tree) (hdone : ∀ d ∈ done, Safe vault d)
    (hrest : ∀ d ∈ rest, Safe vault d) (h : renameEnds tree rest = .ok final)
    (hfiles : ∀ d ∈ rest, ∃ c, final.content d.2 = some c)
    (hcount : final.contents.length = vault.contents.length) : Orderly vault done rest := by
  induction rest generalizing done tree with
  | nil => trivial
  | cons e rest ih =>
    have he := hrest e List.mem_cons_self
    have hrest' : ∀ d ∈ rest, Safe vault d := fun d hd => hrest d (List.mem_cons_of_mem e hd)
    have hfiles' : ∀ d ∈ rest, ∃ c, final.content d.2 = some c := fun d hd => hfiles d (List.mem_cons_of_mem e hd)
    obtain ⟨renamed, hrename, hlater⟩ := renameEnds_cons h
    have hclean : Clean tree e := by
      obtain ⟨made, hmade, hfile | hdir⟩ := renameAt_ok hrename
      · obtain ⟨c, hsource, hdestination, hrenamed⟩ := hfile
        obtain ⟨habove, hentry, hcontents⟩ := Tree.mkdirs_ok hmade
        refine ⟨⟨c, ?_⟩, ?_, habove⟩
        · rw [← content_of_entry (hentry e.1)]
          exact Tree.content_eq_some.mpr hsource
        · cases hfound : made.entry e.2 with
          | none =>
            rw [hentry] at hfound
            split at hfound
            · simp at hfound
            · exact hfound
          | some node =>
            cases node with
            | dir => exact absurd hfound hdestination
            | file d =>
              -- a moved note is replaced, and nothing makes up for it
              have hlost := Tree.contents_renameFile_onto hsource hfound (Ne.symm he.ne)
              have hless := renameEnds_contents (fun d hd => (hrest' d hd).ne) hlater
              have hbefore := ht.contents.length_eq
              rw [← hrenamed, hcontents] at hlost
              omega
      · obtain ⟨-, hdestination, -⟩ := hdir
        obtain ⟨c, hc⟩ := hfiles e List.mem_cons_self
        rw [Tree.content_eq_some, renameEnds_dir hlater hfiles' hdestination] at hc
        simp at hc
    have hclear := (ht.clean_iff hdone he).mp hclean
    obtain ⟨renamed', hrename', hnext⟩ := ht.step hdone he hclear
    rw [hrename] at hrename'
    cases hrename'
    have hdone' : ∀ d ∈ done ++ [e], Safe vault d := by
      intro d hd
      obtain hd | hd := List.mem_append.mp hd
      · exact hdone d hd
      · rw [List.mem_singleton.mp hd]
        exact he
    exact ⟨hclear, ih hnext hdone' hrest' hlater hfiles'⟩

/-- The tree that the renames leave, whether they fail or not. -/
def treeLeft : Except (VaultError × Tree String β) (Tree String β) → Tree String β
  | .ok t => t
  | .error failure => failure.2

/-- Where there is no file and no destination at or above, no file appears. -/
theorem renameAt_absent {p : NotePath} (hp : tree.content p = none) (habove : ¬ e.2 <+: p) :
    (treeLeft (renameAt tree e.1 e.2)).content p = none := by
  cases hmade : tree.mkdirs e.2.dropLast with
  | error failure =>
    unfold renameAt
    rw [hmade]
    exact hp
  | ok made =>
    obtain ⟨-, hentry, -⟩ := Tree.mkdirs_ok hmade
    have hpm : made.content p = none := by
      rw [content_of_entry (hentry p)]
      exact hp
    cases hrename : renameAt tree e.1 e.2 with
    | error failure =>
      unfold renameAt at hrename
      rw [hmade] at hrename
      simp only at hrename
      split at hrename
      · cases hrename
        exact hpm
      · simp at hrename
    | ok renamed =>
      show renamed.content p = none
      obtain ⟨made', hmade', hfile | hdir⟩ := renameAt_ok hrename
      · rw [hmade] at hmade'
        cases hmade'
        obtain ⟨c, hsource, hdestination, rfl⟩ := hfile
        by_cases hnil : e.2 = []
        · rw [hnil] at habove
          exact absurd List.nil_prefix habove
        · have hpd : p ≠ e.2 := by
            rintro rfl
            exact habove List.prefix_rfl
          unfold Tree.content
          rw [Tree.entry_renameFile (Tree.ne_nil_of_content hsource) hnil, if_neg hpd]
          split
          · rfl
          · exact hpm
      · rw [hmade] at hmade'
        cases hmade'
        obtain ⟨-, -, rfl⟩ := hdir
        by_contra hfound
        obtain ⟨c, hc⟩ := Option.ne_none_iff_exists'.mp hfound
        rw [Tree.content_renameDir habove hc] at hpm
        simp at hpm

theorem renameEnds_absent {p : NotePath} (hp : tree.content p = none) (habove : ∀ d ∈ rest, ¬ d.2 <+: p) :
    (treeLeft (renameEnds tree rest)).content p = none := by
  induction rest generalizing tree with
  | nil => exact hp
  | cons e rest ih =>
    have hfirst := renameAt_absent hp (habove e List.mem_cons_self)
    rw [renameEnds]
    cases hrename : renameAt tree e.1 e.2 with
    | error failure =>
      rw [hrename] at hfirst
      exact hfirst
    | ok renamed =>
      rw [hrename] at hfirst
      exact ih hfirst fun d hd => habove d (List.mem_cons_of_mem e hd)

end Renames

end Alexandria.Vault
