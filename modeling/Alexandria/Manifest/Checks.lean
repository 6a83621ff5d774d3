import Alexandria.Manifest.Validation

/-! # The checks on single candidates

What the screening keeps, and which Contexts fail the checks on their own two references: of the Contexts that may
replace a target the first in the manifest does, and a backlink needs the forward reference it answers.
-/

namespace Alexandria.Manifest
set_option autoImplicit false

open Compile

/-! ## Screening -/

/-- The candidates kept so far differ in id, and the Contexts among them in identity. -/
structure Screened (collidingPaths : List String) (state : Screening) : Prop where
  ids : (state.valid.map fun entry => entry.1.noteId).Nodup
  idsKnown : ∀ entry ∈ state.valid, entry.1.noteId ∈ state.notePathsById
  identities : (((state.valid.map (·.1)).filter (·.isContext)).map (·.identity)).Nodup
  identitiesKnown : ∀ entry ∈ state.valid, entry.1.isContext = true → entry.1.identity ∈ state.contextPathsBySignature
  paths : ∀ entry ∈ state.valid, entry.1.canonicalRelativePath ∉ collidingPaths

section Screen
variable {collidingPaths : List String} {state : Screening} {entry : Candidate × ℕ}

theorem Screened.empty (collidingPaths : List String) : Screened collidingPaths ⟨[], ∅, ∅, []⟩ :=
  ⟨List.nodup_nil, by simp, List.nodup_nil, by simp, by simp⟩

/-- More ids may be known. -/
theorem Screened.weaken (h : Screened collidingPaths state) (issues : List Issue) (ids : AList fun _ : String => String)
    (hids : ∀ id ∈ state.notePathsById, id ∈ ids) :
    Screened collidingPaths { state with issues, notePathsById := ids } :=
  ⟨h.ids, fun e he => hids _ (h.idsKnown e he), h.identities, h.identitiesKnown, h.paths⟩

theorem Screened.keep (h : Screened collidingPaths state) (hpath : entry.1.canonicalRelativePath ∉ collidingPaths)
    (hid : entry.1.noteId ∉ state.notePathsById) (signatures : AList fun _ : ContextReindexIdentity => String)
    (hknown : ∀ identity ∈ state.contextPathsBySignature, identity ∈ signatures)
    (hidentity : entry.1.isContext = true →
      entry.1.identity ∉ state.contextPathsBySignature ∧ entry.1.identity ∈ signatures) :
    Screened collidingPaths { state with
      notePathsById := state.notePathsById.insert entry.1.noteId entry.1.relativePath
      contextPathsBySignature := signatures, valid := state.valid ++ [entry] } := by
  refine ⟨?_, ?_, ?_, ?_, ?_⟩
  · rw [List.map_append, List.nodup_append]
    refine ⟨h.ids, List.nodup_singleton _, ?_⟩
    intro a ha b hb hab
    obtain ⟨e, he, rfl⟩ := List.mem_map.mp ha
    rw [List.map_singleton, List.mem_singleton] at hb
    rw [hb] at hab
    exact hid (hab ▸ h.idsKnown e he)
  · intro e he
    obtain he | he := List.mem_append.mp he
    · exact (AList.mem_insert _).mpr (.inr (h.idsKnown e he))
    · rw [List.mem_singleton.mp he]
      exact (AList.mem_insert _).mpr (.inl rfl)
  · rw [List.map_append, List.filter_append, List.map_append, List.nodup_append]
    refine ⟨h.identities, ?_, ?_⟩
    · rw [List.map_singleton, List.filter_singleton]
      cases entry.1.isContext <;> simp
    · intro a ha b hb hab
      obtain ⟨c, hc, rfl⟩ := List.mem_map.mp ha
      obtain ⟨hc, hctx⟩ := List.mem_filter.mp hc
      obtain ⟨e, he, rfl⟩ := List.mem_map.mp hc
      obtain ⟨d, hd, rfl⟩ := List.mem_map.mp hb
      rw [List.map_singleton, List.mem_filter, List.mem_singleton] at hd
      obtain ⟨rfl, hentry⟩ := hd
      exact (hidentity hentry).1 (hab ▸ h.identitiesKnown e he hctx)
  · intro e he hctx
    obtain he | he := List.mem_append.mp he
    · exact hknown _ (h.identitiesKnown e he hctx)
    · obtain rfl := List.mem_singleton.mp he
      exact (hidentity hctx).2
  · intro e he
    obtain he | he := List.mem_append.mp he
    · exact h.paths e he
    · rw [List.mem_singleton.mp he]
      exact hpath

theorem screenOne_screened (h : Screened collidingPaths state) : Screened collidingPaths (screenOne collidingPaths state entry) := by
  unfold screenOne
  simp only
  split
  · exact h.weaken _ _ fun _ hid => hid
  · rename_i hpath
    split
    · exact h.weaken _ _ fun _ hid => hid
    · rename_i hnone
      have hid : entry.1.noteId ∉ state.notePathsById := AList.lookup_eq_none.mp hnone
      split
      · split
        · exact h.weaken _ _ fun id hmem => (AList.mem_insert _).mpr (.inr hmem)
        · rename_i hfresh
          refine h.keep hpath hid _ (fun identity hmem => (AList.mem_insert _).mpr (.inr hmem)) ?_
          intro _
          exact ⟨AList.lookup_eq_none.mp hfresh, (AList.mem_insert _).mpr (.inl rfl)⟩
      · rename_i hctx
        refine h.keep hpath hid _ (fun _ hmem => hmem) ?_
        intro htrue
        exact absurd htrue hctx

variable (collidingPaths state entry) in
theorem screenOne_valid : (screenOne collidingPaths state entry).valid = state.valid ∨
    (screenOne collidingPaths state entry).valid = state.valid ++ [entry] := by
  unfold screenOne
  simp only
  split
  · exact .inl rfl
  · split
    · exact .inl rfl
    · split
      · split
        · exact .inl rfl
        · exact .inr rfl
      · exact .inr rfl

theorem foldl_screenOne (entries : List (Candidate × ℕ)) (h : Screened collidingPaths state) :
    Screened collidingPaths (entries.foldl (screenOne collidingPaths) state) ∧
      ∃ kept, kept.Sublist entries ∧ (entries.foldl (screenOne collidingPaths) state).valid = state.valid ++ kept := by
  induction entries generalizing state with
  | nil => exact ⟨h, [], List.Sublist.refl _, (List.append_nil _).symm⟩
  | cons entry rest ih =>
    obtain ⟨hscreened, kept, hsub, hvalid⟩ := ih (screenOne_screened h)
    refine ⟨hscreened, ?_⟩
    rw [List.foldl_cons, hvalid]
    obtain hsame | hkept := screenOne_valid collidingPaths state entry
    · rw [hsame]
      exact ⟨kept, hsub.cons entry, rfl⟩
    · rw [hkept]
      exact ⟨entry :: kept, hsub.cons_cons entry, List.append_assoc _ _ _⟩

end Screen

theorem screen_screened (candidates : List Candidate) :
    Screened (collidingCanonicalPaths candidates) (screen candidates) ∧
      (screen candidates).valid.Sublist candidates.zipIdx := by
  obtain ⟨hscreened, kept, hsub, hvalid⟩ :=
    foldl_screenOne candidates.zipIdx (Screened.empty (collidingCanonicalPaths candidates))
  refine ⟨hscreened, ?_⟩
  rw [List.nil_append] at hvalid
  exact hvalid ▸ hsub

/-- Candidates whose paths do not collide have different paths. -/
theorem paths_nodup {candidates kept : List Candidate} (hsub : kept.Sublist candidates)
    (h : ∀ c ∈ kept, c.canonicalRelativePath ∉ collidingCanonicalPaths candidates) :
    (kept.map (·.canonicalRelativePath)).Nodup := by
  rw [List.nodup_iff_count_le_one]
  intro path
  by_cases hmem : path ∈ kept.map (·.canonicalRelativePath)
  · obtain ⟨c, hc, rfl⟩ := List.mem_map.mp hmem
    by_contra hcount
    have hle := (hsub.map fun d => d.canonicalRelativePath).count_le c.canonicalRelativePath
    refine h c hc (List.mem_filter.mpr ⟨List.mem_map_of_mem (hsub.mem hc), ?_⟩)
    rw [decide_eq_true_eq]
    omega
  · rw [List.count_eq_zero_of_not_mem hmem]
    exact Nat.zero_le 1

/-! ## A Context's own checks -/

/-- `candidate` may replace the valid Context `target`: that names no other replacement. -/
def claims (contexts : List Candidate) (target : String) (candidate : Candidate) : Bool :=
  candidate.supersedesContextId = some target &&
    (contextAt contexts target).any fun t =>
      t.supersededByContextId = none || t.supersededByContextId = some candidate.noteId

/-- It is the first of the manifest that may replace what it supersedes. -/
def ForwardSound (contexts : List Candidate) (candidate : Candidate) : Prop :=
  ∀ target, candidate.supersedesContextId = some target → contexts.find? (claims contexts target) = some candidate

/-- It passes the checks on its own two references. -/
def OwnSound (contexts : List Candidate) (candidate : Candidate) : Prop :=
  ForwardSound contexts candidate ∧ replacementReason contexts candidate = none

theorem contextAt_eq_some {contexts : List Candidate} (hids : (contexts.map (·.noteId)).Nodup) {id : String}
    {c : Candidate} : contextAt contexts id = some c ↔ c ∈ contexts ∧ c.noteId = id :=
  Keyed.lookup_eq_some hids

theorem claims_iff {contexts : List Candidate} {target : String} {c : Candidate} :
    claims contexts target c = true ↔ c.supersedesContextId = some target ∧ ∃ t, contextAt contexts target = some t ∧
      (t.supersededByContextId = none ∨ t.supersededByContextId = some c.noteId) := by
  unfold claims
  rw [Bool.and_eq_true, decide_eq_true_eq, Option.any_eq_true]
  simp only [Bool.or_eq_true, decide_eq_true_eq]

/-- The state of the check once the Contexts of `done` are through. -/
structure Checked (contexts done : List Candidate) (state : References) : Prop where
  replacements : ∀ target, state.replacementsByTarget.lookup target =
    (done.find? (claims contexts target)).map (·.noteId)
  reasons : ∀ id, id ∈ state.invalidReasons ↔ ∃ c ∈ done, c.noteId = id ∧ ¬ OwnSound contexts c

section Check
variable {contexts done rest : List Candidate} {state : References} {c : Candidate}

/-- The forward check refuses all but the first that may replace the target. -/
theorem targetReason_eq_none (h : Checked contexts done state) :
    targetReason contexts state.replacementsByTarget c = none ↔
      ∀ target, c.supersedesContextId = some target →
        done.find? (claims contexts target) = none ∧ claims contexts target c = true := by
  unfold targetReason
  cases hforward : c.supersedesContextId with
  | none => simp
  | some target =>
    have hlookup := h.replacements target
    simp only [Option.some.injEq, forall_eq']
    rw [hlookup]
    cases htarget : contextAt contexts target with
    | none =>
      have hno : ¬ claims contexts target c = true := by
        intro hclaims
        obtain ⟨-, t, ht, -⟩ := claims_iff.mp hclaims
        rw [htarget] at ht
        simp at ht
      simp [hno]
    | some t =>
      cases hfirst : done.find? (claims contexts target) with
      | some prior => simp
      | none =>
        simp only [Option.map_none, true_and]
        rw [claims_iff, htarget]
        cases hback : t.supersededByContextId with
        | none => simp [hforward, hback]
        | some backlink =>
          by_cases hself : backlink = c.noteId
          · simp [hforward, hback, hself]
          · simp [hself, hback]

theorem forwardSound_iff (hnodup : contexts.Nodup) (hsplit : contexts = done ++ c :: rest) :
    ForwardSound contexts c ↔ ∀ target, c.supersedesContextId = some target →
      done.find? (claims contexts target) = none ∧ claims contexts target c = true := by
  have hnot : c ∉ done := by
    rw [hsplit] at hnodup
    intro hmem
    exact (List.nodup_append.mp hnodup).2.2 c hmem c (List.mem_cons_self ..) rfl
  have hfind : ∀ q : Candidate → Bool, contexts.find? q = (done.find? q).or ((c :: rest).find? q) := by
    intro q
    rw [hsplit]
    exact List.find?_append
  constructor
  · intro h target hforward
    have hfirst := h target hforward
    rw [hfind] at hfirst
    cases hdone : done.find? (claims contexts target) with
    | some prior =>
      rw [hdone, Option.some_or] at hfirst
      obtain rfl := Option.some.inj hfirst
      exact absurd (List.mem_of_find?_eq_some hdone) hnot
    | none =>
      rw [hdone, Option.none_or] at hfirst
      exact ⟨rfl, List.find?_some hfirst⟩
  · intro h target hforward
    obtain ⟨hnone, hclaims⟩ := h target hforward
    rw [hfind, hnone, Option.none_or, List.find?_cons_of_pos hclaims]

/-- A candidate that passes is recorded for the target it names, and for no other. -/
theorem lookup_replacements (h : Checked contexts done state)
    (htarget : targetReason contexts state.replacementsByTarget c = none) (target : String) :
    (match c.supersedesContextId with
      | none => state.replacementsByTarget
      | some target => state.replacementsByTarget.insert target c.noteId).lookup target =
      ((done ++ [c]).find? (claims contexts target)).map (·.noteId) := by
  have hfree := (targetReason_eq_none h).mp htarget
  rw [List.find?_append, List.find?_singleton]
  cases hcase : c.supersedesContextId with
  | none =>
    have hclaims : claims contexts target c = false := by
      rw [Bool.eq_false_iff]
      intro hclaims
      rw [(claims_iff.mp hclaims).1] at hcase
      simp at hcase
    rw [hclaims, h.replacements]
    simp
  | some own =>
    obtain ⟨hnone, hclaims⟩ := hfree own hcase
    by_cases hown : target = own
    · subst hown
      simp [hnone, hclaims]
    · have hother : claims contexts target c = false := by
        rw [Bool.eq_false_iff]
        intro hother
        exact hown (Option.some.inj ((claims_iff.mp hother).1.symm.trans hcase))
      simp only
      rw [AList.lookup_insert_ne hown, h.replacements, hother]
      simp

theorem checkOne_checked (hnodup : contexts.Nodup) (hsplit : contexts = done ++ c :: rest)
    (h : Checked contexts done state) : Checked contexts (done ++ [c]) (checkOne contexts state c) := by
  have hforward := forwardSound_iff hnodup hsplit
  rw [← targetReason_eq_none h] at hforward
  have hreasons : ∀ id, (∃ d ∈ done ++ [c], d.noteId = id ∧ ¬ OwnSound contexts d) ↔
      id ∈ state.invalidReasons ∨ (c.noteId = id ∧ ¬ OwnSound contexts c) := by
    intro id
    rw [h.reasons]
    simp only [List.mem_append, List.mem_singleton, or_and_right, exists_or, exists_eq_left]
  have hrefused : ∀ reason, ¬ OwnSound contexts c → ∀ id, id ∈ state.invalidReasons.insert c.noteId reason ↔
      ∃ d ∈ done ++ [c], d.noteId = id ∧ ¬ OwnSound contexts d := by
    intro reason hown id
    rw [hreasons, AList.mem_insert]
    constructor
    · intro hid
      obtain rfl | hid := hid
      · exact .inr ⟨rfl, hown⟩
      · exact .inl hid
    · intro hid
      obtain hid | ⟨rfl, -⟩ := hid
      · exact .inr hid
      · exact .inl rfl
  unfold checkOne
  cases htarget : targetReason contexts state.replacementsByTarget c with
  | some reason =>
    have hnot : ¬ ForwardSound contexts c := by
      rw [hforward, htarget]
      simp
    refine ⟨?_, hrefused reason fun hown => hnot hown.1⟩
    intro target
    rw [h.replacements, List.find?_append, List.find?_singleton]
    -- a refused claim is behind the first one, or is none
    cases hdone : done.find? (claims contexts target) with
    | some prior => rfl
    | none =>
      have hclaims : claims contexts target c = false := by
        rw [Bool.eq_false_iff]
        intro hclaims
        refine hnot (hforward.mpr ((targetReason_eq_none h).mpr ?_))
        intro other hother
        obtain rfl := Option.some.inj ((claims_iff.mp hclaims).1.symm.trans hother)
        exact ⟨hdone, hclaims⟩
      rw [hclaims]
      rfl
  | none =>
    have hsound : ForwardSound contexts c := hforward.mpr htarget
    have hreplacements := lookup_replacements h htarget
    simp only
    cases hback : replacementReason contexts c with
    | none =>
      refine ⟨hreplacements, ?_⟩
      intro id
      rw [hreasons]
      simp [OwnSound, hsound, hback]
    | some reason =>
      refine ⟨hreplacements, hrefused reason ?_⟩
      intro hown
      rw [hown.2] at hback
      simp at hback

theorem foldl_checkOne (hnodup : contexts.Nodup) (hsplit : contexts = done ++ rest)
    (h : Checked contexts done state) : Checked contexts contexts (rest.foldl (checkOne contexts) state) := by
  induction rest generalizing done state with
  | nil =>
    rw [List.append_nil] at hsplit
    exact hsplit ▸ h
  | cons c rest ih =>
    refine ih ?_ (checkOne_checked hnodup hsplit h)
    rw [hsplit, List.append_assoc, List.singleton_append]

end Check

/-- The first reasons are those of the Contexts that fail their own checks. -/
theorem mem_checkReferences {contexts : List Candidate} (hnodup : contexts.Nodup) (id : String) :
    id ∈ (checkReferences contexts).invalidReasons ↔ ∃ c ∈ contexts, c.noteId = id ∧ ¬ OwnSound contexts c := by
  have hstart : Checked contexts [] ⟨∅, ∅⟩ := ⟨fun _ => rfl, by simp⟩
  exact (foldl_checkOne hnodup rfl hstart).reasons id

end Alexandria.Manifest
