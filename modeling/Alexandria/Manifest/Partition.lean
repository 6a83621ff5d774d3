import Alexandria.Manifest.InputOrder

/-! # Accepted and reported candidates

Each candidate is accepted or has one issue. A Context that is rejected for another one's sake is reported with the Context
it supersedes, of which there is one: so the order in which the rejections spread does not show.
-/

namespace Alexandria.Manifest
set_option autoImplicit false

open Compile Successor

/-! ## Reasons that spread -/

/-- The reason of a Context whose forward reference names a rejected one. -/
def targetRejected (target : String) : String := s!"superseded Context is absent or invalid: {target}"

section Spread
variable {contexts : List Candidate}

theorem rejectAll_new (target : String) (ids : List String) (reasons : Reasons) {id : String} (hnew : id ∉ reasons)
    (h : id ∈ (rejectAll target ids reasons).1) :
    id ∈ ids ∧ (rejectAll target ids reasons).1.lookup id = some (targetRejected target) := by
  induction ids generalizing reasons with
  | nil => exact absurd h hnew
  | cons first rest ih =>
    unfold rejectAll at h ⊢
    split at h
    · rename_i hin
      rw [if_pos hin]
      obtain ⟨hid, hlookup⟩ := ih reasons hnew h
      exact ⟨List.mem_cons_of_mem first hid, hlookup⟩
    · rename_i hout
      rw [if_neg hout]
      dsimp only at h ⊢
      by_cases hfirst : id = first
      · subst hfirst
        refine ⟨List.mem_cons_self, ?_⟩
        rw [rejectAll_lookup _ _ _ ((AList.mem_insert _).mpr (.inl rfl)), AList.lookup_insert]
        rfl
      · obtain ⟨hid, hlookup⟩ := ih _ (fun hin => ((AList.mem_insert _).mp hin).elim hfirst hnew) h
        exact ⟨List.mem_cons_of_mem first hid, hlookup⟩

/-- What is settled had a reason from the start, or is reported with the Context it supersedes. -/
def Explained (contexts : List Candidate) (start reasons : Reasons) : Prop :=
  ∀ id ∈ reasons, id ∈ start ∨
    ∃ target, superseded contexts id = some target ∧ reasons.lookup id = some (targetRejected target)

theorem Explained.reject (hids : (contexts.map (·.noteId)).Nodup) {start reasons : Reasons}
    (h : Explained contexts start reasons) (target : String) :
    Explained contexts start (rejectAll target (predecessors contexts target) reasons).1 := by
  intro id hid
  by_cases hold : id ∈ reasons
  · rw [rejectAll_lookup _ _ _ hold]
    exact h id hold
  · obtain ⟨hpredecessor, hlookup⟩ := rejectAll_new _ _ _ hold hid
    exact .inr ⟨target, (mem_predecessors hids).mp hpredecessor, hlookup⟩

theorem propagate_explained (hids : (contexts.map (·.noteId)).Nodup) {start : Reasons} (fuel : ℕ) (queue : List String)
    {reasons settled : Reasons} (h : Explained contexts start reasons)
    (hsettled : propagate contexts fuel queue reasons = some settled) : Explained contexts start settled := by
  induction fuel generalizing queue reasons with
  | zero => cases hsettled
  | succ fuel ih =>
    cases queue with
    | nil =>
      cases hsettled
      exact h
    | cons target queue => exact ih _ (h.reject hids target) hsettled

/-- A rejected Context without a first reason is reported with the Context it supersedes. -/
theorem lookup_spread (order : KeyOrder) (hids : (contexts.map (·.noteId)).Nodup) {cyclic : List String}
    (hcyclic : ∀ id, id ∈ cyclic ↔ OnCycle (superseded contexts) id) {reasons : Reasons}
    (hreasons : invalidSupersedeReasons order contexts = some reasons) {id : String} (hid : id ∈ reasons)
    (hfirst : firstReason contexts cyclic id = none) :
    ∃ target, superseded contexts id = some target ∧ reasons.lookup id = some (targetRejected target) := by
  obtain ⟨found, hfound, hcycle⟩ := cyclicSupersedeIds_spec contexts
  unfold invalidSupersedeReasons propagateInvalidTargets at hreasons
  rw [hfound] at hreasons
  obtain hstart | hspread := propagate_explained hids _ _ (fun id hid => .inl hid) hreasons id hid
  · have hlookup := lookup_cyclic found (checkReferences contexts).invalidReasons id
    have hsame : id ∈ found ↔ id ∈ cyclic := by rw [hcycle, hcyclic]
    simp only [hsame] at hlookup
    exact absurd hstart (AList.lookup_eq_none.mp (hlookup.trans hfirst))
  · exact hspread

/-- The reasons do not depend on the order in which a map yields its keys. -/
theorem reasons_order (order order' : KeyOrder) (hids : (contexts.map (·.noteId)).Nodup) : ∃ reasons reasons',
    invalidSupersedeReasons order contexts = some reasons ∧ invalidSupersedeReasons order' contexts = some reasons' ∧
      ∀ id, reasons.lookup id = reasons'.lookup id := by
  obtain ⟨cyclic, reasons, hcyclic, hreasons, hkept, -⟩ := invalidSupersedeReasons_first order hids
  obtain ⟨cyclic', reasons', hcyclic', hreasons', hkept', -⟩ := invalidSupersedeReasons_first order' hids
  refine ⟨reasons, reasons', hreasons, hreasons', fun id => ?_⟩
  have hfirst : firstReason contexts cyclic' id = firstReason contexts cyclic id := by
    have hsame : id ∈ cyclic' ↔ id ∈ cyclic := by rw [hcyclic, hcyclic']
    unfold firstReason
    simp only [hsame]
  have hsame : id ∈ reasons ↔ id ∈ reasons' := by rw [mem_reasons_iff order hids hreasons, mem_reasons_iff order' hids hreasons']
  by_cases hid : id ∈ reasons
  · by_cases hnone : firstReason contexts cyclic id = none
    · obtain ⟨target, hnext, hlookup⟩ := lookup_spread order hids hcyclic hreasons hid hnone
      obtain ⟨target', hnext', hlookup'⟩ := lookup_spread order' hids hcyclic' hreasons' (hsame.mp hid) (hfirst.trans hnone)
      obtain rfl := Option.some.inj (hnext.symm.trans hnext')
      rw [hlookup, hlookup']
    · rw [hkept id hnone, hkept' id (by rwa [hfirst]), hfirst]
  · rw [AList.lookup_eq_none.mpr hid, AList.lookup_eq_none.mpr fun hid' => hid (hsame.mpr hid')]

end Spread

/-! ## The two lists -/

/-- The candidate's own links are inconsistent, or it lies on a cycle. -/
def Faulty (contexts : List Candidate) (id : String) : Prop :=
  (∃ c ∈ contexts, c.noteId = id ∧ ¬ OwnSound contexts c) ∨ OnCycle (superseded contexts) id

/-- The issue is about a reference. -/
def SupersedeIssue (found : Issue) : Prop := ∃ reason : String, found.message = s!"INVALID_SUPERSEDE: {reason}"

/-- The issue is that of the candidate; one about its references has a cause to which the chain of these leads. -/
def Reports (candidates : List Candidate) (candidate : Candidate) (found : Issue) : Prop :=
  found.relativePath = candidate.relativePath ∧ found.contextId = candidate.noteId ∧
    (SupersedeIssue found → ∃ origin, Faulty (validContexts candidates) origin ∧
      Reaches (superseded (validContexts candidates)) candidate.noteId origin)

section Lists
variable {candidates : List Candidate}

theorem not_supersedeIssue {found : Issue} (h : found.message.toList.head? = some 'D') : ¬ SupersedeIssue found := by
  rintro ⟨reason, hreason⟩
  have hhead : found.message.toList.head? = some 'I' := by
    rw [hreason, String.toList_append]
    rfl
  rw [h] at hhead
  exact absurd hhead (by decide)

theorem Reports.duplicate (candidates : List Candidate) (candidate : Candidate) {message : String}
    (h : message.toList.head? = some 'D') : Reports candidates candidate (issue candidate message) :=
  ⟨rfl, rfl, fun hissue => absurd hissue (not_supersedeIssue h)⟩

/-- The screening keeps an entry or reports it. -/
theorem screenOne_reports (candidates : List Candidate) (collidingPaths : List String) (state : Screening)
    (entry : Candidate × ℕ) :
    ((screenOne collidingPaths state entry).valid = state.valid ++ [entry] ∧
        (screenOne collidingPaths state entry).issues = state.issues) ∨
      ((screenOne collidingPaths state entry).valid = state.valid ∧
        ∃ found, (screenOne collidingPaths state entry).issues = state.issues ++ [found] ∧
          Reports candidates entry.1 found) := by
  unfold screenOne
  dsimp only
  split
  · refine .inr ⟨rfl, _, rfl, Reports.duplicate candidates entry.1 ?_⟩
    rw [String.toList_append]
    rfl
  · split
    · refine .inr ⟨rfl, _, rfl, Reports.duplicate candidates entry.1 ?_⟩
      rw [String.toList_append, String.toList_append, String.toList_append]
      rfl
    · split
      · split
        · refine .inr ⟨rfl, _, rfl, Reports.duplicate candidates entry.1 ?_⟩
          rw [String.toList_append]
          rfl
        · exact .inl ⟨rfl, rfl⟩
      · exact .inl ⟨rfl, rfl⟩

theorem foldl_screenOne_reports (candidates : List Candidate) (collidingPaths : List String) (entries : List (Candidate × ℕ))
    (state : Screening) : ∃ kept refused reported,
      (entries.foldl (screenOne collidingPaths) state).valid = state.valid ++ kept ∧
        (entries.foldl (screenOne collidingPaths) state).issues = state.issues ++ reported ∧
        (kept ++ refused).Perm entries ∧ List.Forall₂ (fun entry => Reports candidates entry.1) refused reported := by
  induction entries generalizing state with
  | nil => exact ⟨[], [], [], by simp, by simp, List.Perm.refl _, .nil⟩
  | cons entry rest ih =>
    obtain ⟨kept, refused, reported, hvalid, hissues, hperm, hreports⟩ := ih (screenOne collidingPaths state entry)
    rw [List.foldl_cons, hvalid, hissues]
    obtain ⟨hkept, hsame⟩ | ⟨hsame, found, hfound, hreport⟩ := screenOne_reports candidates collidingPaths state entry
    · rw [hkept, hsame]
      exact ⟨entry :: kept, refused, reported, by simp, rfl, hperm.cons entry, hreports⟩
    · rw [hsame, hfound]
      exact ⟨kept, entry :: refused, found :: reported, rfl, by simp, List.perm_middle.trans (hperm.cons entry),
        .cons hreport hreports⟩

/-- The second loop accepts an entry or reports it. -/
theorem settle_reports (reasons : Reasons)
    (hreasons : ∀ id ∈ reasons, ∃ origin, Faulty (validContexts candidates) origin ∧
      Reaches (superseded (validContexts candidates)) id origin) (entries : List (Candidate × ℕ)) :
    ∃ refused, ((settle reasons entries).1 ++ refused.map (·.2)).Perm (entries.map (·.2)) ∧
      (settle reasons entries).1.Sublist (entries.map (·.2)) ∧ refused.Sublist entries ∧
      List.Forall₂ (fun entry => Reports candidates entry.1) refused (settle reasons entries).2 := by
  induction entries with
  | nil => exact ⟨[], List.Perm.refl _, List.Sublist.refl _, List.Sublist.refl _, .nil⟩
  | cons entry rest ih =>
    obtain ⟨candidate, index⟩ := entry
    obtain ⟨refused, hperm, haccepted, hrefused, hreports⟩ := ih
    unfold settle
    cases hlookup : reasons.lookup candidate.noteId with
    | none =>
      exact ⟨refused, hperm.cons index, haccepted.cons_cons index, hrefused.cons (candidate, index), hreports⟩
    | some reason =>
      have hid : candidate.noteId ∈ reasons := AList.lookup_isSome.mp (by rw [hlookup]; rfl)
      refine ⟨(candidate, index) :: refused, ?_, haccepted.cons index, hrefused.cons_cons (candidate, index),
        .cons ⟨rfl, rfl, fun _ => hreasons _ hid⟩ hreports⟩
      exact List.perm_middle.trans (hperm.cons index)

theorem settle_congr {reasons reasons' : Reasons} (h : ∀ id, reasons.lookup id = reasons'.lookup id)
    (entries : List (Candidate × ℕ)) : settle reasons entries = settle reasons' entries := by
  induction entries with
  | nil => rfl
  | cons entry rest ih =>
    obtain ⟨candidate, index⟩ := entry
    unfold settle
    rw [ih, h]

theorem settle_empty {reasons : Reasons} (h : ∀ id, id ∉ reasons) (entries : List (Candidate × ℕ)) :
    settle reasons entries = (entries.map (·.2), []) := by
  induction entries with
  | nil => rfl
  | cons entry rest ih =>
    obtain ⟨candidate, index⟩ := entry
    unfold settle
    rw [AList.lookup_eq_none.mpr (h _), ih]
    rfl

/-- The shortcut without reasons gives what the second loop would. -/
theorem validate_settled {order : KeyOrder} {reasons : Reasons}
    (hreasons : invalidSupersedeReasons order (validContexts candidates) = some reasons) :
    validateContextReindexManifest order candidates =
      some ⟨(settle reasons (screen candidates).valid).1,
        (screen candidates).issues ++ (settle reasons (screen candidates).valid).2⟩ := by
  unfold validateContextReindexManifest
  dsimp only
  rw [hreasons]
  dsimp only
  split
  · rename_i hempty
    rw [settle_empty fun id hid => by simpa [List.isEmpty_iff.mp hempty] using AList.mem_keys.mp hid, List.append_nil]
  · rfl

end Lists

/-- Every index is accepted or has one issue, whatever the order in which maps yield their keys; accepted indices increase,
and an issue about a reference has a faulty Context to which the chain of these leads. -/
theorem manifest_partition (candidates : List Candidate) : ∃ result rejected,
    (∀ order, validateContextReindexManifest order candidates = some result) ∧
      result.acceptedIndices.Pairwise (· < ·) ∧
      (result.acceptedIndices ++ rejected).Perm (List.range candidates.length) ∧
      List.Forall₂ (fun index found => ∃ candidate, candidates[index]? = some candidate ∧
        Reports candidates candidate found) rejected result.issues := by
  have hids := validContexts_nodup candidates
  obtain ⟨reasons, hreasons, hspec⟩ := invalidSupersedeReasons_spec storedOrder hids
  obtain ⟨kept, refused, reported, hvalid, hissues, hperm, hreports⟩ :=
    foldl_screenOne_reports candidates (collidingCanonicalPaths candidates) candidates.zipIdx ⟨[], ∅, ∅, []⟩
  have hvalid : (screen candidates).valid = kept := hvalid
  have hissues : (screen candidates).issues = reported := hissues
  obtain ⟨refused', hperm', haccepted, hrefused', hreports'⟩ :=
    settle_reports reasons (fun id hid => (hspec id).mp hid) (screen candidates).valid
  have hindices : candidates.zipIdx.map (·.2) = List.range candidates.length := by
    rw [List.zipIdx_map_snd, List.range_eq_range']
  -- The entries with an issue are candidates with their indices.
  have hentries : ∀ entry ∈ refused ++ refused', candidates[entry.2]? = some entry.1 := by
    intro entry hentry
    obtain hentry | hentry := List.mem_append.mp hentry
    · exact List.mem_zipIdx_iff_getElem?.mp (hperm.mem_iff.mp (List.mem_append_right _ hentry))
    · exact valid_getElem? candidates entry (hrefused'.mem hentry)
  have hall := (List.forall₂_and_left _ _).mpr ⟨hentries, List.rel_append hreports hreports'⟩
  refine ⟨⟨(settle reasons (screen candidates).valid).1,
      (screen candidates).issues ++ (settle reasons (screen candidates).valid).2⟩,
    (refused ++ refused').map (·.2), fun order => ?_, ?_, ?_, List.forall₂_map_left_iff.mpr ?_⟩
  · obtain ⟨found, reasons', hfound, hreasons', hlookup⟩ := reasons_order storedOrder order hids
    obtain rfl := Option.some.inj (hreasons.symm.trans hfound)
    rw [validate_settled hreasons', settle_congr hlookup]
  · have hsublist := haccepted.trans ((screen_screened candidates).2.map (·.2))
    rw [hindices] at hsublist
    exact List.pairwise_lt_range.sublist hsublist
  · rw [hvalid] at hperm' ⊢
    have hwhole := hperm.map (·.2)
    rw [hindices, List.map_append] at hwhole
    rw [List.map_append]
    refine List.Perm.trans ?_ hwhole
    refine List.Perm.trans ?_ (hperm'.append_right (refused.map (·.2)))
    rw [List.append_assoc]
    exact List.Perm.append_left _ List.perm_append_comm
  · rw [hissues]
    exact hall.imp fun entry found h => ⟨entry.1, h⟩

end Alexandria.Manifest
