import Alexandria.Manifest.Soundness

/-! # The manifest and the order of its candidates

The issues come in the order of the candidates, and of two that collide the one that comes later is refused. So the order
shows as soon as there are two issues, or two Contexts that supersede one; otherwise the validation gives the same
issues and accepts the same candidates for every order.
-/

namespace Alexandria.Manifest
set_option autoImplicit false

open Compile Successor

def cycleReason : String := "supersede relationship contains a cycle"

/-! ## Reasons that stay -/

section Reasons
variable {contexts : List Candidate}

theorem rejectAll_lookup (target : String) (ids : List String) (reasons : Reasons) {id : String} (h : id ∈ reasons) :
    (rejectAll target ids reasons).1.lookup id = reasons.lookup id := by
  induction ids generalizing reasons with
  | nil => rfl
  | cons first rest ih =>
    unfold rejectAll
    split
    · exact ih reasons h
    · rename_i hout
      simp only
      rw [ih _ ((AList.mem_insert _).mpr (.inr h))]
      refine AList.lookup_insert_ne ?_
      rintro rfl
      exact hout h

theorem mem_of_rejectAll (target : String) (ids : List String) (reasons : Reasons) {id : String} (h : id ∈ reasons) :
    id ∈ (rejectAll target ids reasons).1 := by
  rw [← AList.lookup_isSome, rejectAll_lookup target ids reasons h, AList.lookup_isSome]
  exact h

theorem propagate_lookup (fuel : ℕ) (queue : List String) (reasons : Reasons) {settled : Reasons}
    (hsettled : propagate contexts fuel queue reasons = some settled) {id : String} (h : id ∈ reasons) :
    settled.lookup id = reasons.lookup id := by
  induction fuel generalizing queue reasons with
  | zero => cases hsettled
  | succ fuel ih =>
    cases queue with
    | nil =>
      cases hsettled
      rfl
    | cons target queue =>
      unfold propagate at hsettled
      simp only at hsettled
      rw [ih _ _ hsettled (mem_of_rejectAll target _ reasons h), rejectAll_lookup target _ reasons h]

/-- The reasons before propagation: a cycle, or what the Context's own checks gave. -/
def firstReason (contexts : List Candidate) (cyclic : List String) (id : String) : Option String :=
  if id ∈ cyclic then some cycleReason else (checkReferences contexts).invalidReasons.lookup id

theorem lookup_cyclic (cyclic : List String) (reasons : Reasons) (id : String) :
    (cyclic.foldl (fun reasons contextId => reasons.insert contextId cycleReason) reasons).lookup id =
      if id ∈ cyclic then some cycleReason else reasons.lookup id := by
  induction cyclic generalizing reasons with
  | nil => simp
  | cons first rest ih =>
    rw [List.foldl_cons, ih]
    by_cases hrest : id ∈ rest
    · rw [if_pos hrest, if_pos (List.mem_cons_of_mem first hrest)]
    · rw [if_neg hrest]
      by_cases hfirst : id = first
      · subst hfirst
        rw [AList.lookup_insert, if_pos (List.mem_cons_self ..)]
      · rw [AList.lookup_insert_ne hfirst, if_neg (by simp [hfirst, hrest])]

/-- The rejected Contexts are those whose chain meets a first reason, and a first reason is kept. -/
theorem invalidSupersedeReasons_first (order : KeyOrder) (hids : (contexts.map (·.noteId)).Nodup) :
    ∃ cyclic reasons, (∀ id, id ∈ cyclic ↔ OnCycle (superseded contexts) id) ∧
      invalidSupersedeReasons order contexts = some reasons ∧
      (∀ id, firstReason contexts cyclic id ≠ none → reasons.lookup id = firstReason contexts cyclic id) ∧
      ∀ id, id ∈ reasons ↔ ∃ origin, firstReason contexts cyclic origin ≠ none ∧
        Reaches (superseded contexts) id origin := by
  obtain ⟨cyclic, hcyclic, hcycle⟩ := cyclicSupersedeIds_spec contexts
  obtain ⟨reasons, hreasons, hspec⟩ := invalidSupersedeReasons_spec order hids
  have hfirst : ∀ id, firstReason contexts cyclic id ≠ none ↔
      (∃ c ∈ contexts, c.noteId = id ∧ ¬ OwnSound contexts c) ∨ OnCycle (superseded contexts) id := by
    intro id
    rw [← mem_checkReferences (hids.of_map _), ← hcycle]
    unfold firstReason
    by_cases hid : id ∈ cyclic
    · rw [if_pos hid]
      simp [hid]
    · rw [if_neg hid, Ne, AList.lookup_eq_none, not_not]
      simp [hid]
  refine ⟨cyclic, reasons, hcycle, hreasons, ?_, ?_⟩
  · intro id hid
    unfold invalidSupersedeReasons propagateInvalidTargets at hreasons
    rw [hcyclic] at hreasons
    simp only at hreasons
    have hstart := lookup_cyclic cyclic (checkReferences contexts).invalidReasons id
    have hmem : id ∈ cyclic.foldl (fun reasons contextId => reasons.insert contextId cycleReason)
        (checkReferences contexts).invalidReasons := by
      rw [← AList.lookup_isSome, hstart, Option.isSome_iff_ne_none]
      exact hid
    exact (propagate_lookup _ _ _ hreasons hmem).trans hstart
  · intro id
    rw [hspec]
    exact exists_congr fun origin => and_congr_left fun _ => (hfirst origin).symm

theorem checkOne_lookup_other (state : References) {c : Candidate} {id : String} (h : id ≠ c.noteId) :
    (checkOne contexts state c).invalidReasons.lookup id = state.invalidReasons.lookup id := by
  unfold checkOne
  cases targetReason contexts state.replacementsByTarget c with
  | some reason => exact AList.lookup_insert_ne h
  | none =>
    cases replacementReason contexts c with
    | none => rfl
    | some reason => exact AList.lookup_insert_ne h

theorem foldl_checkOne_lookup (rest : List Candidate) (state : References) {id : String}
    (h : ∀ c ∈ rest, id ≠ c.noteId) :
    (rest.foldl (checkOne contexts) state).invalidReasons.lookup id = state.invalidReasons.lookup id := by
  induction rest generalizing state with
  | nil => rfl
  | cons c rest ih =>
    rw [List.foldl_cons, ih _ fun d hd => h d (List.mem_cons_of_mem c hd)]
    exact checkOne_lookup_other state (h c (List.mem_cons_self ..))

/-! ## One replacement for each target -/

/-- No two Contexts supersede the same one. -/
def SoleTargets (contexts : List Candidate) : Prop :=
  ∀ c ∈ contexts, ∀ d ∈ contexts, ∀ target, c.supersedesContextId = some target → d.supersedesContextId = some target →
    c = d

/-- What the checks say of a Context that no other one competes with. -/
def ownReason (contexts : List Candidate) (c : Candidate) : Option String :=
  (targetReason contexts ∅ c).or (replacementReason contexts c)

theorem targetReason_free {replacements : Reasons} {c : Candidate}
    (h : ∀ target, c.supersedesContextId = some target → replacements.lookup target = none) :
    targetReason contexts replacements c = targetReason contexts ∅ c := by
  unfold targetReason
  cases hforward : c.supersedesContextId with
  | none => rfl
  | some target =>
    simp only
    rw [h target hforward]
    rfl

/-- After the Contexts of `done` each of them has its own reason, and only their targets are taken. -/
structure OwnChecked (contexts done : List Candidate) (state : References) : Prop where
  reasons : ∀ c ∈ done, state.invalidReasons.lookup c.noteId = ownReason contexts c
  absent : ∀ id, (∀ c ∈ done, c.noteId ≠ id) → state.invalidReasons.lookup id = none
  taken : ∀ target, (∀ c ∈ done, c.supersedesContextId ≠ some target) → state.replacementsByTarget.lookup target = none

theorem checkOne_own {done : List Candidate} {state : References} {c : Candidate} (h : OwnChecked contexts done state)
    (hid : ∀ d ∈ done, d.noteId ≠ c.noteId)
    (htarget : ∀ target, c.supersedesContextId = some target → ∀ d ∈ done, d.supersedesContextId ≠ some target) :
    OwnChecked contexts (done ++ [c]) (checkOne contexts state c) := by
  have hfree : targetReason contexts state.replacementsByTarget c = targetReason contexts ∅ c :=
    targetReason_free fun target hforward => h.taken target (htarget target hforward)
  have hsame : ∀ d ∈ done, (checkOne contexts state c).invalidReasons.lookup d.noteId = ownReason contexts d := by
    intro d hd
    rw [checkOne_lookup_other state (hid d hd)]
    exact h.reasons d hd
  have hown : (checkOne contexts state c).invalidReasons.lookup c.noteId = ownReason contexts c := by
    have hout : state.invalidReasons.lookup c.noteId = none := h.absent c.noteId hid
    unfold checkOne ownReason
    rw [hfree]
    cases targetReason contexts ∅ c with
    | some reason => exact AList.lookup_insert _
    | none =>
      cases replacementReason contexts c with
      | none => exact hout
      | some reason => exact AList.lookup_insert _
  refine ⟨?_, ?_, ?_⟩
  · intro d hd
    obtain hd | hd := List.mem_append.mp hd
    · exact hsame d hd
    · rw [List.mem_singleton.mp hd]
      exact hown
  · intro id hout
    have hne : id ≠ c.noteId := fun heq => hout c (List.mem_append_right _ (List.mem_singleton_self c)) heq.symm
    rw [checkOne_lookup_other state hne]
    exact h.absent id fun d hd => hout d (List.mem_append_left _ hd)
  · intro target hout
    have hdone := h.taken target fun d hd => hout d (List.mem_append_left _ hd)
    have hnot : c.supersedesContextId ≠ some target := hout c (List.mem_append_right _ (List.mem_singleton_self c))
    unfold checkOne
    cases targetReason contexts state.replacementsByTarget c with
    | some reason => exact hdone
    | none =>
      cases hforward : c.supersedesContextId with
      | none => cases replacementReason contexts c <;> exact hdone
      | some own =>
        have hne : target ≠ own := by
          rintro rfl
          exact hnot hforward
        have hother : (state.replacementsByTarget.insert own c.noteId).lookup target = none :=
          (AList.lookup_insert_ne hne).trans hdone
        cases replacementReason contexts c <;> exact hother

theorem foldl_checkOne_own (hids : (contexts.map (·.noteId)).Nodup) (hsole : SoleTargets contexts)
    {done rest : List Candidate} {state : References} (hsplit : contexts = done ++ rest)
    (h : OwnChecked contexts done state) : OwnChecked contexts contexts (rest.foldl (checkOne contexts) state) := by
  induction rest generalizing done state with
  | nil =>
    rw [List.append_nil] at hsplit
    exact hsplit ▸ h
  | cons c rest ih =>
    have hmem : ∀ d ∈ done, d ∈ contexts := fun d hd => hsplit ▸ List.mem_append_left _ hd
    have hc : c ∈ contexts := hsplit ▸ List.mem_append_right _ (List.mem_cons_self ..)
    have hid : ∀ d ∈ done, d.noteId ≠ c.noteId := by
      intro d hd heq
      rw [hsplit, List.map_append, List.nodup_append] at hids
      exact hids.2.2 d.noteId (List.mem_map_of_mem hd) c.noteId (List.mem_map_of_mem (List.mem_cons_self ..)) heq
    refine ih ?_ (checkOne_own h hid ?_)
    · rw [hsplit, List.append_assoc, List.singleton_append]
    · intro target hforward d hd hother
      exact hid d hd (congrArg (·.noteId) (hsole d (hmem d hd) c hc target hother hforward))

theorem checkReferences_own (hids : (contexts.map (·.noteId)).Nodup) (hsole : SoleTargets contexts) :
    OwnChecked contexts contexts (checkReferences contexts) := by
  have hstart : OwnChecked contexts [] ⟨∅, ∅⟩ := ⟨by simp, fun _ _ => rfl, fun _ _ => rfl⟩
  exact foldl_checkOne_own hids hsole rfl hstart

/-- With sole targets the first reasons do not depend on the order. -/
theorem lookup_checkReferences (hids : (contexts.map (·.noteId)).Nodup) (hsole : SoleTargets contexts) (id : String) :
    (checkReferences contexts).invalidReasons.lookup id = (contextAt contexts id).bind (ownReason contexts) := by
  have hchecked := checkReferences_own hids hsole
  cases hat : contextAt contexts id with
  | none =>
    refine hchecked.absent id ?_
    intro c hc heq
    have hfound := contextAt_isSome hc
    rw [heq, hat] at hfound
    cases hfound
  | some c =>
    obtain ⟨hc, rfl⟩ := (contextAt_eq_some hids).mp hat
    exact hchecked.reasons c hc

section Permuted
variable {others : List Candidate}

theorem contextAt_perm (hids : (contexts.map (·.noteId)).Nodup) (hperm : contexts.Perm others) :
    contextAt contexts = contextAt others := by
  funext id
  exact Keyed.lookup_perm hperm hids

theorem superseded_perm (hids : (contexts.map (·.noteId)).Nodup) (hperm : contexts.Perm others) :
    superseded contexts = superseded others := by
  funext id
  unfold superseded
  rw [contextAt_perm hids hperm]

theorem ownReason_perm (hids : (contexts.map (·.noteId)).Nodup) (hperm : contexts.Perm others) :
    ownReason contexts = ownReason others := by
  funext c
  unfold ownReason targetReason replacementReason
  rw [contextAt_perm hids hperm]

theorem SoleTargets.perm (h : SoleTargets contexts) (hperm : contexts.Perm others) : SoleTargets others := by
  intro c hc d hd target hforward hother
  exact h c (hperm.mem_iff.mpr hc) d (hperm.mem_iff.mpr hd) target hforward hother

theorem firstReason_perm (hids : (contexts.map (·.noteId)).Nodup) (hsole : SoleTargets contexts)
    (hperm : contexts.Perm others) {cyclic cyclic' : List String}
    (hcyclic : ∀ id, id ∈ cyclic ↔ OnCycle (superseded contexts) id)
    (hcyclic' : ∀ id, id ∈ cyclic' ↔ OnCycle (superseded others) id) (id : String) :
    firstReason contexts cyclic id = firstReason others cyclic' id := by
  have hids' : (others.map (·.noteId)).Nodup := (hperm.map _).nodup_iff.mp hids
  have hsame : id ∈ cyclic ↔ id ∈ cyclic' := by
    rw [hcyclic, hcyclic', superseded_perm hids hperm]
  unfold firstReason
  rw [lookup_checkReferences hids hsole, lookup_checkReferences hids' (hsole.perm hperm), contextAt_perm hids hperm,
    ownReason_perm hids hperm]
  simp only [hsame]

theorem mem_reasons_iff (order : KeyOrder) (hids : (contexts.map (·.noteId)).Nodup) {reasons : Reasons}
    (h : invalidSupersedeReasons order contexts = some reasons) (id : String) :
    id ∈ reasons ↔ ¬ SoundChain contexts id := by
  obtain ⟨found, hfound, hspec⟩ := invalidSupersedeReasons_spec order hids
  obtain rfl : reasons = found := Option.some.inj (h.symm.trans hfound)
  rw [hspec]
  unfold SoundChain
  push Not
  refine exists_congr fun origin => ?_
  rw [and_comm]
  refine and_congr_right fun _ => ?_
  constructor
  · rintro (⟨c, hc, hid, hown⟩ | hcycle) hall
    · exact absurd (hall c hc hid) hown
    · exact hcycle
  · intro himp
    by_cases hall : ∀ c ∈ contexts, c.noteId = origin → OwnSound contexts c
    · exact .inr (himp hall)
    · push Not at hall
      obtain ⟨c, hc, hid, hown⟩ := hall
      exact .inl ⟨c, hc, hid, hown⟩

/-- At most one Context has a chain that is not sound. -/
def SoleFault (contexts : List Candidate) : Prop :=
  ∀ c ∈ contexts, ∀ d ∈ contexts, ¬ SoundChain contexts c.noteId → ¬ SoundChain contexts d.noteId → c = d

theorem context_of_superseded {id target : String} (h : superseded contexts id = some target) :
    ∃ c ∈ contexts, c.noteId = id := by
  obtain ⟨c, hc, -⟩ := superseded_eq_some.mp h
  have hid := List.find?_some hc
  rw [decide_eq_true_eq] at hid
  exact ⟨c, List.mem_of_find?_eq_some hc, hid⟩

theorem context_of_firstReason (hids : (contexts.map (·.noteId)).Nodup) {cyclic : List String}
    (hcyclic : ∀ id, id ∈ cyclic ↔ OnCycle (superseded contexts) id) {id : String}
    (h : firstReason contexts cyclic id ≠ none) : ∃ c ∈ contexts, c.noteId = id := by
  unfold firstReason at h
  by_cases hid : id ∈ cyclic
  · obtain ⟨target, hnext, -⟩ := ((hcyclic id).mp hid).exists_follows
    exact context_of_superseded hnext
  · rw [if_neg hid, Ne, AList.lookup_eq_none, not_not, mem_checkReferences (hids.of_map _)] at h
    obtain ⟨c, hc, hid, -⟩ := h
    exact ⟨c, hc, hid⟩

/-- With one fault at most, a rejected Context has its first reason. -/
theorem lookup_reasons (hids : (contexts.map (·.noteId)).Nodup) (hfault : SoleFault contexts) {cyclic : List String}
    {reasons : Reasons} (hcyclic : ∀ id, id ∈ cyclic ↔ OnCycle (superseded contexts) id)
    (hsound : ∀ id, id ∈ reasons ↔ ¬ SoundChain contexts id)
    (hkept : ∀ id, firstReason contexts cyclic id ≠ none → reasons.lookup id = firstReason contexts cyclic id)
    (hspec : ∀ id, id ∈ reasons ↔ ∃ origin, firstReason contexts cyclic origin ≠ none ∧
      Reaches (superseded contexts) id origin) (id : String) :
    reasons.lookup id = firstReason contexts cyclic id := by
  by_cases hid : id ∈ reasons
  · obtain ⟨origin, hfirst, hreach⟩ := (hspec id).mp hid
    have horigin : origin ∈ reasons := (hspec origin).mpr ⟨origin, hfirst, Relation.ReflTransGen.refl⟩
    have heq : id = origin := by
      obtain rfl | ⟨next, hnext, -⟩ := Relation.ReflTransGen.cases_head hreach
      · rfl
      · obtain ⟨c, hc, rfl⟩ := context_of_superseded hnext
        obtain ⟨d, hd, rfl⟩ := context_of_firstReason hids hcyclic hfirst
        exact congrArg (·.noteId) (hfault c hc d hd ((hsound _).mp hid) ((hsound _).mp horigin))
    subst heq
    exact hkept id hfirst
  · have hnone : firstReason contexts cyclic id = none := by
      by_contra hsome
      exact hid ((hspec id).mpr ⟨id, hsome, Relation.ReflTransGen.refl⟩)
    rw [hnone]
    exact AList.lookup_eq_none.mpr hid

/-- With sole targets and one fault at most, the reasons are the same for every order. -/
theorem reasons_perm (order order' : KeyOrder) (hids : (contexts.map (·.noteId)).Nodup) (hsole : SoleTargets contexts)
    (hfault : SoleFault contexts) (hperm : contexts.Perm others) : ∃ reasons reasons',
    invalidSupersedeReasons order contexts = some reasons ∧ invalidSupersedeReasons order' others = some reasons' ∧
      ∀ id, reasons.lookup id = reasons'.lookup id := by
  have hids' : (others.map (·.noteId)).Nodup := (hperm.map _).nodup_iff.mp hids
  obtain ⟨cyclic, reasons, hcyclic, hreasons, hkept, hspec⟩ := invalidSupersedeReasons_first order hids
  obtain ⟨cyclic', reasons', hcyclic', hreasons', hkept', hspec'⟩ := invalidSupersedeReasons_first order' hids'
  have hfirst := firstReason_perm hids hsole hperm hcyclic hcyclic'
  have hnext := superseded_perm hids hperm
  have hsame : ∀ id, id ∈ reasons ↔ id ∈ reasons' := by
    intro id
    rw [hspec, hspec', hnext]
    exact exists_congr fun origin => by rw [hfirst origin]
  have hsound := mem_reasons_iff order hids hreasons
  have hsound' := mem_reasons_iff order' hids' hreasons'
  have hfault' : SoleFault others := by
    intro c hc d hd hcfault hdfault
    rw [← hsound', ← hsame, hsound] at hcfault hdfault
    exact hfault c (hperm.mem_iff.mpr hc) d (hperm.mem_iff.mpr hd) hcfault hdfault
  refine ⟨reasons, reasons', hreasons, hreasons', fun id => ?_⟩
  rw [lookup_reasons hids hfault hcyclic hsound hkept hspec, lookup_reasons hids' hfault' hcyclic' hsound' hkept' hspec',
    hfirst]

end Permuted

end Reasons

/-! ## Screening without collisions -/

/-- No two candidates share a canonical path or an id, and no two Contexts an identity. -/
structure Distinct (candidates : List Candidate) : Prop where
  paths : (candidates.map (·.canonicalRelativePath)).Nodup
  ids : (candidates.map (·.noteId)).Nodup
  identities : ((candidates.filter (·.isContext)).map (·.identity)).Nodup

section Screen
variable {candidates : List Candidate} {collidingPaths : List String}

/-- Everything in `done` has passed, and nothing else is known. -/
structure Passed (done : List (Candidate × ℕ)) (state : Screening) : Prop where
  issues : state.issues = []
  valid : state.valid = done
  ids : ∀ id ∈ state.notePathsById, ∃ entry ∈ done, entry.1.noteId = id
  identities : ∀ identity ∈ state.contextPathsBySignature, ∃ entry ∈ done, entry.1.isContext = true ∧
    entry.1.identity = identity

theorem screenOne_passed {done : List (Candidate × ℕ)} {state : Screening} {entry : Candidate × ℕ}
    (h : Passed done state) (hpath : entry.1.canonicalRelativePath ∉ collidingPaths)
    (hid : ∀ other ∈ done, other.1.noteId ≠ entry.1.noteId)
    (hidentity : entry.1.isContext = true → ∀ other ∈ done, other.1.isContext = true →
      other.1.identity ≠ entry.1.identity) : Passed (done ++ [entry]) (screenOne collidingPaths state entry) := by
  have hlookup : state.notePathsById.lookup entry.1.noteId = none := by
    refine AList.lookup_eq_none.mpr fun hmem => ?_
    obtain ⟨other, hother, heq⟩ := h.ids _ hmem
    exact hid other hother heq
  have hids : ∀ id ∈ state.notePathsById.insert entry.1.noteId entry.1.relativePath,
      ∃ other ∈ done ++ [entry], other.1.noteId = id := by
    intro id hmem
    obtain rfl | hmem := (AList.mem_insert _).mp hmem
    · exact ⟨entry, List.mem_append_right _ (List.mem_singleton_self entry), rfl⟩
    · obtain ⟨other, hother, heq⟩ := h.ids id hmem
      exact ⟨other, List.mem_append_left _ hother, heq⟩
  have hold : ∀ identity ∈ state.contextPathsBySignature, ∃ other ∈ done ++ [entry], other.1.isContext = true ∧
      other.1.identity = identity := by
    intro identity hmem
    obtain ⟨other, hother, heq⟩ := h.identities identity hmem
    exact ⟨other, List.mem_append_left _ hother, heq⟩
  unfold screenOne
  simp only
  rw [if_neg hpath, hlookup]
  simp only
  split
  · rename_i hcontext
    have hfresh : state.contextPathsBySignature.lookup entry.1.identity = none := by
      refine AList.lookup_eq_none.mpr fun hmem => ?_
      obtain ⟨other, hother, hother', heq⟩ := h.identities _ hmem
      exact hidentity hcontext other hother hother' heq
    rw [hfresh]
    refine ⟨h.issues, by rw [h.valid], hids, ?_⟩
    intro identity hmem
    obtain rfl | hmem := (AList.mem_insert _).mp hmem
    · exact ⟨entry, List.mem_append_right _ (List.mem_singleton_self entry), hcontext, rfl⟩
    · exact hold identity hmem
  · exact ⟨h.issues, by rw [h.valid], hids, hold⟩

theorem Distinct.not_colliding (h : Distinct candidates) (path : String) : path ∉ collidingCanonicalPaths candidates := by
  intro hmem
  have hcount := (List.mem_filter.mp hmem).2
  rw [decide_eq_true_eq] at hcount
  have hle := List.nodup_iff_count_le_one.mp h.paths path
  omega

theorem Distinct.id_eq (h : Distinct candidates) {c d : Candidate} (hc : c ∈ candidates) (hd : d ∈ candidates)
    (heq : c.noteId = d.noteId) : c = d := List.inj_on_of_nodup_map h.ids hc hd heq

theorem Distinct.identity_eq (h : Distinct candidates) {c d : Candidate} (hc : c ∈ candidates) (hd : d ∈ candidates)
    (hcontext : c.isContext = true) (hother : d.isContext = true) (heq : c.identity = d.identity) : c = d :=
  List.inj_on_of_nodup_map h.identities (List.mem_filter.mpr ⟨hc, hcontext⟩) (List.mem_filter.mpr ⟨hd, hother⟩) heq

/-- The candidates in front of one in a list of different candidates are other ones. -/
theorem foldl_screenOne_passed (h : Distinct candidates) {done rest : List (Candidate × ℕ)} {state : Screening}
    (hsplit : candidates.zipIdx = done ++ rest) (hpassed : Passed done state) :
    Passed candidates.zipIdx (rest.foldl (screenOne (collidingCanonicalPaths candidates)) state) := by
  induction rest generalizing done state with
  | nil =>
    rw [List.append_nil] at hsplit
    exact hsplit ▸ hpassed
  | cons entry rest ih =>
    have hmap : candidates = (done.map (·.1) ++ entry.1 :: rest.map (·.1)) := by
      rw [← List.zipIdx_map_fst 0 candidates, hsplit, List.map_append, List.map_cons]
    have hfront : ∀ other ∈ done, other.1 ∈ candidates := by
      intro other hother
      rw [hmap]
      exact List.mem_append_left _ (List.mem_map_of_mem hother)
    have hentry : entry.1 ∈ candidates := by
      rw [hmap]
      exact List.mem_append_right _ (List.mem_cons_self ..)
    have hne : ∀ other ∈ done, other.1 ≠ entry.1 := by
      intro other hother heq
      have hnodup := h.ids
      rw [hmap, List.map_append, List.nodup_append] at hnodup
      refine hnodup.2.2 other.1.noteId (List.mem_map_of_mem (List.mem_map_of_mem hother)) entry.1.noteId ?_ ?_
      · rw [List.map_cons]
        exact List.mem_cons_self ..
      · rw [heq]
    refine ih ?_ (screenOne_passed hpassed (h.not_colliding _) ?_ ?_)
    · rw [hsplit, List.append_assoc, List.singleton_append]
    · intro other hother heq
      exact hne other hother (h.id_eq (hfront other hother) hentry heq)
    · intro hcontext other hother hother' heq
      exact hne other hother (h.identity_eq (hfront other hother) hentry hother' hcontext heq)

theorem screen_passed (h : Distinct candidates) : Passed candidates.zipIdx (screen candidates) :=
  foldl_screenOne_passed h (List.nil_append _).symm ⟨rfl, rfl, by simp, by simp⟩

theorem validContexts_passed (h : Distinct candidates) : validContexts candidates = candidates.filter (·.isContext) := by
  unfold validContexts
  rw [(screen_passed h).valid, List.zipIdx_map_fst]

/-! ## The issues -/

/-- The issue of a candidate that is valid but refused. -/
def refusal (reasons : Reasons) (c : Candidate) : Option Issue :=
  (reasons.lookup c.noteId).map fun reason => issue c s!"INVALID_SUPERSEDE: {reason}"

theorem settle_issues (reasons : Reasons) (entries : List (Candidate × ℕ)) :
    (settle reasons entries).2 = (entries.map (·.1)).filterMap (refusal reasons) := by
  induction entries with
  | nil => rfl
  | cons entry rest ih =>
    obtain ⟨c, i⟩ := entry
    unfold settle
    rw [List.map_cons, List.filterMap_cons]
    unfold refusal at ih ⊢
    simp only
    cases reasons.lookup c.noteId with
    | none => exact ih
    | some reason =>
      simp only [Option.map_some]
      rw [ih]

/-- The issues of the screening come first. -/
theorem validate_issues (order : KeyOrder) (candidates : List Candidate) : ∃ result reasons,
    validateContextReindexManifest order candidates = some result ∧
    invalidSupersedeReasons order (validContexts candidates) = some reasons ∧
    result.issues = (screen candidates).issues ++ ((screen candidates).valid.map (·.1)).filterMap (refusal reasons) := by
  obtain ⟨reasons, hreasons, -⟩ := invalidSupersedeReasons_spec order (validContexts_nodup candidates)
  unfold validateContextReindexManifest
  simp only
  rw [hreasons]
  simp only
  split
  · rename_i hempty
    refine ⟨_, reasons, rfl, rfl, ?_⟩
    have hnone : ((screen candidates).valid.map (·.1)).filterMap (refusal reasons) = [] := by
      refine List.filterMap_eq_nil_iff.mpr fun c _ => ?_
      unfold refusal
      rw [Option.map_eq_none_iff, AList.lookup_eq_none]
      intro hmem
      have hkeys := AList.mem_keys.mp hmem
      rw [List.isEmpty_iff.mp hempty] at hkeys
      cases hkeys
    rw [hnone, List.append_nil]
  · refine ⟨_, reasons, rfl, rfl, ?_⟩
    simp only
    rw [settle_issues]

/-- Different candidates have issues for their references only. -/
theorem validate_distinct (order : KeyOrder) (h : Distinct candidates) : ∃ result reasons,
    validateContextReindexManifest order candidates = some result ∧
    invalidSupersedeReasons order (candidates.filter (·.isContext)) = some reasons ∧
    result.issues = candidates.filterMap (refusal reasons) ∧
    ∀ c, c ∈ acceptedCandidates candidates result ↔ c ∈ candidates ∧ reasons.lookup c.noteId = none := by
  obtain ⟨result, reasons, hresult, hreasons, hissues⟩ := validate_issues order candidates
  obtain ⟨found, other, hfound, hother, haccepted⟩ := validate_accepted candidates order
  obtain rfl : result = found := Option.some.inj (hresult.symm.trans hfound)
  obtain rfl : reasons = other := Option.some.inj (hreasons.symm.trans hother)
  have hvalid : (screen candidates).valid.map (·.1) = candidates := by
    rw [(screen_passed h).valid, List.zipIdx_map_fst]
  rw [validContexts_passed h] at hreasons
  rw [hvalid] at hissues haccepted
  refine ⟨result, reasons, hresult, hreasons, ?_, ?_⟩
  · rw [hissues, (screen_passed h).issues, List.nil_append]
  · intro c
    rw [haccepted, List.mem_filter, decide_eq_true_eq, AList.lookup_eq_none]

theorem screenOne_issues (collidingPaths : List String) (state : Screening) (entry : Candidate × ℕ) :
    ∃ more, (screenOne collidingPaths state entry).issues = state.issues ++ more := by
  unfold screenOne
  simp only
  split
  · exact ⟨_, rfl⟩
  · split
    · exact ⟨_, rfl⟩
    · split
      · split
        · exact ⟨_, rfl⟩
        · exact ⟨[], (List.append_nil _).symm⟩
      · exact ⟨[], (List.append_nil _).symm⟩

theorem foldl_screenOne_issues (collidingPaths : List String) (entries : List (Candidate × ℕ)) (state : Screening) :
    ∃ more, (entries.foldl (screenOne collidingPaths) state).issues = state.issues ++ more := by
  induction entries generalizing state with
  | nil => exact ⟨[], (List.append_nil _).symm⟩
  | cons entry rest ih =>
    obtain ⟨more, hmore⟩ := screenOne_issues collidingPaths state entry
    obtain ⟨later, hlater⟩ := ih (screenOne collidingPaths state entry)
    exact ⟨more ++ later, by rw [List.foldl_cons, hlater, hmore, List.append_assoc]⟩

/-- A candidate in front whose path collides has the first issue. -/
theorem first_issue_path (order : KeyOrder) {c : Candidate} {rest : List Candidate}
    (h : c.canonicalRelativePath ∈ collidingCanonicalPaths (c :: rest)) : ∃ result first more,
    validateContextReindexManifest order (c :: rest) = some result ∧ result.issues = first :: more ∧
      first.relativePath = c.relativePath := by
  obtain ⟨result, reasons, hresult, -, hissues⟩ := validate_issues order (c :: rest)
  obtain ⟨later, hlater⟩ := foldl_screenOne_issues (collidingCanonicalPaths (c :: rest)) (rest.zipIdx 1)
    (screenOne (collidingCanonicalPaths (c :: rest)) ⟨[], ∅, ∅, []⟩ (c, 0))
  have hscreen : (screen (c :: rest)).issues = (screenOne (collidingCanonicalPaths (c :: rest)) ⟨[], ∅, ∅, []⟩ (c, 0)).issues ++
      later := hlater
  unfold screenOne at hscreen
  simp only at hscreen
  rw [if_pos h] at hscreen
  exact ⟨result, _, _, hresult, by rw [hissues, hscreen]; rfl, rfl⟩

/-- A Context behind another one with its identity has the first issue. -/
theorem first_issue_identity (order : KeyOrder) {c d : Candidate} {rest : List Candidate}
    (hpaths : ∀ path, path ∉ collidingCanonicalPaths (c :: d :: rest)) (hid : d.noteId ≠ c.noteId)
    (hcontext : c.isContext = true) (hother : d.isContext = true) (hidentity : d.identity = c.identity) :
    ∃ result first more, validateContextReindexManifest order (c :: d :: rest) = some result ∧
      result.issues = first :: more ∧ first.relativePath = d.relativePath := by
  obtain ⟨result, reasons, hresult, -, hissues⟩ := validate_issues order (c :: d :: rest)
  have hfirst : screenOne (collidingCanonicalPaths (c :: d :: rest)) ⟨[], ∅, ∅, []⟩ (c, 0) =
      ⟨[], AList.insert c.noteId c.relativePath ∅, AList.insert c.identity c.relativePath ∅, [(c, 0)]⟩ := by
    unfold screenOne
    simp only
    rw [if_neg (hpaths _), AList.lookup_empty]
    simp only
    rw [if_pos hcontext, AList.lookup_empty]
    rfl
  obtain ⟨later, hlater⟩ := foldl_screenOne_issues (collidingCanonicalPaths (c :: d :: rest)) (rest.zipIdx 2)
    (screenOne (collidingCanonicalPaths (c :: d :: rest))
      (screenOne (collidingCanonicalPaths (c :: d :: rest)) ⟨[], ∅, ∅, []⟩ (c, 0)) (d, 1))
  have hscreen : (screen (c :: d :: rest)).issues = (screenOne (collidingCanonicalPaths (c :: d :: rest))
      (screenOne (collidingCanonicalPaths (c :: d :: rest)) ⟨[], ∅, ∅, []⟩ (c, 0)) (d, 1)).issues ++ later := hlater
  rw [hfirst] at hscreen
  unfold screenOne at hscreen
  simp only at hscreen
  rw [if_neg (hpaths _), AList.lookup_insert_ne hid, AList.lookup_empty] at hscreen
  simp only at hscreen
  rw [if_pos hother, hidentity, AList.lookup_insert] at hscreen
  exact ⟨result, _, _, hresult, by rw [hissues, hscreen]; rfl, rfl⟩

end Screen

/-! ## Orders that show -/

/-- Different candidates, of which no two Contexts supersede the same one and at most one has an unsound chain. -/
structure Untangled (candidates : List Candidate) : Prop extends Distinct candidates where
  targets : SoleTargets (candidates.filter (·.isContext))
  faults : SoleFault (candidates.filter (·.isContext))

def manifestIssues (order : KeyOrder) (candidates : List Candidate) : Option (List Issue) :=
  (validateContextReindexManifest order candidates).map (·.issues)

section Order
variable {candidates others : List Candidate}

theorem exists_perm_two_first {c d : Candidate} (hc : c ∈ candidates) (hd : d ∈ candidates) (hne : c ≠ d) :
    ∃ rest, (c :: d :: rest).Perm candidates := by
  have hd' : d ∈ candidates.erase c := (List.mem_erase_of_ne hne.symm).mpr hd
  refine ⟨(candidates.erase c).erase d, ?_⟩
  exact ((List.perm_cons_erase hd').symm.cons c).trans (List.perm_cons_erase hc).symm

theorem Distinct.perm (h : Distinct candidates) (hperm : others.Perm candidates) : Distinct others where
  paths := (hperm.map _).nodup_iff.mpr h.paths
  ids := (hperm.map _).nodup_iff.mpr h.ids
  identities := ((hperm.filter _).map _).nodup_iff.mpr h.identities

theorem Distinct.contexts_nodup (h : Distinct candidates) :
    ((candidates.filter (·.isContext)).map (·.noteId)).Nodup := h.ids.sublist (List.filter_sublist.map _)

variable {order : KeyOrder}

theorem paths_of_fixed (hids : (candidates.map (·.noteId)).Nodup) (hrelative : (candidates.map (·.relativePath)).Nodup)
    (hfixed : ∀ others, others.Perm candidates → manifestIssues order others = manifestIssues order candidates) :
    (candidates.map (·.canonicalRelativePath)).Nodup := by
  refine List.Nodup.map_on ?_ hids.of_map
  intro c hc d hd heq
  by_contra hne
  have hcollide : ∀ first second rest, (first :: second :: rest : List Candidate).Perm candidates →
      first.canonicalRelativePath = second.canonicalRelativePath →
      first.canonicalRelativePath ∈ collidingCanonicalPaths (first :: second :: rest) := by
    intro first second rest _ hsame
    refine List.mem_filter.mpr ⟨List.mem_cons_self .., ?_⟩
    rw [List.map_cons, List.map_cons, hsame, decide_eq_true_eq, List.count_cons_self, List.count_cons_self]
    omega
  obtain ⟨rest, hperm⟩ := exists_perm_two_first hc hd hne
  obtain ⟨result, first, more, hresult, hissues, hfirst⟩ := first_issue_path order (hcollide c d rest hperm heq)
  have hswap : (d :: c :: rest).Perm candidates := (List.Perm.swap c d rest).trans hperm
  obtain ⟨result', first', more', hresult', hissues', hfirst'⟩ := first_issue_path order (hcollide d c rest hswap heq.symm)
  have hsame := (hfixed _ hperm).trans (hfixed _ hswap).symm
  unfold manifestIssues at hsame
  rw [hresult, hresult', Option.map_some, Option.map_some, Option.some.injEq, hissues, hissues', List.cons.injEq] at hsame
  have hpath : c.relativePath = d.relativePath := by rw [← hfirst, ← hfirst', hsame.1]
  exact hne (List.inj_on_of_nodup_map hrelative hc hd hpath)

theorem identities_of_fixed (hids : (candidates.map (·.noteId)).Nodup)
    (hrelative : (candidates.map (·.relativePath)).Nodup)
    (hpaths : (candidates.map (·.canonicalRelativePath)).Nodup)
    (hfixed : ∀ others, others.Perm candidates → manifestIssues order others = manifestIssues order candidates) :
    ((candidates.filter (·.isContext)).map (·.identity)).Nodup := by
  refine List.Nodup.map_on ?_ (hids.of_map.filter _)
  intro c hc d hd heq
  by_contra hne
  obtain ⟨hc, hcontext⟩ := List.mem_filter.mp hc
  obtain ⟨hd, hother⟩ := List.mem_filter.mp hd
  have hid : c.noteId ≠ d.noteId := fun hid => hne (List.inj_on_of_nodup_map hids hc hd hid)
  have hfree : ∀ others : List Candidate, others.Perm candidates → ∀ path, path ∉ collidingCanonicalPaths others := by
    intro others hperm path hmem
    have hcount := (List.mem_filter.mp hmem).2
    rw [decide_eq_true_eq] at hcount
    have hle := List.nodup_iff_count_le_one.mp ((hperm.map _).nodup_iff.mpr hpaths) path
    omega
  obtain ⟨rest, hperm⟩ := exists_perm_two_first hc hd hne
  have hswap : (d :: c :: rest).Perm candidates := (List.Perm.swap c d rest).trans hperm
  obtain ⟨result, first, more, hresult, hissues, hfirst⟩ :=
    first_issue_identity order (hfree _ hperm) hid.symm hcontext hother heq.symm
  obtain ⟨result', first', more', hresult', hissues', hfirst'⟩ :=
    first_issue_identity order (hfree _ hswap) hid hother hcontext heq
  have hsame := (hfixed _ hperm).trans (hfixed _ hswap).symm
  unfold manifestIssues at hsame
  rw [hresult, hresult', Option.map_some, Option.map_some, Option.some.injEq, hissues, hissues', List.cons.injEq] at hsame
  have hpath : c.relativePath = d.relativePath := by rw [← hfirst, ← hfirst', hsame.1]
  exact hne (List.inj_on_of_nodup_map hrelative hc hd hpath)

/-! ### Different candidates -/

theorem manifestIssues_distinct (h : Distinct candidates) {reasons : Reasons}
    (hreasons : invalidSupersedeReasons order (candidates.filter (·.isContext)) = some reasons) :
    manifestIssues order candidates = some (candidates.filterMap (refusal reasons)) := by
  obtain ⟨result, found, hresult, hfound, hissues, -⟩ := validate_distinct order h
  obtain rfl : reasons = found := Option.some.inj (hreasons.symm.trans hfound)
  unfold manifestIssues
  rw [hresult, Option.map_some, hissues]

theorem refusal_path {reasons : Reasons} {c : Candidate} {found : Issue} (h : refusal reasons c = some found) :
    found.relativePath = c.relativePath := by
  obtain ⟨reason, -, rfl⟩ := Option.map_eq_some_iff.mp h
  rfl

theorem refusal_isSome {reasons : Reasons} {c : Candidate} : (refusal reasons c).isSome = true ↔ c.noteId ∈ reasons := by
  unfold refusal
  rw [Option.isSome_map, AList.lookup_isSome]

/-- The same issues for two orders are the same refusals. -/
theorem refusal_of_fixed (hrelative : (candidates.map (·.relativePath)).Nodup) (hperm : others.Perm candidates)
    {reasons reasons' : Reasons} (hsame : candidates.filterMap (refusal reasons) = others.filterMap (refusal reasons'))
    {c : Candidate} (hc : c ∈ candidates) : refusal reasons c = refusal reasons' c := by
  have hpaths : (others.map (·.relativePath)).Nodup := (hperm.map _).nodup_iff.mpr hrelative
  ext found
  constructor
  · intro hfound
    have hmem : found ∈ others.filterMap (refusal reasons') := hsame ▸ List.mem_filterMap.mpr ⟨c, hc, hfound⟩
    obtain ⟨d, hd, hother⟩ := List.mem_filterMap.mp hmem
    have hpath : d.relativePath = c.relativePath := (refusal_path hother).symm.trans (refusal_path hfound)
    rw [List.inj_on_of_nodup_map hpaths hd (hperm.mem_iff.mpr hc) hpath] at hother
    exact hother
  · intro hfound
    have hmem : found ∈ candidates.filterMap (refusal reasons) :=
      hsame ▸ List.mem_filterMap.mpr ⟨c, hperm.mem_iff.mpr hc, hfound⟩
    obtain ⟨d, hd, hother⟩ := List.mem_filterMap.mp hmem
    have hpath : d.relativePath = c.relativePath := (refusal_path hother).symm.trans (refusal_path hfound)
    rw [List.inj_on_of_nodup_map hrelative hd hc hpath] at hother
    exact hother

/-- Issues that are the same for every order, in terms of the refusals. -/
theorem refusals_fixed (h : Distinct candidates) (hrelative : (candidates.map (·.relativePath)).Nodup)
    (hfixed : ∀ others, others.Perm candidates → manifestIssues order others = manifestIssues order candidates)
    {reasons : Reasons} (hreasons : invalidSupersedeReasons order (candidates.filter (·.isContext)) = some reasons)
    (hperm : others.Perm candidates) : ∃ reasons',
      invalidSupersedeReasons order (others.filter (·.isContext)) = some reasons' ∧
      candidates.filterMap (refusal reasons) = others.filterMap (refusal reasons') ∧
      ∀ c ∈ candidates, refusal reasons c = refusal reasons' c := by
  obtain ⟨-, reasons', -, hreasons', -, -⟩ := validate_distinct order (h.perm hperm)
  have hsame := hfixed others hperm
  rw [manifestIssues_distinct h hreasons, manifestIssues_distinct (h.perm hperm) hreasons', Option.some.injEq] at hsame
  exact ⟨reasons', hreasons', hsame.symm, fun c hc => refusal_of_fixed hrelative hperm hsame.symm hc⟩

/-- Of two refused candidates the one that comes first has the first issue. -/
theorem faults_of_fixed (h : Distinct candidates) (hrelative : (candidates.map (·.relativePath)).Nodup)
    (hfixed : ∀ others, others.Perm candidates → manifestIssues order others = manifestIssues order candidates) :
    SoleFault (candidates.filter (·.isContext)) := by
  obtain ⟨-, reasons, -, hreasons, -, -⟩ := validate_distinct order h
  have hsound := mem_reasons_iff order h.contexts_nodup hreasons
  intro c hc d hd hcfault hdfault
  rw [← hsound, ← refusal_isSome] at hcfault hdfault
  by_contra hne
  have hc := (List.mem_filter.mp hc).1
  have hd := (List.mem_filter.mp hd).1
  obtain ⟨rest, hperm⟩ := exists_perm_two_first hc hd hne
  have hswap : (d :: c :: rest).Perm candidates := (List.Perm.swap c d rest).trans hperm
  obtain ⟨first, -, hsame, hrefusal⟩ := refusals_fixed h hrelative hfixed hreasons hperm
  obtain ⟨second, -, hsame', hrefusal'⟩ := refusals_fixed h hrelative hfixed hreasons hswap
  obtain ⟨cissue, hcissue⟩ := Option.isSome_iff_exists.mp hcfault
  obtain ⟨dissue, hdissue⟩ := Option.isSome_iff_exists.mp hdfault
  rw [List.filterMap_cons_some ((hrefusal c hc).symm.trans hcissue)] at hsame
  rw [List.filterMap_cons_some ((hrefusal' d hd).symm.trans hdissue)] at hsame'
  have hheads := (List.cons.inj (hsame.symm.trans hsame')).1
  have hpath : c.relativePath = d.relativePath := by
    rw [← refusal_path hcissue, ← refusal_path hdissue, hheads]
  exact hne (List.inj_on_of_nodup_map hrelative hc hd hpath)

/-! ### Two replacements of one Context -/

section Competing
variable {contexts rest : List Candidate} {a b : Candidate} {target : String}

/-- A sound replacement behind another one is the one that the target names. -/
theorem competing_backlink (hne : a ≠ b) (ha : a.supersedesContextId = some target)
    (hb : b.supersedesContextId = some target)
    (hasound : SoundChain (b :: a :: rest) a.noteId) : ∃ t, contextAt (b :: a :: rest) target = some t ∧
      t.supersededByContextId = some a.noteId ∧ a.noteId ≠ b.noteId := by
  have hmem : a ∈ b :: a :: rest := List.mem_cons_of_mem b (List.mem_cons_self ..)
  have hfirst := ((hasound a.noteId Relation.ReflTransGen.refl).1 a hmem rfl).1 target ha
  have hclaims : claims (b :: a :: rest) target a = true := List.find?_some hfirst
  obtain ⟨-, t, ht, hback⟩ := claims_iff.mp hclaims
  have hnot : ¬ claims (b :: a :: rest) target b = true := by
    intro hclaims
    rw [List.find?_cons_of_pos hclaims] at hfirst
    exact hne (Option.some.inj hfirst).symm
  rw [claims_iff] at hnot
  have hneither : ¬ (t.supersededByContextId = none ∨ t.supersededByContextId = some b.noteId) :=
    fun hback => hnot ⟨hb, t, ht, hback⟩
  rw [not_or] at hneither
  have hnamed := hback.resolve_left hneither.1
  refine ⟨t, ht, hnamed, ?_⟩
  intro hid
  exact hneither.2 (hid ▸ hnamed)

/-- A Context that supersedes what a sound one supersedes is on no cycle. -/
theorem competing_acyclic (hids : (contexts.map (·.noteId)).Nodup) (ha : a.supersedesContextId = some target)
    (hb : b.supersedesContextId = some target) (hamem : a ∈ contexts) (hbmem : b ∈ contexts)
    (ht : (contextAt contexts target).isSome = true) (hasound : SoundChain contexts a.noteId) :
    ¬ OnCycle (superseded contexts) b.noteId := by
  intro hcycle
  have hnext : ∀ c ∈ contexts, c.supersedesContextId = some target → superseded contexts c.noteId = some target := by
    intro c hc hforward
    exact superseded_eq_some.mpr ⟨c, (contextAt_eq_some hids).mpr ⟨hc, rfl⟩, hforward, ht⟩
  have hbtarget : Reaches (superseded contexts) b.noteId target := Relation.ReflTransGen.single (hnext b hbmem hb)
  have hatarget : Reaches (superseded contexts) a.noteId target := Relation.ReflTransGen.single (hnext a hamem ha)
  exact (hasound target hatarget).2 (hcycle.of_reaches hbtarget)

/-- The reason of the second one when it comes first. -/
theorem lookup_backlink (hids : ((b :: a :: rest).map (·.noteId)).Nodup) (hb : b.supersedesContextId = some target)
    {t : Candidate} (ht : contextAt (b :: a :: rest) target = some t) (hback : t.supersededByContextId = some a.noteId)
    (hne : a.noteId ≠ b.noteId) : (checkReferences (b :: a :: rest)).invalidReasons.lookup b.noteId =
      some s!"superseded Context backlink conflicts with replacement: {a.noteId}" := by
  have hreason : targetReason (b :: a :: rest) ∅ b =
      some s!"superseded Context backlink conflicts with replacement: {a.noteId}" := by
    unfold targetReason
    rw [hb]
    simp only
    rw [ht, AList.lookup_empty]
    simp only
    rw [hback]
    simp only
    rw [if_pos hne]
  unfold checkReferences
  rw [List.foldl_cons, foldl_checkOne_lookup]
  · unfold checkOne
    simp only
    rw [hreason]
    exact AList.lookup_insert _
  · intro c hc heq
    rw [List.map_cons, List.nodup_cons] at hids
    exact hids.1 (heq ▸ List.mem_map_of_mem hc)

/-- Its reason when it comes second. -/
theorem lookup_replaced (hids : ((a :: b :: rest).map (·.noteId)).Nodup) (ha : a.supersedesContextId = some target)
    (hb : b.supersedesContextId = some target) {t : Candidate} (ht : contextAt (a :: b :: rest) target = some t)
    (hback : t.supersededByContextId = some a.noteId) :
    (checkReferences (a :: b :: rest)).invalidReasons.lookup b.noteId =
      some s!"Context already has another replacement: {a.noteId}" := by
  have hpass : targetReason (a :: b :: rest) ∅ a = none := by
    unfold targetReason
    rw [ha]
    simp only
    rw [ht, AList.lookup_empty]
    simp only
    rw [hback]
    simp only
    rw [if_neg (not_not.mpr rfl)]
  have hafter : ((checkOne (a :: b :: rest) ⟨∅, ∅⟩ a).replacementsByTarget).lookup target = some a.noteId := by
    unfold checkOne
    simp only
    rw [hpass, ha]
    simp only
    cases replacementReason (a :: b :: rest) a <;> exact AList.lookup_insert _
  have hreason : targetReason (a :: b :: rest) (checkOne (a :: b :: rest) ⟨∅, ∅⟩ a).replacementsByTarget b =
      some s!"Context already has another replacement: {a.noteId}" := by
    unfold targetReason
    rw [hb]
    simp only
    rw [ht, hafter]
  unfold checkReferences
  rw [List.foldl_cons, List.foldl_cons, foldl_checkOne_lookup]
  · generalize checkOne (a :: b :: rest) ⟨∅, ∅⟩ a = state at hreason ⊢
    unfold checkOne
    rw [hreason]
    exact AList.lookup_insert _
  · intro c hc heq
    rw [List.map_cons, List.map_cons, List.nodup_cons, List.nodup_cons] at hids
    exact hids.2.1 (heq ▸ List.mem_map_of_mem hc)

/-- Off the cycles the reason of the Context's own checks is the one that is reported. -/
theorem refusal_first (hids : (contexts.map (·.noteId)).Nodup) {reasons : Reasons}
    (hreasons : invalidSupersedeReasons order contexts = some reasons)
    (hcycle : ¬ OnCycle (superseded contexts) b.noteId) {text : String}
    (htext : (checkReferences contexts).invalidReasons.lookup b.noteId = some text) :
    refusal reasons b = some (issue b s!"INVALID_SUPERSEDE: {text}") := by
  obtain ⟨cyclic, found, hcyclic, hfound, hkept, -⟩ := invalidSupersedeReasons_first order hids
  obtain rfl : reasons = found := Option.some.inj (hreasons.symm.trans hfound)
  have hfirst : firstReason contexts cyclic b.noteId = some text := by
    unfold firstReason
    rw [if_neg (fun hmem => hcycle ((hcyclic _).mp hmem)), htext]
  have hlookup := hkept b.noteId (by rw [hfirst]; exact Option.some_ne_none text)
  unfold refusal
  rw [hlookup, hfirst]
  rfl

theorem reported_reasons_ne (id : String) {first second : String}
    (hfirst : first = s!"superseded Context backlink conflicts with replacement: {id}")
    (hsecond : second = s!"Context already has another replacement: {id}") :
    s!"INVALID_SUPERSEDE: {first}" ≠ s!"INVALID_SUPERSEDE: {second}" := by
  intro h
  have hlist := congrArg (fun text : String => (text.toList.drop 19).head?) h
  simp [toString, String.toList_append, hfirst, hsecond] at hlist

end Competing

/-- A sound replacement has no competitor when the issues are the same for every order. -/
theorem no_competitor (h : Distinct candidates) (hrelative : (candidates.map (·.relativePath)).Nodup)
    (hfixed : ∀ others, others.Perm candidates → manifestIssues order others = manifestIssues order candidates)
    {a b : Candidate} (ha : a ∈ candidates.filter (·.isContext)) (hb : b ∈ candidates.filter (·.isContext))
    {target : String} (hat : a.supersedesContextId = some target) (hbt : b.supersedesContextId = some target)
    (hsound : SoundChain (candidates.filter (·.isContext)) a.noteId) : a = b := by
  by_contra hne
  obtain ⟨-, reasons, -, hreasons, -, -⟩ := validate_distinct order h
  have haccepted : refusal reasons a = none := by
    rw [← Option.not_isSome_iff_eq_none, refusal_isSome, mem_reasons_iff order h.contexts_nodup hreasons, not_not]
    exact hsound
  obtain ⟨ha, hacontext⟩ := List.mem_filter.mp ha
  obtain ⟨hb, hbcontext⟩ := List.mem_filter.mp hb
  obtain ⟨rest, hperm⟩ := exists_perm_two_first ha hb hne
  have hswap : (b :: a :: rest).Perm candidates := (List.Perm.swap a b rest).trans hperm
  have hfilter : (a :: b :: rest).filter (·.isContext) = a :: b :: rest.filter (·.isContext) := by
    rw [List.filter_cons_of_pos hacontext, List.filter_cons_of_pos hbcontext]
  have hfilter' : (b :: a :: rest).filter (·.isContext) = b :: a :: rest.filter (·.isContext) := by
    rw [List.filter_cons_of_pos hbcontext, List.filter_cons_of_pos hacontext]
  obtain ⟨first, hfirst, -, hrefusal⟩ := refusals_fixed h hrelative hfixed hreasons hperm
  obtain ⟨second, hsecond, -, hrefusal'⟩ := refusals_fixed h hrelative hfixed hreasons hswap
  have hids := (h.perm hperm).contexts_nodup
  have hids' := (h.perm hswap).contexts_nodup
  rw [hfilter] at hfirst hids
  rw [hfilter'] at hsecond hids'
  have hasound : SoundChain (a :: b :: rest.filter (·.isContext)) a.noteId := by
    rw [← not_not (a := SoundChain _ _), ← mem_reasons_iff order hids hfirst, ← refusal_isSome, ← hrefusal a ha, haccepted]
    simp
  have hasound' : SoundChain (b :: a :: rest.filter (·.isContext)) a.noteId := by
    rw [← not_not (a := SoundChain _ _), ← mem_reasons_iff order hids' hsecond, ← refusal_isSome, ← hrefusal' a ha,
      haccepted]
    simp
  obtain ⟨t, ht, hback, hid⟩ := competing_backlink hne hat hbt hasound'
  have ht' : contextAt (a :: b :: rest.filter (·.isContext)) target = some t := by
    rw [contextAt_perm hids (List.Perm.swap b a _)]
    exact ht
  have hcycle : ¬ OnCycle (superseded (a :: b :: rest.filter (·.isContext))) b.noteId :=
    competing_acyclic hids hat hbt (List.mem_cons_self ..) (List.mem_cons_of_mem a (List.mem_cons_self ..))
      (by rw [ht']; rfl) hasound
  have hcycle' : ¬ OnCycle (superseded (b :: a :: rest.filter (·.isContext))) b.noteId :=
    competing_acyclic hids' hat hbt (List.mem_cons_of_mem b (List.mem_cons_self ..)) (List.mem_cons_self ..)
      (by rw [ht]; rfl) hasound'
  have hreported := refusal_first hids hfirst hcycle (lookup_replaced hids hat hbt ht' hback)
  have hreported' := refusal_first hids' hsecond hcycle' (lookup_backlink hids' hbt ht hback hid)
  rw [← hrefusal b hb] at hreported
  rw [← hrefusal' b hb, hreported, Option.some.injEq, issue, issue, ContextReindexManifestIssue.mk.injEq] at hreported'
  exact reported_reasons_ne a.noteId rfl rfl hreported'.2.2.symm

theorem targets_of_fixed (h : Distinct candidates) (hrelative : (candidates.map (·.relativePath)).Nodup)
    (hfixed : ∀ others, others.Perm candidates → manifestIssues order others = manifestIssues order candidates) :
    SoleTargets (candidates.filter (·.isContext)) := by
  intro a ha b hb target hat hbt
  by_cases hasound : SoundChain (candidates.filter (·.isContext)) a.noteId
  · exact no_competitor h hrelative hfixed ha hb hat hbt hasound
  · by_cases hbsound : SoundChain (candidates.filter (·.isContext)) b.noteId
    · exact (no_competitor h hrelative hfixed hb ha hbt hat hbsound).symm
    · exact faults_of_fixed h hrelative hfixed a ha b hb hasound hbsound

theorem Untangled.of_fixed (hids : (candidates.map (·.noteId)).Nodup) (hrelative : (candidates.map (·.relativePath)).Nodup)
    (hfixed : ∀ others, others.Perm candidates → manifestIssues order others = manifestIssues order candidates) :
    Untangled candidates := by
  have hpaths := paths_of_fixed hids hrelative hfixed
  have hdistinct : Distinct candidates := ⟨hpaths, hids, identities_of_fixed hids hrelative hpaths hfixed⟩
  exact ⟨hdistinct, targets_of_fixed hdistinct hrelative hfixed, faults_of_fixed hdistinct hrelative hfixed⟩

/-! ## Orders that do not show -/

theorem filterMap_length_le_one {β : Type} {f : Candidate → Option β} {xs : List Candidate} (hnodup : xs.Nodup)
    (hone : ∀ a ∈ xs, ∀ b ∈ xs, (f a).isSome = true → (f b).isSome = true → a = b) : (xs.filterMap f).length ≤ 1 := by
  induction xs with
  | nil => exact Nat.zero_le 1
  | cons a rest ih =>
    obtain ⟨hout, hrest⟩ := List.nodup_cons.mp hnodup
    cases hfa : f a with
    | none =>
      rw [List.filterMap_cons_none hfa]
      exact ih hrest fun b hb c hc => hone b (List.mem_cons_of_mem a hb) c (List.mem_cons_of_mem a hc)
    | some value =>
      have hnone : rest.filterMap f = [] := by
        refine List.filterMap_eq_nil_iff.mpr fun b hb => ?_
        rw [← Option.not_isSome_iff_eq_none]
        intro hsome
        have heq := hone a (List.mem_cons_self ..) b (List.mem_cons_of_mem a hb) (by rw [hfa]; rfl) hsome
        exact hout (heq ▸ hb)
      rw [List.filterMap_cons_some hfa, hnone]
      exact Nat.le_refl 1

theorem perm_eq_of_length_le_one {β : Type} {xs ys : List β} (hperm : xs.Perm ys) (h : ys.length ≤ 1) : xs = ys := by
  cases ys with
  | nil => exact List.perm_nil.mp hperm
  | cons y rest =>
    have hrest : rest = [] := List.length_eq_zero_iff.mp (by rw [List.length_cons] at h; omega)
    rw [hrest] at hperm ⊢
    exact List.perm_singleton.mp hperm

/-- The same issues and the same accepted candidates for every order, also of the hash maps. -/
theorem Untangled.fixed (h : Untangled candidates) (hperm : others.Perm candidates) (order order' : KeyOrder) :
    ∃ result result', validateContextReindexManifest order candidates = some result ∧
      validateContextReindexManifest order' others = some result' ∧ result'.issues = result.issues ∧
      ∀ c, c ∈ acceptedCandidates others result' ↔ c ∈ acceptedCandidates candidates result := by
  obtain ⟨result, reasons, hresult, hreasons, hissues, haccepted⟩ := validate_distinct order h.toDistinct
  obtain ⟨result', reasons', hresult', hreasons', hissues', haccepted'⟩ :=
    validate_distinct order' (h.toDistinct.perm hperm)
  obtain ⟨found, found', hfound, hfound', hlookup⟩ :=
    reasons_perm order order' h.contexts_nodup h.targets h.faults (hperm.symm.filter _)
  obtain rfl : reasons = found := Option.some.inj (hreasons.symm.trans hfound)
  obtain rfl : reasons' = found' := Option.some.inj (hreasons'.symm.trans hfound')
  have hrefusal : refusal reasons' = refusal reasons := by
    funext c
    unfold refusal
    rw [hlookup]
  have hone : (candidates.filterMap (refusal reasons)).length ≤ 1 := by
    refine filterMap_length_le_one h.ids.of_map fun c hc d hd hcfault hdfault => ?_
    have hcontext : ∀ c ∈ candidates, c.noteId ∈ reasons → c ∈ candidates.filter (·.isContext) := by
      intro c hc hmem
      obtain ⟨cyclic, found, hcyclic, hfound, -, hspec⟩ := invalidSupersedeReasons_first order h.contexts_nodup
      obtain rfl : reasons = found := Option.some.inj (hreasons.symm.trans hfound)
      obtain ⟨origin, hfirst, hreach⟩ := (hspec c.noteId).mp hmem
      have hsource : ∃ e ∈ candidates.filter (·.isContext), e.noteId = c.noteId := by
        obtain heq | ⟨next, hnext, -⟩ := Relation.ReflTransGen.cases_head hreach
        · rw [heq]
          exact context_of_firstReason h.contexts_nodup hcyclic hfirst
        · exact context_of_superseded hnext
      obtain ⟨e, he, hid⟩ := hsource
      exact h.id_eq (List.mem_filter.mp he).1 hc hid ▸ he
    rw [refusal_isSome] at hcfault hdfault
    have hcmem := hcontext c hc hcfault
    have hdmem := hcontext d hd hdfault
    rw [mem_reasons_iff order h.contexts_nodup hreasons] at hcfault hdfault
    exact h.faults c hcmem d hdmem hcfault hdfault
  refine ⟨result, result', hresult, hresult', ?_, ?_⟩
  · rw [hissues, hissues', hrefusal]
    exact perm_eq_of_length_le_one (hperm.filterMap _) hone
  · intro c
    rw [haccepted, haccepted', hperm.mem_iff, hlookup]

end Order

end Alexandria.Manifest
