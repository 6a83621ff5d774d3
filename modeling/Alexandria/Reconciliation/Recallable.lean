import Alexandria.Reconciliation.ObsidianGateway

/-! # Applied supersession and recall

A plan for SUPERSEDES creates the replacement first, and the frontmatter of the replacement names the old Context in the
field `supersedes`. The save refuses the field, so the apply fails in its first phase with the vault as it was: the old
Context stays what it is to recall, and no such plan is ever recorded as applied.
-/

namespace Alexandria.Notes
set_option autoImplicit false

/-! ## A mapping in a collection of texts -/

section Save
variable {φ : Type} {env : NoteEnvironment φ} {items : List (JsonValue φ)} {item : JsonValue φ}

/-- The field `supersedes` is a list with a mapping in it. -/
structure NamesSuperseded (fields : JsonObject φ) : Prop where
  present : fields.has "supersedes" = true
  mapping : ∃ items item, fields.get "supersedes" = .list items ∧ item ∈ items ∧ item.isObject = true

theorem normalizeKnown_namesSuperseded {fields : JsonObject φ} (h : NamesSuperseded fields) (result : JsonObject φ) :
    normalizeKnownFrontmatterMetadata fields ≠ .ok result := by
  intro hok
  obtain ⟨collected, hcollected, -⟩ := Keyed.bind_eq_ok hok
  obtain ⟨items, item, hget, hmem, hobject⟩ := h.mapping
  have hknown : "supersedes" ∈ stringCollectionFields := by decide
  refine normalizeFields_error hknown h.present ?_ collected hcollected
  intro value hvalue
  rw [hget] at hvalue
  obtain ⟨texts, htexts, -⟩ := Keyed.map_eq_ok hvalue
  exact normalizeStringCollection_object hmem hobject texts htexts

theorem NamesSuperseded.congr {fields other : JsonObject φ} (h : NamesSuperseded fields)
    (hhas : fields.has "supersedes" = true → other.has "supersedes" = true)
    (hget : other.get "supersedes" = fields.get "supersedes") : NamesSuperseded other where
  present := hhas h.present
  mapping := by
    rw [hget]
    exact h.mapping

theorem NamesSuperseded.set {fields : JsonObject φ} (h : NamesSuperseded fields) {key : String} (hkey : key ≠ "supersedes")
    (value : JsonValue φ) : NamesSuperseded (fields.set key value) := by
  refine h.congr ?_ ?_
  · intro hhas
    rw [JsonObject.has_set, hhas, Bool.or_true]
  · rw [JsonObject.get_set, if_neg hkey]

theorem namesSuperseded_set (fields mapping : JsonObject φ) :
    NamesSuperseded (fields.set "supersedes" (.list [.object mapping])) where
  present := by
    rw [JsonObject.has_set]
    rfl
  mapping := by
    refine ⟨[.object mapping], .object mapping, ?_, List.mem_singleton.mpr rfl, rfl⟩
    rw [JsonObject.get_set, if_pos rfl]

theorem frontmatterForSave_namesSuperseded {fields : JsonObject φ} (h : NamesSuperseded fields)
    (payload : ObsidianSaveNote φ) (noteId title : String) (warnings : List String) (now : String) (result : JsonObject φ) :
    frontmatterForSave env payload fields noteId title warnings now ≠ .ok result := by
  unfold frontmatterForSave
  simp only
  apply normalizeKnown_namesSuperseded
  generalize hfields : fields.update _ = updated
  have hupdated : NamesSuperseded updated := by
    rw [← hfields]
    exact h.congr JsonObject.has_update (JsonObject.get_update_of_notMem (by simp) fields)
  have hwarned : ∀ projected : JsonObject φ, NamesSuperseded projected → NamesSuperseded
      (if warnings = [] then projected else projected.set "redaction_warnings" (.ofTexts warnings)) := by
    intro projected hprojected
    split
    · exact hprojected
    · exact hprojected.set (by decide) _
  cases payload.project with
  | none => exact hwarned _ hupdated
  | some project => exact hwarned _ (hupdated.set (by decide) _)

theorem redactedFrontmatter_namesSuperseded {redactSecretText : String → SecretRedaction} {fields : JsonObject φ}
    {redacted : JsonObject φ × List String} (h : NamesSuperseded fields)
    (hredacted : redactedFrontmatter redactSecretText fields = .ok redacted) : NamesSuperseded redacted.1 := by
  obtain ⟨mapping, hmapping, rfl⟩ := Keyed.map_eq_ok hredacted
  obtain ⟨items, item, hget, hmem, hobject⟩ := h.mapping
  have hname : isSecretFieldName "supersedes" = false := by decide
  obtain ⟨hpresent, noted, hvalue⟩ := redactedMapping_get hname (by decide) hmapping h.present
  rw [hget, redactedJson] at hvalue
  obtain ⟨sequence, hsequence, heq⟩ := Keyed.map_eq_ok hvalue
  obtain ⟨other, hother, hotherObject⟩ := redactedSequence_object hmem hobject hsequence
  exact ⟨hpresent, sequence.1, other, (Prod.ext_iff.mp heq).1.symm, hother, hotherObject⟩

variable (env) in
/-- A save of such a frontmatter is refused before it has written anything. -/
theorem saveNote_namesSuperseded {payload : ObsidianSaveNote φ} (h : NamesSuperseded payload.frontmatter)
    (str : NestedText φ) (vault : Vault φ) (newId now : String) :
    ∃ text, saveNote env str vault payload newId now = (.error text, vault) := by
  have hprepared : ∀ prepared, prepareSave env str vault payload none none newId now ≠ .ok prepared := by
    intro prepared hok
    unfold prepareSave at hok
    simp only at hok
    split at hok
    · cases hok
    · split at hok
      · cases hok
      · obtain ⟨redacted, hredacted, hrest⟩ := Keyed.bind_eq_ok hok
        obtain ⟨target, -, hrest⟩ := Keyed.bind_eq_ok hrest
        obtain ⟨fields, hfields, -⟩ := Keyed.bind_eq_ok hrest
        exact frontmatterForSave_namesSuperseded (redactedFrontmatter_namesSuperseded h hredacted) _ _ _ _ _ _ hfields
  unfold saveNote saveNoteSerialized
  cases hprepare : prepareSave env str vault payload none none newId now with
  | error text => exact ⟨text, rfl⟩
  | ok prepared => exact absurd hprepare (hprepared prepared)

end Save

end Alexandria.Notes

namespace Alexandria.Reconciliation
set_option autoImplicit false
open Text Phases
open Notes (Vault)

/-! ## What recall admits -/

/-- `_PACK_LIFECYCLE_STATUSES` -/
def packLifecycleStatuses : List String := ["active", "current"]

variable {φ : Type}

def contextNote (vault : Vault φ) (contextId : String) : Option (Notes.ObsidianNote φ) :=
  (contextNoteId contextId).bind vault.getById

/-- The old Context is superseded, and a Context that the plan has created in its place is admitted. -/
def LeavesReplacement (vault : Vault φ) (plan : MemoryReconciliationPlan) (result : MemoryReconciliationResult) : Prop :=
  ∃ decision replacementId old replacement, primaryDecision plan = some decision ∧
    replacementId ∈ result.createdContextIds ∧
    contextNote vault decision.existingContextId = some old ∧ old.status = "superseded" ∧
    contextNote vault replacementId = some replacement ∧ replacement.status ∈ packLifecycleStatuses

/-! ## Creating the replacement -/

theorem ObsidianGateway.createContext_supersedes (env : ObsidianEnvironment φ) (world : VaultWorld φ)
    {creation : ContextCreation} {contextId : String} (hrelation : creation.relation = some .supersedes)
    (hrelated : creation.relatedContextId = some contextId) :
    ∃ text after, createContext env world creation = (.error text, after) ∧ after.vault = world.vault := by
  unfold createContext
  cases lifecycleStatus creation.lifecycleStatus with
  | error text => exact ⟨text, world, rfl, rfl⟩
  | ok status =>
    unfold relatedContext
    rw [hrelation, hrelated]
    simp only
    cases readContext env world contextId with
    | error failure => exact ⟨failure.text, world, rfl, rfl⟩
    | ok found =>
      have hfrontmatter : (candidateFrontmatter creation (some (vaultNote found))).related =
          some ("supersedes", found.note.noteId, found.note.relativePath) := by
        simp only [candidateFrontmatter, hrelation]
        rfl
      have hnames : Notes.NamesSuperseded
          (notePayload env (savePayload creation status (some (vaultNote found)))).frontmatter := by
        simp only [notePayload, savePayload, frontmatterFields, hfrontmatter]
        exact Notes.namesSuperseded_set _ _
      obtain ⟨text, hsave⟩ := Notes.saveNote_namesSuperseded env.notes hnames env.nested world.vault (env.newId world.writes)
        (env.clock world.writes)
      have hsaved : savedContext env world (notePayload env (savePayload creation status (some (vaultNote found)))) =
          (.error text, ⟨world.vault, world.writes + 1⟩) := by
        unfold savedContext
        rw [hsave]
        rfl
      exact ⟨text, _, hsaved, rfl⟩

section Apply
variable {W : Type} {gateway : CanonicalGateway W} {platform : Platform} {plan : MemoryReconciliationPlan}

/-- A plan whose Context cannot be created fails, and the world is the one the gateway has left. -/
theorem applyPlan_creation_refused {world after : W} {text : String} (haction : hasAction plan .createContext = true)
    (hrefused : gateway.createContext world (contextCreation platform plan (primaryDecision plan)) = (.error text, after))
    (reviewedBy : Option String) (r : Repository) :
    (applyPlan gateway platform plan reviewedBy world r).world = after ∧
      ∀ result, (applyPlan gateway platform plan reviewedBy world r).response = .returned result →
        result.status = .failed := by
  have hcreate : createContext gateway platform plan (primaryDecision plan) (Progress.start world r) =
      .error (.raised text, { (Progress.start world r).note (.createContext
        (contextCreation platform plan (primaryDecision plan))) with
          world := after, failureCode := .contextWriteFailed }) := by
    unfold createContext
    simp only [Progress.start, hrefused]
  have hsequence : Phase.sequence (applyPhases gateway platform plan (primaryDecision plan)) (Progress.start world r) =
      .error (.raised text, { (Progress.start world r).note (.createContext
        (contextCreation platform plan (primaryDecision plan))) with
          world := after, failureCode := .contextWriteFailed }) := by
    unfold applyPhases
    rw [Phase.sequence, Phase.andThen, whenAction, if_pos haction, hcreate]
    rfl
  unfold applyPlan
  simp only [Phase.run, hsequence]
  refine ⟨finish_world r _ _, ?_⟩
  intro result hresponse
  unfold finish at hresponse
  simp only at hresponse
  split at hresponse
  · cases hresponse
    rfl
  · cases hresponse

/-- An apply stores the result that it returns, or nothing. -/
theorem applyPlan_saves (gateway : CanonicalGateway W) (platform : Platform) (plan : MemoryReconciliationPlan)
    (reviewedBy : Option String) (world : W) (r : Repository) :
    (applyPlan gateway platform plan reviewedBy world r).repository.plans = r.plans ∧
      ((applyPlan gateway platform plan reviewedBy world r).repository.results = r.results ∨
        ∃ result, (applyPlan gateway platform plan reviewedBy world r).response = .returned result ∧
          result.planId = plan.planId ∧ (applyPlan gateway platform plan reviewedBy world r).repository.results =
            Keyed.put (·.planId) result r.results) := by
  have hstart : OnStore (fun s _ => s.plans = r.plans ∧ s.results = r.results) (Progress.start world r) := ⟨rfl, rfl⟩
  have hkeeps : Phase.Keeps (OnStore fun s _ => s.plans = r.plans ∧ s.results = r.results)
      (Phase.sequence (applyPhases gateway platform plan (primaryDecision plan))) := applyPhases_plans gateway
  have hfinish : ∀ (p : Progress W) (result : MemoryReconciliationResult),
      p.repository.plans = r.plans ∧ p.repository.results = r.results → result.planId = plan.planId →
      (finish r result p).repository.plans = r.plans ∧ ((finish r result p).repository.results = r.results ∨
        ∃ saved, (finish r result p).response = .returned saved ∧ saved.planId = plan.planId ∧
          (finish r result p).repository.results = Keyed.put (·.planId) saved r.results) := by
    intro p result hp hresult
    unfold finish
    split
    · rename_i saved hsaved
      obtain ⟨hplans, -, -, hresults⟩ := saveResult_frame hsaved
      exact ⟨hplans.trans hp.1, .inr ⟨result, rfl, hresult, by rw [hresults, hp.2]⟩⟩
    · exact ⟨rfl, .inl rfl⟩
  have hrun := hkeeps.run hstart
  unfold applyPlan
  simp only
  split
  · rename_i p hp
    rw [hp] at hrun
    exact hfinish p _ hrun rfl
  · rename_i p text hp
    rw [hp] at hrun
    exact hfinish p _ hrun rfl
  · exact ⟨rfl, .inl rfl⟩

end Apply

/-- The plan service gives a plan for SUPERSEDES the action that creates the replacement, and a decision to start from. -/
theorem IsBuilt.supersedes {plan : MemoryReconciliationPlan} (hplan : IsBuilt plan)
    (hrelation : plan.primaryDecision = .supersedes) :
    hasAction plan .createContext = true ∧
      ∃ decision, primaryDecision plan = some decision ∧ decision.relation = .supersedes := by
  cases hselected : selectPrimaryDecision plan.decisions with
  | none =>
    rw [hplan.relation, hselected] at hrelation
    cases hrelation
  | some selected =>
    have hsame : selected.relation = .supersedes := by
      rw [hplan.relation, hselected] at hrelation
      exact hrelation
    obtain ⟨decision, hprimary, -, hdecision⟩ := hplan.exists_primaryDecision hselected
    refine ⟨?_, decision, hprimary, hdecision.trans hsame⟩
    rw [hplan.hasAction_eq hselected, hsame]
    rfl

/-! ## Runs -/

section Runs
variable {env : ObsidianEnvironment φ} {platform : Platform} {s t : System (VaultWorld φ)}

/-- No stored result of a plan for SUPERSEDES says that it is applied. -/
structure SupersessionsFailed (r : Repository) : Prop where
  built : ∀ plan ∈ r.plans, IsBuilt plan
  planned : ∀ result ∈ r.results, (r.getPlan result.planId).isSome = true
  failed : ∀ result ∈ r.results, ∀ plan, r.getPlan result.planId = some plan → plan.primaryDecision = .supersedes →
    result.status = .failed

theorem supersessionsFailed_empty : SupersessionsFailed Repository.empty where
  built := by
    intro plan hplan
    cases hplan
  planned := by
    intro result hresult
    cases hresult
  failed := by
    intro result hresult
    cases hresult

theorem SupersessionsFailed.congr {r r' : Repository} (h : SupersessionsFailed r) (hplans : r'.plans = r.plans)
    (hresults : r'.results = r.results) : SupersessionsFailed r' := by
  have hgetPlan : ∀ planId, r'.getPlan planId = r.getPlan planId := by
    intro planId
    unfold Repository.getPlan
    rw [hplans]
  constructor
  · rw [hplans]
    exact h.built
  · simp only [hresults, hgetPlan]
    exact h.planned
  · simp only [hresults, hgetPlan]
    exact h.failed

theorem SupersessionsFailed.savePlan {r r' : Repository} {plan stored : MemoryReconciliationPlan}
    (h : SupersessionsFailed r) (hplan : IsBuilt plan) (hsave : r.savePlan plan = .ok (stored, r')) :
    SupersessionsFailed r' := by
  unfold Repository.savePlan at hsave
  split at hsave
  · cases hsave
    exact h
  · split at hsave
    · cases hsave
    · cases hsave
      have hgetPlan : ∀ result ∈ r.results, ∃ old, r.getPlan result.planId = some old ∧
          Keyed.lookup (·.planId) result.planId (r.plans ++ [plan]) = some old := by
        intro result hresult
        obtain ⟨old, hold⟩ := Option.isSome_iff_exists.mp (h.planned result hresult)
        refine ⟨old, hold, ?_⟩
        have hlookup : Keyed.lookup (·.planId) result.planId r.plans = some old := hold
        rw [Keyed.lookup_append, hlookup]
        rfl
      refine ⟨?_, ?_, ?_⟩
      · intro other hother
        obtain hother | hother := List.mem_append.mp hother
        · exact h.built other hother
        · exact List.mem_singleton.mp hother ▸ hplan
      · intro result hresult
        obtain ⟨old, -, hfound⟩ := hgetPlan result hresult
        exact Option.isSome_iff_exists.mpr ⟨old, hfound⟩
      · intro result hresult other hother
        obtain ⟨old, hold, hfound⟩ := hgetPlan result hresult
        obtain rfl := Option.some.inj (hfound.symm.trans hother)
        exact h.failed result hresult old hold

/-- Saving a result that is consistent with the plan it is for. -/
theorem SupersessionsFailed.saveResult {r r' : Repository} {result : MemoryReconciliationResult} {plan : MemoryReconciliationPlan}
    (h : SupersessionsFailed r) (hplan : r.getPlan result.planId = some plan)
    (hfailed : plan.primaryDecision = .supersedes → result.status = .failed) (hplans : r'.plans = r.plans)
    (hresults : r'.results = Keyed.put (·.planId) result r.results) : SupersessionsFailed r' := by
  have hgetPlan : ∀ planId, r'.getPlan planId = r.getPlan planId := by
    intro planId
    unfold Repository.getPlan
    rw [hplans]
  refine ⟨?_, ?_, ?_⟩
  · rw [hplans]
    exact h.built
  · intro other hother
    rw [hgetPlan]
    rw [hresults] at hother
    obtain rfl | ⟨hother, -⟩ := Keyed.mem_put.mp hother
    · rw [hplan]
      rfl
    · exact h.planned other hother
  · intro other hother stored hstored
    rw [hgetPlan] at hstored
    rw [hresults] at hother
    obtain rfl | ⟨hother, -⟩ := Keyed.mem_put.mp hother
    · obtain rfl := Option.some.inj (hplan.symm.trans hstored)
      exact hfailed
    · exact h.failed other hother stored hstored

/-- Executing a plan for SUPERSEDES leaves the vault as it was and returns a failure. -/
theorem applyPlan_supersedes (env : ObsidianEnvironment φ) (platform : Platform) {plan : MemoryReconciliationPlan}
    (hplan : IsBuilt plan) (hrelation : plan.primaryDecision = .supersedes) (reviewedBy : Option String)
    (world : VaultWorld φ) (r : Repository) :
    (applyPlan (obsidianGateway env) platform plan reviewedBy world r).world.vault = world.vault ∧
      ∀ result, (applyPlan (obsidianGateway env) platform plan reviewedBy world r).response = .returned result →
        result.status = .failed := by
  obtain ⟨haction, decision, hprimary, hdecision⟩ := hplan.supersedes hrelation
  have hcreation : (contextCreation platform plan (primaryDecision plan)).relation = some .supersedes := by
    simp only [contextCreation, hprimary, Option.map_some, hdecision]
  have hrelated : (contextCreation platform plan (primaryDecision plan)).relatedContextId =
      some decision.existingContextId := by
    simp only [contextCreation, hprimary, Option.map_some]
  obtain ⟨text, after, hcreate, hvault⟩ := ObsidianGateway.createContext_supersedes env world hcreation hrelated
  have hgateway : (obsidianGateway env).createContext = ObsidianGateway.createContext env := by
    simp only [obsidianGateway]
  rw [← hgateway] at hcreate
  obtain ⟨hworld, hfailed⟩ := applyPlan_creation_refused haction hcreate reviewedBy r
  exact ⟨by rw [hworld, hvault], hfailed⟩

theorem SupersessionsFailed.step {request : Request (VaultWorld φ)} (h : SupersessionsFailed s.repository)
    (hstep : step (obsidianGateway env) platform s request = some t) : SupersessionsFailed t.repository := by
  cases request with
  | preview planId candidate decisions idempotencyKey =>
    simp only [Reconciliation.step] at hstep
    split at hstep
    · rename_i hsave
      cases hstep
      exact h.savePlan (buildPlan_isBuilt _ _ _ _ _) hsave
    · cases hstep
      exact h
  | apply request =>
    cases hstep
    obtain ⟨plan, reviewedBy, -, hplan, hoccurs⟩ | ⟨-, hrepository, -⟩ :=
      apply_cases (obsidianGateway env) platform request s.world s.repository
    · rw [hoccurs]
      obtain ⟨hmem, hplanId⟩ := Keyed.lookup_mem hplan
      obtain ⟨hplans, hsame | ⟨result, hresponse, hresult, hresults⟩⟩ :=
        applyPlan_saves (obsidianGateway env) platform plan reviewedBy s.world s.repository
      · exact h.congr hplans hsame
      · have hstored : s.repository.getPlan result.planId = some plan := by
          rw [hresult, hplanId]
          exact hplan
        refine h.saveResult hstored ?_ hplans hresults
        · intro hrelation
          exact (applyPlan_supersedes env platform (h.built plan hmem) hrelation reviewedBy s.world s.repository).2
            result hresponse
    · rw [hrepository]
      exact h
  | markReviewing conflictSetId =>
    simp only [Reconciliation.step] at hstep
    split at hstep
    · rename_i hmark
      cases hstep
      obtain ⟨row, rowId, -, -, -, rfl⟩ := markReviewing_eq_some hmark
      exact h.congr rfl rfl
    · cases hstep
      exact h
  | resolve conflictSetId status resolution now =>
    simp only [Reconciliation.step] at hstep
    split at hstep
    · rename_i hresolve
      cases hstep
      obtain ⟨-, row, rowId, -, -, -, rfl⟩ := resolve_eq_some hresolve
      exact h.congr rfl rfl
    · cases hstep
      exact h
  | outside world =>
    cases hstep
    exact h

end Runs

/-- A preview for a candidate that supersedes a Context. -/
def supersedingPreview : List (Request (VaultWorld Unit)) :=
  [.preview "plan-1" sampleCandidate [sampleDecision "obsidian:a" .supersedes (96 / 100)] none]

end Alexandria.Reconciliation
