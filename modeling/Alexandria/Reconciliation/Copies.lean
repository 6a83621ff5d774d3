import Alexandria.Reconciliation.CyclePlan

/-! # Copies of existing Contexts

The candidate of a child plan is a stored Context under an identifier of its own. A plan that creates a Context therefore
saves the body of the stored one as a new note. Of the plans that need no review only those for EXTENDS create a Context,
and the gateway saves a note for them once it has read the note of the Context they extend.
-/

namespace Alexandria.Reconciliation
set_option autoImplicit false
open Text Phases

/-! ## Creating a note -/

/-- A note as the gateway reads it. -/
structure VaultNote where
  noteId : String
  relativePath : String
  isContext : Bool

/-- `_candidate_frontmatter`, with the relation as field, note and path. -/
structure CandidateFrontmatter where
  scope : ContextScope
  identity : ScopeIdentity
  evidenceRefs : List String
  memorySourceRefs : List MemorySourceReference
  canonicalClaims : List CanonicalClaim
  recordedAt : Instant
  observedAt : Option Instant
  validFrom : Option Instant
  validTo : Option Instant
  reconciliationCandidateId : String
  conflictSetIds : List String
  supersedesContextId : Option String
  related : Option (String × String × String)

structure ObsidianSaveNote where
  noteId : String
  title : String
  body : String
  tags : List String
  status : String
  project : Option String
  source : String
  frontmatter : CandidateFrontmatter

/-- The note service behind the gateway, which may refuse every call. -/
structure NoteService (V : Type) where
  readNote : V → String → Except String VaultNote
  saveNote : V → ObsidianSaveNote → Except String String × V

def lifecycleStatuses : List String :=
  ["active", "current", "archived", "deprecated", "draft", "error", "needs_review", "pending", "pending_review", "review",
    "reviewed", "stale", "superseded"]

/-- ASCII lower case, which is all that the names of the states need. -/
def lifecycleStatus (value : String) : Except String String :=
  let normalized := String.ofList ((trimBy isPythonWhitespace value.toList).map fun c =>
    if c = '-' ∨ c = ' ' then '_' else c.toLower)
  if lifecycleStatuses.contains normalized then .ok normalized
  else .error ("Unsupported reconciliation lifecycle status: " ++ value)

/-- The identifier of a note in that of its Context. -/
def contextNoteId (contextId : String) : Option String :=
  if opensWith "obsidian:" contextId then
    let noteId := pythonStrip (withoutStart "obsidian:" contextId)
    if noteId = "" then none else some noteId
  else none

def qualifiedContextId (noteId : String) : String := "obsidian:" ++ noteId

def relationFrontmatterField : MemoryRelationType → Option String
  | .unrelated => none
  | .duplicate => some "duplicates"
  | .supports => some "supports"
  | .extending => some "extends"
  | .contradicts => some "contradicts"
  | .supersedes => some "supersedes"
  | .unknown => some "related"

section Gateway
variable {V : Type} (service : NoteService V)

def readContextNote (vault : V) (contextId : String) : Except String VaultNote :=
  match contextNoteId contextId with
  | none => .error ("Context not found: " ++ contextId)
  | some noteId =>
    match service.readNote vault noteId with
    | .error text => .error text
    | .ok note => if note.isContext then .ok note else .error ("Canonical note is not a Context: " ++ contextId)

/-- The note of the Context that the new one is related to. -/
def relatedNote (vault : V) (creation : ContextCreation) : Except String (Option VaultNote) :=
  match creation.relation, creation.relatedContextId with
  | some _, some contextId => (readContextNote service vault contextId).map some
  | _, _ => .ok none

def candidateFrontmatter (creation : ContextCreation) (related : Option VaultNote) : CandidateFrontmatter where
  scope := creation.candidate.scope
  identity := creation.candidate.identity
  evidenceRefs := creation.candidate.sourceRefs.map (·.detailPath)
  memorySourceRefs := creation.candidate.sourceRefs
  canonicalClaims := creation.candidate.canonicalClaims
  recordedAt := creation.candidate.recordedAt
  observedAt := creation.candidate.observedAt
  validFrom := creation.candidate.validFrom
  validTo := creation.candidate.validTo
  reconciliationCandidateId := creation.candidate.candidateId
  conflictSetIds := creation.conflictSetIds
  supersedesContextId := creation.supersedesContextId.bind contextNoteId
  related := (creation.relation.bind relationFrontmatterField).bind fun field =>
    related.map fun note => (field, note.noteId, note.relativePath)

def savePayload (creation : ContextCreation) (status : String) (related : Option VaultNote) : ObsidianSaveNote where
  noteId := creation.candidate.candidateId
  title := creation.candidate.title
  body := creation.candidate.body
  tags := creation.candidate.tags
  status := status
  project := creation.candidate.identity.project
  source := "memory-reconciliation"
  frontmatter := candidateFrontmatter creation related

/-- The gateway with `create_context` as it is; the other calls, which create no note, are arbitrary. The world has the
notes that were saved as new Contexts beside the vault. -/
def creationGateway (other : CanonicalGateway V) : CanonicalGateway (V × List ObsidianSaveNote) where
  createContext w creation :=
    match lifecycleStatus creation.lifecycleStatus, relatedNote service w.1 creation with
    | .error text, _ => (.error text, w)
    | .ok _, .error text => (.error text, w)
    | .ok status, .ok related =>
      match service.saveNote w.1 (savePayload creation status related) with
      | (.error text, vault) => (.error text, (vault, w.2))
      | (.ok noteId, vault) =>
        (.ok (qualifiedContextId noteId), (vault, w.2 ++ [savePayload creation status related]))
  mergeEvidence w contextId evidence :=
    let (answer, vault) := other.mergeEvidence w.1 contextId evidence
    (answer, (vault, w.2))
  supersede w contextId replacementContextId :=
    let (answer, vault) := other.supersede w.1 contextId replacementContextId
    (answer, (vault, w.2))
  verify w contextId :=
    let (answer, vault) := other.verify w.1 contextId
    (answer, (vault, w.2))

end Gateway

/-! ## Copies -/

/-- The note is a new Context with the body of one that exists, up to white space around it. -/
def IsCopy (existing : List ContextRecord) (save : ObsidianSaveNote) : Prop :=
  (∀ context ∈ existing, context.id ≠ qualifiedContextId save.noteId) ∧
    ∃ context ∈ existing, pythonStrip context.content = pythonStrip save.body

/-- Whatever the note service and the other calls do, and whatever else is stored: executing the plan saves no copy of a
Context, where the given one is among those that exist. -/
def CreatesNoCopy (platform : Platform) (context : ContextRecord) (plan : MemoryReconciliationPlan) : Prop :=
  ∀ (V : Type) (service : NoteService V) (other : CanonicalGateway V) (vault : V) (repository : Repository)
    (request : ApplyRequest) (existing : List ContextRecord), repository.getPlan request.planId = some plan →
    context ∈ existing →
    ∀ save ∈ (apply (creationGateway service other) platform request (vault, []) repository).world.2,
      ¬ IsCopy existing save

/-! ## The world through an apply -/

section World
variable {W : Type} {gateway : CanonicalGateway W} {platform : Platform} {plan : MemoryReconciliationPlan}
  {primary : Option MemoryRelationDecision} {P Q : W → Prop}

/-- The calls other than the creation of a Context keep a property of the world. -/
structure KeepsWorld (gateway : CanonicalGateway W) (Q : W → Prop) : Prop where
  merge : ∀ world contextId evidence, Q world → Q (gateway.mergeEvidence world contextId evidence).2
  supersede : ∀ world contextId replacement, Q world → Q (gateway.supersede world contextId replacement).2
  verify : ∀ world contextId, Q world → Q (gateway.verify world contextId).2

theorem verifyContext_world (h : KeepsWorld gateway Q) (contextId message : String) :
    Phase.Keeps (fun p => Q p.world) (verifyContext gateway contextId message) := by
  intro p hp
  have hseen := h.verify p.world contextId hp
  unfold verifyContext
  simp only
  cases (gateway.verify p.world contextId).1 with
  | error text => exact hseen
  | ok found => cases found <;> exact hseen

theorem createContext_world (h : KeepsWorld gateway Q)
    (hcreate : ∀ world, P world → Q (gateway.createContext world (contextCreation platform plan primary)).2) :
    Phase.Triple (fun p => P p.world) (createContext gateway platform plan primary) (fun p => Q p.world)
      fun p => Q p.world := by
  intro p hp
  have hcreated := hcreate p.world hp
  unfold createContext
  simp only
  cases (gateway.createContext p.world (contextCreation platform plan primary)).1 with
  | error text => exact hcreated
  | ok contextId => exact verifyContext_world h contextId _ _ hcreated

theorem mergeEvidence_world (h : KeepsWorld gateway Q) :
    Phase.Keeps (fun p => Q p.world) (mergeEvidence gateway plan primary) := by
  intro p hp
  unfold mergeEvidence
  cases primary with
  | none => exact hp
  | some decision =>
    have hmerged := h.merge p.world decision.existingContextId plan.candidate.sourceRefs hp
    simp only
    cases (gateway.mergeEvidence p.world decision.existingContextId plan.candidate.sourceRefs).1 with
    | error text => exact hmerged
    | ok contextId => exact verifyContext_world h contextId _ _ hmerged

theorem markSuperseded_world (h : KeepsWorld gateway Q) :
    Phase.Keeps (fun p => Q p.world) (markSuperseded gateway primary) := by
  intro p hp
  unfold markSuperseded
  cases primary with
  | none => exact hp
  | some decision =>
    cases p.createdContextId with
    | none => exact hp
    | some created =>
      have hsuperseded := h.supersede p.world decision.existingContextId created hp
      simp only
      cases (gateway.supersede p.world decision.existingContextId created).1 with
      | error text => exact hsuperseded
      | ok answer => exact hsuperseded

theorem persistPrimaryRelation_world :
    Phase.Keeps (fun p => Q p.world) (persistPrimaryRelation platform plan primary : ApplyPhase W) := by
  intro p hp
  unfold persistPrimaryRelation
  cases primary with
  | none => exact hp
  | some decision =>
    simp only
    cases p.repository.upsertRelation (relationRecord platform plan decision p.createdContextId) with
    | error exc => exact hp
    | ok stored => exact hp

theorem persistConflict_world :
    Phase.Keeps (fun p => Q p.world) (persistConflict platform plan primary : ApplyPhase W) := by
  intro p hp
  unfold persistConflict
  cases conflictIds platform.uuid5 plan primary with
  | nil => exact hp
  | cons id ids =>
    cases primary with
    | none => exact hp
    | some decision =>
      cases p.createdContextId with
      | none => exact hp
      | some created =>
        simp only
        cases p.repository.upsertConflict (openConflict platform plan decision created id) with
        | error exc => exact hp
        | ok stored => exact hp

theorem writeCreatedState_world :
    Phase.Keeps (fun p => Q p.world) (writeCreatedState platform plan primary : ApplyPhase W) := by
  intro p hp
  unfold writeCreatedState
  cases p.createdContextId with
  | none => exact hp
  | some created => exact hp

theorem writeTargetState_world :
    Phase.Keeps (fun p => Q p.world) (writeTargetState platform plan primary : ApplyPhase W) := by
  intro p hp
  unfold writeTargetState
  cases primary with
  | none => exact hp
  | some decision =>
    simp only
    cases targetState plan decision p.createdContextId (conflictIds platform.uuid5 plan (some decision))
        (p.repository.getTemporalState decision.existingContextId) with
    | error text => exact hp
    | ok state => exact hp

/-- An apply goes from a world with `P` to one with `Q` when creating the plan's Context does, or there is none to create,
and all other calls keep `Q`. -/
theorem applyPhases_world (h : KeepsWorld gateway Q)
    (hcreate : hasAction plan .createContext = true →
      ∀ world, P world → Q (gateway.createContext world (contextCreation platform plan primary)).2)
    (hskip : hasAction plan .createContext = false → ∀ world, P world → Q world) :
    Phase.Triple (fun p => P p.world) (Phase.sequence (applyPhases gateway platform plan primary)) (fun p => Q p.world)
      fun p => Q p.world := by
  have hfirst : Phase.Triple (fun p => P p.world)
      (whenAction plan .createContext (createContext gateway platform plan primary)) (fun p => Q p.world)
      fun p => Q p.world :=
    whenAction_triple (fun haction => createContext_world h (hcreate haction)) fun haction p => hskip haction p.world
  exact hfirst.cons (laterPhases_keeps gateway (mergeEvidence_world h) persistPrimaryRelation_world persistConflict_world
    (markSuperseded_world h) writeCreatedState_world writeTargetState_world fun _ hp => hp)

theorem finish_world (repository : Repository) (result : MemoryReconciliationResult) (p : Progress W) :
    (finish repository result p).world = p.world := by
  unfold finish
  split <;> rfl

theorem applyPlan_world (h : KeepsWorld gateway Q)
    (hcreate : hasAction plan .createContext = true →
      ∀ world, P world → Q (gateway.createContext world (contextCreation platform plan (primaryDecision plan))).2)
    (hskip : hasAction plan .createContext = false → ∀ world, P world → Q world) (reviewedBy : Option String) {world : W}
    (repository : Repository) (hworld : P world) :
    Q (applyPlan gateway platform plan reviewedBy world repository).world := by
  have hphases := applyPhases_world h hcreate hskip (Progress.start world repository) hworld
  unfold applyPlan
  simp only [Phase.run]
  cases hrun : Phase.sequence (applyPhases gateway platform plan (primaryDecision plan))
      (Progress.start world repository) with
  | ok p =>
    rw [hrun] at hphases
    simp only [finish_world]
    exact hphases
  | error failure =>
    obtain ⟨exc, p⟩ := failure
    rw [hrun] at hphases
    cases exc with
    | raised text =>
      simp only [finish_world]
      exact hphases
    | integrity => exact hphases

end World

/-! ## Candidates and plans of existing Contexts -/

section Existing
variable {platform : Platform} {context : ContextRecord} {temporal : MemoryTemporalState} {newId : String} {now : Instant}
  {candidate : MemoryCandidate} {plan : MemoryReconciliationPlan} {decision : MemoryRelationDecision}

theorem createCandidate_eq_ok {payload : MemoryCandidateCreate}
    (h : createCandidate platform newId now payload = .ok candidate) :
    candidate.candidateId = (payload.candidateId.filter (· ≠ "")).getD newId ∧
      candidate.body = pythonStrip payload.body := by
  unfold createCandidate at h
  split at h
  · cases h
  · split at h
    · cases h
    · split at h
      · split at h
        · cases h
        · cases hclaims : payload.canonicalClaims.mapM normalizedClaim with
          | error text =>
            rw [hclaims] at h
            cases h
          | ok claims =>
            cases hrefs : payload.sourceRefs.mapM normalizedSourceRef with
            | error text =>
              rw [hclaims, hrefs] at h
              cases h
            | ok sourceRefs =>
              rw [hclaims, hrefs] at h
              cases h
              exact ⟨rfl, rfl⟩
      · cases h

/-- The candidate of an existing Context has its body, and an identifier made from the Context's. -/
theorem existingCandidate_eq (h : createCandidate platform newId now (candidatePayload platform context temporal) =
    .ok candidate) : candidate.candidateId = "existing:" ++ context.id ∧ candidate.body = pythonStrip context.content := by
  obtain ⟨hid, hbody⟩ := createCandidate_eq_ok h
  refine ⟨hid.trans ?_, hbody⟩
  have hnonempty : "existing:" ++ context.id ≠ "" := by
    intro hempty
    have hlength := congrArg String.length hempty
    rw [String.length_append] at hlength
    have hmarked : "existing:".length = 9 := by decide
    rw [hmarked, String.length_empty] at hlength
    omega
  simp [candidatePayload, Option.filter, hnonempty]

theorem pythonStrip_pythonStrip (text : String) : pythonStrip (pythonStrip text) = pythonStrip text := by
  simp [pythonStrip, trimBy_trimBy]

theorem candidateLifecycle_accepted (h : plan.requiresReview = false) :
    ∃ status, lifecycleStatus (candidateLifecycle plan) = .ok status := by
  have hactive : lifecycleStatus "active" = .ok "active" := by decide
  have hcurrent : lifecycleStatus "current" = .ok "current" := by decide
  have hdraft : lifecycleStatus "draft" = .ok "draft" := by decide
  unfold candidateLifecycle
  rw [h]
  simp only [Bool.false_eq_true, if_false]
  split
  · rename_i hrequested
    simp only [List.mem_cons, List.not_mem_nil, or_false] at hrequested
    obtain hrequested | hrequested | hrequested := hrequested
    · rw [hrequested]
      exact ⟨_, hactive⟩
    · rw [hrequested]
      exact ⟨_, hcurrent⟩
    · rw [hrequested]
      exact ⟨_, hdraft⟩
  · exact ⟨_, hactive⟩

/-- Of the relations that need no review only EXTENDS creates a Context. -/
theorem creates_iff_extending {relation : MemoryRelationType} (hreview : reviewRelation relation = false)
    (hrelated : relation ≠ .unrelated) :
    ((actionTypes relation).any fun action => action.1 = .createContext) = true ↔ relation = .extending := by
  cases relation <;> simp_all [actionTypes, reviewRelation]

/-- What holds of the notes that were saved as new Contexts. -/
def OnSaves {V : Type} (R : List ObsidianSaveNote → Prop) (world : V × List ObsidianSaveNote) : Prop := R world.2

theorem keepsWorld_creationGateway {V : Type} (service : NoteService V) (other : CanonicalGateway V)
    (R : List ObsidianSaveNote → Prop) : KeepsWorld (creationGateway service other) (OnSaves R) :=
  ⟨fun _ _ _ h => h, fun _ _ _ h => h, fun _ _ h => h⟩

/-- Without a note of the Context that is extended nothing is saved. -/
theorem createContext_unread {V : Type} (service : NoteService V) (other : CanonicalGateway V)
    (hnote : contextNoteId decision.existingContextId = none) (world : V × List ObsidianSaveNote) :
    ((creationGateway service other).createContext world (contextCreation platform plan (some decision))).2 = world := by
  have hrelated : relatedNote service world.1 (contextCreation platform plan (some decision)) =
      .error ("Context not found: " ++ decision.existingContextId) := by
    simp [relatedNote, contextCreation, readContextNote, hnote, Except.map]
  unfold creationGateway
  simp only [hrelated]
  split
  · rfl
  · rfl
  · rename_i heq
    cases heq

/-- A service that reads every note as a Context and saves what it is given. -/
def acceptingService : NoteService Unit where
  readNote _ noteId := .ok ⟨noteId, noteId ++ ".md", true⟩
  saveNote _ save := (.ok save.noteId, ())

variable (platform) in
/-- It saves a note with the candidate's body. -/
theorem createContext_saved (hreview : plan.requiresReview = false) {noteId : String}
    (hnote : contextNoteId decision.existingContextId = some noteId) :
    ∃ save, save.noteId = plan.candidate.candidateId ∧ save.body = plan.candidate.body ∧
      ((creationGateway acceptingService acceptingGateway).createContext ((), [])
        (contextCreation platform plan (some decision))).2.2 = [save] := by
  obtain ⟨status, hstatus⟩ := candidateLifecycle_accepted hreview
  have hrelated : relatedNote acceptingService () (contextCreation platform plan (some decision)) =
      .ok (some ⟨noteId, noteId ++ ".md", true⟩) := by
    simp [relatedNote, contextCreation, readContextNote, hnote, acceptingService, Except.map]
  have hlifecycle : lifecycleStatus (contextCreation platform plan (some decision)).lifecycleStatus = .ok status := hstatus
  refine ⟨savePayload (contextCreation platform plan (some decision)) status (some ⟨noteId, noteId ++ ".md", true⟩),
    rfl, rfl, ?_⟩
  simp only [creationGateway, hlifecycle, hrelated]
  rfl

/-! ## Which plans copy -/

theorem childPlan_eq_some {planId : String} {decisions : List MemoryRelationDecision}
    (h : childPlan platform planId context candidate decisions = some plan) :
    decisions ≠ [] ∧ plan.planId = planId ∧ plan.candidate = candidate ∧ plan.decisions = decisions ∧ IsBuilt plan := by
  have hbuilt := childPlan_isBuilt plan h
  unfold childPlan at h
  split at h
  · cases h
  · rename_i hnonempty
    cases h
    exact ⟨by simpa using hnonempty, rfl, rfl, rfl, hbuilt⟩

/-- A child plan without review creates a Context exactly when the decision that is recovered is EXTENDS. -/
theorem childPlan_creates_iff (hbuilt : IsBuilt plan) (hreview : plan.requiresReview = false)
    (hmeaningful : ∀ decision ∈ plan.decisions, decision.relation ≠ .unrelated)
    (hdecision : primaryDecision plan = some decision) :
    hasAction plan .createContext = true ↔ decision.relation = .extending := by
  have hmem : decision ∈ plan.decisions := List.mem_of_find?_eq_some hdecision
  obtain ⟨selected, hselected⟩ := selectPrimaryDecision_isSome (List.ne_nil_of_mem hmem)
  obtain ⟨recovered, hrecovered, -, hrelation⟩ := hbuilt.exists_primaryDecision hselected
  obtain rfl := Option.some.inj (hdecision.symm.trans hrecovered)
  have hunreviewed : reviewRelation decision.relation = false := by
    rw [hrelation, ← hreview, hbuilt.review, hbuilt.relation, hselected]
    rfl
  rw [hbuilt.hasAction_eq hselected, ← hrelation]
  exact creates_iff_extending hunreviewed (hmeaningful decision hmem)

theorem apply_world {W : Type} {gateway : CanonicalGateway W} {request : ApplyRequest} {world : W}
    {repository : Repository} {Q : W → Prop} (hstored : repository.getPlan request.planId = some plan) (hworld : Q world)
    (happlied : ∀ reviewedBy, Q (applyPlan gateway platform plan reviewedBy world repository).world) :
    Q (apply gateway platform request world repository).world := by
  unfold apply
  rw [hstored]
  simp only
  split
  · exact hworld
  · split
    · exact hworld
    · exact happlied _

theorem createsNoCopy_of_unread (hbuilt : IsBuilt plan) (hreview : plan.requiresReview = false)
    (hmeaningful : ∀ decision ∈ plan.decisions, decision.relation ≠ .unrelated)
    (hdecision : primaryDecision plan = some decision)
    (hunread : decision.relation = .extending → contextNoteId decision.existingContextId = none) :
    CreatesNoCopy platform context plan := by
  intro V service other vault repository request existing hstored _ save hsave
  have hcreates := childPlan_creates_iff hbuilt hreview hmeaningful hdecision
  have hempty : OnSaves (· = []) (apply (creationGateway service other) platform request (vault, []) repository).world := by
    refine apply_world hstored rfl ?_
    intro reviewedBy
    refine applyPlan_world (P := OnSaves (· = [])) (keepsWorld_creationGateway service other _) ?_ (fun _ _ h => h)
      reviewedBy repository rfl
    intro haction world hworld
    rw [hdecision, createContext_unread service other (hunread (hcreates.mp haction))]
    exact hworld
  unfold OnSaves at hempty
  rw [hempty] at hsave
  cases hsave

/-- An existing Context is not the one that a plan for it creates. -/
theorem id_ne_qualifiedContextId (id : String) : id ≠ qualifiedContextId ("existing:" ++ id) := by
  intro heq
  have hlength := congrArg String.length heq
  have hobsidian : "obsidian:".length = 9 := by decide
  rw [qualifiedContextId, String.length_append, String.length_append, hobsidian] at hlength
  omega

theorem not_createsNoCopy_of_read (hcandidate : plan.candidate.candidateId = "existing:" ++ context.id ∧
      plan.candidate.body = pythonStrip context.content) (hbuilt : IsBuilt plan) (hreview : plan.requiresReview = false)
    (hmeaningful : ∀ decision ∈ plan.decisions, decision.relation ≠ .unrelated)
    (hdecision : primaryDecision plan = some decision) (hrelation : decision.relation = .extending) {noteId : String}
    (hnote : contextNoteId decision.existingContextId = some noteId) : ¬ CreatesNoCopy platform context plan := by
  intro hnone
  obtain ⟨save, hid, hbody, hsaved⟩ := createContext_saved platform hreview hnote
  have hcreates := childPlan_creates_iff hbuilt hreview hmeaningful hdecision
  have hstored : Repository.getPlan { Repository.empty with plans := [plan] } plan.planId = some plan := by
    simp [Repository.getPlan, Keyed.lookup]
  have happly : apply (creationGateway acceptingService acceptingGateway) platform ⟨plan.planId, false, false, none⟩
      ((), []) { Repository.empty with plans := [plan] } =
      applyPlan (creationGateway acceptingService acceptingGateway) platform plan none ((), [])
        { Repository.empty with plans := [plan] } := by
    have hunused : reusedResult { Repository.empty with plans := [plan] } ⟨plan.planId, false, false, none⟩ = none := rfl
    have hreviewer : validatedReviewer plan ⟨plan.planId, false, false, none⟩ = some none := if_pos hreview
    unfold apply
    simp only [hstored, hunused, hreviewer]
  have hmem : OnSaves (save ∈ ·) (applyPlan (creationGateway acceptingService acceptingGateway) platform plan none ((), [])
      { Repository.empty with plans := [plan] }).world := by
    refine applyPlan_world (P := (· = ((), []))) (keepsWorld_creationGateway _ _ _) ?_ ?_ none _ rfl
    · intro _ world hworld
      rw [hworld, hdecision]
      unfold OnSaves
      rw [hsaved]
      exact List.mem_singleton_self _
    · intro haction
      rw [hcreates.mpr hrelation] at haction
      cases haction
  refine hnone Unit acceptingService acceptingGateway () { Repository.empty with plans := [plan] }
    ⟨plan.planId, false, false, none⟩ [context] hstored (List.mem_singleton_self _) save (happly ▸ hmem) ⟨?_, ?_⟩
  · intro other hother
    obtain rfl := List.mem_singleton.mp hother
    rw [hid, hcandidate.1]
    exact id_ne_qualifiedContextId other.id
  · refine ⟨context, List.mem_singleton_self _, ?_⟩
    rw [hbody, hcandidate.2, pythonStrip_pythonStrip]

/-- For every Context that is scanned and all decisions that relate it to others: a child plan without review saves no
copy of a Context, whatever the note service does, exactly when the decision that the applier recovers is not EXTENDS,
or is about a Context that has no note. -/
theorem reconciling_creates_no_copy_iff (platform : Platform) (context : ContextRecord) (temporal : MemoryTemporalState)
    (newId : String) (now : Instant) (candidate : MemoryCandidate)
    (hcandidate : createCandidate platform newId now (candidatePayload platform context temporal) = .ok candidate)
    (decisions : List MemoryRelationDecision) (hmeaningful : ∀ decision ∈ decisions, decision.relation ≠ .unrelated)
    (planId : String) (plan : MemoryReconciliationPlan)
    (hplan : childPlan platform planId context candidate decisions = some plan) (hreview : plan.requiresReview = false) :
    CreatesNoCopy platform context plan ↔
      ∀ decision, primaryDecision plan = some decision → decision.relation = .extending →
        contextNoteId decision.existingContextId = none := by
  obtain ⟨hnonempty, -, hsame, rfl, hbuilt⟩ := childPlan_eq_some hplan
  obtain ⟨selected, hselected⟩ := selectPrimaryDecision_isSome hnonempty
  obtain ⟨decision, hdecision, -⟩ := hbuilt.exists_primaryDecision hselected
  constructor
  · intro hnone other hother hrelation
    obtain rfl := Option.some.inj (hdecision.symm.trans hother)
    cases hnote : contextNoteId decision.existingContextId with
    | none => rfl
    | some noteId =>
      refine absurd hnone (not_createsNoCopy_of_read ?_ hbuilt hreview hmeaningful hdecision hrelation hnote)
      rw [hsame]
      exact existingCandidate_eq hcandidate
  · intro hunread
    exact createsNoCopy_of_unread hbuilt hreview hmeaningful hdecision (hunread decision hdecision)

end Existing

/-! ## A note that is more specific than another -/

def generalNote : ContextRecord :=
  let note := noteContext "obsidian:b" "service port" "the service listens on port 8080." "b.md"
  { note with metadata := { note.metadata with canonicalClaims := [⟨"service", "port", "8080", [], .positive⟩] } }

/-- It says the same about one environment. -/
def specificNote : ContextRecord :=
  let note := noteContext "obsidian:a" "port in production" "in production the service listens on port 8080." "a.md"
  { note with
    metadata := { note.metadata with
      canonicalClaims := [⟨"service", "port", "8080", [⟨"environment", "production"⟩], .positive⟩] } }

/-- The child plan that a scan of the specific note leads to, when both notes are found for it. -/
def specificPlan : Option MemoryReconciliationPlan :=
  (prepareContext samplePlatform ⟨fun _ => [specificNote, generalNote], none, Repository.empty⟩ "plan-1"
    specificNote).toOption.bind (·.plan)

/-- What is saved when the plan is executed, and the relation it was built for. -/
def savedNotes (plan : MemoryReconciliationPlan) : MemoryRelationType × Bool × List (String × String) :=
  (plan.primaryDecision, plan.requiresReview,
    (apply (creationGateway acceptingService acceptingGateway) samplePlatform ⟨plan.planId, false, false, none⟩ ((), [])
      { Repository.empty with plans := [plan] }).world.2.map fun save => (save.noteId, save.body))

theorem specificPlan_saves : specificPlan.map savedNotes =
    some (.extending, false, [("existing:obsidian:a", "in production the service listens on port 8080.")]) := by
  decide +kernel

/-- The scan of the specific note leads to a plan without review that saves its body once more. -/
theorem reconciling_copies_context :
    ¬ ∀ (platform : Platform) (sources : ScanSources) (planId : String) (context : ContextRecord)
      (prepared : PreparedContext) (plan : MemoryReconciliationPlan),
      prepareContext platform sources planId context = .ok prepared → prepared.plan = some plan →
      plan.requiresReview = false → CreatesNoCopy platform context plan := by
  intro none_copied
  obtain ⟨plan, hplan, hsaved⟩ := Option.map_eq_some_iff.mp specificPlan_saves
  obtain ⟨prepared, hprepared, hchild⟩ := Option.bind_eq_some_iff.mp hplan
  obtain ⟨-, hreview, hsaves⟩ : plan.primaryDecision = .extending ∧ plan.requiresReview = false ∧ _ := by
    simpa only [savedNotes, Prod.mk.injEq] using hsaved
  have hscan : prepareContext samplePlatform ⟨fun _ => [specificNote, generalNote], none, Repository.empty⟩ "plan-1"
      specificNote = .ok prepared := by
    cases hresult : prepareContext samplePlatform ⟨fun _ => [specificNote, generalNote], none, Repository.empty⟩ "plan-1"
        specificNote with
    | error text =>
      rw [hresult] at hprepared
      cases hprepared
    | ok result =>
      rw [hresult] at hprepared
      exact congrArg _ (Option.some.inj hprepared)
  have hmem : ("existing:obsidian:a", "in production the service listens on port 8080.") ∈ _ :=
    hsaves ▸ List.mem_singleton_self _
  obtain ⟨save, hsave, hfields⟩ := List.mem_map.mp hmem
  obtain ⟨hid, hbody⟩ := Prod.mk.inj hfields
  have hstored : Repository.getPlan { Repository.empty with plans := [plan] } plan.planId = some plan := by
    simp [Repository.getPlan, Keyed.lookup]
  refine none_copied samplePlatform _ "plan-1" specificNote prepared plan hscan hchild hreview Unit acceptingService
    acceptingGateway () { Repository.empty with plans := [plan] } ⟨plan.planId, false, false, none⟩
    [specificNote, generalNote] hstored (List.mem_cons_self ..) save hsave ⟨?_, ?_⟩
  · rw [hid]
    decide
  · rw [hbody]
    exact ⟨specificNote, List.mem_cons_self .., rfl⟩

theorem reconciling_creates_no_copy_supports : ∃ candidate plan,
    createCandidate samplePlatform "plan-1" 0 (candidatePayload samplePlatform specificNote (defaultTemporal specificNote)) =
      .ok candidate ∧
    childPlan samplePlatform "plan-1" specificNote candidate [sampleDecision "obsidian:b" .supports 1] = some plan ∧
    CreatesNoCopy samplePlatform specificNote plan := by
  have hcreated : (createCandidate samplePlatform "plan-1" 0
      (candidatePayload samplePlatform specificNote (defaultTemporal specificNote))).isOk = true := by
    decide
  cases hcandidate : createCandidate samplePlatform "plan-1" 0
      (candidatePayload samplePlatform specificNote (defaultTemporal specificNote)) with
  | error text =>
    rw [hcandidate] at hcreated
    cases hcreated
  | ok candidate =>
    refine ⟨candidate, _, rfl, rfl, ?_⟩
    refine (reconciling_creates_no_copy_iff samplePlatform specificNote (defaultTemporal specificNote) "plan-1" 0 candidate
      hcandidate [sampleDecision "obsidian:b" .supports 1] (by simp [sampleDecision]) "plan-1" _ rfl rfl).mpr ?_
    intro decision hdecision hrelation
    have hmem := List.mem_of_find?_eq_some hdecision
    obtain rfl := List.mem_singleton.mp hmem
    cases hrelation

end Alexandria.Reconciliation
