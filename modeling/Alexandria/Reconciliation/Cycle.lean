import Alexandria.Reconciliation.Contexts

/-! # Planning a memory cycle

A cycle scans the Contexts of a window, previews a child plan for each of them, and sorts the previews into buckets. The
facts of a Compact come from the previews: every Context contributes its fact, except one whose child plan calls it a
duplicate. The Compact names the Contexts of the window as its sources, and it may be published only without blockers.
-/

namespace Alexandria.Reconciliation
set_option autoImplicit false
open Text

/-! ## Previews of a scan -/

/-- What the cycle knows about one selected Context; the child plan is one that the plan service has built. -/
structure ExistingMemoryPlanPreview where
  context : ContextRecord
  contentHash : String
  canonicalPath : String
  temporal : MemoryTemporalState
  temporalOverlayPresent : Bool
  plan : Option MemoryReconciliationPlan
  comparedContexts : List MemoryRecallCandidate
  built : ∀ child, plan = some child → IsBuilt child

def previewOf (context : ContextRecord) (prepared : PreparedContext) : ExistingMemoryPlanPreview where
  context := context
  contentHash := prepared.candidate.contentHash
  canonicalPath := prepared.canonicalPath
  temporal := prepared.temporal
  temporalOverlayPresent := prepared.temporalOverlayPresent
  plan := prepared.plan
  comparedContexts := prepared.recalled
  built := prepared.built

/-- `list_contexts` for a limit and an offset: a page of Contexts and the number of all that match. -/
abbrev ContextPages := ℕ → ℕ → List ContextRecord × ℕ

/-- The pages of a scan one after another. Every page that does not end the scan moves it on, so that as many rounds as
there are Contexts to scan are enough. -/
def scanFrom (pages : ContextPages) (maxContexts batchSize : ℕ) : ℕ → ℕ → List ContextRecord
  | 0, _ => []
  | rounds + 1, scanned =>
    if maxContexts ≤ scanned then []
    else
      let (contexts, total) := pages (min batchSize (maxContexts - scanned)) scanned
      if contexts.isEmpty then []
      else if total ≤ scanned + contexts.length then contexts
      else contexts ++ scanFrom pages maxContexts batchSize rounds (scanned + contexts.length)

def scannedContexts (pages : ContextPages) (maxContexts batchSize : ℕ) : List ContextRecord :=
  scanFrom pages maxContexts batchSize maxContexts 0

/-- `planIds` gives the identifier that the plan of a Context would draw. -/
def previewPlans (platform : Platform) (sources : ScanSources) (planIds : String → String)
    (contexts : List ContextRecord) : Except String (List ExistingMemoryPlanPreview) :=
  contexts.mapM fun context => (prepareContext platform sources (planIds context.id) context).map (previewOf context)

/-! ## Facts -/

inductive MemoryCompactFactCategory
  | current
  | historical
  | openConflict
  | uncertain
  | superseded
  deriving DecidableEq

structure MemoryCompactFact where
  contextId : String
  title : String
  content : String
  category : MemoryCompactFactCategory
  validFrom : Option Instant
  validTo : Option Instant
  evidenceRefs : List String
  conflictSetIds : List String
  relationSummary : List String
  deriving DecidableEq

structure MemoryCompactFactBuckets where
  currentFacts : List MemoryCompactFact
  historicalFacts : List MemoryCompactFact
  openConflicts : List MemoryCompactFact
  uncertainClaims : List MemoryCompactFact
  supersededFacts : List MemoryCompactFact

def MemoryCompactFactBuckets.empty : MemoryCompactFactBuckets := ⟨[], [], [], [], []⟩

/-- Append a fact to the bucket of its category. -/
def MemoryCompactFactBuckets.add (buckets : MemoryCompactFactBuckets) (fact : MemoryCompactFact) :
    MemoryCompactFactCategory → MemoryCompactFactBuckets
  | .current => { buckets with currentFacts := buckets.currentFacts ++ [fact] }
  | .historical => { buckets with historicalFacts := buckets.historicalFacts ++ [fact] }
  | .openConflict => { buckets with openConflicts := buckets.openConflicts ++ [fact] }
  | .uncertain => { buckets with uncertainClaims := buckets.uncertainClaims ++ [fact] }
  | .superseded => { buckets with supersededFacts := buckets.supersededFacts ++ [fact] }

def MemoryCompactFactBuckets.allFacts (buckets : MemoryCompactFactBuckets) : List MemoryCompactFact :=
  buckets.currentFacts ++ buckets.historicalFacts ++ buckets.openConflicts ++ buckets.uncertainClaims ++
    buckets.supersededFacts

theorem MemoryCompactFactBuckets.mem_allFacts_add {buckets : MemoryCompactFactBuckets} {fact other : MemoryCompactFact}
    (category : MemoryCompactFactCategory) :
    other ∈ (buckets.add fact category).allFacts ↔ other ∈ buckets.allFacts ∨ other = fact := by
  cases category <;> simp only [add, allFacts, List.mem_append, List.mem_singleton] <;> tauto

/-- The relation that the child plan of a preview has selected. -/
def ExistingMemoryPlanPreview.relation (item : ExistingMemoryPlanPreview) : Option MemoryRelationType :=
  item.plan.map (·.primaryDecision)

/-- `sorted({...})` of the Contexts that the decisions are about. -/
def targetContextIds (item : ExistingMemoryPlanPreview) : List String :=
  match item.plan with
  | none => []
  | some plan => (plan.decisions.map (·.existingContextId)).dedup.insertionSort (· ≤ ·)

def factCategoryFor (item : ExistingMemoryPlanPreview) (relation : Option MemoryRelationType) :
    MemoryCompactFactCategory :=
  if relation = some .contradicts then .openConflict
  else if relation = some .supersedes then .superseded
  else if !item.temporal.conflictSetIds.isEmpty then .openConflict
  else if !item.temporal.supersededBy.isEmpty then .superseded
  else if item.temporal.isCurrent then .current
  else if item.temporal.validTo.isSome then .historical
  else .uncertain

def memoryCompactFact (item : ExistingMemoryPlanPreview) (relation : Option MemoryRelationType)
    (category : MemoryCompactFactCategory) : MemoryCompactFact where
  contextId := item.context.id
  title := item.context.title
  content := item.context.content
  category := category
  validFrom := item.temporal.validFrom
  validTo := item.temporal.validTo
  evidenceRefs := [Reconciliation.canonicalPath item.context]
  conflictSetIds := item.temporal.conflictSetIds
  relationSummary := item.temporal.relationSummary ++
    match relation with
    | none => []
    | some relation => (targetContextIds item).map fun target => relation.label ++ ":" ++ target

/-- The fact of a selected Context. -/
def ExistingMemoryPlanPreview.fact (item : ExistingMemoryPlanPreview) : MemoryCompactFact :=
  memoryCompactFact item item.relation (factCategoryFor item item.relation)

/-! ## Buckets -/

structure MemoryCycleCandidate where
  contextId : String
  title : String
  canonicalPath : String
  contentHash : String
  relation : Option MemoryRelationType
  targetContextIds : List String
  childPlanKey : Option String
  reason : String
  requiresReview : Bool

/-- The buckets that a child plan can lead to; `archive_candidates` stays empty. -/
structure MemoryCycleBuckets where
  retainedFacts : List MemoryCycleCandidate
  duplicates : List MemoryCycleCandidate
  supersessionCandidates : List MemoryCycleCandidate
  contradictions : List MemoryCycleCandidate
  summaryCandidates : List MemoryCycleCandidate
  relationshipChanges : List MemoryCycleCandidate
  reviewRequired : List MemoryCycleCandidate

def MemoryCycleBuckets.empty : MemoryCycleBuckets := ⟨[], [], [], [], [], [], []⟩

/-- The reason of the first decision about a conflicting Context, else the first warning, else the relation. -/
def planReason (plan : MemoryReconciliationPlan) : String :=
  match plan.decisions.find? fun decision => plan.conflictingContextIds.contains decision.existingContextId with
  | some decision => decision.reason
  | none => plan.warnings.headD plan.primaryDecision.value

def cycleCandidate (item : ExistingMemoryPlanPreview) : MemoryCycleCandidate where
  contextId := item.context.id
  title := item.context.title
  canonicalPath := item.canonicalPath
  contentHash := item.contentHash
  relation := item.relation
  targetContextIds := targetContextIds item
  childPlanKey := item.plan.map (·.idempotencyKey)
  reason := match item.plan with
    | none => "No safe child relation was proposed"
    | some plan => planReason plan
  requiresReview := (item.plan.map (·.requiresReview)).getD false

/-- The bucket that says what becomes of the Context. -/
def addOutcome (buckets : MemoryCycleBuckets) (item : ExistingMemoryPlanPreview) : MemoryCycleBuckets :=
  let candidate := cycleCandidate item
  match item.relation with
  | some .duplicate => { buckets with duplicates := buckets.duplicates ++ [candidate] }
  | some .contradicts =>
    { buckets with
      contradictions := buckets.contradictions ++ [candidate], reviewRequired := buckets.reviewRequired ++ [candidate] }
  | some .supersedes =>
    { buckets with
      supersessionCandidates := buckets.supersessionCandidates ++ [candidate]
      reviewRequired := buckets.reviewRequired ++ [candidate] }
  | _ =>
    if candidate.requiresReview then { buckets with reviewRequired := buckets.reviewRequired ++ [candidate] }
    else { buckets with retainedFacts := buckets.retainedFacts ++ [candidate] }

/-- The buckets for the relation and for the summary, which a Context may be in besides. -/
def addRelation (buckets : MemoryCycleBuckets) (item : ExistingMemoryPlanPreview) : MemoryCycleBuckets :=
  let candidate := cycleCandidate item
  match item.relation with
  | none => { buckets with summaryCandidates := buckets.summaryCandidates ++ [candidate] }
  | some .supports | some .extending =>
    { buckets with
      relationshipChanges := buckets.relationshipChanges ++ [candidate]
      summaryCandidates := buckets.summaryCandidates ++ [candidate] }
  | _ => buckets

structure MemoryCompactSourceRef where
  sourceType : String
  sourceId : String
  title : String
  detailPath : String
  sourceHash : Option String
  deriving DecidableEq

def cycleSourceRef (item : ExistingMemoryPlanPreview) : MemoryCompactSourceRef where
  sourceType := item.context.sourceType
  sourceId := item.context.id
  title := item.context.title
  detailPath := item.canonicalPath
  sourceHash := some item.contentHash

/-- The lists that the loop over the previews appends to. -/
structure CycleFacts where
  buckets : MemoryCycleBuckets
  factBuckets : MemoryCompactFactBuckets
  sourceRefs : List MemoryCompactSourceRef

def CycleFacts.empty : CycleFacts := ⟨.empty, .empty, []⟩

def addPreview (facts : CycleFacts) (item : ExistingMemoryPlanPreview) : CycleFacts where
  buckets := addRelation (addOutcome facts.buckets item) item
  factBuckets :=
    if item.relation = some .duplicate then facts.factBuckets
    else facts.factBuckets.add item.fact (factCategoryFor item item.relation)
  sourceRefs := facts.sourceRefs ++ [cycleSourceRef item]

/-- The order of the tuples of type, identifier and path. -/
def sourceRefLe (a b : MemoryCompactSourceRef) : Bool :=
  if a.sourceType = b.sourceType then
    if a.sourceId = b.sourceId then decide (a.detailPath ≤ b.detailPath) else decide (a.sourceId < b.sourceId)
  else decide (a.sourceType < b.sourceType)

def buildCycleFacts (previews : List ExistingMemoryPlanPreview) : CycleFacts :=
  let facts := previews.foldl addPreview .empty
  { facts with sourceRefs := facts.sourceRefs.insertionSort fun a b => sourceRefLe a b }

/-! ## The safety review -/

inductive MemoryCompactSafetyIssue
  | unresolvedContradictionLeakage
  | temporalStateCollapse
  | supersededFactPresentedAsCurrent
  | unsupportedMerge
  | duplicateClaimInflation
  deriving DecidableEq

structure MemoryCompactSafetyReview where
  issues : List MemoryCompactSafetyIssue
  safeToPublish : Bool
  warnings : List String

/-- Two facts of one Context in different categories. -/
def collapsesStates (facts : List MemoryCompactFact) : Bool :=
  facts.any fun fact => facts.any fun other => fact.contextId = other.contextId ∧ fact.category ≠ other.category

/-- Two Contexts with the same normalized content. -/
def inflatesClaims (platform : Platform) (facts : List MemoryCompactFact) : Bool :=
  facts.any fun fact => facts.any fun other =>
    normalizedText platform fact.content = normalizedText platform other.content ∧ fact.contextId ≠ other.contextId

def safetyIssues (platform : Platform) (buckets : MemoryCompactFactBuckets) : List MemoryCompactSafetyIssue :=
  (if collapsesStates buckets.allFacts then [MemoryCompactSafetyIssue.temporalStateCollapse] else []) ++
  (if inflatesClaims platform buckets.allFacts then [MemoryCompactSafetyIssue.duplicateClaimInflation] else []) ++
  (if buckets.currentFacts.any fun fact => fact.evidenceRefs.isEmpty then [MemoryCompactSafetyIssue.unsupportedMerge]
    else []) ++
  (if buckets.currentFacts.any fun fact => fact.relationSummary.any fun summary => opensWith "superseded_by:" summary
    then [MemoryCompactSafetyIssue.supersededFactPresentedAsCurrent] else []) ++
  (if buckets.currentFacts.any fun fact => !fact.conflictSetIds.isEmpty
    then [MemoryCompactSafetyIssue.unresolvedContradictionLeakage] else [])

def safetyWarnings (buckets : MemoryCompactFactBuckets) : List String :=
  (if buckets.openConflicts.isEmpty then []
    else ["Open conflicts are isolated and must remain explicitly labeled in the compact."]) ++
  (if buckets.uncertainClaims.isEmpty then []
    else ["Uncertain claims are isolated and must not be rewritten as confirmed facts."]) ++
  (if buckets.supersededFacts.isEmpty then []
    else ["Superseded facts are historical context and must not appear as current state."])

def reviewFacts (platform : Platform) (buckets : MemoryCompactFactBuckets) : MemoryCompactSafetyReview where
  issues := safetyIssues platform buckets
  safeToPublish := (safetyIssues platform buckets).isEmpty
  warnings := safetyWarnings buckets

def compactBlockers (buckets : MemoryCycleBuckets) (review : MemoryCompactSafetyReview) : List String :=
  dedupe (review.warnings ++
    (if buckets.contradictions.isEmpty then [] else ["unresolved contradiction candidates require review"]) ++
    (if buckets.supersessionCandidates.isEmpty then [] else ["supersession candidates require explicit review"]) ++
    (if buckets.reviewRequired.isEmpty then [] else ["one or more child reconciliation plans require review"]) ++
    (if review.safeToPublish then [] else ["Memory Compact policy review did not pass"]))

/-- The blockers of the Compact that the previews lead to. -/
def cycleBlockers (platform : Platform) (previews : List ExistingMemoryPlanPreview) : List String :=
  compactBlockers (buildCycleFacts previews).buckets (reviewFacts platform (buildCycleFacts previews).factBuckets)

/-! ## What the loop has collected -/

theorem mem_allFacts_foldl {previews : List ExistingMemoryPlanPreview} {facts : CycleFacts} {fact : MemoryCompactFact} :
    fact ∈ (previews.foldl addPreview facts).factBuckets.allFacts ↔
      fact ∈ facts.factBuckets.allFacts ∨ ∃ item ∈ previews, item.relation ≠ some .duplicate ∧ fact = item.fact := by
  induction previews generalizing facts with
  | nil => simp
  | cons item previews ih =>
    rw [List.foldl_cons, ih]
    by_cases hduplicate : item.relation = some .duplicate
    · simp [addPreview, hduplicate]
    · simp only [addPreview, hduplicate, if_false, MemoryCompactFactBuckets.mem_allFacts_add, List.mem_cons, ne_eq,
        exists_eq_or_imp, not_false_eq_true, true_and, or_assoc]

/-- The facts of a Compact are those of the Contexts that are no duplicates. -/
theorem mem_allFacts_buildCycleFacts {previews : List ExistingMemoryPlanPreview} {fact : MemoryCompactFact} :
    fact ∈ (buildCycleFacts previews).factBuckets.allFacts ↔
      ∃ item ∈ previews, item.relation ≠ some .duplicate ∧ fact = item.fact := by
  have hempty : fact ∉ CycleFacts.empty.factBuckets.allFacts := List.not_mem_nil
  simp only [buildCycleFacts, mem_allFacts_foldl, hempty, false_or]

theorem sourceRefs_foldl (previews : List ExistingMemoryPlanPreview) (facts : CycleFacts) :
    (previews.foldl addPreview facts).sourceRefs = facts.sourceRefs ++ previews.map cycleSourceRef := by
  induction previews generalizing facts with
  | nil => simp
  | cons item previews ih =>
    rw [List.foldl_cons, ih]
    simp [addPreview]

/-- A Compact has one source for each Context of the window. -/
theorem sourceRefs_buildCycleFacts (previews : List ExistingMemoryPlanPreview) :
    (buildCycleFacts previews).sourceRefs.Perm (previews.map cycleSourceRef) := by
  have hrefs : (previews.foldl addPreview .empty).sourceRefs = previews.map cycleSourceRef := by
    rw [sourceRefs_foldl]
    rfl
  unfold buildCycleFacts
  simp only [hrefs]
  exact List.perm_insertionSort _ _

/-! ## Sample windows -/

def noteContext (id title content relativePath : String) : ContextRecord where
  id := id
  title := title
  content := content
  scope := .project
  identity := ⟨some "alexandria", none, none, none, none⟩
  sourceType := "OBSIDIAN"
  tags := []
  isArchived := false
  createdAt := 0
  metadata := ⟨some relativePath, none, none, [], none, none, none, none, [], [], [], []⟩

/-- The previews of a scan, with a search that finds the same Contexts for every candidate. -/
def previewsOf (platform : Platform) (search : RecallSource) (contexts : List ContextRecord) :
    List ExistingMemoryPlanPreview :=
  (previewPlans platform ⟨search, none, Repository.empty⟩ (fun id => "plan-" ++ id) contexts).toOption.getD []

end Alexandria.Reconciliation
