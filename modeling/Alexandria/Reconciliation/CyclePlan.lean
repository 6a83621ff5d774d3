import Alexandria.Reconciliation.Publication

/-! # The plan of a memory cycle and its hash

A preview scans the window, collects the facts, reads the sources and renders the Compact it would write. Its hash covers
the scope, the sources, the Compact and the child plans, without the identifiers that a preview draws anew; the decisions
of a child are hashed in the order of their targets, not in the order in which an apply goes through them.
-/

namespace Alexandria.Reconciliation
set_option autoImplicit false
open Text

/-! ## Rendering -/

section Rendering
variable (isoformat : Instant → String)

def instantText : Option Instant → String
  | none => "open"
  | some instant => isoformat instant

def renderFact (fact : MemoryCompactFact) : List String :=
  ["- **" ++ fact.title ++ "** — " ++ pythonStrip fact.content] ++
    (if fact.validFrom.isSome || fact.validTo.isSome then
      ["  - Validity: " ++ instantText isoformat fact.validFrom ++ " → " ++ instantText isoformat fact.validTo] else []) ++
    (if fact.conflictSetIds.isEmpty then [] else ["  - Conflict sets: " ++ ", ".intercalate fact.conflictSetIds]) ++
    (if fact.relationSummary.isEmpty then [] else ["  - Relations: " ++ ", ".intercalate fact.relationSummary])

def renderSection (heading : String) (facts : List MemoryCompactFact) : List String :=
  ["## " ++ heading] ++ (if facts.isEmpty then ["- None"] else facts.flatMap (renderFact isoformat)) ++ [""]

def renderFactBuckets (buckets : MemoryCompactFactBuckets) : String :=
  let rendered := renderSection isoformat "Current Facts" buckets.currentFacts ++
    renderSection isoformat "Historical Facts" buckets.historicalFacts ++
    renderSection isoformat "Open Conflicts" buckets.openConflicts ++
    renderSection isoformat "Uncertain Claims" buckets.uncertainClaims ++
    renderSection isoformat "Superseded Facts" buckets.supersededFacts
  String.ofList (("\n".intercalate rendered).toList.rdropWhile isPythonWhitespace) ++ "\n"

def evidenceLine (fact : MemoryCompactFact) : Option String :=
  fact.evidenceRefs.head?.map fun path => "- " ++ fact.contextId ++ " — source: `" ++ path ++ "`."

def orElseLine (line : String) (lines : List String) : List String := if lines.isEmpty then [line] else lines

def renderCompactBody (project : String) (windowStart windowEnd : Instant) (facts : MemoryCompactFactBuckets)
    (blockers : List String) : String :=
  let projectText := if project = "" then "default" else project
  "\n".intercalate <|
    ["# Alexandria Memory Compact", "", "## Durable Decisions",
      "- Project `" ++ projectText ++ "` memory cycle facts remain source cited.", "", "## Current State",
      "- Project: `" ++ projectText ++ "`.",
      "- Window: `" ++ isoformat windowStart ++ "` → `" ++ isoformat windowEnd ++ "`.",
      renderFactBuckets isoformat facts, "", "## Risks and Blockers"] ++
    orElseLine "- No unresolved reconciliation blockers were found." (blockers.map fun blocker => "- " ++ blocker) ++
    ["", "## Next Actions",
      if blockers.isEmpty then "- Continue bounded retrieval verification for this project window."
      else "- Review the listed candidates before promotion.",
      "", "## Coverage", "- covered_from: `" ++ isoformat windowStart ++ "`.",
      "- covered_to: `" ++ isoformat windowEnd ++ "`.", "- project: `" ++ projectText ++ "`.", "", "## Evidence Summary"] ++
    orElseLine "- No selected source facts." (facts.allFacts.filterMap evidenceLine) ++ [""]

end Rendering

/-! ## The semantic plan -/

inductive MemoryCompactStatus
  | draft
  | current
  | superseded
  | archived
  deriving DecidableEq

structure MemoryCycleCompactSnapshot where
  compactId : String
  contentHash : String
  sourceSetHash : Option String
  status : MemoryCompactStatus

/-- The part of the Compact change that a plan decides; its identifier and verdict come later. -/
structure MemoryCycleCompactChange where
  status : MemoryCompactStatus
  contentHash : String
  sourceSetHash : String
  safeToPublish : Bool
  warnings : List String

structure MemoryCycleRequest where
  project : String
  workspaceId : Option String
  scope : ContextScope
  windowStart : Instant
  windowEnd : Instant
  maxContexts : ℕ
  idempotencyKey : String
  expectedPlanHash : Option String

structure SemanticDecision where
  existingContextId : String
  relation : MemoryRelationType
  confidence : ℚ
  reason : String
  claimMatches : List String
  policyVersion : String

structure SemanticChild where
  idempotencyKey : String
  candidateId : String
  candidateContentHash : String
  primaryDecision : MemoryRelationType
  requiresReview : Bool
  warnings : List String
  decisions : List SemanticDecision
  actions : List MemoryReconciliationAction

/-- The payload of `semantic_plan_hash`. -/
structure SemanticPlan where
  project : String
  workspaceId : Option String
  scope : ContextScope
  windowStart : Instant
  windowEnd : Instant
  maxContexts : ℕ
  sourceSnapshot : List MemoryCycleSourceSnapshot
  currentCompact : Option MemoryCycleCompactSnapshot
  children : List SemanticChild
  compact : MemoryCycleCompactChange

/-- The order of the tuples of target, relation and reason. -/
def decisionLe (a b : MemoryRelationDecision) : Bool :=
  if a.existingContextId = b.existingContextId then
    if a.relation = b.relation then decide (a.reason ≤ b.reason) else decide (a.relation.value < b.relation.value)
  else decide (a.existingContextId < b.existingContextId)

def semanticDecision (decision : MemoryRelationDecision) : SemanticDecision where
  existingContextId := decision.existingContextId
  relation := decision.relation
  confidence := decision.confidence
  reason := decision.reason
  claimMatches := decision.claimMatches
  policyVersion := decision.policyVersion

def semanticChild (plan : MemoryReconciliationPlan) : SemanticChild where
  idempotencyKey := plan.idempotencyKey
  candidateId := plan.candidate.candidateId
  candidateContentHash := plan.candidate.contentHash
  primaryDecision := plan.primaryDecision
  requiresReview := plan.requiresReview
  warnings := plan.warnings
  decisions := (plan.decisions.insertionSort fun a b => decisionLe a b).map semanticDecision
  actions := plan.actions

def semanticPlan (request : MemoryCycleRequest) (sourceSnapshot : List MemoryCycleSourceSnapshot)
    (currentCompact : Option MemoryCycleCompactSnapshot) (plans : List MemoryReconciliationPlan)
    (compactChange : MemoryCycleCompactChange) : SemanticPlan where
  project := request.project
  workspaceId := request.workspaceId
  scope := request.scope
  windowStart := request.windowStart
  windowEnd := request.windowEnd
  maxContexts := request.maxContexts
  sourceSnapshot := sourceSnapshot
  currentCompact := currentCompact
  children := (plans.insertionSort fun a b => a.idempotencyKey ≤ b.idempotencyKey).map semanticChild
  compact := compactChange

/-! ## The preview -/

/-- What the cycle takes from the library besides: instants as text, and digests of the canonical JSON of its data. -/
structure CycleDigests where
  isoformat : Instant → String
  sourceSetHash : List MemoryCompactSourceRef → String
  planHash : SemanticPlan → String

/-- What a preview reads: the pages of the window, the search and the model, the sources and the current Compact. -/
structure CycleSources where
  pages : ContextPages
  search : RecallSource
  provider : Option ProposalProvider
  reader : SourceReader
  currentCompact : Option MemoryCycleCompactSnapshot
  /-- The identifier that the child plan of a Context draws. -/
  planIds : String → String

structure CyclePreview where
  previews : List ExistingMemoryPlanPreview
  plans : List MemoryReconciliationPlan
  compactSourceRefs : List MemoryCompactSourceRef
  sourceSnapshot : List MemoryCycleSourceSnapshot
  compactChange : MemoryCycleCompactChange
  planHash : String

def unsafeReasons (platform : Platform) (request : MemoryCycleRequest) (previews : List ExistingMemoryPlanPreview) :
    List String :=
  dedupe (cycleBlockers platform previews ++
    (if request.workspaceId.isSome then
      ["workspace-filtered cycle cannot promote the project CURRENT Compact"] else []))

def compactChangeFor (platform : Platform) (digests : CycleDigests) (request : MemoryCycleRequest)
    (previews : List ExistingMemoryPlanPreview) : MemoryCycleCompactChange :=
  let facts := buildCycleFacts previews
  let reasons := unsafeReasons platform request previews
  { status := if reasons.isEmpty then .current else .draft
    contentHash := platform.hashText (renderCompactBody digests.isoformat request.project request.windowStart
      request.windowEnd facts.factBuckets reasons)
    sourceSetHash := digests.sourceSetHash facts.sourceRefs
    safeToPublish := reasons.isEmpty
    warnings := reasons }

/-- `_preview`; it writes nothing. -/
def cyclePreview (platform : Platform) (digests : CycleDigests) (sources : CycleSources)
    (repository : Repository) (request : MemoryCycleRequest) : Except String CyclePreview := do
  let contexts := scannedContexts sources.pages request.maxContexts request.maxContexts
  let previews ← previewPlans platform ⟨sources.search, sources.provider, repository⟩ sources.planIds contexts
  let sourceSnapshot ← snapshot platform sources.reader previews
  let plans := previews.filterMap (·.plan)
  let compactChange := compactChangeFor platform digests request previews
  return {
    previews := previews
    plans := plans
    compactSourceRefs := (buildCycleFacts previews).sourceRefs
    sourceSnapshot := sourceSnapshot
    compactChange := compactChange
    planHash := digests.planHash
      (semanticPlan request sourceSnapshot sources.currentCompact plans compactChange) }

end Alexandria.Reconciliation
