import Alexandria.Foundations.Keyed
import Alexandria.Foundations.Text
import Alexandria.Notes.Identity
import Mathlib.Data.List.Sort

/-! # Context packs

`retrieval/context_pack.py` with `context_retrieval_metadata.py`. The pack is one Markdown text: a header, the selected matches
by section, each with its header lines and its content, and the evidence references. The frame is rendered with empty contents
first, references are dropped until it fits, and the rest is shared out among the contents. A text is the list of its
characters where it is measured; scores are of any linear order.
-/

namespace Alexandria.Retrieval
set_option autoImplicit false

open Text
open Notes (JsonObject JsonValue ContextKind ofValue)
open Reconciliation (ContextScope dedupe)

/-! ## Read models -/

inductive ContextStorageStatus
  | saved
  | savedWithWarnings
  | redactedAndSaved
  | blockedSecretRisk
  | pendingReview
deriving DecidableEq

def ContextStorageStatus.value : ContextStorageStatus → String
  | .saved => "SAVED"
  | .savedWithWarnings => "SAVED_WITH_WARNINGS"
  | .redactedAndSaved => "REDACTED_AND_SAVED"
  | .blockedSecretRisk => "BLOCKED_SECRET_RISK"
  | .pendingReview => "PENDING_REVIEW"

def ContextStorageStatus.defaultRecall : List ContextStorageStatus := [.saved, .savedWithWarnings, .redactedAndSaved]

inductive ContextRecallLifecycleStatus
  | current
  | active
  | draft
  | pendingReview
  | reviewed
  | superseded
  | archived
  | error
  | saved
  | savedWithWarnings
  | redactedAndSaved
deriving DecidableEq

def ContextRecallLifecycleStatus.value : ContextRecallLifecycleStatus → String
  | .current => "CURRENT"
  | .active => "ACTIVE"
  | .draft => "DRAFT"
  | .pendingReview => "PENDING_REVIEW"
  | .reviewed => "REVIEWED"
  | .superseded => "SUPERSEDED"
  | .archived => "ARCHIVED"
  | .error => "ERROR"
  | .saved => "SAVED"
  | .savedWithWarnings => "SAVED_WITH_WARNINGS"
  | .redactedAndSaved => "REDACTED_AND_SAVED"

def ContextRecallLifecycleStatus.parse : String → Option ContextRecallLifecycleStatus :=
  ofValue [.current, .active, .draft, .pendingReview, .reviewed, .superseded, .archived, .error, .saved, .savedWithWarnings,
    .redactedAndSaved] ContextRecallLifecycleStatus.value

inductive RagStrategy
  | auto
  | ftsOnly
  | vectorOnly
  | hybrid
deriving DecidableEq

def RagStrategy.value : RagStrategy → String
  | .auto => "AUTO"
  | .ftsOnly => "FTS_ONLY"
  | .vectorOnly => "VECTOR_ONLY"
  | .hybrid => "HYBRID"

inductive ContextGraphSignalType
  | graphProximity
  | impactAnalysis
  | duplicateCandidate
  | supersedesCandidate
  | lineage
  | resumePath
deriving DecidableEq

def ContextGraphSignalType.value : ContextGraphSignalType → String
  | .graphProximity => "graph_proximity"
  | .impactAnalysis => "impact_analysis"
  | .duplicateCandidate => "duplicate_candidate"
  | .supersedesCandidate => "supersedes_candidate"
  | .lineage => "lineage"
  | .resumePath => "resume_path"

inductive ContextGraphDirection
  | outgoing
  | incoming
  | both
deriving DecidableEq

def ContextGraphDirection.value : ContextGraphDirection → String
  | .outgoing => "outgoing"
  | .incoming => "incoming"
  | .both => "both"

structure ContextRecord (φ : Type) where
  id : String
  kind : ContextKind
  title : String
  project : Option String
  scope : ContextScope
  agentId : Option String
  sessionId : Option String
  sourceAgent : String
  status : ContextStorageStatus
  contextMetadata : JsonObject φ
  isArchived : Bool

structure ContextChunkRecord where
  heading : Option String
  content : String

structure ContextGraphEvidence where
  signal : ContextGraphSignalType
  relation : String
  direction : ContextGraphDirection
  sourceContextId : String
  targetTitle : String
  distance : ℤ
  evidenceRef : String

structure ContextSearchMatch (σ φ : Type) where
  context : ContextRecord φ
  chunk : ContextChunkRecord
  score : σ
  ftsScore : Option σ
  vectorScore : Option σ
  whyRetrieved : String
  graphScore : Option σ
  graphEvidence : List ContextGraphEvidence

/-- The text functions of Python that the pack uses. Of the letter cases it relies on two words that `upper` gives back. -/
structure PackEnvironment (σ : Type) where
  formatScore : σ → String
  lower : String → String
  upper : String → String
  upper_active : ∀ text, lower text = "active" → upper text = "ACTIVE"
  upper_current : ∀ text, lower text = "current" → upper text = "CURRENT"

def maxContextsPerPack : ℕ := 10

def maxContextPackCharacters : ℕ := 20000

section Pack
variable {σ φ : Type}

/-! ## Retrieval metadata -/

/-- `isinstance(value, str) and value` as an optional text. -/
def nonemptyText : JsonValue φ → Option String
  | .str text => if text = "" then none else some text
  | _ => none

def canonicalContextId (context : ContextRecord φ) : String :=
  match nonemptyText (context.contextMetadata.get "canonical_context_id") with
  | some value => value
  | none => (nonemptyText (context.contextMetadata.get "obsidian_note_id")).getD context.id

/-- The state the record says, where the members of the enumeration know it. -/
def lifecycleStatus (env : PackEnvironment σ) (context : ContextRecord φ) : Option ContextRecallLifecycleStatus :=
  match nonemptyText (context.contextMetadata.get "lifecycle_status") with
  | some value => ContextRecallLifecycleStatus.parse (env.upper value)
  | none => if context.isArchived then some .archived else ContextRecallLifecycleStatus.parse context.status.value

def retrievalSource (context : ContextRecord φ) : String :=
  match context.contextMetadata.get "source_surface" with
  | .str surface => if surface = "obsidian_vault" then "obsidian_vault" else "context_vault"
  | _ => "context_vault"

def retrievalStrategy (found : ContextSearchMatch σ φ) : RagStrategy :=
  if found.graphScore.isSome then .auto
  else if found.ftsScore.isSome && found.vectorScore.isSome then .hybrid
  else if found.vectorScore.isSome then .vectorOnly
  else .ftsOnly

def sourceActorId (context : ContextRecord φ) : String :=
  match context.contextMetadata.get "provenance" with
  | .object provenance => (nonemptyText (JsonObject.get provenance "source_actor_id")).getD context.sourceAgent
  | _ => context.sourceAgent

structure ContextRetrievalMetadata where
  canonicalContextId : String
  lifecycleStatus : ContextRecallLifecycleStatus
  retrievalSource : String
  retrievalStrategy : RagStrategy
  sourceActorId : String

def retrievalMetadata (env : PackEnvironment σ) (found : ContextSearchMatch σ φ) : Option ContextRetrievalMetadata :=
  (lifecycleStatus env found.context).map fun status =>
    ⟨canonicalContextId found.context, status, retrievalSource found.context, retrievalStrategy found,
      sourceActorId found.context⟩

/-! ## Selection -/

def packLifecycleStatuses : List String := ["active", "current"]

def recallable (env : PackEnvironment σ) (found : ContextSearchMatch σ φ) : Bool :=
  !found.context.isArchived && ContextStorageStatus.defaultRecall.contains found.context.status &&
    match found.context.contextMetadata.get "lifecycle_status" with
    | .str status => packLifecycleStatuses.contains (env.lower status)
    | _ => true

/-- A match takes the place of the one with its canonical id if its score is higher. -/
def keepBest [LinearOrder σ] (bestByContext : List (String × ContextSearchMatch σ φ)) (found : ContextSearchMatch σ φ) :
    List (String × ContextSearchMatch σ φ) :=
  match Keyed.lookup Prod.fst (canonicalContextId found.context) bestByContext with
  | none => Keyed.put Prod.fst (canonicalContextId found.context, found) bestByContext
  | some existing =>
    if existing.2.score < found.score then Keyed.put Prod.fst (canonicalContextId found.context, found) bestByContext
    else bestByContext

def selectPackMatches [LinearOrder σ] (env : PackEnvironment σ) (found : List (ContextSearchMatch σ φ)) :
    List (ContextSearchMatch σ φ) :=
  ((((found.filter (recallable env)).foldl keepBest []).map Prod.snd).insertionSort fun a b => b.score ≤ a.score).take
    maxContextsPerPack

def sectionHeadings : List String := ["Project Context", "Agent Context", "Session Context"]

def sectionForScope : ContextScope → String
  | .global | .project => "Project Context"
  | .agent | .user => "Agent Context"
  | .session => "Session Context"

def packSections (selected : List (ContextSearchMatch σ φ)) : List (String × List (ContextSearchMatch σ φ)) :=
  sectionHeadings.map fun heading => (heading, selected.filter fun found => sectionForScope found.context.scope = heading)

/-! ## Rendering -/

def trimText (value : List Char) (limit : ℕ) : List Char :=
  if limit = 0 then []
  else if value.length ≤ limit then value
  else if limit = 1 then ['…']
  else value.take (limit - 1) ++ ['…']

/-- An optional field of the header, `none` where it is missing or empty. -/
def fieldText (value : Option String) : List Char :=
  match value with
  | none => "none".toList
  | some text => if text = "" then "none".toList else trimText text.toList 200

def headingText (heading : Option String) : List Char :=
  match heading with
  | none => []
  | some text => if text = "" then [] else " — ".toList ++ trimText text.toList 160

def graphEvidenceLine (item : ContextGraphEvidence) : List Char :=
  "  - ".toList ++ item.signal.value.toList ++ ": ".toList ++ item.sourceContextId.toList ++ " -[".toList ++
    item.relation.toList ++ "]-> ".toList ++ item.targetTitle.toList ++ " (direction=".toList ++ item.direction.value.toList ++
    ", distance=".toList ++ (toString item.distance).toList ++ ", evidence=".toList ++ item.evidenceRef.toList ++ [')']

def graphEvidenceLines (items : List ContextGraphEvidence) : List (List Char) :=
  if items.isEmpty then [] else "- graph_evidence:".toList :: items.map graphEvidenceLine

/-- The lines of a match in front of its content. -/
def matchHeader (env : PackEnvironment σ) (entryNumber : ℕ) (found : ContextSearchMatch σ φ) : Option (List (List Char)) :=
  (retrievalMetadata env found).map fun metadata =>
    ["### ".toList ++ (toString entryNumber).toList ++ ". ".toList ++ trimText found.context.title.toList 200 ++
        headingText found.chunk.heading,
      "- context_id: ".toList ++ trimText found.context.id.toList 200,
      "- kind: ".toList ++ found.context.kind.value.toList,
      "- scope: ".toList ++ found.context.scope.value.toList,
      "- project: ".toList ++ fieldText found.context.project,
      "- agent_id: ".toList ++ fieldText found.context.agentId,
      "- session_id: ".toList ++ fieldText found.context.sessionId,
      "- score: ".toList ++ (env.formatScore found.score).toList,
      "- canonical_context_id: ".toList ++ trimText metadata.canonicalContextId.toList 200,
      "- lifecycle_status: ".toList ++ metadata.lifecycleStatus.value.toList,
      "- retrieval_source: ".toList ++ metadata.retrievalSource.toList,
      "- retrieval_strategy: ".toList ++ metadata.retrievalStrategy.value.toList,
      "- source_actor_id: ".toList ++ trimText metadata.sourceActorId.toList 200,
      "- why: ".toList ++ trimText found.whyRetrieved.toList 240] ++ graphEvidenceLines found.graphEvidence

def matchLines (env : PackEnvironment σ) (entryNumber : ℕ) (found : ContextSearchMatch σ φ) (content : List Char) :
    Option (List (List Char)) :=
  (matchHeader env entryNumber found).map fun header => header ++ [[], content, []]

/-- The entries of one section. A content that is missing fails as a missing key does. -/
def entryLines (env : PackEnvironment σ) (contentByContext : List (String × List Char)) :
    ℕ → List (ContextSearchMatch σ φ) → Option (List (List Char))
  | _, [] => some []
  | entryNumber, found :: rest => do
    let content ← Keyed.lookup Prod.fst found.context.id contentByContext
    let lines ← matchLines env entryNumber found content.2
    let others ← entryLines env contentByContext (entryNumber + 1) rest
    some (lines ++ others)

def sectionLines (env : PackEnvironment σ) (contentByContext : List (String × List Char)) :
    ℕ → List (String × List (ContextSearchMatch σ φ)) → Option (List (List Char))
  | _, [] => some []
  | entryNumber, (heading, found) :: rest => do
    let lines ← entryLines env contentByContext entryNumber found
    let others ← sectionLines env contentByContext (entryNumber + found.length) rest
    some (("## ".toList ++ heading.toList) :: [] :: (lines ++ others))

def referenceLines (references : List (List Char)) : List (List Char) :=
  if references.isEmpty then ["- none".toList] else references.map fun reference => "- ".toList ++ reference

def openingLines (query : String) : List (List Char) :=
  ["# Alexandria Context Pack".toList, [], "Query: ".toList ++ trimText query.toList 500, []]

def evidenceHeading : List Char := "## Evidence References".toList

def renderContextPack (env : PackEnvironment σ) (query : String) (sections : List (String × List (ContextSearchMatch σ φ)))
    (evidenceReferences : List (List Char)) (contentByContext : List (String × List Char)) : Option (List Char) :=
  (sectionLines env contentByContext 1 sections).map fun entries =>
    trimBy isPythonWhitespace (['\n'].intercalate
      (openingLines query ++ entries ++ [evidenceHeading, []] ++ referenceLines evidenceReferences)) ++ ['\n']

/-! ## References -/

def referenceText : JsonValue φ → Option String
  | .str text => if trimBy isPythonWhitespace text.toList = [] then none else some text
  | _ => none

def referenceValues : JsonValue φ → List String
  | .list items => items.filterMap referenceText
  | _ => []

def matchReferences (found : ContextSearchMatch σ φ) : List String :=
  referenceValues (found.context.contextMetadata.get "artifact_refs") ++
    referenceValues (found.context.contextMetadata.get "evidence_refs") ++
    (match found.context.contextMetadata.get "provenance" with
      | .object provenance =>
        referenceValues (JsonObject.get provenance "artifact_refs") ++
          referenceValues (JsonObject.get provenance "evidence_refs")
      | _ => []) ++
    found.graphEvidence.map ContextGraphEvidence.evidenceRef

def evidenceReferences (selected : List (ContextSearchMatch σ φ)) : List (List Char) :=
  (dedupe ((selected.flatMap matchReferences).map fun reference => trimText reference.toList 300)).take 20

/-- References are taken off the end until the pack fits or none is left; they are given in reverse. -/
def dropReferences (render : List (List Char) → Option (List Char)) :
    List (List Char) → Option (List (List Char) × List Char)
  | [] => (render []).map fun basePack => ([], basePack)
  | last :: front => do
    let basePack ← render (last :: front).reverse
    if maxContextPackCharacters < basePack.length then dropReferences render front
    else some ((last :: front).reverse, basePack)

/-! ## Contents -/

def strippedContent (found : ContextSearchMatch σ φ) : List Char := trimBy isPythonWhitespace found.chunk.content.toList

/-- Each match gets an equal part of what is left for it and the matches behind it. -/
def allocateFrom (contentByContext : List (String × List Char)) (remainingBudget : ℕ) :
    List (ContextSearchMatch σ φ) → List (String × List Char)
  | [] => contentByContext
  | found :: rest =>
    let content := trimText (strippedContent found) (remainingBudget / (rest.length + 1))
    allocateFrom (Keyed.put Prod.fst (found.context.id, content) contentByContext) (remainingBudget - content.length) rest

def allocateContentBudget (selected : List (ContextSearchMatch σ φ)) (totalBudget : ℕ) : List (String × List Char) :=
  allocateFrom [] totalBudget selected

def emptyContent (selected : List (ContextSearchMatch σ φ)) : List (String × List Char) :=
  Keyed.ofList Prod.fst (selected.map fun found => (found.context.id, []))

def buildContextPack [LinearOrder σ] (env : PackEnvironment σ) (query : String) (found : List (ContextSearchMatch σ φ)) :
    Option (List Char) := do
  let selected := selectPackMatches env found
  let sections := packSections selected
  let (references, basePack) ← dropReferences
    (fun references => renderContextPack env query sections references (emptyContent selected))
    (evidenceReferences selected).reverse
  let contentBudget := maxContextPackCharacters - basePack.length
  let contextPack ← renderContextPack env query sections references (allocateContentBudget selected contentBudget)
  some (contextPack.take maxContextPackCharacters)

end Pack

end Alexandria.Retrieval
