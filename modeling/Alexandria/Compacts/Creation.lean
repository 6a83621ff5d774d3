import Alexandria.Compacts.Note
import Mathlib.Data.Char
import Mathlib.Data.List.Lex

/-! # Creating Memory Compacts

What a creation accepts, the entity it becomes, and the signature by which a second creation of the same content is found.
The rubric that decides on CURRENT compacts is a parameter.
-/

namespace Alexandria.Compacts
set_option autoImplicit false
open Text
open Reconciliation (Instant)

structure MemoryCompactSourceRefCreate where
  sourceType : String
  sourceId : String
  title : String
  detailPath : String
  sourceHash : Option String
  deriving DecidableEq

structure MemoryCompactCreate where
  project : Option String
  coveredFrom : Instant
  coveredTo : Instant
  markdownBody : String
  status : MemoryCompactStatus
  sourceRefs : List MemoryCompactSourceRefCreate
  reviewVerdict : Option MemoryCompactReviewVerdict
  reviewScore : Option ℤ
  reviewMaxScore : Option ℤ
  reviewedAt : Option Instant

structure MemoryCompactReviewResult where
  verdict : MemoryCompactReviewVerdict
  totalScore : ℤ
  maxScore : ℤ
  missingRefs : List String
  contradictions : List String
  staleReasons : List String
  recommendedActions : List String

/-- The rubric for CURRENT compacts. -/
structure ReviewPolicy where
  missingCurrentSections : String → List String
  reviewMemoryCompact : MemoryCompact → MemoryCompactReviewResult

/-! ## Acceptance -/

/-- The first reference of every source, in order. -/
def deduplicateSourceRefs (refs : List MemoryCompactSourceRefCreate) : List MemoryCompactSourceRefCreate :=
  refs.foldl (fun kept ref =>
    if (ref.sourceType, ref.sourceId, ref.detailPath) ∈ kept.map fun other => (other.sourceType, other.sourceId, other.detailPath)
    then kept else kept ++ [ref]) []

def MemoryCompactSourceRefCreate.isBlank (ref : MemoryCompactSourceRefCreate) : Bool :=
  Text.isBlank isPythonWhitespace ref.sourceType || Text.isBlank isPythonWhitespace ref.sourceId ||
    Text.isBlank isPythonWhitespace ref.title || Text.isBlank isPythonWhitespace ref.detailPath

section Create
variable (policy : ReviewPolicy)

def validateCreate (payload : MemoryCompactCreate) : Except String Unit :=
  if payload.coveredTo < payload.coveredFrom then .error "covered_to must be after covered_from"
  else if isBlank isPythonWhitespace payload.markdownBody then .error "markdown_body is required"
  else if payload.status = .current ∧ payload.sourceRefs = [] then .error "Current memory compact requires source refs"
  else if payload.status = .current ∧ policy.missingCurrentSections payload.markdownBody ≠ [] then
    .error ("Current memory compact missing required sections: " ++
      ", ".intercalate (policy.missingCurrentSections payload.markdownBody))
  else if payload.sourceRefs.any (·.isBlank) then .error "Memory compact source ref fields are required"
  else .ok ()

/-- The entity that is reviewed before anything is stored. -/
def candidateCompact (payload : MemoryCompactCreate) : MemoryCompact where
  id := "__candidate__"
  project := payload.project
  coveredFrom := payload.coveredFrom
  coveredTo := payload.coveredTo
  markdownBody := payload.markdownBody
  status := payload.status
  sourceRefs := payload.sourceRefs.zipIdx.map fun entry =>
    ⟨"__candidate_source_" ++ toString entry.2 ++ "__", "__candidate__", entry.1.sourceType, entry.1.sourceId, entry.1.title,
      entry.1.detailPath, entry.1.sourceHash⟩
  createdAt := payload.coveredTo
  updatedAt := payload.coveredTo
  archivedAt := none
  reviewVerdict := payload.reviewVerdict
  reviewScore := payload.reviewScore
  reviewMaxScore := payload.reviewMaxScore
  reviewedAt := payload.reviewedAt
  metadataWarnings := []
  deduplicated := false
  sourceSetHash := none
  compactionPolicyVersion := none
  generationRevision := none
  generatedAt := none

def ensureReviewPasses (review : MemoryCompactReviewResult) : Except String Unit :=
  if review.verdict = .pass then .ok ()
  else
    let found := review.missingRefs ++ review.contradictions ++ review.staleReasons
    let reasons := if found = [] then review.recommendedActions else found
    .error ("Current memory compact review failed: " ++ review.verdict.value ++ ": " ++
      if reasons = [] then "rubric_not_passed" else ",".intercalate reasons)

def normalizedCreate (payload : MemoryCompactCreate) (now : Instant) : Except String MemoryCompactCreate := do
  let normalized := { payload with sourceRefs := deduplicateSourceRefs payload.sourceRefs }
  validateCreate policy normalized
  if normalized.status = .current then
    let review := policy.reviewMemoryCompact (candidateCompact normalized)
    ensureReviewPasses review
    return { normalized with
      reviewVerdict := some review.verdict
      reviewScore := some review.totalScore
      reviewMaxScore := some review.maxScore
      reviewedAt := some now }
  else return normalized

end Create

/-! ## The entity -/

/-- What a creation takes from the clock, the identifiers and the hash of the sources. -/
structure CreationEnvironment where
  compactId : String
  /-- The identifier of the reference at a position. -/
  refId : ℕ → String
  now : Instant
  sourceSetHash : List MemoryCompactSourceRef → String

def createdSourceRefs (creation : CreationEnvironment) (payload : MemoryCompactCreate) : List MemoryCompactSourceRef :=
  payload.sourceRefs.zipIdx.map fun entry =>
    ⟨creation.refId entry.2, creation.compactId, entry.1.sourceType, entry.1.sourceId, entry.1.title, entry.1.detailPath,
      entry.1.sourceHash⟩

/-- The compact that `create` stores. -/
def createdCompact (creation : CreationEnvironment) (payload : MemoryCompactCreate) : MemoryCompact where
  id := creation.compactId
  project := payload.project
  coveredFrom := payload.coveredFrom
  coveredTo := payload.coveredTo
  markdownBody := payload.markdownBody
  status := payload.status
  sourceRefs := createdSourceRefs creation payload
  createdAt := creation.now
  updatedAt := creation.now
  archivedAt := none
  reviewVerdict := payload.reviewVerdict
  reviewScore := payload.reviewScore
  reviewMaxScore := payload.reviewMaxScore
  reviewedAt := payload.reviewedAt
  metadataWarnings := []
  deduplicated := false
  sourceSetHash := some (creation.sourceSetHash (createdSourceRefs creation payload))
  compactionPolicyVersion := some "memory-compact-v2"
  generationRevision := some 1
  generatedAt := some creation.now

/-! ## Signatures -/

structure SourceRefSignature where
  sourceType : String
  sourceId : String
  detailPath : String
  sourceHash : Option String
  deriving DecidableEq

structure MemoryCompactSignature where
  project : Option String
  coveredFrom : Instant
  coveredTo : Instant
  sourceRefs : List SourceRefSignature
  bodyHash : String
  deriving DecidableEq

/-- The order of Python's tuples of texts, by the code points. -/
def sourceRefSortKey (ref : SourceRefSignature) : List (List Char) :=
  [ref.sourceType.toList, ref.sourceId.toList, ref.detailPath.toList, (ref.sourceHash.getD "").toList]

def sortSignatures (refs : List SourceRefSignature) : List SourceRefSignature :=
  refs.mergeSort fun a b => decide (sourceRefSortKey a ≤ sourceRefSortKey b)

/-- The signature over `_body_hash` for the stripped body. -/
def createSignature (hashText : String → String) (payload : MemoryCompactCreate) : MemoryCompactSignature where
  project := payload.project
  coveredFrom := payload.coveredFrom
  coveredTo := payload.coveredTo
  sourceRefs := sortSignatures (payload.sourceRefs.map fun ref =>
    ⟨ref.sourceType, ref.sourceId, ref.detailPath, ref.sourceHash⟩)
  bodyHash := hashText (pythonStrip payload.markdownBody)

def compactSignature (hashText : String → String) (compact : MemoryCompact) : MemoryCompactSignature where
  project := compact.project
  coveredFrom := compact.coveredFrom
  coveredTo := compact.coveredTo
  sourceRefs := sortSignatures (compact.sourceRefs.map fun ref =>
    ⟨ref.sourceType, ref.sourceId, ref.detailPath, ref.sourceHash⟩)
  bodyHash := hashText (pythonStrip compact.markdownBody)

/-- The signature of a creation is that of the compact it becomes. -/
theorem compactSignature_createdCompact (hashText : String → String) (creation : CreationEnvironment)
    (payload : MemoryCompactCreate) :
    compactSignature hashText (createdCompact creation payload) = createSignature hashText payload := by
  have hrefs : (createdSourceRefs creation payload).map (fun ref =>
        SourceRefSignature.mk ref.sourceType ref.sourceId ref.detailPath ref.sourceHash) =
      payload.sourceRefs.map fun ref => ⟨ref.sourceType, ref.sourceId, ref.detailPath, ref.sourceHash⟩ := by
    simp only [createdSourceRefs, List.map_map]
    conv_rhs => rw [← List.zipIdx_map_fst 0 payload.sourceRefs, List.map_map]
    rfl
  simp only [compactSignature, createSignature, createdCompact, hrefs]

end Alexandria.Compacts
