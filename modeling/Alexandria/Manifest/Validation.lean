import Alexandria.Compile.Plan
import Mathlib.Data.List.AList

/-! # Validation of the Context reindex manifest

`context_reindex_manifest.rs`. A `HashMap` is an association list with one entry a key; where the source iterates over
one, the order is a parameter. The two loops that the source bounds only by what they visit count down a fuel, and
`none` says that it ran out.
-/

namespace Alexandria.Manifest
set_option autoImplicit false

open Compile

abbrev Candidate := ContextReindexManifestCandidate

abbrev Issue := ContextReindexManifestIssue

abbrev Reasons := AList fun _ : String => String

/-- The order in which a `HashMap` yields its keys. -/
structure KeyOrder where
  arrange : List String → List String
  perm : ∀ keys, (arrange keys).Perm keys

def issue (candidate : Candidate) (message : String) : Issue := ⟨candidate.relativePath, candidate.noteId, message⟩

/-! ## Collisions -/

def collidingCanonicalPaths (candidates : List Candidate) : List String :=
  let paths := candidates.map (·.canonicalRelativePath)
  paths.filter fun path => 1 < paths.count path

structure Screening where
  issues : List Issue
  notePathsById : AList fun _ : String => String
  contextPathsBySignature : AList fun _ : ContextReindexIdentity => String
  valid : List (Candidate × ℕ)

/-- One round of the first loop of `validate_context_reindex_manifest`. -/
def screenOne (collidingPaths : List String) (state : Screening) (entry : Candidate × ℕ) : Screening :=
  let candidate := entry.1
  if candidate.canonicalRelativePath ∈ collidingPaths then
    { state with issues := state.issues ++ [issue candidate
        s!"DUPLICATE_CANONICAL_PATH: multiple physical notes normalize to {candidate.canonicalRelativePath}"] }
  else
    match state.notePathsById.lookup candidate.noteId with
    | some existingPath =>
      { state with issues := state.issues ++ [issue candidate
          s!"DUPLICATE_CONTEXT_ID: {candidate.noteId} is also declared by {existingPath}"] }
    | none =>
      let notePathsById := state.notePathsById.insert candidate.noteId candidate.relativePath
      if candidate.isContext then
        match state.contextPathsBySignature.lookup candidate.identity with
        | some duplicatePath =>
          { state with
            issues := state.issues ++ [issue candidate
              s!"DUPLICATE_CONTEXT_CONTENT: canonical scope identity and content hash also belong to {duplicatePath}"]
            notePathsById }
        | none =>
          { state with
            notePathsById
            contextPathsBySignature := state.contextPathsBySignature.insert candidate.identity candidate.relativePath
            valid := state.valid ++ [entry] }
      else { state with notePathsById, valid := state.valid ++ [entry] }

def screen (candidates : List Candidate) : Screening :=
  candidates.zipIdx.foldl (screenOne (collidingCanonicalPaths candidates)) ⟨[], ∅, ∅, []⟩

/-- The valid Contexts, which `context_indices_by_id` indexes. -/
def validContexts (candidates : List Candidate) : List Candidate :=
  ((screen candidates).valid.map (·.1)).filter (·.isContext)

/-! ## References

`contexts` are the valid Contexts; their note ids differ, so the map over them finds the first one.
-/

def contextAt (contexts : List Candidate) (id : String) : Option Candidate := contexts.find? fun c => c.noteId = id

/-- Why a forward reference is refused, given who replaces what so far. -/
def targetReason (contexts : List Candidate) (replacementsByTarget : Reasons) (candidate : Candidate) : Option String :=
  match candidate.supersedesContextId with
  | none => none
  | some target =>
    match contextAt contexts target with
    | none => some s!"superseded Context is absent or invalid: {target}"
    | some targetContext =>
      match replacementsByTarget.lookup target with
      | some priorReplacement => some s!"Context already has another replacement: {priorReplacement}"
      | none =>
        match targetContext.supersededByContextId with
        | none => none
        | some targetBacklink =>
          if targetBacklink ≠ candidate.noteId then
            some s!"superseded Context backlink conflicts with replacement: {targetBacklink}"
          else none

/-- Why a backlink is refused. -/
def replacementReason (contexts : List Candidate) (candidate : Candidate) : Option String :=
  match candidate.supersededByContextId with
  | none => none
  | some replacement =>
    match contextAt contexts replacement with
    | none => some s!"replacement Context is absent or invalid: {replacement}"
    | some replacementContext =>
      if replacementContext.supersedesContextId ≠ some candidate.noteId then
        some s!"replacement Context does not contain the reciprocal supersedes reference: {replacement}"
      else none

structure References where
  invalidReasons : Reasons
  replacementsByTarget : Reasons

def checkOne (contexts : List Candidate) (state : References) (candidate : Candidate) : References :=
  match targetReason contexts state.replacementsByTarget candidate with
  | some reason => { state with invalidReasons := state.invalidReasons.insert candidate.noteId reason }
  | none =>
    let replacementsByTarget := match candidate.supersedesContextId with
      | none => state.replacementsByTarget
      | some target => state.replacementsByTarget.insert target candidate.noteId
    match replacementReason contexts candidate with
    | none => { state with replacementsByTarget }
    | some reason => ⟨state.invalidReasons.insert candidate.noteId reason, replacementsByTarget⟩

def checkReferences (contexts : List Candidate) : References := contexts.foldl (checkOne contexts) ⟨∅, ∅⟩

/-! ## Cycles -/

/-- Follow the forward references from `currentId`. Returns the path and what of it lies on a cycle. -/
def walk (contexts : List Candidate) (completed : List String) :
    ℕ → List String → Option String → Option (List String × List String)
  | 0, _, _ => none
  | _ + 1, path, none => some (path, [])
  | fuel + 1, path, some contextId =>
    match contextAt contexts contextId with
    | none => some (path, [])
    | some context =>
      if contextId ∈ path then some (path, path.drop (path.idxOf contextId))
      else if contextId ∈ completed then some (path, [])
      else walk contexts completed fuel (path ++ [contextId]) context.supersedesContextId

/-- The loop over the Contexts, with the ids on cycles and the completed ids so far. -/
def findCycles (contexts : List Candidate) : List Candidate → List String × List String → Option (List String × List String)
  | [], state => some state
  | candidate :: rest, (cyclic, completed) =>
    if candidate.noteId ∈ completed then findCycles contexts rest (cyclic, completed)
    else
      match walk contexts completed (contexts.length + 2) [] (some candidate.noteId) with
      | none => none
      | some (path, cycle) => findCycles contexts rest (cyclic ++ cycle, completed ++ path)

def cyclicSupersedeIds (contexts : List Candidate) : Option (List String) := (findCycles contexts contexts ([], [])).map (·.1)

/-! ## Propagation -/

/-- The Contexts whose forward reference names the target. -/
def predecessors (contexts : List Candidate) (target : String) : List String :=
  (contexts.filter fun c => c.supersedesContextId = some target ∧ (contextAt contexts target).isSome).map (·.noteId)

/-- Reject the predecessors that are not rejected yet; they join the queue. -/
def rejectAll (invalidTarget : String) : List String → Reasons → Reasons × List String
  | [], reasons => (reasons, [])
  | predecessor :: rest, reasons =>
    if predecessor ∈ reasons then rejectAll invalidTarget rest reasons
    else
      let later := rejectAll invalidTarget rest
        (reasons.insert predecessor s!"superseded Context is absent or invalid: {invalidTarget}")
      (later.1, predecessor :: later.2)

def propagate (contexts : List Candidate) : ℕ → List String → Reasons → Option Reasons
  | 0, _, _ => none
  | _ + 1, [], reasons => some reasons
  | fuel + 1, invalidTarget :: queue, reasons =>
    let rejected := rejectAll invalidTarget (predecessors contexts invalidTarget) reasons
    propagate contexts fuel (queue ++ rejected.2) rejected.1

def propagateInvalidTargets (order : KeyOrder) (contexts : List Candidate) (reasons : Reasons) : Option Reasons :=
  propagate contexts (reasons.keys.length + contexts.length + 1) (order.arrange reasons.keys) reasons

def invalidSupersedeReasons (order : KeyOrder) (contexts : List Candidate) : Option Reasons :=
  match cyclicSupersedeIds contexts with
  | none => none
  | some cyclic =>
    propagateInvalidTargets order contexts (cyclic.foldl
      (fun reasons contextId => reasons.insert contextId "supersede relationship contains a cycle")
      (checkReferences contexts).invalidReasons)

/-! ## The result -/

/-- The second loop: the valid candidates without a reason, and an issue for each of the others. -/
def settle (reasons : Reasons) : List (Candidate × ℕ) → List ℕ × List Issue
  | [] => ([], [])
  | (candidate, index) :: rest =>
    let later := settle reasons rest
    match reasons.lookup candidate.noteId with
    | some reason => (later.1, issue candidate s!"INVALID_SUPERSEDE: {reason}" :: later.2)
    | none => (index :: later.1, later.2)

def validateContextReindexManifest (order : KeyOrder) (candidates : List Candidate) :
    Option ContextReindexManifestResult :=
  let screening := screen candidates
  match invalidSupersedeReasons order (validContexts candidates) with
  | none => none
  | some reasons =>
    if reasons.keys.isEmpty then some ⟨screening.valid.map (·.2), screening.issues⟩
    else
      let settled := settle reasons screening.valid
      some ⟨settled.1, screening.issues ++ settled.2⟩

/-- The candidates at the accepted indices. -/
def acceptedCandidates (candidates : List Candidate) (result : ContextReindexManifestResult) : List Candidate :=
  result.acceptedIndices.filterMap (candidates[·]?)

end Alexandria.Manifest
