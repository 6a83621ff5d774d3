import Alexandria.Foundations.Text
import Mathlib.Data.List.Sort
import Mathlib.Data.String.Basic

/-! # Resolving an edge target

`graph_compute/projection.rs`: the healthy notes are indexed by id, by canonical path and by link name, and
one raw edge target is resolved against the three indexes in that order. The Unicode tables behind NFC
and case folding are those of two libraries and stay parameters.
-/

namespace Alexandria.Compile
set_option autoImplicit false

/-- The Unicode algorithms of the normalisation and case-folding libraries. -/
structure UnicodeTables where
  nfc : String → String
  defaultCaseFold : String → String

inductive GraphIndexStatus
  | indexed
  | stale
  | error
deriving DecidableEq

structure GraphSourceNote where
  noteId : String
  relativePath : String
  alexandriaType : String
  title : String
  status : String
  project : Option String
  aliases : List String
  indexStatus : GraphIndexStatus
deriving DecidableEq

/-- The part of a path after its last slash, without its last extension. -/
def posixStem (path : String) : String :=
  let fileName := path.toList.rtakeWhile (· ≠ '/')
  let extension := fileName.rtakeWhile (· ≠ '.')
  let stem := fileName.take (fileName.length - extension.length - 1)
  -- no dot at all, a leading dot only, or a trailing dot: the name is its own stem
  if extension.length = fileName.length || stem.isEmpty || extension.isEmpty then String.ofList fileName
  else String.ofList stem

section Names
variable (U : UnicodeTables)

def canonicalPathKey (value : String) : String :=
  U.nfc (String.ofList (value.toList.map fun c => if c = '\\' then '/' else c))

def foldedTrimmed (value : String) : String := U.nfc (U.defaultCaseFold (U.nfc (Text.trim value)))

def linkName (path : String) : String := foldedTrimmed U (posixStem (canonicalPathKey U path))

def candidateLinkNames (path : String) : List String :=
  let candidate := linkName U path
  if candidate.isEmpty then [] else [candidate]

/-- The names a note answers to; blank ones are not indexed. -/
def noteLinkNames (note : GraphSourceNote) : List String :=
  (linkName U note.relativePath :: foldedTrimmed U note.title :: note.aliases.map (foldedTrimmed U)).filter
    fun name => !name.isEmpty

/-- `indexed_notes_by_id`: a later note with the same id replaces an earlier one. -/
def noteById (notes : List GraphSourceNote) (id : String) : Option GraphSourceNote :=
  notes.reverse.find? fun note => note.noteId = id

def sortedByPath (notes : List GraphSourceNote) : List GraphSourceNote :=
  notes.insertionSort fun left right => left.relativePath ≤ right.relativePath

def notesByPath (notes : List GraphSourceNote) (key : String) : List GraphSourceNote :=
  sortedByPath (notes.filter fun note => canonicalPathKey U note.relativePath = key)

def notesByLinkName (notes : List GraphSourceNote) (name : String) : List GraphSourceNote :=
  sortedByPath (notes.filter fun note => name ∈ noteLinkNames U note)

inductive TargetResolution
  | resolved (note : GraphSourceNote)
  | missing
  | ambiguous
deriving DecidableEq

/-- The loop over the candidate link names. -/
def resolveByLinkName (notes : List GraphSourceNote) : List String → TargetResolution
  | [] => .missing
  | name :: names =>
    match notesByLinkName U notes name with
    | [note] => .resolved note
    | [] => resolveByLinkName notes names
    | _ => .ambiguous

def resolveTargetReference (targetNoteId : Option String) (targetPath : String) (notes : List GraphSourceNote) :
    TargetResolution :=
  match targetNoteId.bind (noteById notes) with
  | some note => .resolved note
  | none =>
    match notesByPath U notes (canonicalPathKey U targetPath) with
    | [note] => .resolved note
    | [] => resolveByLinkName U notes (candidateLinkNames U targetPath)
    | _ => .ambiguous

end Names

end Alexandria.Compile
