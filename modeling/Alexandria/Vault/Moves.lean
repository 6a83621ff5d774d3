import Alexandria.Foundations.FileTree
import Alexandria.Foundations.Text
import Mathlib.Algebra.Ring.Nat
import Mathlib.Data.Nat.Notation

/-! # Vault moves

`ObsidianVaultMoveService`: planning moves against the files of the vault, applying them one by one, and writing a
report into the vault. Every request is checked on the vault as it is before the first rename; repeated sources and
destinations are recognised by their spelling. Paths are relative to the vault, and a path resolves to its
components without empty and `.` ones.
-/

namespace Alexandria.Vault
set_option autoImplicit false

open FileTree

inductive VaultError
  | obsidianValidationError (message : String)
  | valueError
  | osError (error : OsError)
deriving DecidableEq

/-! ## Paths -/

abbrev NotePath := List String

/-- The components of a path, as `Path` splits it. -/
def pathParts (path : String) : NotePath :=
  ((path.toList.splitOn '/').map String.ofList).filter fun part => part ≠ "" ∧ part ≠ "."

def isAbsolute (path : String) : Bool := path.toList.head? = some '/'

def safeRelativePath (path : String) : Except VaultError NotePath :=
  if isAbsolute path ∨ ".." ∈ pathParts path then
    .error (.obsidianValidationError "Obsidian path must stay inside the vault")
  else .ok (pathParts path)

/-- `resolve()` looks every prefix up, which a NUL character makes impossible. -/
def resolveNotePath (path : String) : Except VaultError NotePath :=
  match safeRelativePath path with
  | .error e => .error e
  | .ok relative => if '\x00' ∈ path.toList then .error .valueError else .ok relative

/-- `PurePath.suffix` of a name: from its last dot, unless the name starts or ends with that dot. -/
def nameSuffix (name : String) : String :=
  let extension := (name.toList.reverse.takeWhile (· ≠ '.')).reverse
  if extension ≠ [] ∧ extension.length + 1 < name.toList.length then String.ofList ('.' :: extension) else ""

def removeSuffix (text suffix : String) : String :=
  if suffix.toList <:+ text.toList then String.ofList (text.toList.take (text.toList.length - suffix.toList.length))
  else text

def noteSuffix : String := ".md"

/-! ## The service -/

/-- A requested, planned or applied move. -/
structure VaultMove where
  sourcePath : String
  destinationPath : String
  reason : String
deriving DecidableEq

structure VaultMoveSkip where
  sourcePath : String
  destinationPath : String
  reason : String
deriving DecidableEq

structure VaultMovePlan where
  status : String
  moves : List VaultMove
  skipped : List VaultMoveSkip
deriving DecidableEq

structure VaultMoveApplyRequest where
  moves : List VaultMove
  reportPath : Option String
  reindex : Bool
  verificationQuery : Option String
deriving DecidableEq

structure VaultMoveVerification where
  sourceRootLooseNotesRemaining : ℕ
  reindexStatus : String
  verificationHits : ℕ
deriving DecidableEq

structure VaultMoveReport where
  status : String
  moved : List VaultMove
  skipped : List VaultMoveSkip
  verification : VaultMoveVerification
  reportMarkdownPath : String
  reportJsonPath : String
deriving DecidableEq

/-- The configuration and the collaborators: the name of the vault directory, the Alexandria root, the identifier made
for a report, the two encoders, whether a reindex finds errors, and how many hits a search has. -/
structure VaultMoveService (β : Type) where
  vaultName : String
  alexandriaRoot : String
  conversationId : String
  encodeUtf8 : String → β
  dumpsPrettyJson : VaultMoveReport → β
  reindexErrors : Tree String β → Bool
  searchHits : Tree String β → String → ℕ

/-- The suffix of a resolved path; the vault itself is a path too. -/
def VaultMoveService.suffix {β : Type} (service : VaultMoveService β) (path : NotePath) : String :=
  nameSuffix (path.getLast?.getD service.vaultName)

section Service
variable {β : Type} (service : VaultMoveService β) (vault : Tree String β)

def moveSkip (move : VaultMove) (reason : String) : VaultMoveSkip := ⟨move.sourcePath, move.destinationPath, reason⟩

/-- `_move_safety_issue` on the resolved paths. -/
def resolvedIssue (move : VaultMove) (source destination : NotePath) : Option VaultMoveSkip :=
  if Text.pythonStrip move.reason = "" then some (moveSkip move "reason_required")
  else if source = destination then some (moveSkip move "source_equals_destination")
  else if service.suffix source ≠ noteSuffix ∨ service.suffix destination ≠ noteSuffix then
    some (moveSkip move "only_markdown_notes_can_be_moved")
  else if vault.exist source = false then some (moveSkip move "source_missing")
  else if (vault.content source).isNone then some (moveSkip move "source_not_file")
  else if vault.exist destination then some (moveSkip move "destination_exists")
  else none

def moveSafetyIssue (move : VaultMove) : Except VaultError (Option VaultMoveSkip) :=
  match resolveNotePath move.sourcePath, resolveNotePath move.destinationPath with
  | .error e, _ => .error e
  | .ok _, .error e => .error e
  | .ok source, .ok destination => .ok (resolvedIssue service vault move source destination)

/-- The loop of `plan`: the moves without an issue, and the issues. -/
def planMoves : List VaultMove → Except VaultError (List VaultMove × List VaultMoveSkip)
  | [] => .ok ([], [])
  | move :: moves =>
    match moveSafetyIssue service vault move with
    | .error e => .error e
    | .ok issue =>
      match planMoves moves with
      | .error e => .error e
      | .ok (planned, skipped) =>
        match issue with
        | some skip => .ok (planned, skip :: skipped)
        | none => .ok (move :: planned, skipped)

def plan (moves : List VaultMove) : Except VaultError VaultMovePlan :=
  match planMoves service vault moves with
  | .error e => .error e
  | .ok (planned, skipped) =>
    .ok
      { status := if planned ≠ [] ∧ skipped = [] then "ready" else if skipped ≠ [] then "blocked" else "empty"
        moves := planned
        skipped := skipped }

/-- The loop of `_applicable_vault_moves`. -/
def applicableFrom (seenSources seenDestinations : List String) :
    List VaultMove → Except VaultError (List VaultMove × List VaultMoveSkip)
  | [] => .ok ([], [])
  | move :: moves =>
    if move.sourcePath ∈ seenSources then
      (applicableFrom seenSources seenDestinations moves).map fun rest =>
        (rest.1, moveSkip move "duplicate_source" :: rest.2)
    else if move.destinationPath ∈ seenDestinations then
      (applicableFrom seenSources seenDestinations moves).map fun rest =>
        (rest.1, moveSkip move "duplicate_destination" :: rest.2)
    else
      match moveSafetyIssue service vault move with
      | .error e => .error e
      | .ok (some skip) =>
        (applicableFrom seenSources seenDestinations moves).map fun rest => (rest.1, skip :: rest.2)
      | .ok none =>
        (applicableFrom (move.sourcePath :: seenSources) (move.destinationPath :: seenDestinations) moves).map
          fun rest => (move :: rest.1, rest.2)

def applicableVaultMoves (moves : List VaultMove) : Except VaultError (List VaultMove × List VaultMoveSkip) :=
  applicableFrom service vault [] [] moves

/-! ## The report -/

/-- The relative and the resolved paths of the two report files. -/
structure ReportPaths where
  markdownRelative : String
  jsonRelative : String
  markdown : NotePath
  json : NotePath
deriving DecidableEq

def vaultMoveReportPaths (request : VaultMoveApplyRequest) : Except VaultError ReportPaths :=
  let basePath := match request.reportPath with
    | some path =>
      if path = "" then service.alexandriaRoot ++ "/_Ops/Reports/vault-move-" ++ service.conversationId else path
    | none => service.alexandriaRoot ++ "/_Ops/Reports/vault-move-" ++ service.conversationId
  let reportStem := removeSuffix (removeSuffix basePath ".md") ".json"
  match resolveNotePath (reportStem ++ ".md"), resolveNotePath (reportStem ++ ".json") with
  | .error e, _ => .error e
  | .ok _, .error e => .error e
  | .ok markdown, .ok json => .ok ⟨reportStem ++ ".md", reportStem ++ ".json", markdown, json⟩

def reportAvailable (paths : ReportPaths) : Bool := !vault.exist paths.markdown && !vault.exist paths.json

def reportExists : VaultError := .obsidianValidationError "vault move report destination exists"

def reportLine (sourcePath destinationPath reason : String) : String :=
  "- `" ++ sourcePath ++ "` -> `" ++ destinationPath ++ "` — " ++ reason

def reportLines (lines : List String) : List String := if lines = [] then ["- none"] else lines

def vaultMoveReportMarkdown (report : VaultMoveReport) : String :=
  "\n".intercalate
    (["# Vault Move Report", "", "- status: `" ++ report.status ++ "`", "- hard_delete_performed: `false`",
      "- reindex_status: `" ++ report.verification.reindexStatus ++ "`",
      "- verification_hits: `" ++ toString report.verification.verificationHits ++ "`",
      "- source_root_loose_notes_remaining: `" ++ toString report.verification.sourceRootLooseNotesRemaining ++ "`",
      "", "## Moved"]
      ++ reportLines (report.moved.map fun item => reportLine item.sourcePath item.destinationPath item.reason)
      ++ ["", "## Skipped"]
      ++ reportLines (report.skipped.map fun item => reportLine item.sourcePath item.destinationPath item.reason)
      ++ [""])

/-- `write_vault_move_report`: the directory is made after the destinations are checked again. -/
def writeVaultMoveReport (paths : ReportPaths) (report : VaultMoveReport) :
    Except VaultError (Tree String β) :=
  if reportAvailable vault paths then
    match vault.mkdirs paths.markdown.dropLast with
    | .error e => .error (.osError e)
    | .ok made =>
      .ok ((made.write paths.markdown (service.encodeUtf8 (vaultMoveReportMarkdown report))).write paths.json
        (service.dumpsPrettyJson report))
  else .error reportExists

/-! ## Applying -/

/-- A call that raises leaves the vault as it is at that point. -/
inductive MoveOutcome (β : Type)
  | raised (error : VaultError) (vault : Tree String β)
  | returned (vault : Tree String β) (paths : ReportPaths) (report : VaultMoveReport)

/-- The renaming of one round: the directory of the destination is made first. -/
def renameAt (source destination : NotePath) : Except (VaultError × Tree String β) (Tree String β) :=
  match vault.mkdirs destination.dropLast with
  | .error e => .error (.osError e, vault)
  | .ok made =>
    match made.replace source destination with
    | .error e => .error (.osError e, made)
    | .ok renamed => .ok renamed

/-- One round of the loop of `apply`. -/
def renameNote (move : VaultMove) : Except (VaultError × Tree String β) (Tree String β) :=
  match resolveNotePath move.sourcePath, resolveNotePath move.destinationPath with
  | .error e, _ => .error (e, vault)
  | .ok _, .error e => .error (e, vault)
  | .ok source, .ok destination => renameAt vault source destination

def renameNotes : Tree String β → List VaultMove → Except (VaultError × Tree String β) (Tree String β)
  | vault, [] => .ok vault
  | vault, move :: moves =>
    match renameNote vault move with
    | .error failure => .error failure
    | .ok renamed => renameNotes renamed moves

/-- The directories of the applied sources. -/
def sourceRoots (moves : List VaultMove) : List NotePath :=
  (moves.filterMap fun move => (resolveNotePath move.sourcePath).toOption.map List.dropLast).dedup

/-- `_loose_note_count`: the Markdown files directly in the directories that still exist. -/
def looseNoteCount (roots : List NotePath) : ℕ :=
  (roots.map fun root => vault.nodes.entries.countP fun e =>
    e.1 ≠ [] ∧ e.1.dropLast = root ∧ e.2.content.isSome ∧ service.suffix e.1 = noteSuffix).sum

def verifyMoves (request : VaultMoveApplyRequest) (moved : List VaultMove) : VaultMoveVerification :=
  { sourceRootLooseNotesRemaining := looseNoteCount service vault (sourceRoots moved)
    reindexStatus :=
      if request.reindex then if service.reindexErrors vault then "failed" else "succeeded" else "skipped"
    verificationHits :=
      match request.reindex, request.verificationQuery with
      | true, some query => service.searchHits vault query
      | _, _ => 0 }

def makeReport (request : VaultMoveApplyRequest) (paths : ReportPaths) (moved : List VaultMove)
    (skipped : List VaultMoveSkip) : VaultMoveReport :=
  { status := if moved ≠ [] ∧ skipped = [] then "succeeded" else if moved ≠ [] then "partial" else "failed"
    moved := moved
    skipped := skipped
    verification := verifyMoves service vault request moved
    reportMarkdownPath := paths.markdownRelative
    reportJsonPath := paths.jsonRelative }

/-- What `apply` has decided before its first rename: the report paths, the moves and the skipped requests. -/
def prepare (request : VaultMoveApplyRequest) :
    Except VaultError (ReportPaths × List VaultMove × List VaultMoveSkip) :=
  match plan service vault request.moves with
  | .error e => .error e
  | .ok planned =>
    match vaultMoveReportPaths service request with
    | .error e => .error e
    | .ok paths =>
      if reportAvailable vault paths then
        match applicableVaultMoves service vault planned.moves with
        | .error e => .error e
        | .ok (applicable, skipped) => .ok (paths, applicable, planned.skipped ++ skipped)
      else .error reportExists

def apply (request : VaultMoveApplyRequest) : MoveOutcome β :=
  match prepare service vault request with
  | .error e => .raised e vault
  | .ok (paths, applicable, skipped) =>
    match renameNotes vault applicable with
    | .error (e, left) => .raised e left
    | .ok renamed =>
      let report := makeReport service renamed request paths applicable skipped
      match writeVaultMoveReport service renamed paths report with
      | .error e => .raised e renamed
      | .ok written => .returned written paths report

end Service

end Alexandria.Vault
