import Alexandria.Foundations.Run
import Alexandria.OAuth.Records
import Mathlib.Data.Fintype.Basic

/-! # Approving an authorization request

`approve_authorization` and `deny_authorization` with the repository transactions they call, and
`create_pairing_code`. A submission looks the request up, then closes it in a second transaction if the pairing
code is available, and else counts the failure in a third one. The limit is checked in the first transaction
only, and the third one writes back the count it has read plus one. A session is one call, a step one statement;
`compared` counts the pairing codes looked up for each request.
-/

namespace Alexandria.OAuth
set_option autoImplicit false

open ReadCommitted

structure ApprovalSettings where
  maxApprovalAttempts : ℕ
  authorizationCodeTtlSeconds : ℤ
  pairingCodeTtlSeconds : ℤ

inductive Decision
  | approve
  | deny
deriving DecidableEq

/-- One call: `pairingCodeHash` is what `_pairing_code_hash` makes of the typed code, `none` for the operator key;
`code` is the new opaque value and `codeHash` its hash. -/
structure Submission where
  decision : Decision
  requestId : String
  pairingCodeHash : Option String
  code : String
  codeHash : String
deriving DecidableEq

structure LocalOAuthApprovalError where
  statusCode : ℕ
  detail : String
deriving DecidableEq

def LocalOAuthApprovalError.invalidOrExpired : LocalOAuthApprovalError :=
  ⟨400, "OAuth approval request is invalid or expired"⟩

def LocalOAuthApprovalError.locked : LocalOAuthApprovalError := ⟨429, "OAuth approval request is locked"⟩

def LocalOAuthApprovalError.noLongerAvailable : LocalOAuthApprovalError :=
  ⟨400, "OAuth approval request is no longer available"⟩

def LocalOAuthApprovalError.invalidPairingCode : LocalOAuthApprovalError := ⟨403, "OAuth pairing code is invalid"⟩

/-- The redirect that a decided request is answered with. -/
structure Redirect where
  redirectUri : String
  code : Option String
  error : Option String
  errorDescription : Option String
  state : Option String
deriving DecidableEq

def Submission.redirect (sub : Submission) (record : AuthorizationRequestRow) : Redirect :=
  match sub.decision with
  | .approve => ⟨record.redirectUri, some sub.code, none, none, record.state⟩
  | .deny => ⟨record.redirectUri, none, some "access_denied", some "Local operator denied MCP access", record.state⟩

/-! ## Sessions -/

/-- Where a submission stands after its lookup. -/
inductive ApprovalStage
  | ready
  | begun (now : ℤ)
  | loaded (now : ℤ) (row : AuthorizationRequestRow)
  | matched (now : ℤ) (row : AuthorizationRequestRow)
  | paired (now : ℤ) (row : AuthorizationRequestRow)
  | closed (now : ℤ) (row : AuthorizationRequestRow)
  | issued (now : ℤ) (row : AuthorizationRequestRow)
  | rejected
  | recording (now : ℤ)
  | counting (now : ℤ) (row : AuthorizationRequestRow)
  | counted (attempts : ℕ)

inductive CreationStage
  | begun
  | replacing (targets : List String)
  | inserted

structure NewPairingCode where
  codeHash : String
  expiresAt : ℤ
  now : ℤ

inductive ApprovalPhase
  | idle
  | submitted (sub : Submission)
  | fetched (sub : Submission) (found : Option AuthorizationRequestRow)
  | active (sub : Submission) (record : AuthorizationRequestRow) (stage : ApprovalStage)
  | redirected (sub : Submission) (location : Redirect)
  | refused (sub : Submission) (error : LocalOAuthApprovalError)
  | creating (new : NewPairingCode) (stage : CreationStage)
  | created (new : NewPairingCode)
  | failed

structure ApprovalSystem (T : Type) where
  clock : ℤ
  requests : Table String AuthorizationRequestRow T
  pairings : Table String PairingCodeRow T
  codes : Table String AuthorizationCodeRow T
  sessions : T → ApprovalPhase
  compared : String → ℕ

inductive ApprovalLabel (T : Type)
  | tick (seconds : ℕ)
  | authorize (requestId : String) (row : AuthorizationRequestRow)
  | submit (t : T) (sub : Submission)
  | fetch (t : T)
  | check (t : T)
  | begin (t : T)
  | load (t : T)
  | compare (t : T)
  | pair (t : T)
  | close (t : T)
  | issue (t : T)
  | record (t : T)
  | reload (t : T)
  | count (t : T)
  | create (t : T) (codeHash : String)
  | scan (t : T)
  | touch (t : T)
  | insert (t : T)
  | commit (t : T)
  | abort (t : T)

/-! ## What the loaded rows lead to -/

/-- `pending_authorization` after the row has been read. -/
def pendingAuthorization (settings : ApprovalSettings) (sub : Submission) (now : ℤ) :
    Option AuthorizationRequestRow → ApprovalPhase
  | none => .refused sub .invalidOrExpired
  | some row =>
    if row.available now then
      if settings.maxApprovalAttempts ≤ row.approvalAttempts then .refused sub .locked
      else .active sub row .ready
    else .refused sub .invalidOrExpired

/-- The closing transaction has loaded the request: without a pairing code there is nothing to look up. -/
def requestLoaded (sub : Submission) (now : ℤ) : Option AuthorizationRequestRow → ApprovalStage
  | none => .rejected
  | some row =>
    if row.available now then
      match sub.pairingCodeHash with
      | some _ => .loaded now row
      | none => .paired now row
    else .rejected

/-- The closing transaction has loaded the pairing code. -/
def pairingLoaded (now : ℤ) (row : AuthorizationRequestRow) : Option PairingCodeRow → ApprovalStage
  | none => .rejected
  | some pairing => if pairing.available now then .matched now row else .rejected

/-- `_raise_failed_approval` on the number of attempts that `record_failed_approval` returned. -/
def failedApproval (settings : ApprovalSettings) (attempts : ℕ) : LocalOAuthApprovalError :=
  if attempts = 0 then .noLongerAvailable
  else if settings.maxApprovalAttempts ≤ attempts then .locked
  else .invalidPairingCode

/-- `record_failed_approval` has loaded the request. -/
def failureLoaded (settings : ApprovalSettings) (sub : Submission) (record : AuthorizationRequestRow) (now : ℤ) :
    Option AuthorizationRequestRow → ApprovalPhase
  | none => .refused sub (failedApproval settings 0)
  | some row =>
    if row.available now then .active sub record (.counting now row)
    else .refused sub (failedApproval settings 0)

section System
variable {T : Type} [DecidableEq T]

/-- One target of the UPDATE in `create_pairing_code`: the latest version is checked again before it is written. -/
def consumeTarget (pairings : Table String PairingCodeRow T) (t : T) (now : ℤ) (k : String) :
    Table String PairingCodeRow T :=
  match pairings.read t k with
  | some latest => if latest.consumedAt.isNone then pairings.write t k (latest.consume now) else pairings
  | none => pairings

def ApprovalSystem.setSession (s : ApprovalSystem T) (t : T) (phase : ApprovalPhase) : ApprovalSystem T :=
  { s with sessions := Function.update s.sessions t phase }

/-- The transaction is rolled back and the call ends with an exception. -/
def ApprovalSystem.rollback (s : ApprovalSystem T) (t : T) : ApprovalSystem T :=
  { s.setSession t .failed with
    requests := s.requests.abort t, pairings := s.pairings.abort t, codes := s.codes.abort t }

/-- The transaction is committed and the call goes on to `phase`. -/
def ApprovalSystem.commit (s : ApprovalSystem T) (t : T) (phase : ApprovalPhase) : ApprovalSystem T :=
  { s.setSession t phase with
    requests := s.requests.commit t, pairings := s.pairings.commit t, codes := s.codes.commit t }

def approvalStep (settings : ApprovalSettings) (s : ApprovalSystem T) : ApprovalLabel T → Option (ApprovalSystem T)
  | .tick seconds => some { s with clock := s.clock + seconds }
  | .authorize requestId row =>
    -- the transaction of `authorize` committed a new request under a fresh identifier
    match s.requests.committed requestId, s.requests.pending requestId with
    | none, none =>
      some { s with requests := s.requests.seed requestId { row with approvalAttempts := 0, consumedAt := none } }
    | _, _ => none
  | .submit t sub =>
    match s.sessions t with
    | .idle => some (s.setSession t (.submitted sub))
    | _ => none
  | .fetch t =>
    match s.sessions t with
    | .submitted sub => some (s.setSession t (.fetched sub (s.requests.read t sub.requestId)))
    | _ => none
  | .check t =>
    match s.sessions t with
    | .fetched sub found => some (s.setSession t (pendingAuthorization settings sub s.clock found))
    | _ => none
  | .begin t =>
    match s.sessions t with
    | .active sub record .ready => some (s.setSession t (.active sub record (.begun s.clock)))
    | _ => none
  | .load t =>
    match s.sessions t with
    | .active sub record (.begun now) =>
      some (s.setSession t (.active sub record (requestLoaded sub now (s.requests.read t sub.requestId))))
    | _ => none
  | .compare t =>
    match s.sessions t with
    | .active sub record (.loaded now row) =>
      match sub.pairingCodeHash with
      | some codeHash =>
        some { s.setSession t (.active sub record (pairingLoaded now row (s.pairings.read t codeHash))) with
          compared := Function.update s.compared sub.requestId (s.compared sub.requestId + 1) }
      | none => none
    | _ => none
  | .pair t =>
    match s.sessions t with
    | .active sub record (.matched now row) =>
      match sub.pairingCodeHash with
      | some codeHash =>
        match s.pairings.update t codeHash (PairingCodeRow.consume now) with
        | .waits => none
        | .fails => some (s.rollback t)
        | .done pairings => some { s.setSession t (.active sub record (.paired now row)) with pairings := pairings }
      | none => none
    | _ => none
  | .close t =>
    match s.sessions t with
    | .active sub record (.paired now row) =>
      match s.requests.update t sub.requestId (AuthorizationRequestRow.consume now) with
      | .waits => none
      | .fails => some (s.rollback t)
      | .done requests => some { s.setSession t (.active sub record (.closed now row)) with requests := requests }
    | _ => none
  | .issue t =>
    match s.sessions t with
    | .active sub record (.closed now row) =>
      match sub.decision with
      | .approve =>
        match s.codes.insert t sub.codeHash (row.issue (now + settings.authorizationCodeTtlSeconds)) with
        | .waits => none
        | .fails => some (s.rollback t)
        | .done codes => some { s.setSession t (.active sub record (.issued now row)) with codes := codes }
      | .deny => none
    | _ => none
  | .record t =>
    match s.sessions t with
    | .active sub record .rejected => some (s.setSession t (.active sub record (.recording s.clock)))
    | _ => none
  | .reload t =>
    match s.sessions t with
    | .active sub record (.recording now) =>
      some (s.setSession t (failureLoaded settings sub record now (s.requests.read t sub.requestId)))
    | _ => none
  | .count t =>
    match s.sessions t with
    | .active sub record (.counting _ row) =>
      -- the flushed UPDATE carries the value computed from the loaded row
      match s.requests.update t sub.requestId (AuthorizationRequestRow.setAttempts (row.approvalAttempts + 1)) with
      | .waits => none
      | .fails => some (s.rollback t)
      | .done requests =>
        some { s.setSession t (.active sub record (.counted (row.approvalAttempts + 1))) with requests := requests }
    | _ => none
  | .create t codeHash =>
    match s.sessions t with
    | .idle =>
      some (s.setSession t (.creating ⟨codeHash, s.clock + settings.pairingCodeTtlSeconds, s.clock⟩ .begun))
    | _ => none
  | .scan t =>
    match s.sessions t with
    | .creating new .begun =>
      some (s.setSession t (.creating new (.replacing (s.pairings.select t fun row => row.consumedAt.isNone))))
    | _ => none
  | .touch t =>
    match s.sessions t with
    | .creating new (.replacing (k :: targets)) =>
      if s.pairings.writable t k then
        some { s.setSession t (.creating new (.replacing targets)) with
          pairings := consumeTarget s.pairings t new.now k }
      else none
    | _ => none
  | .insert t =>
    match s.sessions t with
    | .creating new (.replacing []) =>
      match s.pairings.insert t new.codeHash ⟨new.expiresAt, none, new.now⟩ with
      | .waits => none
      | .fails => some (s.rollback t)
      | .done pairings => some { s.setSession t (.creating new .inserted) with pairings := pairings }
    | _ => none
  | .commit t =>
    match s.sessions t with
    | .active sub record (.issued _ _) => some (s.commit t (.redirected sub (sub.redirect record)))
    | .active sub record (.closed _ _) =>
      match sub.decision with
      | .approve => none
      | .deny => some (s.commit t (.redirected sub (sub.redirect record)))
    | .active sub _ (.counted attempts) => some (s.commit t (.refused sub (failedApproval settings attempts)))
    | .creating new .inserted => some (s.commit t (.created new))
    | _ => none
  | .abort t =>
    match s.sessions t with
    | .fetched _ _ => some (s.rollback t)
    | .active _ _ _ => some (s.rollback t)
    | .creating _ _ => some (s.rollback t)
    | _ => none

/-- No request was made yet. -/
def ApprovalSystem.start (clock : ℤ) : ApprovalSystem T where
  clock := clock
  requests := .empty
  pairings := .empty
  codes := .empty
  sessions := fun _ => .idle
  compared := fun _ => 0

end System

end Alexandria.OAuth
