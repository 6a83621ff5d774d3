import Alexandria.Foundations.ReadCommitted
import Mathlib.Data.Int.Notation
import Mathlib.Data.Nat.Notation

/-! # Rows of the local OAuth store

The persistence models of `local_oauth/orm.py` and the checks and rows that the repository transactions build
from them. The primary keys are the keys of the tables, so a row holds the other columns. Times are epoch
seconds.
-/

namespace Alexandria.OAuth
set_option autoImplicit false

inductive LocalOAuthTokenKind
  | access
  | refresh
deriving DecidableEq

/-! ## Authorization requests and pairing codes -/

structure AuthorizationRequestRow where
  clientId : String
  clientName : Option String
  state : Option String
  scopes : List String
  codeChallenge : String
  redirectUri : String
  redirectUriProvidedExplicitly : Bool
  resource : String
  expiresAt : ℤ
  approvalAttempts : ℕ
  consumedAt : Option ℤ
deriving DecidableEq

structure PairingCodeRow where
  expiresAt : ℤ
  consumedAt : Option ℤ
  createdAt : ℤ
deriving DecidableEq

/-- Neither consumed nor expired. -/
def AuthorizationRequestRow.available (row : AuthorizationRequestRow) (now : ℤ) : Bool :=
  row.consumedAt.isNone && !(row.expiresAt ≤ now)

def AuthorizationRequestRow.consume (now : ℤ) (row : AuthorizationRequestRow) : AuthorizationRequestRow :=
  { row with consumedAt := some now }

def AuthorizationRequestRow.setAttempts (attempts : ℕ) (row : AuthorizationRequestRow) : AuthorizationRequestRow :=
  { row with approvalAttempts := attempts }

/-- Neither consumed nor expired. -/
def PairingCodeRow.available (row : PairingCodeRow) (now : ℤ) : Bool :=
  row.consumedAt.isNone && !(row.expiresAt ≤ now)

def PairingCodeRow.consume (now : ℤ) (row : PairingCodeRow) : PairingCodeRow := { row with consumedAt := some now }

/-! ## Authorization codes -/

structure AuthorizationCodeRow where
  clientId : String
  scopes : List String
  codeChallenge : String
  redirectUri : String
  redirectUriProvidedExplicitly : Bool
  resource : String
  expiresAt : ℤ
  consumedAt : Option ℤ
deriving DecidableEq

structure LocalOAuthAuthorizationCodeRecord where
  code : String
  clientId : String
  scopes : List String
  codeChallenge : String
  redirectUri : String
  redirectUriProvidedExplicitly : Bool
  resource : String
  expiresAt : ℤ
deriving DecidableEq

/-- Neither consumed nor expired. -/
def AuthorizationCodeRow.available (row : AuthorizationCodeRow) (now : ℤ) : Bool :=
  row.consumedAt.isNone && !(row.expiresAt ≤ now)

def AuthorizationCodeRow.consume (now : ℤ) (row : AuthorizationCodeRow) : AuthorizationCodeRow :=
  { row with consumedAt := some now }

/-- The code row that approving a request inserts. -/
def AuthorizationRequestRow.issue (row : AuthorizationRequestRow) (codeExpiresAt : ℤ) : AuthorizationCodeRow :=
  { clientId := row.clientId, scopes := row.scopes, codeChallenge := row.codeChallenge,
    redirectUri := row.redirectUri, redirectUriProvidedExplicitly := row.redirectUriProvidedExplicitly,
    resource := row.resource, expiresAt := codeExpiresAt, consumedAt := none }

def AuthorizationCodeRow.record (row : AuthorizationCodeRow) (code : String) : LocalOAuthAuthorizationCodeRecord :=
  { code, clientId := row.clientId, scopes := row.scopes, codeChallenge := row.codeChallenge,
    redirectUri := row.redirectUri, redirectUriProvidedExplicitly := row.redirectUriProvidedExplicitly,
    resource := row.resource, expiresAt := row.expiresAt }

/-! ## Tokens -/

structure TokenRow where
  tokenKind : LocalOAuthTokenKind
  familyId : String
  clientId : String
  scopes : List String
  resource : String
  expiresAt : ℤ
  revokedAt : Option ℤ
  createdAt : ℤ
deriving DecidableEq

structure LocalOAuthTokenRecord where
  token : String
  tokenKind : LocalOAuthTokenKind
  familyId : String
  clientId : String
  scopes : List String
  resource : String
  expiresAt : ℤ
deriving DecidableEq

/-- The checks of `rotate_refresh_token` on the loaded row. -/
def TokenRow.rotatable (row : TokenRow) (scopes : List String) (now : ℤ) : Bool :=
  row.tokenKind == .refresh && row.revokedAt.isNone && !(row.expiresAt ≤ now) && scopes.all row.scopes.contains

/-- The condition of the family-wide UPDATE. -/
def TokenRow.unrevokedIn (familyId : String) (row : TokenRow) : Bool := row.familyId == familyId && row.revokedAt.isNone

def TokenRow.revoke (now : ℤ) (row : TokenRow) : TokenRow := { row with revokedAt := some now }

/-- The hashes, the expiries and the time a new token pair is made with. -/
structure PairRequest where
  accessTokenHash : String
  refreshTokenHash : String
  accessExpiresAt : ℤ
  refreshExpiresAt : ℤ
  now : ℤ
deriving DecidableEq

/-- One row of `_add_token_pair`. -/
def newToken (kind : LocalOAuthTokenKind) (clientId : String) (scopes : List String) (resource familyId : String)
    (expiresAt now : ℤ) : TokenRow :=
  { tokenKind := kind, familyId, clientId, scopes, resource, expiresAt, revokedAt := none, createdAt := now }

/-- `_add_token_pair`: both rows are inserted by one flush. -/
def addTokenPair {T : Type} [DecidableEq T] (tokens : ReadCommitted.Table String TokenRow T) (t : T)
    (clientId : String) (scopes : List String) (resource familyId : String) (pair : PairRequest) :
    ReadCommitted.Statement (ReadCommitted.Table String TokenRow T) :=
  match tokens.insert t pair.accessTokenHash
      (newToken .access clientId scopes resource familyId pair.accessExpiresAt pair.now) with
  | .waits => .waits
  | .fails => .fails
  | .done tokens' =>
    tokens'.insert t pair.refreshTokenHash
      (newToken .refresh clientId scopes resource familyId pair.refreshExpiresAt pair.now)

/-- A flushed pair: neither key was visible or locked, and both rows are written. -/
theorem addTokenPair_done {T : Type} [DecidableEq T] {tokens tokens' : ReadCommitted.Table String TokenRow T} {t : T}
    {clientId : String} {scopes : List String} {resource familyId : String} {pair : PairRequest}
    (h : addTokenPair tokens t clientId scopes resource familyId pair = .done tokens') :
    ∃ access refresh : TokenRow,
      access = newToken .access clientId scopes resource familyId pair.accessExpiresAt pair.now ∧
      refresh = newToken .refresh clientId scopes resource familyId pair.refreshExpiresAt pair.now ∧
      tokens.writable t pair.accessTokenHash = true ∧
      (tokens.write t pair.accessTokenHash access).writable t pair.refreshTokenHash = true ∧
      tokens' = (tokens.write t pair.accessTokenHash access).write t pair.refreshTokenHash refresh := by
  unfold addTokenPair at h
  split at h
  · simp at h
  · simp at h
  · rename_i first hfirst
    obtain ⟨hwritable, -, rfl⟩ := ReadCommitted.Table.insert_done hfirst
    obtain ⟨hwritable', -, rfl⟩ := ReadCommitted.Table.insert_done h
    exact ⟨_, _, rfl, rfl, hwritable, hwritable', rfl⟩

end Alexandria.OAuth
