import Alexandria.OAuth.Approval
import Alexandria.OAuth.Rotation

/-! # The grants of the authorization server

The calls of `provider.py`, `provider_approval.py` and the repositories one after the other: authorization,
approval, code exchange, refresh rotation, revocation, and the clock. A table is a function from its primary
key, a token or code is known by its hash. `codeOrigin` and `tokenOrigin` record the authorization request a
code or token descends from, `revoked` the families a revocation has closed. Opaque values and family ids come
from `secrets` and are fresh.
-/

namespace Alexandria.OAuth
set_option autoImplicit false

structure GrantSettings extends ApprovalSettings where
  resourceUrl : String
  requiredScopes : List String
  defaultScopes : List String
  approvalTtlSeconds : ℤ
  accessTokenTtlSeconds : ℤ
  refreshTokenTtlSeconds : ℤ

structure OAuthClient where
  clientId : Option String
  clientName : Option String

structure AuthorizationParams where
  state : Option String
  scopes : Option (List String)
  codeChallenge : String
  redirectUri : String
  redirectUriProvidedExplicitly : Bool
  resource : Option String

inductive GrantError
  | authorize (error description : String)
  | approval (error : LocalOAuthApprovalError)
  | token (error description : String)
  | integrity
deriving DecidableEq

/-- What the SDK presents of a loaded authorization code or refresh token. -/
structure PresentedGrant where
  clientId : String
  hash : String

structure OAuthToken where
  accessTokenHash : String
  refreshTokenHash : String
  expiresIn : ℤ
  scope : String
deriving DecidableEq

structure GrantSystem where
  clock : ℤ
  requests : String → Option AuthorizationRequestRow
  pairings : String → Option PairingCodeRow
  codes : String → Option AuthorizationCodeRow
  tokens : String → Option TokenRow
  families : List String
  codeOrigin : String → Option String
  tokenOrigin : String → Option String
  revoked : List String

def GrantSystem.start (clock : ℤ) : GrantSystem :=
  ⟨clock, fun _ => none, fun _ => none, fun _ => none, fun _ => none, [], fun _ => none, fun _ => none, []⟩

/-! ## Authorization and approval -/

/-- Python's `or` on an optional list or string: an empty one counts as missing. -/
def orDefault {α : Type} (isEmpty : α → Bool) (value : Option α) (default : α) : α :=
  match value with
  | some value => if isEmpty value then default else value
  | none => default

def GrantSystem.authorize (settings : GrantSettings) (s : GrantSystem) (client : OAuthClient)
    (params : AuthorizationParams) (requestId : String) : GrantSystem × Except GrantError Unit :=
  match client.clientId with
  | none => (s, .error (.authorize "unauthorized_client" "OAuth client is missing id"))
  | some clientId =>
    let resource := orDefault String.isEmpty params.resource settings.resourceUrl
    let scopes := orDefault List.isEmpty params.scopes settings.defaultScopes
    if resource ≠ settings.resourceUrl then
      (s, .error (.authorize "invalid_request" "OAuth resource does not match the Alexandria MCP endpoint"))
    else if !(settings.requiredScopes.all scopes.contains) then
      (s, .error (.authorize "invalid_scope" "OAuth request is missing required Alexandria MCP scopes"))
    else if (s.requests requestId).isSome then (s, .error .integrity)
    else
      let row : AuthorizationRequestRow :=
        { clientId := clientId, clientName := client.clientName, state := params.state, scopes := scopes,
          codeChallenge := params.codeChallenge, redirectUri := params.redirectUri,
          redirectUriProvidedExplicitly := params.redirectUriProvidedExplicitly, resource := resource,
          expiresAt := s.clock + settings.approvalTtlSeconds, approvalAttempts := 0, consumedAt := none }
      ({ s with requests := Function.update s.requests requestId (some row) }, .ok ())

def GrantSystem.createPairingCode (settings : GrantSettings) (s : GrantSystem) (codeHash : String) :
    GrantSystem × Except GrantError Unit :=
  if (s.pairings codeHash).isSome then (s, .error .integrity)
  else
    let replaced := fun k => (s.pairings k).map fun row => if row.consumedAt.isNone then row.consume s.clock else row
    let row : PairingCodeRow := ⟨s.clock + settings.pairingCodeTtlSeconds, none, s.clock⟩
    ({ s with pairings := Function.update replaced codeHash (some row) }, .ok ())

/-- The pairing codes after the typed one has been consumed; the operator key needs none. -/
def GrantSystem.pair (s : GrantSystem) : Option String → Option (String → Option PairingCodeRow)
  | none => some s.pairings
  | some codeHash =>
    match s.pairings codeHash with
    | some row =>
      if row.available s.clock then some (Function.update s.pairings codeHash (some (row.consume s.clock))) else none
    | none => none

/-- `approve_authorization` and `deny_authorization`. -/
def GrantSystem.submit (settings : GrantSettings) (s : GrantSystem) (sub : Submission) :
    GrantSystem × Except GrantError Redirect :=
  match s.requests sub.requestId with
  | none => (s, .error (.approval .invalidOrExpired))
  | some row =>
    if !row.available s.clock then (s, .error (.approval .invalidOrExpired))
    else if settings.maxApprovalAttempts ≤ row.approvalAttempts then (s, .error (.approval .locked))
    else
      match s.pair sub.pairingCodeHash with
      | none =>
        let attempts := row.approvalAttempts + 1
        ({ s with requests := Function.update s.requests sub.requestId (some (row.setAttempts attempts)) },
          .error (.approval (failedApproval settings.toApprovalSettings attempts)))
      | some pairings =>
        let closed := { s with
          pairings := pairings
          requests := Function.update s.requests sub.requestId (some (row.consume s.clock)) }
        match sub.decision with
        | .deny => (closed, .ok (sub.redirect row))
        | .approve =>
          if (s.codes sub.codeHash).isSome then (s, .error .integrity)
          else
            let code := row.issue (s.clock + settings.authorizationCodeTtlSeconds)
            ({ closed with
                codes := Function.update s.codes sub.codeHash (some code)
                codeOrigin := Function.update s.codeOrigin sub.codeHash (some sub.requestId) }, .ok (sub.redirect row))

/-! ## Tokens -/

/-- `_add_token_pair`; `none` when a primary key is taken. -/
def GrantSystem.addTokenPair (settings : GrantSettings) (s : GrantSystem) (clientId : String) (scopes : List String)
    (resource familyId accessTokenHash refreshTokenHash : String) (origin : Option String) : Option GrantSystem :=
  if (s.tokens accessTokenHash).isSome || (s.tokens refreshTokenHash).isSome || accessTokenHash == refreshTokenHash then
    none
  else
    some { s with
      tokens := Function.update
        (Function.update s.tokens accessTokenHash (some (newToken .access clientId scopes resource familyId
          (s.clock + settings.accessTokenTtlSeconds) s.clock)))
        refreshTokenHash (some (newToken .refresh clientId scopes resource familyId
          (s.clock + settings.refreshTokenTtlSeconds) s.clock))
      families := familyId :: s.families
      tokenOrigin := Function.update (Function.update s.tokenOrigin accessTokenHash origin) refreshTokenHash origin }

def grantedToken (settings : GrantSettings) (accessTokenHash refreshTokenHash : String) (scopes : List String) :
    OAuthToken :=
  ⟨accessTokenHash, refreshTokenHash, settings.accessTokenTtlSeconds, " ".intercalate scopes⟩

def GrantSystem.exchangeAuthorizationCode (settings : GrantSettings) (s : GrantSystem) (client : OAuthClient)
    (authorizationCode : PresentedGrant) (accessTokenHash refreshTokenHash familyId : String) :
    GrantSystem × Except GrantError OAuthToken :=
  if some authorizationCode.clientId ≠ client.clientId then
    (s, .error (.token "invalid_grant" "authorization code client mismatch"))
  else
    match s.codes authorizationCode.hash with
    | none => (s, .error (.token "invalid_grant" "authorization code is unavailable"))
    | some row =>
      if !row.available s.clock then (s, .error (.token "invalid_grant" "authorization code is unavailable"))
      else
        let consumed := { s with codes := Function.update s.codes authorizationCode.hash (some (row.consume s.clock)) }
        match consumed.addTokenPair settings row.clientId row.scopes row.resource familyId accessTokenHash
            refreshTokenHash (s.codeOrigin authorizationCode.hash) with
        | none => (s, .error .integrity)
        | some issued => (issued, .ok (grantedToken settings accessTokenHash refreshTokenHash row.scopes))

/-- The UPDATE that both rotation and revocation run. -/
def GrantSystem.revokeFamily (s : GrantSystem) (familyId : String) : GrantSystem :=
  { s with tokens := fun k => (s.tokens k).map fun row =>
      if row.unrevokedIn familyId then row.revoke s.clock else row }

def GrantSystem.exchangeRefreshToken (settings : GrantSettings) (s : GrantSystem) (client : OAuthClient)
    (refreshToken : PresentedGrant) (scopes : List String) (accessTokenHash refreshTokenHash : String) :
    GrantSystem × Except GrantError OAuthToken :=
  if some refreshToken.clientId ≠ client.clientId then
    (s, .error (.token "invalid_grant" "refresh token client mismatch"))
  else
    match s.tokens refreshToken.hash with
    | none => (s, .error (.token "invalid_grant" "refresh token is unavailable"))
    | some row =>
      if !row.rotatable scopes s.clock then (s, .error (.token "invalid_grant" "refresh token is unavailable"))
      else
        match (s.revokeFamily row.familyId).addTokenPair settings row.clientId scopes row.resource row.familyId
            accessTokenHash refreshTokenHash (s.tokenOrigin refreshToken.hash) with
        | none => (s, .error .integrity)
        | some rotated => (rotated, .ok (grantedToken settings accessTokenHash refreshTokenHash scopes))

def GrantSystem.revokeToken (s : GrantSystem) (tokenHash : String) : GrantSystem :=
  match s.tokens tokenHash with
  | none => s
  | some row => { s.revokeFamily row.familyId with revoked := row.familyId :: s.revoked }

/-- `extend_client_refresh_tokens`. -/
def GrantSystem.extend (settings : GrantSettings) (s : GrantSystem) (clientId : String) : GrantSystem :=
  { s with tokens := fun k => (s.tokens k).map fun row =>
      if row.clientId == clientId && row.tokenKind == .refresh && row.revokedAt.isNone && !(row.expiresAt ≤ s.clock) then
        { row with expiresAt := row.expiresAt + settings.refreshTokenTtlSeconds }
      else row }

/-- `get_token`. -/
def GrantSystem.getToken (s : GrantSystem) (kind : LocalOAuthTokenKind) (rawToken tokenHash : String) :
    Option LocalOAuthTokenRecord :=
  match s.tokens tokenHash with
  | none => none
  | some row =>
    if row.tokenKind ≠ kind ∨ row.revokedAt.isSome ∨ row.expiresAt ≤ s.clock then none
    else some ⟨rawToken, kind, row.familyId, row.clientId, row.scopes, row.resource, row.expiresAt⟩

def GrantSystem.loadAccessToken (s : GrantSystem) (token tokenHash : String) : Option LocalOAuthTokenRecord :=
  s.getToken .access token tokenHash

/-! ## Runs -/

inductive GrantLabel
  | tick (seconds : ℕ)
  | authorize (client : OAuthClient) (params : AuthorizationParams) (requestId : String)
  | createPairingCode (codeHash : String)
  | submit (sub : Submission)
  | exchange (client : OAuthClient) (code : PresentedGrant) (accessTokenHash refreshTokenHash familyId : String)
  | rotate (client : OAuthClient) (refreshToken : PresentedGrant) (scopes : List String)
      (accessTokenHash refreshTokenHash : String)
  | revoke (tokenHash : String)
  | extend (clientId : String)

def grantStep (settings : GrantSettings) (s : GrantSystem) : GrantLabel → Option GrantSystem
  | .tick seconds => some { s with clock := s.clock + seconds }
  | .authorize client params requestId => some (s.authorize settings client params requestId).1
  | .createPairingCode codeHash => some (s.createPairingCode settings codeHash).1
  | .submit sub => some (s.submit settings sub).1
  | .exchange client code accessTokenHash refreshTokenHash familyId =>
    -- a family id is never drawn twice
    if familyId ∈ s.families then none
    else some (s.exchangeAuthorizationCode settings client code accessTokenHash refreshTokenHash familyId).1
  | .rotate client refreshToken scopes accessTokenHash refreshTokenHash =>
    some (s.exchangeRefreshToken settings client refreshToken scopes accessTokenHash refreshTokenHash).1
  | .revoke tokenHash => some (s.revokeToken tokenHash)
  | .extend clientId => some (s.extend settings clientId)

/-- The family whose tokens so far a step retires: that of a revoked token, or of a refresh token that is rotated. -/
def GrantLabel.retires (settings : GrantSettings) (s : GrantSystem) : GrantLabel → Option String
  | .revoke tokenHash => (s.tokens tokenHash).map (·.familyId)
  | .rotate client refreshToken scopes accessTokenHash refreshTokenHash =>
    match (s.exchangeRefreshToken settings client refreshToken scopes accessTokenHash refreshTokenHash).2 with
    | .ok _ => (s.tokens refreshToken.hash).map (·.familyId)
    | .error _ => none
  | _ => none

/-! ## Where codes and tokens come from -/

/-- The decided request that `origin` names, and that the grant is for its client and resource within its scopes. -/
def Within (requests : String → Option AuthorizationRequestRow) (origin : Option String) (clientId resource : String)
    (scopes : List String) : Prop :=
  ∃ requestId request, origin = some requestId ∧ requests requestId = some request ∧ request.consumedAt.isSome = true ∧
    clientId = request.clientId ∧ resource = request.resource ∧ scopes ⊆ request.scopes

structure Granted (s : GrantSystem) : Prop where
  codes : ∀ codeHash row, s.codes codeHash = some row →
    Within s.requests (s.codeOrigin codeHash) row.clientId row.resource row.scopes
  tokens : ∀ tokenHash row, s.tokens tokenHash = some row →
    Within s.requests (s.tokenOrigin tokenHash) row.clientId row.resource row.scopes
  families : ∀ tokenHash row, s.tokens tokenHash = some row → row.familyId ∈ s.families
  closed : ∀ familyId ∈ s.revoked, familyId ∈ s.families ∧
    ∀ tokenHash row, s.tokens tokenHash = some row → row.familyId = familyId → row.revokedAt.isSome = true

theorem granted_start (clock : ℤ) : Granted (GrantSystem.start clock) where
  codes := by simp [GrantSystem.start]
  tokens := by simp [GrantSystem.start]
  families := by simp [GrantSystem.start]
  closed := by simp [GrantSystem.start]

/-- A row of `after` for every row of `before`, related by `keeps`. -/
def RowsKept {R : Type} (keeps : R → R → Prop) (before after : String → Option R) : Prop :=
  ∀ k row, before k = some row → ∃ row', after k = some row' ∧ keeps row row'

def AuthorizationRequestRow.Keeps (row row' : AuthorizationRequestRow) : Prop :=
  row'.clientId = row.clientId ∧ row'.resource = row.resource ∧ row'.scopes = row.scopes ∧
    (row.consumedAt.isSome = true → row'.consumedAt.isSome = true)

def TokenRow.Keeps (row row' : TokenRow) : Prop :=
  row'.clientId = row.clientId ∧ row'.resource = row.resource ∧ row'.scopes = row.scopes ∧
    row'.familyId = row.familyId ∧ (row.revokedAt.isSome = true → row'.revokedAt.isSome = true)

theorem AuthorizationRequestRow.keeps_refl (row : AuthorizationRequestRow) : row.Keeps row := ⟨rfl, rfl, rfl, id⟩

theorem TokenRow.keeps_refl (row : TokenRow) : row.Keeps row := ⟨rfl, rfl, rfl, rfl, id⟩

section Kept
variable {R : Type} {keeps : R → R → Prop} {before after : String → Option R}

theorem RowsKept.refl (hrefl : ∀ row, keeps row row) (rows : String → Option R) : RowsKept keeps rows rows :=
  fun _ row hrow => ⟨row, hrow, hrefl row⟩

theorem RowsKept.trans {last : String → Option R} (htrans : ∀ a b c, keeps a b → keeps b c → keeps a c)
    (h : RowsKept keeps before after) (h' : RowsKept keeps after last) : RowsKept keeps before last := by
  intro k row hrow
  obtain ⟨row', hrow', hkeeps⟩ := h k row hrow
  obtain ⟨row'', hrow'', hkeeps'⟩ := h' k row' hrow'
  exact ⟨row'', hrow'', htrans _ _ _ hkeeps hkeeps'⟩

/-- A row inserted under a free key. -/
theorem RowsKept.insert (hrefl : ∀ row, keeps row row) {key : String} (hfree : before key = none) (new : R) :
    RowsKept keeps before (Function.update before key (some new)) := by
  intro k row hrow
  have hne : k ≠ key := by
    intro heq
    simp [heq, hfree] at hrow
  exact ⟨row, by rw [Function.update_of_ne hne, hrow], hrefl row⟩

/-- A row written over an earlier version. -/
theorem RowsKept.update (hrefl : ∀ row, keeps row row) {key : String} {old new : R} (hold : before key = some old)
    (hkeeps : keeps old new) : RowsKept keeps before (Function.update before key (some new)) := by
  intro k row hrow
  by_cases hk : k = key
  · subst hk
    rw [hold] at hrow
    cases hrow
    exact ⟨new, by simp, hkeeps⟩
  · exact ⟨row, by rw [Function.update_of_ne hk, hrow], hrefl row⟩

theorem RowsKept.map {f : R → R} (hf : ∀ row, keeps row (f row)) (rows : String → Option R) :
    RowsKept keeps rows fun k => (rows k).map f := by
  intro k row hrow
  exact ⟨f row, by simp [hrow], hf row⟩

end Kept

theorem AuthorizationRequestRow.keeps_consume (row : AuthorizationRequestRow) (now : ℤ) : row.Keeps (row.consume now) :=
  ⟨rfl, rfl, rfl, fun _ => rfl⟩

theorem AuthorizationRequestRow.keeps_setAttempts (row : AuthorizationRequestRow) (attempts : ℕ) :
    row.Keeps (row.setAttempts attempts) :=
  ⟨rfl, rfl, rfl, id⟩

theorem TokenRow.keeps_revoke (row : TokenRow) (now : ℤ) : row.Keeps (row.revoke now) := ⟨rfl, rfl, rfl, rfl, fun _ => rfl⟩

theorem TokenRow.keeps_trans (a b c : TokenRow) (h : a.Keeps b) (h' : b.Keeps c) : a.Keeps c := by
  obtain ⟨hclient, hresource, hscopes, hfamily, hrevoked⟩ := h
  obtain ⟨hclient', hresource', hscopes', hfamily', hrevoked'⟩ := h'
  exact ⟨hclient'.trans hclient, hresource'.trans hresource, hscopes'.trans hscopes, hfamily'.trans hfamily,
    fun hrow => hrevoked' (hrevoked hrow)⟩

section Grants
variable {settings : GrantSettings} {s s' : GrantSystem}

theorem Within.kept {origin : Option String} {clientId resource : String} {scopes : List String}
    {requests requests' : String → Option AuthorizationRequestRow}
    (hkept : RowsKept AuthorizationRequestRow.Keeps requests requests')
    (h : Within requests origin clientId resource scopes) : Within requests' origin clientId resource scopes := by
  obtain ⟨requestId, request, horigin, hrequest, hconsumed, hclient, hresource, hscopes⟩ := h
  obtain ⟨request', hrequest', hclient', hresource', hscopes', hconsumed'⟩ := hkept requestId request hrequest
  refine ⟨requestId, request', horigin, hrequest', hconsumed' hconsumed, ?_, ?_, ?_⟩
  · rw [hclient', hclient]
  · rw [hresource', hresource]
  · rw [hscopes']
    exact hscopes

theorem Within.narrow {requests : String → Option AuthorizationRequestRow} {origin : Option String}
    {clientId resource : String} {scopes scopes' : List String} (h : Within requests origin clientId resource scopes)
    (hsub : scopes' ⊆ scopes) : Within requests origin clientId resource scopes' := by
  obtain ⟨requestId, request, horigin, hrequest, hconsumed, hclient, hresource, hscopes⟩ := h
  exact ⟨requestId, request, horigin, hrequest, hconsumed, hclient, hresource, fun _ hmem => hscopes (hsub hmem)⟩

/-! ## What a step does -/

/-- A step that leaves codes and tokens alone. -/
theorem Granted.of_requests (hs : Granted s) (hkept : RowsKept AuthorizationRequestRow.Keeps s.requests s'.requests)
    (hcodes : s'.codes = s.codes) (hcodeOrigin : s'.codeOrigin = s.codeOrigin) (htokens : s'.tokens = s.tokens)
    (htokenOrigin : s'.tokenOrigin = s.tokenOrigin) (hfamilies : s'.families = s.families)
    (hrevoked : s'.revoked = s.revoked) : Granted s' where
  codes := by
    rw [hcodes, hcodeOrigin]
    exact fun codeHash row hrow => (hs.codes codeHash row hrow).kept hkept
  tokens := by
    rw [htokens, htokenOrigin]
    exact fun tokenHash row hrow => (hs.tokens tokenHash row hrow).kept hkept
  families := by
    rw [htokens, hfamilies]
    exact hs.families
  closed := by
    rw [htokens, hfamilies, hrevoked]
    exact hs.closed

/-- A code row written for a decided request. -/
theorem Granted.putCode (hs : Granted s) (codeHash : String) (row : AuthorizationCodeRow) {origin : Option String}
    (hwithin : Within s.requests origin row.clientId row.resource row.scopes) :
    Granted { s with
      codes := Function.update s.codes codeHash (some row)
      codeOrigin := Function.update s.codeOrigin codeHash origin } where
  codes := by
    intro k other hother
    obtain ⟨rfl, hrow⟩ | ⟨hne, hother⟩ := Run.of_update (fun version => version = some other) hother
    · cases hrow
      simpa only [Function.update_self] using hwithin
    · simpa only [Function.update_of_ne hne] using hs.codes k other hother
  tokens := hs.tokens
  families := hs.families
  closed := hs.closed

/-- An UPDATE over the token rows. -/
theorem Granted.mapTokens (hs : Granted s) {f : TokenRow → TokenRow} (hf : ∀ row : TokenRow, row.Keeps (f row)) :
    Granted { s with tokens := fun k => (s.tokens k).map f } where
  codes := hs.codes
  tokens := by
    intro tokenHash row hrow
    obtain ⟨old, hold, rfl⟩ := Option.map_eq_some_iff.mp hrow
    obtain ⟨hclient, hresource, hscopes, -, -⟩ := hf old
    rw [hclient, hresource, hscopes]
    exact hs.tokens tokenHash old hold
  families := by
    intro tokenHash row hrow
    obtain ⟨old, hold, rfl⟩ := Option.map_eq_some_iff.mp hrow
    rw [(hf old).2.2.2.1]
    exact hs.families tokenHash old hold
  closed := by
    intro familyId hmem
    refine ⟨(hs.closed familyId hmem).1, ?_⟩
    intro tokenHash row hrow hfamily
    obtain ⟨old, hold, rfl⟩ := Option.map_eq_some_iff.mp hrow
    rw [(hf old).2.2.2.1] at hfamily
    exact (hf old).2.2.2.2 ((hs.closed familyId hmem).2 tokenHash old hold hfamily)

/-- A flushed pair: both keys were free and both rows are of the given family. -/
theorem addTokenPair_some {clientId : String} {scopes : List String} {resource familyId access refresh : String}
    {origin : Option String}
    (h : s.addTokenPair settings clientId scopes resource familyId access refresh origin = some s') :
    s.tokens access = none ∧ s.tokens refresh = none ∧ access ≠ refresh ∧
      ∃ first second : TokenRow,
        first = newToken .access clientId scopes resource familyId (s.clock + settings.accessTokenTtlSeconds) s.clock ∧
        second = newToken .refresh clientId scopes resource familyId (s.clock + settings.refreshTokenTtlSeconds) s.clock ∧
        s' = { s with
          tokens := Function.update (Function.update s.tokens access (some first)) refresh (some second)
          families := familyId :: s.families
          tokenOrigin := Function.update (Function.update s.tokenOrigin access origin) refresh origin } := by
  simp only [GrantSystem.addTokenPair] at h
  split at h
  · simp at h
  · rename_i hfree
    simp only [Bool.or_eq_true, beq_iff_eq, not_or, Bool.not_eq_true, Option.isSome_eq_false_iff,
      Option.isNone_iff_eq_none] at hfree
    exact ⟨hfree.1.1, hfree.1.2, hfree.2, _, _, rfl, rfl, (Option.some.inj h).symm⟩

/-- A pair of a family that no revocation has closed. -/
theorem Granted.addTokenPair (hs : Granted s) {clientId : String} {scopes : List String}
    {resource familyId access refresh : String} {origin : Option String}
    (hwithin : Within s.requests origin clientId resource scopes) (hopen : familyId ∉ s.revoked)
    (h : s.addTokenPair settings clientId scopes resource familyId access refresh origin = some s') : Granted s' := by
  obtain ⟨-, -, -, first, second, hfirst, hsecond, rfl⟩ := addTokenPair_some h
  have written : ∀ k row,
      Function.update (Function.update s.tokens access (some first)) refresh (some second) k = some row →
      (Function.update (Function.update s.tokenOrigin access origin) refresh origin k = origin ∧
        row.clientId = clientId ∧ row.resource = resource ∧ row.scopes = scopes ∧ row.familyId = familyId) ∨
      (Function.update (Function.update s.tokenOrigin access origin) refresh origin k = s.tokenOrigin k ∧
        s.tokens k = some row) := by
    intro k row hrow
    obtain ⟨hk, hrow⟩ | ⟨hne, hrow⟩ := Run.of_update (fun version => version = some row) hrow
    · have hnew : row = second := (Option.some.inj hrow).symm
      rw [hnew, hsecond]
      exact .inl ⟨by simp [hk], rfl, rfl, rfl, rfl⟩
    · obtain ⟨hk, hrow⟩ | ⟨hne', hrow⟩ := Run.of_update (fun version => version = some row) hrow
      · have hnew : row = first := (Option.some.inj hrow).symm
        rw [hnew, hfirst]
        exact .inl ⟨by rw [Function.update_of_ne hne, hk, Function.update_self], rfl, rfl, rfl, rfl⟩
      · exact .inr ⟨by rw [Function.update_of_ne hne, Function.update_of_ne hne'], hrow⟩
  refine ⟨hs.codes, ?_, ?_, ?_⟩
  · intro k row hrow
    obtain ⟨horigin, hclient, hresource, hscopes, -⟩ | ⟨horigin, hold⟩ := written k row hrow
    · simpa only [horigin, hclient, hresource, hscopes] using hwithin
    · simpa only [horigin] using hs.tokens k row hold
  · intro k row hrow
    obtain ⟨-, -, -, -, hfamily⟩ | ⟨-, hold⟩ := written k row hrow
    · simp [hfamily]
    · exact List.mem_cons_of_mem _ (hs.families k row hold)
  · intro closedId hmem
    obtain ⟨hknown, hclosed⟩ := hs.closed closedId hmem
    refine ⟨List.mem_cons_of_mem _ hknown, ?_⟩
    intro k row hrow hfamily
    obtain ⟨-, -, -, -, hnew⟩ | ⟨-, hold⟩ := written k row hrow
    · rw [← hfamily, hnew] at hmem
      exact absurd hmem hopen
    · exact hclosed k row hold hfamily

theorem addTokenPair_kept {clientId : String} {scopes : List String} {resource familyId access refresh : String}
    {origin : Option String}
    (h : s.addTokenPair settings clientId scopes resource familyId access refresh origin = some s') :
    RowsKept TokenRow.Keeps s.tokens s'.tokens := by
  obtain ⟨haccess, hrefresh, hne, first, second, -, -, rfl⟩ := addTokenPair_some h
  refine RowsKept.trans TokenRow.keeps_trans (.insert TokenRow.keeps_refl haccess first) ?_
  apply RowsKept.insert TokenRow.keeps_refl
  rw [Function.update_of_ne hne.symm, hrefresh]

theorem keeps_revokeFamily (familyId : String) (now : ℤ) (row : TokenRow) :
    row.Keeps (if row.unrevokedIn familyId then row.revoke now else row) := by
  split
  · exact row.keeps_revoke now
  · exact row.keeps_refl

/-- Every row of the family is revoked by the UPDATE. -/
theorem revokeFamily_revokes {familyId tokenHash : String} {row : TokenRow}
    (h : (s.revokeFamily familyId).tokens tokenHash = some row) (hfamily : row.familyId = familyId) :
    row.revokedAt.isSome = true := by
  obtain ⟨old, -, rfl⟩ := Option.map_eq_some_iff.mp h
  split
  · rfl
  · rename_i hout
    rw [if_neg hout] at hfamily
    have hrevoked : old.revokedAt ≠ none := by simpa [TokenRow.unrevokedIn, hfamily] using hout
    exact Option.isSome_iff_ne_none.mpr hrevoked

/-! ## The steps -/

/-- What every step keeps: requests and tokens stay, with their client, resource, scopes and revocation. -/
structure Continues (s s' : GrantSystem) : Prop where
  requests : RowsKept AuthorizationRequestRow.Keeps s.requests s'.requests
  tokens : RowsKept TokenRow.Keeps s.tokens s'.tokens

theorem Continues.of_tables (hrequests : s'.requests = s.requests) (htokens : s'.tokens = s.tokens) : Continues s s' where
  requests := by
    rw [hrequests]
    exact .refl AuthorizationRequestRow.keeps_refl _
  tokens := by
    rw [htokens]
    exact .refl TokenRow.keeps_refl _

theorem Continues.refl (s : GrantSystem) : Continues s s := .of_tables rfl rfl

/-- An authorization inserts a request, or changes nothing. -/
theorem authorize_cases (settings : GrantSettings) (s : GrantSystem) (client : OAuthClient) (params : AuthorizationParams)
    (requestId : String) :
    (s.authorize settings client params requestId).1 = s ∨
      s.requests requestId = none ∧ ∃ row, (s.authorize settings client params requestId).1 =
        { s with requests := Function.update s.requests requestId (some row) } := by
  simp only [GrantSystem.authorize]
  split
  · exact .inl rfl
  · split
    · exact .inl rfl
    · split
      · exact .inl rfl
      · split
        · exact .inl rfl
        · rename_i hfree
          exact .inr ⟨by simpa using hfree, _, rfl⟩

/-- A submission leaves the requests as they are, counts a failure, closes the request, or closes it and issues a code
for it. -/
theorem submit_cases (settings : GrantSettings) (s : GrantSystem) (sub : Submission) :
    (s.submit settings sub).1 = s ∨
      ∃ row, s.requests sub.requestId = some row ∧
        ((∃ attempts, (s.submit settings sub).1 =
            { s with requests := Function.update s.requests sub.requestId (some (row.setAttempts attempts)) }) ∨
          (∃ pairings, (s.submit settings sub).1 =
            { s with
              pairings := pairings
              requests := Function.update s.requests sub.requestId (some (row.consume s.clock)) }) ∨
          (∃ pairings expiresAt, (s.submit settings sub).1 =
            { s with
              pairings := pairings
              requests := Function.update s.requests sub.requestId (some (row.consume s.clock))
              codes := Function.update s.codes sub.codeHash (some (row.issue expiresAt))
              codeOrigin := Function.update s.codeOrigin sub.codeHash (some sub.requestId) })) := by
  simp only [GrantSystem.submit]
  split
  · exact .inl rfl
  · rename_i row hrow
    split
    · exact .inl rfl
    · split
      · exact .inl rfl
      · split
        · exact .inr ⟨row, hrow, .inl ⟨_, rfl⟩⟩
        · split
          · exact .inr ⟨row, hrow, .inr (.inl ⟨_, rfl⟩)⟩
          · split
            · exact .inl rfl
            · exact .inr ⟨row, hrow, .inr (.inr ⟨_, _, rfl⟩)⟩

/-- An exchange consumes the code and adds a pair for it, or changes nothing. -/
theorem exchange_cases (settings : GrantSettings) (s : GrantSystem) (client : OAuthClient) (code : PresentedGrant)
    (access refresh familyId : String) :
    (s.exchangeAuthorizationCode settings client code access refresh familyId).1 = s ∨
      ∃ row issued, s.codes code.hash = some row ∧
        GrantSystem.addTokenPair settings
          { s with codes := Function.update s.codes code.hash (some (row.consume s.clock)) }
          row.clientId row.scopes row.resource familyId access refresh (s.codeOrigin code.hash) = some issued ∧
        (s.exchangeAuthorizationCode settings client code access refresh familyId).1 = issued := by
  simp only [GrantSystem.exchangeAuthorizationCode]
  split
  · exact .inl rfl
  · split
    · exact .inl rfl
    · rename_i row hrow
      split
      · exact .inl rfl
      · split
        · exact .inl rfl
        · rename_i issued hissued
          exact .inr ⟨row, issued, hrow, hissued, rfl⟩

/-- A rotation revokes the family and adds a pair of it, or fails and changes nothing. -/
theorem rotate_cases (settings : GrantSettings) (s : GrantSystem) (client : OAuthClient) (refreshToken : PresentedGrant)
    (scopes : List String) (access refresh : String) :
    (∃ error, s.exchangeRefreshToken settings client refreshToken scopes access refresh = (s, .error error)) ∨
      ∃ row rotated token, s.tokens refreshToken.hash = some row ∧ row.rotatable scopes s.clock = true ∧
        (s.revokeFamily row.familyId).addTokenPair settings row.clientId scopes row.resource row.familyId access refresh
          (s.tokenOrigin refreshToken.hash) = some rotated ∧
        s.exchangeRefreshToken settings client refreshToken scopes access refresh = (rotated, .ok token) := by
  simp only [GrantSystem.exchangeRefreshToken]
  split
  · exact .inl ⟨_, rfl⟩
  · split
    · exact .inl ⟨_, rfl⟩
    · rename_i row hrow
      split
      · exact .inl ⟨_, rfl⟩
      · rename_i hrotatable
        split
        · exact .inl ⟨_, rfl⟩
        · rename_i rotated hrotated
          exact .inr ⟨row, rotated, _, hrow, by simpa using hrotatable, hrotated, rfl⟩

theorem revokeFamily_continues (s : GrantSystem) (familyId : String) : Continues s (s.revokeFamily familyId) :=
  ⟨.refl AuthorizationRequestRow.keeps_refl _, .map (keeps_revokeFamily familyId s.clock) _⟩

theorem Granted.revokeFamily (hs : Granted s) (familyId : String) : Granted (s.revokeFamily familyId) :=
  hs.mapTokens (keeps_revokeFamily familyId s.clock)

theorem keeps_extend (settings : GrantSettings) (clientId : String) (now : ℤ) (row : TokenRow) :
    row.Keeps (if row.clientId == clientId && row.tokenKind == .refresh && row.revokedAt.isNone && !(row.expiresAt ≤ now)
      then { row with expiresAt := row.expiresAt + settings.refreshTokenTtlSeconds } else row) := by
  split
  · exact ⟨rfl, rfl, rfl, rfl, id⟩
  · exact row.keeps_refl

/-- Adding a pair leaves the requests alone. -/
theorem addTokenPair_requests {clientId : String} {scopes : List String} {resource familyId access refresh : String}
    {origin : Option String}
    (h : s.addTokenPair settings clientId scopes resource familyId access refresh origin = some s') :
    s'.requests = s.requests := by
  obtain ⟨-, -, -, first, second, -, -, rfl⟩ := addTokenPair_some h
  rfl

theorem grantStep_continues {label : GrantLabel} (h : grantStep settings s label = some s') : Continues s s' := by
  cases label with
  | tick seconds =>
    cases h
    exact .of_tables rfl rfl
  | authorize client params requestId =>
    cases h
    obtain hsame | ⟨hfree, row, hnew⟩ := authorize_cases settings s client params requestId
    · rw [hsame]
      exact .refl s
    · rw [hnew]
      exact ⟨.insert AuthorizationRequestRow.keeps_refl hfree row, .refl TokenRow.keeps_refl _⟩
  | createPairingCode codeHash =>
    cases h
    simp only [GrantSystem.createPairingCode]
    split <;> exact .of_tables rfl rfl
  | submit sub =>
    cases h
    obtain hsame | ⟨row, hrow, ⟨attempts, hnew⟩ | ⟨pairings, hnew⟩ | ⟨pairings, expiresAt, hnew⟩⟩ :=
      submit_cases settings s sub
    · rw [hsame]
      exact .refl s
    · rw [hnew]
      exact ⟨.update AuthorizationRequestRow.keeps_refl hrow (row.keeps_setAttempts attempts),
        .refl TokenRow.keeps_refl _⟩
    · rw [hnew]
      exact ⟨.update AuthorizationRequestRow.keeps_refl hrow (row.keeps_consume s.clock), .refl TokenRow.keeps_refl _⟩
    · rw [hnew]
      exact ⟨.update AuthorizationRequestRow.keeps_refl hrow (row.keeps_consume s.clock), .refl TokenRow.keeps_refl _⟩
  | exchange client code access refresh familyId =>
    simp only [grantStep] at h
    split at h
    · simp at h
    · cases h
      obtain hsame | ⟨row, issued, -, hissued, hnew⟩ := exchange_cases settings s client code access refresh familyId
      · rw [hsame]
        exact .refl s
      · rw [hnew]
        have hkept := addTokenPair_kept hissued
        refine ⟨?_, hkept⟩
        rw [addTokenPair_requests hissued]
        exact .refl AuthorizationRequestRow.keeps_refl _
  | rotate client refreshToken scopes access refresh =>
    cases h
    obtain ⟨error, hsame⟩ | ⟨row, rotated, token, -, -, hrotated, hnew⟩ :=
      rotate_cases settings s client refreshToken scopes access refresh
    · rw [hsame]
      exact .refl s
    · rw [hnew]
      refine ⟨?_, (revokeFamily_continues s row.familyId).tokens.trans TokenRow.keeps_trans (addTokenPair_kept hrotated)⟩
      rw [addTokenPair_requests hrotated]
      exact .refl AuthorizationRequestRow.keeps_refl _
  | revoke tokenHash =>
    cases h
    simp only [GrantSystem.revokeToken]
    split
    · exact .refl s
    · rename_i row hrow
      exact ⟨.refl AuthorizationRequestRow.keeps_refl _, (revokeFamily_continues s row.familyId).tokens⟩
  | extend clientId =>
    cases h
    exact ⟨.refl AuthorizationRequestRow.keeps_refl _, .map (keeps_extend settings clientId s.clock) _⟩

theorem Granted.step {label : GrantLabel} (hs : Granted s) (h : grantStep settings s label = some s') : Granted s' := by
  have kept := (grantStep_continues h).requests
  cases label with
  | tick seconds =>
    cases h
    exact hs.of_requests kept rfl rfl rfl rfl rfl rfl
  | authorize client params requestId =>
    cases h
    obtain hsame | ⟨-, row, hnew⟩ := authorize_cases settings s client params requestId
    · rwa [hsame]
    · rw [hnew] at kept ⊢
      exact hs.of_requests kept rfl rfl rfl rfl rfl rfl
  | createPairingCode codeHash =>
    cases h
    simp only [GrantSystem.createPairingCode] at kept ⊢
    split
    · exact hs
    · exact hs.of_requests (.refl AuthorizationRequestRow.keeps_refl _) rfl rfl rfl rfl rfl rfl
  | submit sub =>
    cases h
    obtain hsame | ⟨row, hrow, ⟨attempts, hnew⟩ | ⟨pairings, hnew⟩ | ⟨pairings, expiresAt, hnew⟩⟩ :=
      submit_cases settings s sub
    · rwa [hsame]
    · rw [hnew] at kept ⊢
      exact hs.of_requests kept rfl rfl rfl rfl rfl rfl
    · rw [hnew] at kept ⊢
      exact hs.of_requests kept rfl rfl rfl rfl rfl rfl
    · rw [hnew] at kept ⊢
      have hclosed : Granted { s with
          pairings := pairings
          requests := Function.update s.requests sub.requestId (some (row.consume s.clock)) } :=
        hs.of_requests kept rfl rfl rfl rfl rfl rfl
      refine hclosed.putCode sub.codeHash (row.issue expiresAt) ?_
      exact ⟨sub.requestId, row.consume s.clock, rfl, by simp, rfl, rfl, rfl, fun _ hmem => hmem⟩
  | exchange client code access refresh familyId =>
    simp only [grantStep] at h
    split at h
    · simp at h
    · rename_i hfresh
      cases h
      obtain hsame | ⟨row, issued, hrow, hissued, hnew⟩ := exchange_cases settings s client code access refresh familyId
      · rwa [hsame]
      · rw [hnew]
        have hwithin := hs.codes code.hash row hrow
        have hconsumed := hs.putCode code.hash (row.consume s.clock) hwithin
        rw [Function.update_eq_self] at hconsumed
        exact hconsumed.addTokenPair hwithin (fun hmem => hfresh (hs.closed familyId hmem).1) hissued
  | rotate client refreshToken scopes access refresh =>
    cases h
    obtain ⟨error, hsame⟩ | ⟨row, rotated, token, hrow, hrotatable, hrotated, hnew⟩ :=
      rotate_cases settings s client refreshToken scopes access refresh
    · rwa [hsame]
    · rw [hnew]
      simp only [TokenRow.rotatable, Bool.and_eq_true, List.all_eq_true, List.contains_iff_mem] at hrotatable
      obtain ⟨⟨⟨-, hunrevoked⟩, -⟩, hsub⟩ := hrotatable
      have hopen : row.familyId ∉ s.revoked := by
        intro hmem
        have hrevoked := (hs.closed row.familyId hmem).2 _ row hrow rfl
        simp [Option.isNone_iff_eq_none.mp hunrevoked] at hrevoked
      exact (hs.revokeFamily row.familyId).addTokenPair ((hs.tokens _ row hrow).narrow hsub) hopen hrotated
  | revoke tokenHash =>
    cases h
    simp only [GrantSystem.revokeToken]
    split
    · exact hs
    · rename_i row hrow
      have hrevoked := hs.revokeFamily row.familyId
      refine ⟨hrevoked.codes, hrevoked.tokens, hrevoked.families, ?_⟩
      intro familyId hmem
      obtain rfl | hmem := List.mem_cons.mp hmem
      · exact ⟨hs.families tokenHash row hrow, fun _ _ => revokeFamily_revokes⟩
      · exact hrevoked.closed familyId hmem
  | extend clientId =>
    cases h
    exact hs.mapTokens (keeps_extend settings clientId s.clock)

/-! ## Whole runs -/

theorem Granted.runs (hs : Granted s) (h : Run.Runs (grantStep settings) s s') : Granted s' :=
  h.invariant hs fun _ _ _ ha _ hstep => ha.step hstep

/-- A token that a step retires. -/
def Retired (s : GrantSystem) (tokenHash : String) : Prop :=
  ∃ row, s.tokens tokenHash = some row ∧ row.revokedAt.isSome = true

theorem Retired.runs {tokenHash : String} (hs : Retired s tokenHash) (h : Run.Runs (grantStep settings) s s') :
    Retired s' tokenHash := by
  refine h.invariant (P := fun a => Retired a tokenHash) hs ?_
  intro a label b ⟨row, hrow, hrevoked⟩ _ hstep
  obtain ⟨row', hrow', hkeeps⟩ := (grantStep_continues hstep).tokens tokenHash row hrow
  exact ⟨row', hrow', hkeeps.2.2.2.2 hrevoked⟩

theorem retires_retired {label : GrantLabel} {familyId tokenHash : String} {row : TokenRow}
    (hstep : grantStep settings s label = some s') (hretires : label.retires settings s = some familyId)
    (hrow : s.tokens tokenHash = some row) (hfamily : row.familyId = familyId) : Retired s' tokenHash := by
  have revoked : ∀ row' : TokenRow, row'.familyId = familyId → Retired (s.revokeFamily row'.familyId) tokenHash := by
    intro row' hsame
    obtain ⟨version, hversion, -, -, -, hkept, -⟩ :=
      (revokeFamily_continues s row'.familyId).tokens tokenHash row hrow
    exact ⟨version, hversion, revokeFamily_revokes hversion (by rw [hkept, hfamily, hsame])⟩
  cases label with
  | revoke other =>
    cases hstep
    simp only [GrantLabel.retires] at hretires
    obtain ⟨row', hrow', hsame⟩ := Option.map_eq_some_iff.mp hretires
    simp only [GrantSystem.revokeToken, hrow']
    exact revoked row' hsame
  | rotate client refreshToken scopes access refresh =>
    cases hstep
    simp only [GrantLabel.retires] at hretires
    obtain ⟨error, hsame⟩ | ⟨row', rotated, token, hrow', -, hrotated, hnew⟩ :=
      rotate_cases settings s client refreshToken scopes access refresh
    · simp [hsame] at hretires
    · simp only [hnew, hrow', Option.map_some, Option.some.injEq] at hretires
      obtain ⟨version, hversion, hrevoked⟩ := revoked row' hretires
      obtain ⟨version', hversion', hkeeps⟩ := addTokenPair_kept hrotated tokenHash version hversion
      rw [hnew]
      exact ⟨version', hversion', hkeeps.2.2.2.2 hrevoked⟩
  | _ => simp [GrantLabel.retires] at hretires

/-- A retired token is loaded by nobody, and exchanging it fails and leaves the tables as they are. -/
theorem Retired.useless {tokenHash : String} (hs : Retired s tokenHash) (settings : GrantSettings) :
    (∀ kind rawToken, s.getToken kind rawToken tokenHash = none) ∧
      ∀ client clientId scopes access refresh,
        ∃ error, s.exchangeRefreshToken settings client ⟨clientId, tokenHash⟩ scopes access refresh = (s, .error error) := by
  obtain ⟨row, hrow, hrevoked⟩ := hs
  constructor
  · intro kind rawToken
    simp [GrantSystem.getToken, hrow, hrevoked]
  · intro client clientId scopes access refresh
    obtain hfails | ⟨row', rotated, token, hrow', hrotatable, -, -⟩ :=
      rotate_cases settings s client ⟨clientId, tokenHash⟩ scopes access refresh
    · exact hfails
    · rw [hrow] at hrow'
      cases hrow'
      simp [TokenRow.rotatable, Option.isSome_iff_ne_none.mp hrevoked] at hrotatable

end Grants

/-! ## One authorization, its tokens, and a rotation -/

def demoGrantSettings : GrantSettings where
  maxApprovalAttempts := 5
  authorizationCodeTtlSeconds := 60
  pairingCodeTtlSeconds := 300
  resourceUrl := "resource"
  requiredScopes := ["mcp"]
  defaultScopes := ["mcp"]
  approvalTtlSeconds := 300
  accessTokenTtlSeconds := 900
  refreshTokenTtlSeconds := 9000

def demoClient : OAuthClient := ⟨some "client", none⟩

def demoGrants : List GrantLabel :=
  [.authorize demoClient ⟨none, none, "challenge", "uri", true, none⟩ "request", .createPairingCode "pairing",
   .submit ⟨.approve, "request", some "pairing", "code", "c0"⟩, .tick 10,
   .exchange demoClient ⟨"client", "c0"⟩ "a0" "r0" "family"]

def demoRefresh : GrantLabel := .rotate demoClient ⟨"client", "r0"⟩ ["mcp"] "a1" "r1"

theorem demo_grants_end :
    ((Run.exec (grantStep demoGrantSettings) (.start 0) demoGrants).map fun s =>
      (s.loadAccessToken "token" "a0", s.tokens "r0", demoRefresh.retires demoGrantSettings s)) =
        some (some ⟨"token", .access, "family", "client", ["mcp"], "resource", 910⟩,
          some (newToken .refresh "client" ["mcp"] "resource" "family" 9010 10), some "family") := by
  decide

end Alexandria.OAuth
