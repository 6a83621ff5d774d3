import Alexandria.Foundations.Run
import Alexandria.OAuth.Records
import Mathlib.Data.Fintype.Basic

/-! # Rotating and revoking a token family

`rotate_refresh_token` and `revoke_token_family`: load one row, revoke every unrevoked row of its family with
one UPDATE, and on rotation insert the new pair. The UPDATE takes its targets from a snapshot at its start,
then locks and re-checks them one by one, so it never sees a pair that another transaction inserts meanwhile.
`revoked` records the families of which a revocation committed.
-/

namespace Alexandria.OAuth
set_option autoImplicit false

open ReadCommitted

structure RotateRequest where
  oldRefreshHash : String
  scopes : List String
  pair : PairRequest

inductive FamilyRequest
  | rotate (req : RotateRequest)
  | revoke (tokenHash : String) (now : ℤ)

def FamilyRequest.tokenHash : FamilyRequest → String
  | .rotate req => req.oldRefreshHash
  | .revoke tokenHash _ => tokenHash

def FamilyRequest.now : FamilyRequest → ℤ
  | .rotate req => req.pair.now
  | .revoke _ now => now

inductive FamilyPhase
  | idle
  | begun (req : FamilyRequest)
  | loaded (req : FamilyRequest) (row : TokenRow)
  | revoking (req : FamilyRequest) (row : TokenRow) (targets : List String)
  | inserted (req : RotateRequest) (row : TokenRow)
  | returned (req : FamilyRequest) (result : Option LocalOAuthTokenRecord)
  | failed (req : FamilyRequest)

structure FamilySystem (T : Type) where
  tokens : Table String TokenRow T
  sessions : T → FamilyPhase
  revoked : String → Bool

inductive FamilyLabel (T : Type)
  | request (t : T) (req : FamilyRequest)
  | load (t : T)
  | scan (t : T)
  | touch (t : T)
  | insert (t : T)
  | commit (t : T)
  | abort (t : T)

section System
variable {T : Type} [DecidableEq T]

def FamilySystem.setSession (s : FamilySystem T) (t : T) (phase : FamilyPhase) : FamilySystem T :=
  { s with sessions := Function.update s.sessions t phase }

def FamilySystem.rollback (s : FamilySystem T) (t : T) (req : FamilyRequest) : FamilySystem T :=
  { s.setSession t (.failed req) with tokens := s.tokens.abort t }

/-- What the loaded row leads to: a rotation checks it, a revocation only needs it to be there. -/
def familyLoaded (req : FamilyRequest) : Option TokenRow → FamilyPhase
  | none => .returned req none
  | some row =>
    match req with
    | .rotate r => if row.rotatable r.scopes r.pair.now then .loaded req row else .returned req none
    | .revoke _ _ => .loaded req row

/-- One target of the running UPDATE: the latest version is checked again before it is written. -/
def touchTarget (tokens : Table String TokenRow T) (t : T) (familyId : String) (now : ℤ) (k : String) :
    Table String TokenRow T :=
  match tokens.read t k with
  | some latest => if latest.unrevokedIn familyId then tokens.write t k (latest.revoke now) else tokens
  | none => tokens

def rotatedRecord (req : RotateRequest) (row : TokenRow) : LocalOAuthTokenRecord :=
  { token := "", tokenKind := .refresh, familyId := row.familyId, clientId := row.clientId, scopes := req.scopes,
    resource := row.resource, expiresAt := req.pair.refreshExpiresAt }

def familyStep (s : FamilySystem T) : FamilyLabel T → Option (FamilySystem T)
  | .request t req =>
    match s.sessions t with
    | .idle => some (s.setSession t (.begun req))
    | _ => none
  | .load t =>
    match s.sessions t with
    | .begun req => some (s.setSession t (familyLoaded req (s.tokens.read t req.tokenHash)))
    | _ => none
  | .scan t =>
    match s.sessions t with
    | .loaded req row =>
      some (s.setSession t (.revoking req row (s.tokens.select t (TokenRow.unrevokedIn row.familyId))))
    | _ => none
  | .touch t =>
    match s.sessions t with
    | .revoking req row (k :: targets) =>
      if s.tokens.writable t k then
        some { s.setSession t (.revoking req row targets) with
          tokens := touchTarget s.tokens t row.familyId req.now k }
      else none
    | _ => none
  | .insert t =>
    match s.sessions t with
    | .revoking (.rotate req) row [] =>
      match addTokenPair s.tokens t row.clientId req.scopes row.resource row.familyId req.pair with
      | .waits => none
      | .fails => some (s.rollback t (.rotate req))
      | .done tokens => some { s.setSession t (.inserted req row) with tokens := tokens }
    | _ => none
  | .commit t =>
    match s.sessions t with
    | .inserted req row =>
      some { s.setSession t (.returned (.rotate req) (some (rotatedRecord req row))) with
        tokens := s.tokens.commit t }
    | .revoking (.revoke tokenHash now) row [] =>
      some { s.setSession t (.returned (.revoke tokenHash now) none) with
        tokens := s.tokens.commit t
        revoked := Function.update s.revoked row.familyId true }
    | _ => none
  | .abort t =>
    match s.sessions t with
    | .begun req => some (s.rollback t req)
    | .loaded req _ => some (s.rollback t req)
    | .revoking req _ _ => some (s.rollback t req)
    | .inserted req _ => some (s.rollback t (.rotate req))
    | _ => none

end System

/-! ## Transactions in flight -/

/-- The family a transaction in flight works on. -/
def FamilyPhase.family : FamilyPhase → Option String
  | .loaded _ row => some row.familyId
  | .revoking _ row _ => some row.familyId
  | .inserted _ row => some row.familyId
  | _ => none

/-- The family a rotation in flight works on. -/
def FamilyPhase.rotating : FamilyPhase → Option String
  | .loaded (.rotate _) row => some row.familyId
  | .revoking (.rotate _) row _ => some row.familyId
  | .inserted _ row => some row.familyId
  | _ => none

/-- The token a transaction is about to load. -/
def FamilyPhase.requested : FamilyPhase → Option String
  | .begun req => some req.tokenHash
  | _ => none

/-- A token is loaded only while no other rotation or revocation of its family is in flight. -/
def LoadsFamilyAlone {T : Type} [DecidableEq T] (s : FamilySystem T) : FamilyLabel T → Prop
  | .load t => ∀ k ∈ (s.sessions t).requested, ∀ row ∈ s.tokens.read t k, ∀ u, (s.sessions u).family ≠ some row.familyId
  | _ => True

instance {T : Type} [DecidableEq T] [Fintype T] (s : FamilySystem T) : DecidablePred (LoadsFamilyAlone s)
  | .load t => inferInstanceAs (Decidable (∀ k ∈ (s.sessions t).requested, ∀ row ∈ s.tokens.read t k, ∀ u,
      (s.sessions u).family ≠ some row.familyId))
  | .request _ _ => .isTrue trivial
  | .scan _ => .isTrue trivial
  | .touch _ => .isTrue trivial
  | .insert _ => .isTrue trivial
  | .commit _ => .isTrue trivial
  | .abort _ => .isTrue trivial

/-! ## The invariant -/

/-- A live refresh token. -/
def TokenRow.live (row : TokenRow) : Prop := row.tokenKind = .refresh ∧ row.revokedAt = none

/-- At most one refresh token of a family is unrevoked. -/
def OneLiveRefresh {T : Type} (tokens : Table String TokenRow T) : Prop :=
  ∀ k j row row', tokens.committed k = some row → tokens.committed j = some row' → row.live → row'.live →
    row.familyId = row'.familyId → k = j

/-- Every token of a revoked family is revoked. -/
def RevokedStayRevoked {T : Type} (s : FamilySystem T) : Prop :=
  ∀ f k row, s.revoked f = true → s.tokens.committed k = some row → row.familyId = f → row.revokedAt.isSome = true

structure FamilySafe {T : Type} (s : FamilySystem T) : Prop where
  keyed : ∀ k row, s.tokens.committed k = some row → k ∈ s.tokens.keys
  locked : ∀ k t row, s.tokens.pending k = some (t, row) → k ∈ s.tokens.keys ∧
    (s.sessions t).family = some row.familyId ∧
    (row.revokedAt = none → ∃ req old, s.sessions t = .inserted req old ∧
      (row.tokenKind = .refresh → k = req.pair.refreshTokenHash))
  alone : ∀ t u f, (s.sessions t).family = some f → (s.sessions u).family = some f → t = u
  revoking : ∀ t req old targets, s.sessions t = .revoking req old targets → ∀ k row,
    s.tokens.committed k = some row → row.unrevokedIn old.familyId = true →
    k ∈ targets ∨ ∃ version, s.tokens.pending k = some (t, version)
  inserted : ∀ t req old, s.sessions t = .inserted req old → ∀ k row,
    s.tokens.committed k = some row → row.unrevokedIn old.familyId = true →
    ∃ version, s.tokens.pending k = some (t, version)
  single : OneLiveRefresh s.tokens
  dead : RevokedStayRevoked s
  unrevoked : ∀ t f, (s.sessions t).rotating = some f → s.revoked f = false

/-- What a transaction in phase `x` owes to the table: its versions are of its family, unrevoked ones are the pair it
inserted, and no unrevoked row of the family escapes it. -/
structure Accounts {T : Type} (tab : Table String TokenRow T) (t : T) (x : FamilyPhase) : Prop where
  locked : ∀ k row, tab.pending k = some (t, row) → x.family = some row.familyId ∧
    (row.revokedAt = none → ∃ req old, x = .inserted req old ∧
      (row.tokenKind = .refresh → k = req.pair.refreshTokenHash))
  revoking : ∀ req old targets, x = .revoking req old targets → ∀ k row, tab.committed k = some row →
    row.unrevokedIn old.familyId = true → k ∈ targets ∨ ∃ version, tab.pending k = some (t, version)
  inserted : ∀ req old, x = .inserted req old → ∀ k row, tab.committed k = some row →
    row.unrevokedIn old.familyId = true → ∃ version, tab.pending k = some (t, version)

/-- What a step of transaction `t` may do to the table: the versions of the others stay, and committed rows change in
its own family only. -/
structure Frames {T : Type} (s : FamilySystem T) (t : T) (tab : Table String TokenRow T) : Prop where
  keyed : ∀ k row, tab.committed k = some row → k ∈ tab.keys
  lockedKeys : ∀ k u row, tab.pending k = some (u, row) → k ∈ tab.keys
  others : ∀ k u row, u ≠ t → (tab.pending k = some (u, row) ↔ s.tokens.pending k = some (u, row))
  committed : ∀ k row, tab.committed k = some row →
    s.tokens.committed k = some row ∨ (s.sessions t).family = some row.familyId

section Preservation
variable {T : Type} {s : FamilySystem T}

theorem TokenRow.unrevokedIn_iff {row : TokenRow} {f : String} :
    row.unrevokedIn f = true ↔ row.familyId = f ∧ row.revokedAt = none := by
  unfold TokenRow.unrevokedIn
  rw [Bool.and_eq_true, beq_iff_eq, Option.isNone_iff_eq_none]

theorem FamilySafe.accounts (hs : FamilySafe s) (t : T) : Accounts s.tokens t (s.sessions t) where
  locked := fun k row hp => (hs.locked k t row hp).2
  revoking := fun req old targets hx => hs.revoking t req old targets hx
  inserted := fun req old hx => hs.inserted t req old hx

/-- Without an open family a transaction owns no version. -/
theorem FamilySafe.no_versions (hs : FamilySafe s) {t : T} (ht : (s.sessions t).family = none) (k : String)
    (row : TokenRow) : s.tokens.pending k ≠ some (t, row) := by
  intro hp
  have := (hs.locked k t row hp).2.1
  rw [ht] at this
  cases this

/-- A transaction that owns no version owes nothing until it starts its UPDATE. -/
theorem Accounts.of_no_versions {tab : Table String TokenRow T} {t : T} {x : FamilyPhase}
    (hnone : ∀ k row, tab.pending k ≠ some (t, row)) (hrevoking : ∀ req old targets, x ≠ .revoking req old targets)
    (hinserted : ∀ req old, x ≠ .inserted req old) : Accounts tab t x where
  locked := fun k row hp => absurd hp (hnone k row)
  revoking := fun req old targets hx => absurd hx (hrevoking req old targets)
  inserted := fun req old hx => absurd hx (hinserted req old)

theorem Frames.same (hs : FamilySafe s) (t : T) : Frames s t s.tokens where
  keyed := hs.keyed
  lockedKeys := fun k u row hp => (hs.locked k u row hp).1
  others := fun _ _ _ _ => Iff.rfl
  committed := fun _ _ hrow => .inl hrow

variable [DecidableEq T]

/-- The invariant after a step of transaction `t`, from what the step does to the table and what `t` owes then. -/
theorem FamilySafe.frame (hs : FamilySafe s) {t : T} {tab : Table String TokenRow T} {x : FamilyPhase}
    {revoked : String → Bool} (hframe : Frames s t tab) (hx : Accounts tab t x)
    (halone : ∀ f, x.family = some f → (s.sessions t).family = some f ∨ ∀ u, (s.sessions u).family ≠ some f)
    (hsingle : OneLiveRefresh tab) (hdead : RevokedStayRevoked ⟨tab, s.sessions, revoked⟩)
    (hself : ∀ f, x.rotating = some f → revoked f = false)
    (hothers : ∀ u f, u ≠ t → (s.sessions u).rotating = some f → revoked f = false) :
    FamilySafe ⟨tab, Function.update s.sessions t x, revoked⟩ := by
  have covered : ∀ u f k row, u ≠ t → (s.sessions u).family = some f → tab.committed k = some row →
      row.unrevokedIn f = true → s.tokens.committed k = some row := by
    intro u f k row hut hu hrow hunrevoked
    obtain hsame | hown := hframe.committed k row hrow
    · exact hsame
    · rw [(TokenRow.unrevokedIn_iff.mp hunrevoked).1] at hown
      exact absurd (hs.alone u t f hu hown) hut
  refine ⟨hframe.keyed, ?_, ?_, ?_, ?_, hsingle, hdead, ?_⟩
  · intro k u row hp
    refine ⟨hframe.lockedKeys k u row hp, ?_⟩
    by_cases hut : u = t
    · subst hut
      simp only [Function.update_self]
      exact hx.locked k row hp
    · simp only [Function.update_of_ne hut]
      exact (hs.locked k u row ((hframe.others k u row hut).mp hp)).2
  · intro u v f hu hv
    by_cases hut : u = t <;> by_cases hvt : v = t
    · rw [hut, hvt]
    · simp only [hut, Function.update_self, Function.update_of_ne hvt] at hu hv
      obtain hold | hnone := halone f hu
      · exact hut.trans (hs.alone t v f hold hv)
      · exact absurd hv (hnone v)
    · simp only [hvt, Function.update_self, Function.update_of_ne hut] at hu hv
      obtain hold | hnone := halone f hv
      · exact (hs.alone u t f hu hold).trans hvt.symm
      · exact absurd hu (hnone u)
    · simp only [Function.update_of_ne hut, Function.update_of_ne hvt] at hu hv
      exact hs.alone u v f hu hv
  · intro u req old targets hu k row hrow hunrevoked
    by_cases hut : u = t
    · subst hut
      simp only [Function.update_self] at hu
      exact hx.revoking req old targets hu k row hrow hunrevoked
    · simp only [Function.update_of_ne hut] at hu
      have hfamily : (s.sessions u).family = some old.familyId := by
        rw [hu]
        rfl
      have hbefore := covered u _ k row hut hfamily hrow hunrevoked
      obtain hmem | ⟨version, hp⟩ := hs.revoking u req old targets hu k row hbefore hunrevoked
      · exact .inl hmem
      · exact .inr ⟨version, (hframe.others k u version hut).mpr hp⟩
  · intro u req old hu k row hrow hunrevoked
    by_cases hut : u = t
    · subst hut
      simp only [Function.update_self] at hu
      exact hx.inserted req old hu k row hrow hunrevoked
    · simp only [Function.update_of_ne hut] at hu
      have hfamily : (s.sessions u).family = some old.familyId := by
        rw [hu]
        rfl
      have hbefore := covered u _ k row hut hfamily hrow hunrevoked
      obtain ⟨version, hp⟩ := hs.inserted u req old hu k row hbefore hunrevoked
      exact ⟨version, (hframe.others k u version hut).mpr hp⟩
  · intro u f hu
    by_cases hut : u = t
    · subst hut
      simp only [Function.update_self] at hu
      exact hself f hu
    · simp only [Function.update_of_ne hut] at hu
      exact hothers u f hut hu

/-- A step that only moves the session. -/
theorem FamilySafe.move (hs : FamilySafe s) {t : T} {x : FamilyPhase} (hx : Accounts s.tokens t x)
    (halone : ∀ f, x.family = some f → (s.sessions t).family = some f ∨ ∀ u, (s.sessions u).family ≠ some f)
    (hself : ∀ f, x.rotating = some f → s.revoked f = false) : FamilySafe (s.setSession t x) :=
  hs.frame (.same hs t) hx halone hs.single hs.dead hself fun u f _ => hs.unrevoked u f

theorem FamilySafe.rollback (hs : FamilySafe s) (t : T) (req : FamilyRequest) : FamilySafe (s.rollback t req) := by
  have hframe : Frames s t (s.tokens.abort t) := by
    refine ⟨hs.keyed, ?_, ?_, fun k row hrow => .inl hrow⟩
    · intro k u row hp
      exact (hs.locked k u row (Table.abort_pending.mp hp).1).1
    · intro k u row hut
      rw [Table.abort_pending]
      exact and_iff_left hut
  refine hs.frame hframe (.of_no_versions ?_ ?_ ?_) ?_ hs.single hs.dead ?_ fun u f _ => hs.unrevoked u f
  · intro k row hp
    exact (Table.abort_pending.mp hp).2 rfl
  · exact fun _ _ _ h => nomatch h
  · exact fun _ _ h => nomatch h
  · exact fun f h => nomatch h
  · exact fun f h => nomatch h

/-- A transaction that opened no family reads committed rows. -/
theorem FamilySafe.read_committed (hs : FamilySafe s) {t : T} (ht : (s.sessions t).family = none) (k : String) :
    s.tokens.read t k = s.tokens.committed k := by
  rw [Table.read_eq, Table.own_eq_none.mpr (hs.no_versions ht k), Option.none_or]

theorem FamilySafe.load (hs : FamilySafe s) {t : T} {req : FamilyRequest} (ht : s.sessions t = .begun req)
    (halone : ∀ row ∈ s.tokens.read t req.tokenHash, ∀ u, (s.sessions u).family ≠ some row.familyId) :
    FamilySafe (s.setSession t (familyLoaded req (s.tokens.read t req.tokenHash))) := by
  have hfamily : (s.sessions t).family = none := by
    rw [ht]
    rfl
  have returned : FamilySafe (s.setSession t (.returned req none)) := by
    apply hs.move
    · exact .of_no_versions (hs.no_versions hfamily) (fun _ _ _ h => nomatch h) fun _ _ h => nomatch h
    · exact fun f h => nomatch h
    · exact fun f h => nomatch h
  cases hrow : s.tokens.read t req.tokenHash with
  | none => exact returned
  | some row =>
    have alone := halone row hrow
    have committed : s.tokens.committed req.tokenHash = some row := (hs.read_committed hfamily _).symm.trans hrow
    have loaded : (∀ f, (FamilyPhase.loaded req row).rotating = some f → s.revoked f = false) →
        FamilySafe (s.setSession t (.loaded req row)) := by
      intro hrotating
      apply hs.move _ _ hrotating
      · exact .of_no_versions (hs.no_versions hfamily) (fun _ _ _ h => nomatch h) fun _ _ h => nomatch h
      · intro f hf
        cases hf
        exact .inr alone
    cases req with
    | revoke tokenHash now => exact loaded fun f h => nomatch h
    | rotate r =>
      by_cases hrotatable : row.rotatable r.scopes r.pair.now = true
      · simp only [familyLoaded, hrotatable, if_true]
        apply loaded
        intro f hf
        cases hf
        -- the loaded token is unrevoked, so its family was never revoked
        apply Bool.eq_false_iff.mpr
        intro hdead
        have hrevoked := hs.dead row.familyId _ row hdead committed rfl
        simp only [TokenRow.rotatable, Bool.and_eq_true, Option.isNone_iff_eq_none] at hrotatable
        rw [hrotatable.1.1.2] at hrevoked
        simp at hrevoked
      · simp only [familyLoaded, hrotatable]
        exact returned

/-- The UPDATE starts: every unrevoked row of the family that the transaction has not written is a target. -/
theorem FamilySafe.scan (hs : FamilySafe s) {t : T} {req : FamilyRequest} {row : TokenRow}
    (ht : s.sessions t = .loaded req row) :
    FamilySafe (s.setSession t (.revoking req row (s.tokens.select t (TokenRow.unrevokedIn row.familyId)))) := by
  have owed := hs.accounts t
  apply hs.move
  · refine ⟨?_, ?_, fun _ _ h => nomatch h⟩
    · intro k version hp
      obtain ⟨hfamily, hpair⟩ := owed.locked k version hp
      rw [ht] at hfamily hpair
      refine ⟨hfamily, fun hnone => ?_⟩
      obtain ⟨_, _, hinserted, -⟩ := hpair hnone
      simp at hinserted
    · intro req' old targets hx k latest hlatest hunrevoked
      cases hx
      cases hown : s.tokens.own t k with
      | some version => exact .inr ⟨version, Table.own_eq_some.mp hown⟩
      | none =>
        refine .inl (Table.mem_select.mpr ⟨hs.keyed k latest hlatest, latest, ?_, hunrevoked⟩)
        rw [Table.read_eq, hown, Option.none_or, hlatest]
  · intro f hf
    rw [ht]
    exact .inl hf
  · intro f hf
    apply hs.unrevoked t f
    rw [ht]
    cases req with
    | rotate r => exact hf
    | revoke tokenHash now => exact nomatch hf

/-- What one target of the UPDATE changes. -/
theorem touchTarget_cases (tokens : Table String TokenRow T) (t : T) (f : String) (now : ℤ) (k : String) :
    (∃ latest, tokens.read t k = some latest ∧ latest.unrevokedIn f = true ∧
        touchTarget tokens t f now k = tokens.write t k (latest.revoke now)) ∨
      ((∀ latest, tokens.read t k = some latest → latest.unrevokedIn f = false) ∧
        touchTarget tokens t f now k = tokens) := by
  unfold touchTarget
  cases hread : tokens.read t k with
  | none => exact .inr ⟨fun _ h => (nomatch h), rfl⟩
  | some latest =>
    by_cases hunrevoked : latest.unrevokedIn f = true
    · exact .inl ⟨latest, rfl, hunrevoked, if_pos hunrevoked⟩
    · refine .inr ⟨?_, if_neg hunrevoked⟩
      intro latest' hlatest
      cases hlatest
      exact Bool.eq_false_iff.mpr hunrevoked

/-- Writing a row keeps the versions of the others when the row lock was free. -/
theorem Frames.write {t : T} {tab : Table String TokenRow T} (hframe : Frames s t tab) {k : String}
    (row : TokenRow) (hwritable : tab.writable t k = true) : Frames s t (tab.write t k row) := by
  refine ⟨?_, ?_, ?_, hframe.committed⟩
  · intro j latest hlatest
    exact Table.mem_write_keys.mpr (.inl (hframe.keyed j latest hlatest))
  · intro j u latest hp
    obtain ⟨hj, -, -⟩ | ⟨-, hp⟩ := Table.write_pending_cases hp
    · exact Table.mem_write_keys.mpr (.inr hj)
    · exact Table.mem_write_keys.mpr (.inl (hframe.lockedKeys j u latest hp))
  · intro j u latest hut
    rw [← hframe.others j u latest hut]
    by_cases hj : j = k
    · subst hj
      rw [Table.write_pending_self]
      constructor
      · intro hp
        cases hp
        exact absurd rfl hut
      · intro hp
        exact absurd (Table.writable_pending hwritable hp) hut
    · rw [Table.write_pending_other hj]

theorem FamilySafe.touch (hs : FamilySafe s) {t : T} {req : FamilyRequest} {row : TokenRow} {k : String}
    {targets : List String} (ht : s.sessions t = .revoking req row (k :: targets))
    (hwritable : s.tokens.writable t k = true) :
    FamilySafe { s.setSession t (.revoking req row targets) with
      tokens := touchTarget s.tokens t row.familyId req.now k } := by
  have owed := hs.accounts t
  rw [ht] at owed
  have uninserted : ∀ j version, s.tokens.pending j = some (t, version) →
      (FamilyPhase.revoking req row targets).family = some version.familyId ∧ version.revokedAt ≠ none := by
    intro j version hp
    obtain ⟨hfamily, hpair⟩ := owed.locked j version hp
    refine ⟨hfamily, fun hnone => ?_⟩
    obtain ⟨_, _, hinserted, -⟩ := hpair hnone
    simp at hinserted
  have rest : ∀ tab : Table String TokenRow T, Frames s t tab → tab.committed = s.tokens.committed →
      Accounts tab t (.revoking req row targets) → FamilySafe ⟨tab, Function.update s.sessions t
        (.revoking req row targets), s.revoked⟩ := by
    intro tab hframe hsame hx
    apply hs.frame hframe hx
    · intro f hf
      rw [ht]
      exact .inl hf
    · intro a b ra rb ha hb
      rw [hsame] at ha hb
      exact hs.single a b ra rb ha hb
    · intro f a ra hf ha
      simp only [hsame] at ha
      exact hs.dead f a ra hf ha
    · intro f hf
      apply hs.unrevoked t f
      rw [ht]
      cases req with
      | rotate r => exact hf
      | revoke tokenHash now => exact nomatch hf
    · exact fun u f _ => hs.unrevoked u f
  obtain ⟨latest, hread, hunrevoked, heq⟩ | ⟨hskip, heq⟩ :=
    touchTarget_cases s.tokens t row.familyId req.now k
  · simp only [heq]
    apply rest _ ((Frames.same hs t).write _ hwritable) rfl
    refine ⟨?_, ?_, fun _ _ h => nomatch h⟩
    · intro j version hp
      obtain ⟨-, -, rfl⟩ | ⟨-, hp⟩ := Table.write_pending_cases hp
      · refine ⟨congrArg some (TokenRow.unrevokedIn_iff.mp hunrevoked).1.symm, fun hnone => nomatch hnone⟩
      · obtain ⟨hfamily, hrevoked⟩ := uninserted j version hp
        exact ⟨hfamily, fun hnone => absurd hnone hrevoked⟩
    · intro req' old targets' hx j version hversion hopen
      cases hx
      by_cases hj : j = k
      · subst hj
        exact .inr ⟨_, Table.write_pending_self⟩
      · rw [Table.write_pending_other hj]
        obtain hmem | hown := owed.revoking req row _ rfl j version hversion hopen
        · exact .inl ((List.mem_cons.mp hmem).resolve_left hj)
        · exact .inr hown
  · simp only [heq]
    apply rest _ (Frames.same hs t) rfl
    refine ⟨?_, ?_, fun _ _ h => nomatch h⟩
    · intro j version hp
      obtain ⟨hfamily, hrevoked⟩ := uninserted j version hp
      exact ⟨hfamily, fun hnone => absurd hnone hrevoked⟩
    · intro req' old targets' hx j version hversion hopen
      cases hx
      obtain hmem | hown := owed.revoking req row _ rfl j version hversion hopen
      · obtain rfl | hmem := List.mem_cons.mp hmem
        · -- the target no longer matches: it has an own version, or it was revoked meanwhile
          cases hown : s.tokens.own t j with
          | some own => exact .inr ⟨own, Table.own_eq_some.mp hown⟩
          | none =>
            have hread : s.tokens.read t j = some version := by
              rw [Table.read_eq, hown, Option.none_or, hversion]
            rw [hskip version hread] at hopen
            simp at hopen
        · exact .inl hmem
      · exact .inr hown

/-- The new pair is flushed after every target was handled. -/
theorem FamilySafe.insert (hs : FamilySafe s) {t : T} {req : RotateRequest} {row : TokenRow}
    {tokens : Table String TokenRow T} (ht : s.sessions t = .revoking (.rotate req) row [])
    (htokens : addTokenPair s.tokens t row.clientId req.scopes row.resource row.familyId req.pair = .done tokens) :
    FamilySafe { s.setSession t (.inserted req row) with tokens := tokens } := by
  obtain ⟨access, refresh, haccess, hrefresh, hfree, hfree', rfl⟩ := addTokenPair_done htokens
  have owed := hs.accounts t
  rw [ht] at owed
  have kept : ∀ k version, s.tokens.pending k = some (t, version) →
      ∃ latest, ((s.tokens.write t req.pair.accessTokenHash access).write t req.pair.refreshTokenHash refresh).pending k =
        some (t, latest) := by
    intro k version hp
    by_cases hk : k = req.pair.refreshTokenHash
    · rw [hk]
      exact ⟨_, Table.write_pending_self⟩
    · rw [Table.write_pending_other hk]
      by_cases hk' : k = req.pair.accessTokenHash
      · rw [hk']
        exact ⟨_, Table.write_pending_self⟩
      · exact ⟨version, (Table.write_pending_other hk').trans hp⟩
  apply hs.frame (((Frames.same hs t).write access hfree).write refresh hfree')
  · refine ⟨?_, fun _ _ _ h => (nomatch h), ?_⟩
    · intro k version hp
      obtain ⟨hk, -, rfl⟩ | ⟨-, hp⟩ := Table.write_pending_cases hp
      · subst hrefresh
        exact ⟨rfl, fun _ => ⟨req, row, rfl, fun _ => hk⟩⟩
      · obtain ⟨-, -, rfl⟩ | ⟨-, hp⟩ := Table.write_pending_cases hp
        · subst haccess
          exact ⟨rfl, fun _ => ⟨req, row, rfl, fun hkind => nomatch hkind⟩⟩
        · obtain ⟨hfamily, hpair⟩ := owed.locked k version hp
          refine ⟨hfamily, fun hnone => ?_⟩
          obtain ⟨_, _, hinserted, -⟩ := hpair hnone
          simp at hinserted
    · intro req' old hx k version hversion hopen
      cases hx
      obtain hmem | ⟨own, hown⟩ := owed.revoking _ row [] rfl k version hversion hopen
      · simp at hmem
      · exact kept k own hown
  · intro f hf
    rw [ht]
    exact .inl hf
  · exact hs.single
  · exact hs.dead
  · intro f hf
    apply hs.unrevoked t f
    rw [ht]
    exact hf
  · exact fun u f _ => hs.unrevoked u f

/-- The end of a transaction that accounts for every unrevoked row of its family. -/
theorem FamilySafe.finish (hs : FamilySafe s) {t : T} {x : FamilyPhase} {revoked : String → Bool}
    (hx : x.family = none) (hrotating : x.rotating = none)
    (hsingle : OneLiveRefresh (s.tokens.commit t)) (hdead : RevokedStayRevoked ⟨s.tokens.commit t, s.sessions, revoked⟩)
    (hothers : ∀ u g, u ≠ t → (s.sessions u).rotating = some g → revoked g = false) :
    FamilySafe ⟨s.tokens.commit t, Function.update s.sessions t x, revoked⟩ := by
  have hframe : Frames s t (s.tokens.commit t) := by
    refine ⟨?_, ?_, ?_, ?_⟩
    · intro k row hrow
      obtain hp | ⟨-, hrow⟩ := Table.commit_cases hrow
      · exact (hs.locked k t row hp).1
      · exact hs.keyed k row hrow
    · intro k u row hp
      exact (hs.locked k u row (Table.commit_pending.mp hp).1).1
    · intro k u row hut
      rw [Table.commit_pending]
      exact and_iff_left hut
    · intro k row hrow
      obtain hp | ⟨-, hrow⟩ := Table.commit_cases hrow
      · exact .inr (hs.locked k t row hp).2.1
      · exact .inl hrow
  apply hs.frame hframe
  · apply Accounts.of_no_versions
    · intro k row hp
      exact (Table.commit_pending.mp hp).2 rfl
    · rintro req old targets rfl
      cases hx
    · rintro req old rfl
      cases hx
  · intro g hg
    rw [hx] at hg
    simp at hg
  · exact hsingle
  · exact hdead
  · intro g hg
    rw [hrotating] at hg
    simp at hg
  · exact hothers

/-- A rotation commits: the only unrevoked refresh token of the family is the one it inserted. -/
theorem FamilySafe.commitRotation (hs : FamilySafe s) {t : T} {req : RotateRequest} {row : TokenRow}
    {result : Option LocalOAuthTokenRecord} (ht : s.sessions t = .inserted req row) :
    FamilySafe { s.setSession t (.returned (.rotate req) result) with tokens := s.tokens.commit t } := by
  have hfamily : (s.sessions t).family = some row.familyId := by
    rw [ht]
    rfl
  have hlive : s.revoked row.familyId = false := by
    apply hs.unrevoked t
    rw [ht]
    rfl
  -- an unrevoked row of the family after the commit is a version of this transaction
  have own : ∀ k latest, (s.tokens.commit t).committed k = some latest → latest.familyId = row.familyId →
      latest.revokedAt = none → s.tokens.pending k = some (t, latest) := by
    intro k latest hlatest hin hopen
    obtain hp | ⟨hnot, hlatest⟩ := Table.commit_cases hlatest
    · exact hp
    · obtain ⟨version, hp⟩ := hs.inserted t req row ht k latest hlatest (TokenRow.unrevokedIn_iff.mpr ⟨hin, hopen⟩)
      exact absurd hp (hnot version)
  have foreign : ∀ k latest, (s.tokens.commit t).committed k = some latest → latest.familyId ≠ row.familyId →
      s.tokens.committed k = some latest := by
    intro k latest hlatest hout
    obtain hp | ⟨-, hlatest⟩ := Table.commit_cases hlatest
    · have := (hs.locked k t latest hp).2.1
      rw [hfamily] at this
      exact absurd (Option.some.inj this).symm hout
    · exact hlatest
  have refresh : ∀ k latest, (s.tokens.commit t).committed k = some latest → latest.familyId = row.familyId →
      latest.live → k = req.pair.refreshTokenHash := by
    intro k latest hlatest hin hopen
    obtain ⟨req', old, hinserted, hkey⟩ := (hs.locked k t latest (own k latest hlatest hin hopen.2)).2.2 hopen.2
    rw [ht] at hinserted
    cases hinserted
    exact hkey hopen.1
  apply hs.finish rfl rfl
  · intro k j ra rb ha hb hla hlb hsame
    by_cases hin : ra.familyId = row.familyId
    · rw [refresh k ra ha hin hla, refresh j rb hb (hsame ▸ hin) hlb]
    · exact hs.single k j ra rb (foreign k ra ha hin) (foreign j rb hb (hsame ▸ hin)) hla hlb hsame
  · intro f k latest hf hlatest hin
    have hf' : s.revoked f = true := hf
    have hout : latest.familyId ≠ row.familyId := by
      intro hsame
      rw [← hin, hsame, hlive] at hf'
      simp at hf'
    exact hs.dead f k latest hf' (foreign k latest hlatest hout) hin
  · exact fun u f _ => hs.unrevoked u f

/-- A revocation commits: no unrevoked token of the family is left. -/
theorem FamilySafe.commitRevocation (hs : FamilySafe s) {t : T} {tokenHash : String} {now : ℤ} {row : TokenRow}
    {result : Option LocalOAuthTokenRecord} (ht : s.sessions t = .revoking (.revoke tokenHash now) row []) :
    FamilySafe { s.setSession t (.returned (.revoke tokenHash now) result) with
      tokens := s.tokens.commit t
      revoked := Function.update s.revoked row.familyId true } := by
  have hfamily : (s.sessions t).family = some row.familyId := by
    rw [ht]
    rfl
  have versions : ∀ k latest, s.tokens.pending k = some (t, latest) →
      latest.familyId = row.familyId ∧ latest.revokedAt ≠ none := by
    intro k latest hp
    obtain ⟨-, hin, hpair⟩ := hs.locked k t latest hp
    rw [hfamily] at hin
    refine ⟨(Option.some.inj hin).symm, fun hnone => ?_⟩
    obtain ⟨req, old, hinserted, -⟩ := hpair hnone
    rw [ht] at hinserted
    simp at hinserted
  have gone : ∀ k latest, (s.tokens.commit t).committed k = some latest → latest.familyId = row.familyId →
      latest.revokedAt ≠ none := by
    intro k latest hlatest hin hopen
    obtain hp | ⟨hnot, hlatest⟩ := Table.commit_cases hlatest
    · exact (versions k latest hp).2 hopen
    · obtain hmem | ⟨version, hp⟩ :=
        hs.revoking t _ row [] ht k latest hlatest (TokenRow.unrevokedIn_iff.mpr ⟨hin, hopen⟩)
      · simp at hmem
      · exact hnot version hp
  have foreign : ∀ k latest, (s.tokens.commit t).committed k = some latest → latest.familyId ≠ row.familyId →
      s.tokens.committed k = some latest := by
    intro k latest hlatest hout
    obtain hp | ⟨-, hlatest⟩ := Table.commit_cases hlatest
    · exact absurd (versions k latest hp).1 hout
    · exact hlatest
  apply hs.finish rfl rfl
  · intro k j ra rb ha hb hla hlb hsame
    have hout : ra.familyId ≠ row.familyId := fun hin => gone k ra ha hin hla.2
    exact hs.single k j ra rb (foreign k ra ha hout) (foreign j rb hb (hsame ▸ hout)) hla hlb hsame
  · intro f k latest hf hlatest hin
    by_cases hsame : latest.familyId = row.familyId
    · exact Option.isSome_iff_ne_none.mpr (gone k latest hlatest hsame)
    · have hf' : s.revoked f = true := by
        have hne : f ≠ row.familyId := hin ▸ hsame
        simpa [Function.update_of_ne hne] using hf
      exact hs.dead f k latest hf' (foreign k latest hlatest hsame) hin
  · intro u f hut hu
    have hne : f ≠ row.familyId := by
      rintro rfl
      have hopen : (s.sessions u).family = some row.familyId := by
        revert hu
        cases s.sessions u with
        | loaded req old => cases req with
          | rotate r => exact id
          | revoke _ _ => exact fun h => nomatch h
        | revoking req old targets => cases req with
          | rotate r => exact id
          | revoke _ _ => exact fun h => nomatch h
        | inserted req old => exact id
        | _ => exact fun h => nomatch h
      exact hut (hs.alone u t _ hopen hfamily)
    rw [Function.update_of_ne hne]
    exact hs.unrevoked u f hu

theorem FamilySafe.step {s' : FamilySystem T} {l : FamilyLabel T} (hs : FamilySafe s) (hok : LoadsFamilyAlone s l)
    (h : familyStep s l = some s') : FamilySafe s' := by
  cases l with
  | request t req =>
    simp only [familyStep] at h
    split at h
    · rename_i ht
      cases h
      have hfamily : (s.sessions t).family = none := by
        rw [ht]
        rfl
      apply hs.move
      · exact .of_no_versions (hs.no_versions hfamily) (fun _ _ _ h => nomatch h) fun _ _ h => nomatch h
      · exact fun f h => nomatch h
      · exact fun f h => nomatch h
    · simp at h
  | load t =>
    simp only [familyStep] at h
    split at h
    · rename_i req ht
      cases h
      have requested : req.tokenHash ∈ (s.sessions t).requested := by
        rw [ht]
        rfl
      exact hs.load ht (hok req.tokenHash requested)
    · simp at h
  | scan t =>
    simp only [familyStep] at h
    split at h
    · rename_i req row ht
      cases h
      exact hs.scan ht
    · simp at h
  | touch t =>
    simp only [familyStep] at h
    split at h
    · rename_i req row k targets ht
      split at h
      · rename_i hwritable
        cases h
        exact hs.touch ht hwritable
      · simp at h
    · simp at h
  | insert t =>
    simp only [familyStep] at h
    split at h
    · rename_i req row ht
      split at h
      · simp at h
      · cases h
        exact hs.rollback t (.rotate req)
      · rename_i tokens htokens
        cases h
        exact hs.insert ht htokens
    · simp at h
  | commit t =>
    simp only [familyStep] at h
    split at h
    · rename_i req row ht
      cases h
      exact hs.commitRotation ht
    · rename_i tokenHash now row ht
      cases h
      exact hs.commitRevocation ht
    · simp at h
  | abort t =>
    simp only [familyStep] at h
    split at h <;> cases h <;> exact hs.rollback t _

/-! ## Whole runs -/

omit [DecidableEq T] in
/-- A store without a transaction in flight, in which every family has at most one live refresh token. -/
structure FamilySystem.Quiet (s : FamilySystem T) : Prop where
  keyed : ∀ k row, s.tokens.committed k = some row → k ∈ s.tokens.keys
  unlocked : ∀ k, s.tokens.pending k = none
  idle : ∀ t, s.sessions t = .idle
  unrevoked : ∀ f, s.revoked f = false
  single : OneLiveRefresh s.tokens

omit [DecidableEq T] in
theorem FamilySystem.Quiet.safe (hs : s.Quiet) : FamilySafe s where
  keyed := hs.keyed
  locked := fun k t row hp => by
    rw [hs.unlocked k] at hp
    simp at hp
  alone := fun t u f ht => by
    rw [hs.idle t] at ht
    cases ht
  revoking := fun t req old targets ht => by
    rw [hs.idle t] at ht
    simp at ht
  inserted := fun t req old ht => by
    rw [hs.idle t] at ht
    simp at ht
  single := hs.single
  dead := fun f k row hf => by
    rw [hs.unrevoked f] at hf
    simp at hf
  unrevoked := fun _ f _ => hs.unrevoked f

/-- In every run in which a token is loaded only while no other rotation or revocation of its family is in flight,
every committed state has at most one unrevoked refresh token per family, and a family of which a revocation
committed has no unrevoked token. -/
theorem family_rotation_safe {s₀ : FamilySystem T} (h₀ : s₀.Quiet) (h : Run.Guarded familyStep LoadsFamilyAlone s₀ s) :
    OneLiveRefresh s.tokens ∧ RevokedStayRevoked s := by
  have safe : FamilySafe s := h.invariant h₀.safe fun _ _ _ ha hok hstep => ha.step hok hstep
  exact ⟨safe.single, safe.dead⟩

end Preservation

/-! ## Overlapping transactions on one family -/

def demoToken (kind : LocalOAuthTokenKind) : TokenRow := newToken kind "client" ["mcp"] "resource" "family" 9000 0

/-- One family with the pair `a0`, `r0`. -/
def demoStore : FamilySystem Bool where
  tokens := ((Table.empty.seed "a0" (demoToken .access)).seed "r0" (demoToken .refresh))
  sessions := fun _ => .idle
  revoked := fun _ => false

def demoRotation (access refresh : String) : FamilyRequest := .rotate ⟨"r0", ["mcp"], ⟨access, refresh, 900, 9000, 100⟩⟩

theorem demoStore_rows {k : String} {row : TokenRow} (h : demoStore.tokens.committed k = some row) :
    (k = "r0" ∧ row = demoToken .refresh) ∨ (k = "a0" ∧ row = demoToken .access) := by
  obtain ⟨rfl, hrow⟩ | ⟨-, hrow⟩ := Run.of_update (fun version => version = some row) h
  · exact .inl ⟨rfl, (Option.some.inj hrow).symm⟩
  · obtain ⟨rfl, hrow⟩ | ⟨-, hrow⟩ := Run.of_update (fun version => version = some row) hrow
    · exact .inr ⟨rfl, (Option.some.inj hrow).symm⟩
    · cases hrow

theorem demoStore_quiet : demoStore.Quiet where
  keyed := by
    intro k row h
    obtain ⟨rfl, -⟩ | ⟨rfl, -⟩ := demoStore_rows h <;> decide
  unlocked := fun _ => rfl
  idle := fun _ => rfl
  unrevoked := fun _ => rfl
  single := by
    intro k j ra rb ha hb hla hlb _
    obtain ⟨rfl, rfl⟩ | ⟨rfl, rfl⟩ := demoStore_rows ha <;> obtain ⟨rfl, rfl⟩ | ⟨rfl, rfl⟩ := demoStore_rows hb
    · rfl
    · exact nomatch hlb.1
    · exact nomatch hla.1
    · rfl

/-- The UPDATE of the second rotation starts before the first one has committed its new pair. -/
def doubleRotation : List (FamilyLabel Bool) :=
  [.request false (demoRotation "a1" "r1"), .request true (demoRotation "a2" "r2"), .load false, .load true,
   .scan false, .scan true, .touch false, .touch false, .insert false, .commit false, .touch true, .touch true,
   .insert true, .commit true]

/-- The UPDATE of a revocation starts before a rotation has committed its new pair. -/
def revokedRotation : List (FamilyLabel Bool) :=
  [.request false (demoRotation "a1" "r1"), .request true (.revoke "a0" 200), .load false, .load true, .scan false,
   .scan true, .touch false, .touch false, .insert false, .commit false, .touch true, .touch true, .commit true]

theorem double_rotation_ends :
    ((Run.exec familyStep demoStore doubleRotation).map fun s => (s.tokens.committed "r1", s.tokens.committed "r2")) =
      some (some { demoToken .refresh with createdAt := 100 }, some { demoToken .refresh with createdAt := 100 }) := by
  decide

theorem revoked_rotation_ends :
    ((Run.exec familyStep demoStore revokedRotation).map fun s => (s.revoked "family", s.tokens.committed "r1")) =
      some (true, some { demoToken .refresh with createdAt := 100 }) := by
  decide

/-- Over all interleavings, two refresh tokens of a family can be live at once, and a revoked family can keep an
unrevoked token. -/
theorem family_rotation_unsafe :
    (¬ ∀ s₀ s : FamilySystem Bool, s₀.Quiet → Run.Runs familyStep s₀ s → OneLiveRefresh s.tokens) ∧
      ¬ ∀ s₀ s : FamilySystem Bool, s₀.Quiet → Run.Runs familyStep s₀ s → RevokedStayRevoked s := by
  constructor
  · intro single
    obtain ⟨s, hs, h⟩ := Option.map_eq_some_iff.mp double_rotation_ends
    have hfirst := congrArg Prod.fst h
    have hsecond := congrArg Prod.snd h
    have := single demoStore s demoStore_quiet (.of_exec _ hs) "r1" "r2" _ _ hfirst hsecond ⟨rfl, rfl⟩ ⟨rfl, rfl⟩ rfl
    exact absurd this (by decide)
  · intro dead
    obtain ⟨s, hs, h⟩ := Option.map_eq_some_iff.mp revoked_rotation_ends
    have hrevoked := congrArg Prod.fst h
    have htoken := congrArg Prod.snd h
    have := dead demoStore s demoStore_quiet (.of_exec _ hs) "family" "r1" _ hrevoked htoken rfl
    cases this

/-- A rotation, then a revocation of the new pair, one after the other. -/
def serialRotation : List (FamilyLabel Bool) :=
  [.request false (demoRotation "a1" "r1"), .request true (.revoke "r1" 200), .load false, .scan false, .touch false,
   .touch false, .insert false, .commit false, .load true, .scan true, .touch true, .touch true, .commit true]

theorem serial_rotation_ends :
    ((Run.exec (Run.checked familyStep fun s l => decide (LoadsFamilyAlone s l)) demoStore serialRotation).map
      fun s => s.revoked "family") = some true := by
  decide

theorem family_rotation_safe_serial :
    ∃ s : FamilySystem Bool, s.revoked "family" = true ∧ OneLiveRefresh s.tokens ∧ RevokedStayRevoked s := by
  obtain ⟨s, hs, h⟩ := Option.map_eq_some_iff.mp serial_rotation_ends
  have permitted : ∀ (a : FamilySystem Bool) l, decide (LoadsFamilyAlone a l) = true → LoadsFamilyAlone a l :=
    fun _ _ => of_decide_eq_true
  exact ⟨s, h, family_rotation_safe demoStore_quiet (.of_exec permitted _ hs)⟩

end Alexandria.OAuth
