import Alexandria.Foundations.Run
import Alexandria.OAuth.Records
import Mathlib.Data.Fintype.Basic

/-! # Exchanging an authorization code

`exchange_authorization_code`: one transaction loads the code row, checks it in the process, and at its end
flushes `UPDATE … SET consumed_at` by primary key and the two token rows. The update does not check
`consumed_at` again, so a second exchange that loaded the row before the first one committed still succeeds.
One statement is one step; a session is one request.
-/

namespace Alexandria.OAuth
set_option autoImplicit false

open ReadCommitted

structure ExchangeRequest where
  codeHash : String
  familyId : String
  pair : PairRequest

inductive ExchangePhase
  | idle
  | begun (req : ExchangeRequest)
  | loaded (req : ExchangeRequest) (row : AuthorizationCodeRow)
  | consumed (req : ExchangeRequest) (row : AuthorizationCodeRow)
  | issued (req : ExchangeRequest) (row : AuthorizationCodeRow)
  | returned (req : ExchangeRequest) (result : Option LocalOAuthAuthorizationCodeRecord)
  | failed (req : ExchangeRequest)

structure ExchangeSystem (T : Type) where
  codes : Table String AuthorizationCodeRow T
  tokens : Table String TokenRow T
  sessions : T → ExchangePhase

inductive ExchangeLabel (T : Type)
  | create (codeHash : String) (row : AuthorizationCodeRow)
  | request (t : T) (req : ExchangeRequest)
  | load (t : T)
  | consume (t : T)
  | issue (t : T)
  | commit (t : T)
  | abort (t : T)

section System
variable {T : Type} [DecidableEq T]

def ExchangeSystem.setSession (s : ExchangeSystem T) (t : T) (phase : ExchangePhase) : ExchangeSystem T :=
  { s with sessions := Function.update s.sessions t phase }

/-- The transaction is rolled back and the request ends with an exception. -/
def ExchangeSystem.rollback (s : ExchangeSystem T) (t : T) (req : ExchangeRequest) : ExchangeSystem T :=
  { s.setSession t (.failed req) with codes := s.codes.abort t, tokens := s.tokens.abort t }

/-- What the loaded row leads to. -/
def exchangeLoaded (req : ExchangeRequest) : Option AuthorizationCodeRow → ExchangePhase
  | none => .returned req none
  | some row => if row.available req.pair.now then .loaded req row else .returned req none

def exchangeStep (s : ExchangeSystem T) : ExchangeLabel T → Option (ExchangeSystem T)
  | .create codeHash row =>
    -- another transaction committed a new code under a fresh hash
    match s.codes.committed codeHash, s.codes.pending codeHash with
    | none, none => some { s with codes := s.codes.seed codeHash row }
    | _, _ => none
  | .request t req =>
    match s.sessions t with
    | .idle => some (s.setSession t (.begun req))
    | _ => none
  | .load t =>
    match s.sessions t with
    | .begun req => some (s.setSession t (exchangeLoaded req (s.codes.read t req.codeHash)))
    | _ => none
  | .consume t =>
    match s.sessions t with
    | .loaded req row =>
      match s.codes.update t req.codeHash (AuthorizationCodeRow.consume req.pair.now) with
      | .waits => none
      | .fails => some (s.rollback t req)
      | .done codes => some { s.setSession t (.consumed req row) with codes := codes }
    | _ => none
  | .issue t =>
    match s.sessions t with
    | .consumed req row =>
      match addTokenPair s.tokens t row.clientId row.scopes row.resource req.familyId req.pair with
      | .waits => none
      | .fails => some (s.rollback t req)
      | .done tokens => some { s.setSession t (.issued req row) with tokens := tokens }
    | _ => none
  | .commit t =>
    match s.sessions t with
    | .issued req row =>
      some { s.setSession t (.returned req (some (row.record ""))) with
        codes := s.codes.commit t, tokens := s.tokens.commit t }
    | _ => none
  | .abort t =>
    match s.sessions t with
    | .begun req => some (s.rollback t req)
    | .loaded req _ => some (s.rollback t req)
    | .consumed req _ => some (s.rollback t req)
    | .issued req _ => some (s.rollback t req)
    | _ => none

/-- No code was created yet and no request was made. -/
def ExchangeSystem.start : ExchangeSystem T where
  codes := .empty
  tokens := .empty
  sessions := fun _ => .idle

end System

/-! ## Requests in flight -/

/-- The request loaded the code as available and has not ended. -/
def ExchangePhase.inFlight (k : String) : ExchangePhase → Prop
  | .loaded req _ => req.codeHash = k
  | .consumed req _ => req.codeHash = k
  | .issued req _ => req.codeHash = k
  | _ => False

/-- The request flushed its update of the code. -/
def ExchangePhase.written (k : String) : ExchangePhase → Prop
  | .consumed req _ => req.codeHash = k
  | .issued req _ => req.codeHash = k
  | _ => False

instance (k : String) : DecidablePred (ExchangePhase.inFlight k)
  | .loaded req _ => inferInstanceAs (Decidable (req.codeHash = k))
  | .consumed req _ => inferInstanceAs (Decidable (req.codeHash = k))
  | .issued req _ => inferInstanceAs (Decidable (req.codeHash = k))
  | .idle => .isFalse id
  | .begun _ => .isFalse id
  | .returned _ _ => .isFalse id
  | .failed _ => .isFalse id

/-- The code the request is about to load. -/
def ExchangePhase.requested : ExchangePhase → Option String
  | .begun req => some req.codeHash
  | _ => none

/-- The request returned a token pair for the code. -/
def ExchangePhase.paired (k : String) : ExchangePhase → Prop
  | .returned req (some _) => req.codeHash = k
  | _ => False

theorem ExchangePhase.written.inFlight {k : String} {p : ExchangePhase} (h : p.written k) : p.inFlight k := by
  cases p with
  | consumed req row => exact h
  | issued req row => exact h
  | _ => cases h

theorem ExchangePhase.written.unique {k j : String} {p : ExchangePhase} (h : p.written k) (h' : p.written j) : k = j := by
  cases p with
  | consumed req row => exact h.symm.trans h'
  | issued req row => exact h.symm.trans h'
  | _ => cases h

/-- A code is loaded only while no other request that loaded it as available is in flight. -/
def LoadsAlone {T : Type} (s : ExchangeSystem T) : ExchangeLabel T → Prop
  | .load t => ∀ k ∈ (s.sessions t).requested, ∀ u, ¬ (s.sessions u).inFlight k
  | _ => True

instance {T : Type} [Fintype T] (s : ExchangeSystem T) : DecidablePred (LoadsAlone s)
  | .load t => inferInstanceAs (Decidable (∀ k ∈ (s.sessions t).requested, ∀ u, ¬ (s.sessions u).inFlight k))
  | .create _ _ => .isTrue trivial
  | .request _ _ => .isTrue trivial
  | .consume _ => .isTrue trivial
  | .issue _ => .isTrue trivial
  | .commit _ => .isTrue trivial
  | .abort _ => .isTrue trivial

/-! ## The invariant -/

/-- One request in flight per code; the code is unconsumed until it commits and consumed afterwards. -/
structure SingleUse {T : Type} (s : ExchangeSystem T) : Prop where
  alone : ∀ t u k, (s.sessions t).inFlight k → (s.sessions u).inFlight k → t = u
  fresh : ∀ t k, (s.sessions t).inFlight k → ∃ row, s.codes.committed k = some row ∧ row.consumedAt = none
  locked : ∀ t k row, s.codes.pending k = some (t, row) → row.consumedAt.isSome = true ∧ (s.sessions t).written k
  written : ∀ t k, (s.sessions t).written k → ∃ row, s.codes.pending k = some (t, row)
  used : ∀ t k, (s.sessions t).paired k → ∃ row, s.codes.committed k = some row ∧ row.consumedAt.isSome = true
  once : ∀ t u k, (s.sessions t).paired k → (s.sessions u).paired k → t = u

theorem singleUse_start {T : Type} : SingleUse (ExchangeSystem.start : ExchangeSystem T) where
  alone := fun _ _ _ h => h.elim
  fresh := fun _ _ h => h.elim
  locked := fun _ _ _ h => by cases h
  written := fun _ _ h => h.elim
  used := fun _ _ h => h.elim
  once := fun _ _ _ h => h.elim

section Preservation
variable {T : Type} {s : ExchangeSystem T}

/-- A code that nobody wrote yet is nobody's. -/
theorem SingleUse.create (hs : SingleUse s) {k : String} {row : AuthorizationCodeRow}
    (hnone : s.codes.committed k = none) : SingleUse { s with codes := s.codes.seed k row } := by
  have known : ∀ {j latest}, s.codes.committed j = some latest → (s.codes.seed k row).committed j = some latest := by
    intro j latest hj
    have hjk : j ≠ k := by
      rintro rfl
      rw [hnone] at hj
      simp at hj
    exact (Function.update_of_ne hjk _ _).trans hj
  refine ⟨hs.alone, ?_, hs.locked, hs.written, ?_, hs.once⟩
  · intro t j ht
    obtain ⟨latest, hj, hfresh⟩ := hs.fresh t j ht
    exact ⟨latest, known hj, hfresh⟩
  · intro t j ht
    obtain ⟨latest, hj, hused⟩ := hs.used t j ht
    exact ⟨latest, known hj, hused⟩

variable [DecidableEq T]

/-- A move that leaves the codes alone and neither loads a code nor returns a pair. -/
theorem SingleUse.move (hs : SingleUse s) (t : T) (x : ExchangePhase) (tokens : Table String TokenRow T)
    (hin : ∀ k, x.inFlight k → (s.sessions t).inFlight k) (hwritten : ∀ k, x.written k ↔ (s.sessions t).written k)
    (hpaired : ∀ k, ¬ x.paired k) : SingleUse { s.setSession t x with tokens := tokens } := by
  have flight : ∀ u k, ((s.setSession t x).sessions u).inFlight k → (s.sessions u).inFlight k := by
    intro u k h
    obtain ⟨rfl, hx⟩ | ⟨-, hold⟩ := Run.of_update (ExchangePhase.inFlight k) h
    · exact hin k hx
    · exact hold
  have wrote : ∀ u k, ((s.setSession t x).sessions u).written k ↔ (s.sessions u).written k := by
    intro u k
    by_cases hu : u = t
    · subst hu
      simpa [ExchangeSystem.setSession] using hwritten k
    · simp [ExchangeSystem.setSession, Function.update_of_ne hu]
  have pairs : ∀ u k, ((s.setSession t x).sessions u).paired k → (s.sessions u).paired k := by
    intro u k h
    obtain ⟨-, h⟩ | ⟨-, h⟩ := Run.of_update (ExchangePhase.paired k) h
    · exact absurd h (hpaired k)
    · exact h
  refine ⟨?_, ?_, ?_, ?_, ?_, ?_⟩
  · exact fun a b k ha hb => hs.alone a b k (flight a k ha) (flight b k hb)
  · exact fun a k ha => hs.fresh a k (flight a k ha)
  · intro a k row hp
    obtain ⟨hrow, hw⟩ := hs.locked a k row hp
    exact ⟨hrow, (wrote a k).mpr hw⟩
  · exact fun a k ha => hs.written a k ((wrote a k).mp ha)
  · exact fun a k ha => hs.used a k (pairs a k ha)
  · exact fun a b k ha hb => hs.once a b k (pairs a k ha) (pairs b k hb)

theorem SingleUse.rollback (hs : SingleUse s) (t : T) (req : ExchangeRequest) : SingleUse (s.rollback t req) := by
  have flight : ∀ u k, ((s.rollback t req).sessions u).inFlight k → u ≠ t ∧ (s.sessions u).inFlight k := by
    intro u k h
    obtain ⟨-, h⟩ | ⟨hu, h⟩ := Run.of_update (ExchangePhase.inFlight k) h
    · exact h.elim
    · exact ⟨hu, h⟩
  have wrote : ∀ u k, ((s.rollback t req).sessions u).written k → u ≠ t ∧ (s.sessions u).written k := by
    intro u k h
    obtain ⟨-, h⟩ | ⟨hu, h⟩ := Run.of_update (ExchangePhase.written k) h
    · exact h.elim
    · exact ⟨hu, h⟩
  have pairs : ∀ u k, ((s.rollback t req).sessions u).paired k → (s.sessions u).paired k := by
    intro u k h
    obtain ⟨-, h⟩ | ⟨-, h⟩ := Run.of_update (ExchangePhase.paired k) h
    · exact h.elim
    · exact h
  refine ⟨?_, ?_, ?_, ?_, ?_, ?_⟩
  · exact fun a b k ha hb => hs.alone a b k (flight a k ha).2 (flight b k hb).2
  · exact fun a k ha => hs.fresh a k (flight a k ha).2
  · intro a k row hp
    obtain ⟨hp, ha⟩ := Table.abort_pending.mp hp
    obtain ⟨hrow, hw⟩ := hs.locked a k row hp
    refine ⟨hrow, ?_⟩
    show (Function.update s.sessions t (.failed req) a).written k
    rwa [Function.update_of_ne ha]
  · intro a k ha
    obtain ⟨hat, hw⟩ := wrote a k ha
    obtain ⟨row, hp⟩ := hs.written a k hw
    exact ⟨row, Table.abort_pending.mpr ⟨hp, hat⟩⟩
  · exact fun a k ha => hs.used a k (pairs a k ha)
  · exact fun a b k ha hb => hs.once a b k (pairs a k ha) (pairs b k hb)

/-- A request loads an available code that nobody has in flight. -/
theorem SingleUse.load (hs : SingleUse s) {t : T} {req : ExchangeRequest} {row : AuthorizationCodeRow}
    (ht : s.sessions t = .begun req) (halone : ∀ u, ¬ (s.sessions u).inFlight req.codeHash)
    (hrow : s.codes.read t req.codeHash = some row) (havail : row.available req.pair.now = true) :
    SingleUse (s.setSession t (.loaded req row)) := by
  have unwritten : ∀ k, ¬ (s.sessions t).written k := by
    intro k hw
    rw [ht] at hw
    exact hw.elim
  have committed : s.codes.committed req.codeHash = some row := by
    have hown : s.codes.own t req.codeHash = none :=
      Table.own_eq_none.mpr fun latest hp => unwritten _ (hs.locked t _ latest hp).2
    rwa [Table.read_eq, hown, Option.none_or] at hrow
  have hfresh : row.consumedAt = none := by
    unfold AuthorizationCodeRow.available at havail
    simpa using (Bool.and_eq_true_iff.mp havail).1
  have flight : ∀ u k, ((s.setSession t (.loaded req row)).sessions u).inFlight k →
      (u = t ∧ req.codeHash = k) ∨ (s.sessions u).inFlight k := by
    intro u k h
    obtain ⟨hu, h⟩ | ⟨-, h⟩ := Run.of_update (ExchangePhase.inFlight k) h
    · exact .inl ⟨hu, h⟩
    · exact .inr h
  have wrote : ∀ u k, ((s.setSession t (.loaded req row)).sessions u).written k ↔ (s.sessions u).written k := by
    intro u k
    by_cases hu : u = t
    · subst hu
      rw [iff_false_right (unwritten k)]
      simp [ExchangeSystem.setSession, ExchangePhase.written]
    · simp [ExchangeSystem.setSession, Function.update_of_ne hu]
  have pairs : ∀ u k, ((s.setSession t (.loaded req row)).sessions u).paired k → (s.sessions u).paired k := by
    intro u k h
    obtain ⟨-, h⟩ | ⟨-, h⟩ := Run.of_update (ExchangePhase.paired k) h
    · exact h.elim
    · exact h
  refine ⟨?_, ?_, ?_, ?_, ?_, ?_⟩
  · intro a b k ha hb
    obtain ⟨hat, hak⟩ | ha' := flight a k ha <;> obtain ⟨hbt, hbk⟩ | hb' := flight b k hb
    · rw [hat, hbt]
    · exact absurd hb' (hak ▸ halone b)
    · exact absurd ha' (hbk ▸ halone a)
    · exact hs.alone a b k ha' hb'
  · intro a k ha
    obtain ⟨rfl, rfl⟩ | ha := flight a k ha
    · exact ⟨row, committed, hfresh⟩
    · exact hs.fresh a k ha
  · intro a k latest hp
    obtain ⟨hlatest, hw⟩ := hs.locked a k latest hp
    exact ⟨hlatest, (wrote a k).mpr hw⟩
  · exact fun a k ha => hs.written a k ((wrote a k).mp ha)
  · exact fun a k ha => hs.used a k (pairs a k ha)
  · exact fun a b k ha hb => hs.once a b k (pairs a k ha) (pairs b k hb)

/-- The request in flight flushes its update. -/
theorem SingleUse.consume (hs : SingleUse s) {t : T} {req : ExchangeRequest} {row : AuthorizationCodeRow}
    {codes : Table String AuthorizationCodeRow T} (ht : s.sessions t = .loaded req row)
    (hcodes : s.codes.update t req.codeHash (AuthorizationCodeRow.consume req.pair.now) = .done codes) :
    SingleUse { s.setSession t (.consumed req row) with codes := codes } := by
  obtain ⟨hwritable, latest, -, rfl⟩ := Table.update_done hcodes
  have holds : (s.sessions t).inFlight req.codeHash := by
    rw [ht]
    rfl
  have flight : ∀ u k, ((s.setSession t (.consumed req row)).sessions u).inFlight k → (s.sessions u).inFlight k := by
    intro u k h
    obtain ⟨rfl, hk⟩ | ⟨-, hold⟩ := Run.of_update (ExchangePhase.inFlight k) h
    · have hk : req.codeHash = k := hk
      exact hk ▸ holds
    · exact hold
  have pairs : ∀ u k, ((s.setSession t (.consumed req row)).sessions u).paired k → (s.sessions u).paired k := by
    intro u k h
    obtain ⟨-, h⟩ | ⟨-, h⟩ := Run.of_update (ExchangePhase.paired k) h
    · exact h.elim
    · exact h
  refine ⟨?_, ?_, ?_, ?_, ?_, ?_⟩
  · exact fun a b k ha hb => hs.alone a b k (flight a k ha) (flight b k hb)
  · exact fun a k ha => hs.fresh a k (flight a k ha)
  · intro a k version hp
    obtain ⟨rfl, rfl, rfl⟩ | ⟨hk, hp⟩ := Table.write_pending_cases hp
    · refine ⟨rfl, ?_⟩
      show (Function.update s.sessions a (.consumed req row) a).written req.codeHash
      rw [Function.update_self]
      rfl
    · obtain ⟨hversion, hw⟩ := hs.locked a k version hp
      refine ⟨hversion, ?_⟩
      show (Function.update s.sessions t (.consumed req row) a).written k
      have hat : a ≠ t := by
        rintro rfl
        rw [ht] at hw
        exact hw.elim
      rwa [Function.update_of_ne hat]
  · intro a k ha
    obtain ⟨hat, hk⟩ | ⟨hat, hold⟩ := Run.of_update (ExchangePhase.written k) ha
    · have hk : req.codeHash = k := hk
      rw [hat, ← hk]
      exact ⟨_, Table.write_pending_self⟩
    · obtain ⟨version, hp⟩ := hs.written a k hold
      have hk : k ≠ req.codeHash := by
        rintro rfl
        exact hat (hs.alone a t _ hold.inFlight holds)
      exact ⟨version, (Table.write_pending_other hk).trans hp⟩
  · exact fun a k ha => hs.used a k (pairs a k ha)
  · exact fun a b k ha hb => hs.once a b k (pairs a k ha) (pairs b k hb)

/-- The request in flight commits: the code is consumed from now on. -/
theorem SingleUse.commit (hs : SingleUse s) {t : T} {req : ExchangeRequest} {row : AuthorizationCodeRow}
    {record : LocalOAuthAuthorizationCodeRecord} (tokens : Table String TokenRow T)
    (ht : s.sessions t = .issued req row) :
    SingleUse { s.setSession t (.returned req (some record)) with codes := s.codes.commit t, tokens := tokens } := by
  have holds : (s.sessions t).written req.codeHash := by
    rw [ht]
    rfl
  have onlyOwn : ∀ k latest, s.codes.pending k = some (t, latest) → k = req.codeHash := by
    intro k latest hp
    exact (hs.locked t k latest hp).2.unique holds
  obtain ⟨version, hversion⟩ := hs.written t _ holds
  have consumed := (hs.locked t _ version hversion).1
  obtain ⟨before, hbefore, hfresh⟩ := hs.fresh t _ holds.inFlight
  have unused : ∀ u, ¬ (s.sessions u).paired req.codeHash := by
    intro u hu
    obtain ⟨used, hused, hconsumed⟩ := hs.used u _ hu
    rw [hbefore] at hused
    cases hused
    rw [hfresh] at hconsumed
    simp at hconsumed
  have others : ∀ k, k ≠ req.codeHash → (s.codes.commit t).committed k = s.codes.committed k := fun k hk =>
    Table.commit_unowned fun latest hp => hk (onlyOwn k latest hp)
  have flight : ∀ u k, ((s.setSession t (.returned req (some record))).sessions u).inFlight k →
      u ≠ t ∧ (s.sessions u).inFlight k ∧ k ≠ req.codeHash := by
    intro u k h
    obtain ⟨-, h⟩ | ⟨hu, h⟩ := Run.of_update (ExchangePhase.inFlight k) h
    · exact h.elim
    · refine ⟨hu, h, ?_⟩
      rintro rfl
      exact hu (hs.alone u t _ h holds.inFlight)
  have pairs : ∀ u k, ((s.setSession t (.returned req (some record))).sessions u).paired k →
      (u = t ∧ k = req.codeHash) ∨ ((s.sessions u).paired k ∧ k ≠ req.codeHash) := by
    intro u k h
    obtain ⟨hu, h⟩ | ⟨-, h⟩ := Run.of_update (ExchangePhase.paired k) h
    · exact .inl ⟨hu, Eq.symm h⟩
    · refine .inr ⟨h, ?_⟩
      rintro rfl
      exact unused u h
  refine ⟨?_, ?_, ?_, ?_, ?_, ?_⟩
  · exact fun a b k ha hb => hs.alone a b k (flight a k ha).2.1 (flight b k hb).2.1
  · intro a k ha
    obtain ⟨-, ha, hk⟩ := flight a k ha
    obtain ⟨latest, hlatest, hnone⟩ := hs.fresh a k ha
    exact ⟨latest, (others k hk).trans hlatest, hnone⟩
  · intro a k latest hp
    obtain ⟨hp, hat⟩ := Table.commit_pending.mp hp
    obtain ⟨hlatest, hw⟩ := hs.locked a k latest hp
    refine ⟨hlatest, ?_⟩
    show (Function.update s.sessions t (.returned req (some record)) a).written k
    rwa [Function.update_of_ne hat]
  · intro a k ha
    obtain ⟨-, ha⟩ | ⟨hat, ha⟩ := Run.of_update (ExchangePhase.written k) ha
    · exact ha.elim
    · obtain ⟨latest, hp⟩ := hs.written a k ha
      exact ⟨latest, Table.commit_pending.mpr ⟨hp, hat⟩⟩
  · intro a k ha
    obtain ⟨-, rfl⟩ | ⟨ha, hk⟩ := pairs a k ha
    · exact ⟨version, Table.commit_owned hversion, consumed⟩
    · obtain ⟨latest, hlatest, hused⟩ := hs.used a k ha
      exact ⟨latest, (others k hk).trans hlatest, hused⟩
  · intro a b k ha hb
    obtain ⟨rfl, rfl⟩ | ⟨ha, hk⟩ := pairs a k ha
    · obtain ⟨rfl, -⟩ | ⟨-, hk⟩ := pairs b _ hb
      · rfl
      · exact absurd rfl hk
    · obtain ⟨-, rfl⟩ | ⟨hb, -⟩ := pairs b k hb
      · exact absurd rfl hk
      · exact hs.once a b k ha hb

theorem SingleUse.step {s' : ExchangeSystem T} {l : ExchangeLabel T} (hs : SingleUse s) (hok : LoadsAlone s l)
    (h : exchangeStep s l = some s') : SingleUse s' := by
  cases l with
  | create codeHash row =>
    simp only [exchangeStep] at h
    split at h
    · rename_i hnone _
      cases h
      exact hs.create hnone
    · simp at h
  | request t req =>
    simp only [exchangeStep] at h
    split at h
    · rename_i ht
      cases h
      apply hs.move t (.begun req) s.tokens
      · exact fun k hk => hk.elim
      · intro k
        rw [ht]
        exact Iff.rfl
      · exact fun k hk => hk
    · simp at h
  | load t =>
    simp only [exchangeStep] at h
    split at h
    · rename_i req ht
      cases h
      have idle : SingleUse (s.setSession t (.returned req none)) := by
        apply hs.move t (.returned req none) s.tokens
        · exact fun k hk => hk.elim
        · intro k
          rw [ht]
          exact Iff.rfl
        · exact fun k hk => hk
      unfold exchangeLoaded
      split
      · exact idle
      · rename_i row hrow
        split
        · rename_i havail
          have requested : req.codeHash ∈ (s.sessions t).requested := by
            rw [ht]
            rfl
          exact hs.load ht (hok req.codeHash requested) hrow havail
        · exact idle
    · simp at h
  | consume t =>
    simp only [exchangeStep] at h
    split at h
    · rename_i req row ht
      split at h
      · simp at h
      · cases h
        exact hs.rollback t req
      · rename_i codes hcodes
        cases h
        exact hs.consume ht hcodes
    · simp at h
  | issue t =>
    simp only [exchangeStep] at h
    split at h
    · rename_i req row ht
      split at h
      · simp at h
      · cases h
        exact hs.rollback t req
      · rename_i tokens _
        cases h
        apply hs.move t (.issued req row) tokens
        · intro k hk
          rw [ht]
          exact hk
        · intro k
          rw [ht]
          exact Iff.rfl
        · exact fun k hk => hk
    · simp at h
  | commit t =>
    simp only [exchangeStep] at h
    split at h
    · rename_i req row ht
      cases h
      exact hs.commit _ ht
    · simp at h
  | abort t =>
    simp only [exchangeStep] at h
    split at h <;> cases h <;> exact hs.rollback t _

/-- In every run in which a code is loaded only while no other exchange that loaded it as available is in flight,
at most one exchange of a code returns a token pair. -/
theorem code_exchanged_once (h : Run.Guarded exchangeStep LoadsAlone ExchangeSystem.start s) {t u : T}
    {req req' : ExchangeRequest} {record record' : LocalOAuthAuthorizationCodeRecord}
    (ht : s.sessions t = .returned req (some record)) (hu : s.sessions u = .returned req' (some record'))
    (hcode : req.codeHash = req'.codeHash) : t = u := by
  have single : SingleUse s := h.invariant singleUse_start fun _ _ _ ha hok hstep => ha.step hok hstep
  apply single.once t u req.codeHash
  · rw [ht]
    rfl
  · rw [hu]
    exact hcode.symm

end Preservation

/-! ## Two exchanges of one code -/

def demoCode : AuthorizationCodeRow := ⟨"client", ["mcp"], "challenge", "uri", true, "resource", 600, none⟩

def demoExchange (access refresh family : String) : ExchangeRequest := ⟨"code", family, ⟨access, refresh, 900, 9000, 100⟩⟩

/-- Both requests load the code before either of them has committed. -/
def doubleExchange : List (ExchangeLabel Bool) :=
  [.create "code" demoCode, .request false (demoExchange "a1" "r1" "f1"), .request true (demoExchange "a2" "r2" "f2"),
   .load false, .load true, .consume false, .issue false, .commit false, .consume true, .issue true, .commit true]

/-- The code and the record of a request that returned a pair. -/
def ExchangePhase.outcome : ExchangePhase → Option (String × LocalOAuthAuthorizationCodeRecord)
  | .returned req (some record) => some (req.codeHash, record)
  | _ => none

theorem ExchangePhase.outcome_eq_some {p : ExchangePhase} {k : String} {record : LocalOAuthAuthorizationCodeRecord}
    (h : p.outcome = some (k, record)) : ∃ req, p = .returned req (some record) ∧ req.codeHash = k := by
  unfold ExchangePhase.outcome at h
  split at h
  · rename_i req record'
    cases h
    exact ⟨req, rfl, rfl⟩
  · simp at h

theorem both_exchanges_return :
    ((Run.exec exchangeStep ExchangeSystem.start doubleExchange).map fun s =>
      ((s.sessions false).outcome, (s.sessions true).outcome)) =
      some (some ("code", demoCode.record ""), some ("code", demoCode.record "")) := by
  decide

/-- Over all interleavings, more than one exchange of a code can return a token pair. -/
theorem code_exchanged_twice :
    ¬ ∀ (s : ExchangeSystem Bool) (t u : Bool) (req req' : ExchangeRequest)
      (record record' : LocalOAuthAuthorizationCodeRecord),
      Run.Runs exchangeStep ExchangeSystem.start s → s.sessions t = .returned req (some record) →
      s.sessions u = .returned req' (some record') → req.codeHash = req'.codeHash → t = u := by
  intro once
  obtain ⟨s, hs, h⟩ := Option.map_eq_some_iff.mp both_exchanges_return
  obtain ⟨req, ht, hcode⟩ := ExchangePhase.outcome_eq_some (congrArg Prod.fst h)
  obtain ⟨req', hu, hcode'⟩ := ExchangePhase.outcome_eq_some (congrArg Prod.snd h)
  have := once s false true req req' _ _ (.of_exec _ hs) ht hu (hcode.trans hcode'.symm)
  cases this

/-- The second request loads the code after the first one has committed. -/
def singleExchange : List (ExchangeLabel Bool) :=
  [.create "code" demoCode, .request false (demoExchange "a1" "r1" "f1"), .request true (demoExchange "a2" "r2" "f2"),
   .load false, .consume false, .issue false, .commit false, .load true]

theorem single_exchange_returns :
    ((Run.exec (Run.checked exchangeStep fun s l => decide (LoadsAlone s l)) ExchangeSystem.start singleExchange).map
      fun s => (s.sessions false).outcome) = some (some ("code", demoCode.record "")) := by
  decide

theorem code_exchanged_once_alone :
    ∃ (s : ExchangeSystem Bool) (req : ExchangeRequest), s.sessions false = .returned req (some (demoCode.record "")) ∧
      ∀ u req' record', s.sessions u = .returned req' (some record') → req.codeHash = req'.codeHash → false = u := by
  obtain ⟨s, hs, h⟩ := Option.map_eq_some_iff.mp single_exchange_returns
  obtain ⟨req, ht, -⟩ := ExchangePhase.outcome_eq_some h
  have permitted : ∀ (a : ExchangeSystem Bool) l, decide (LoadsAlone a l) = true → LoadsAlone a l :=
    fun _ _ => of_decide_eq_true
  exact ⟨s, req, ht, fun u req' record' hu hcode => code_exchanged_once (.of_exec permitted _ hs) ht hu hcode⟩

end Alexandria.OAuth
