import Alexandria.OAuth.Approval
import Mathlib.Tactic.Common

/-! # The bound on approval attempts

Two invariants. `AttemptsKept` accounts for the comparisons of every request: a request nobody works on has counted
all of them unless it is closed or expired, and the one submission that works on it may be one comparison ahead.
`PairingsKept` says that a pairing code is held by one submission at a time and stays consumed. Each is kept by a
step of one session as long as it changes the tables only where that session works.
-/

namespace Alexandria.OAuth
set_option autoImplicit false

open ReadCommitted

/-! ## Where a session works -/

/-- The request a submission works on, from its lookup to its end. -/
def ApprovalPhase.target : ApprovalPhase → Option String
  | .fetched sub _ => some sub.requestId
  | .active sub _ _ => some sub.requestId
  | _ => none

/-- The session flushed a change of its request. -/
def ApprovalPhase.writesRequest : ApprovalPhase → Prop
  | .active _ _ (.closed _ _) => True
  | .active _ _ (.issued _ _) => True
  | .active _ _ (.counted _) => True
  | _ => False

/-- The submission found the pairing code available and has not ended. -/
def ApprovalPhase.holds (h : String) : ApprovalPhase → Prop
  | .active sub _ (.matched _ _) => sub.pairingCodeHash = some h
  | .active sub _ (.paired _ _) => sub.pairingCodeHash = some h
  | .active sub _ (.closed _ _) => sub.pairingCodeHash = some h
  | .active sub _ (.issued _ _) => sub.pairingCodeHash = some h
  | _ => False

/-- The submission flushed the consumption of the pairing code. -/
def ApprovalPhase.spent (h : String) : ApprovalPhase → Prop
  | .active sub _ (.paired _ _) => sub.pairingCodeHash = some h
  | .active sub _ (.closed _ _) => sub.pairingCodeHash = some h
  | .active sub _ (.issued _ _) => sub.pairingCodeHash = some h
  | _ => False

def ApprovalPhase.creates : ApprovalPhase → Prop
  | .creating _ _ => True
  | _ => False

/-- The submission approved its request with the pairing code. -/
def ApprovalPhase.approved (h : String) : ApprovalPhase → Prop
  | .redirected sub _ => sub.decision = .approve ∧ sub.pairingCodeHash = some h
  | _ => False

/-- The session has nothing to do with a pairing code. -/
def ApprovalPhase.aloof : ApprovalPhase → Bool
  | .active _ _ (.matched _ _) => false
  | .active _ _ (.paired _ _) => false
  | .active _ _ (.closed _ _) => false
  | .active _ _ (.issued _ _) => false
  | .redirected _ _ => false
  | .creating _ _ => false
  | _ => true

/-! ## Submissions that do not overlap -/

/-- The request a submission is about to look up. -/
def ApprovalPhase.looksUp : ApprovalPhase → Option String
  | .submitted sub => some sub.requestId
  | _ => none

/-- The pairing code a submission is about to compare. -/
def ApprovalPhase.compares : ApprovalPhase → Option String
  | .active sub _ (.loaded _ _) => sub.pairingCodeHash
  | _ => none

/-- The hash of the code a submission is about to insert. -/
def ApprovalPhase.issues : ApprovalPhase → Option String
  | .active sub _ (.closed _ _) => some sub.codeHash
  | _ => none

/-- The call is not past the comparison of a pairing code. -/
def ApprovalPhase.uncompared : ApprovalPhase → Bool
  | .fetched _ _ => true
  | .active _ _ .ready => true
  | .active _ _ (.begun _) => true
  | .active _ _ (.loaded _ _) => true
  | .creating _ _ => true
  | _ => false

/-- A request is looked up only while no other submission works on it, a pairing code is compared only while no other
submission that found it available is in flight, and no submission is cut short after its comparison. -/
def SubmitsAlone {T : Type} [DecidableEq T] (s : ApprovalSystem T) : ApprovalLabel T → Prop
  | .fetch t => ∀ r ∈ (s.sessions t).looksUp, ∀ u, (s.sessions u).target ≠ some r
  | .compare t => ∀ h ∈ (s.sessions t).compares, ∀ u, ¬ (s.sessions u).holds h
  | .issue t => ∀ k ∈ (s.sessions t).issues, s.codes.read t k = none
  | .abort t => (s.sessions t).uncompared = true
  | _ => True

instance (h : String) : DecidablePred (ApprovalPhase.holds h) := fun p =>
  match p with
  | .active sub _ (.matched _ _) => inferInstanceAs (Decidable (sub.pairingCodeHash = some h))
  | .active sub _ (.paired _ _) => inferInstanceAs (Decidable (sub.pairingCodeHash = some h))
  | .active sub _ (.closed _ _) => inferInstanceAs (Decidable (sub.pairingCodeHash = some h))
  | .active sub _ (.issued _ _) => inferInstanceAs (Decidable (sub.pairingCodeHash = some h))
  | .active _ _ .ready | .active _ _ (.begun _) | .active _ _ (.loaded _ _) | .active _ _ .rejected
  | .active _ _ (.recording _) | .active _ _ (.counting _ _) | .active _ _ (.counted _) => .isFalse id
  | .idle | .submitted _ | .fetched _ _ | .redirected _ _ | .refused _ _ | .creating _ _ | .created _ | .failed =>
    .isFalse id

instance {T : Type} [DecidableEq T] [Fintype T] (s : ApprovalSystem T) : DecidablePred (SubmitsAlone s) := fun l =>
  match l with
  | .fetch t => inferInstanceAs (Decidable (∀ r ∈ (s.sessions t).looksUp, ∀ u, (s.sessions u).target ≠ some r))
  | .compare t => inferInstanceAs (Decidable (∀ h ∈ (s.sessions t).compares, ∀ u, ¬ (s.sessions u).holds h))
  | .issue t => inferInstanceAs (Decidable (∀ k ∈ (s.sessions t).issues, s.codes.read t k = none))
  | .abort t => inferInstanceAs (Decidable ((s.sessions t).uncompared = true))
  | .tick _ | .authorize _ _ | .submit _ _ | .check _ | .begin _ | .load _ | .pair _ | .close _ | .record _
  | .reload _ | .count _ | .create _ _ | .scan _ | .touch _ | .insert _ | .commit _ => .isTrue trivial

/-! ## Attempts -/

section Attempts
variable {T : Type}

/-- Every comparison made for the request is counted, unless it is closed or expired. -/
def Rests (clock : ℤ) (requests : Table String AuthorizationRequestRow T) (compared : String → ℕ) (r : String) : Prop :=
  ∀ row, requests.committed r = some row → row.available clock = true → compared r ≤ row.approvalAttempts

theorem AuthorizationRequestRow.available_iff {row : AuthorizationRequestRow} {now : ℤ} :
    row.available now = true ↔ row.consumedAt = none ∧ now < row.expiresAt := by
  simp [AuthorizationRequestRow.available]

theorem Rests.later {clock clock' : ℤ} {requests : Table String AuthorizationRequestRow T} {compared : String → ℕ}
    (hclock : clock ≤ clock') {r : String} (h : Rests clock requests compared r) : Rests clock' requests compared r := by
  intro row hrow havail
  obtain ⟨hnone, hlt⟩ := AuthorizationRequestRow.available_iff.mp havail
  have hearlier : row.available clock = true :=
    AuthorizationRequestRow.available_iff.mpr ⟨hnone, lt_of_le_of_lt hclock hlt⟩
  exact h row hrow hearlier

/-- What a submission in flight knows: `row` is the committed row of its request, `version` its own uncommitted one. -/
def StageOwes (max : ℕ) (clock : ℤ) (compared : ℕ) (row : AuthorizationRequestRow)
    (version : Option AuthorizationRequestRow) : ApprovalStage → Prop
  | .ready => compared ≤ row.approvalAttempts ∧ row.approvalAttempts < max
  | .begun _ => compared ≤ row.approvalAttempts ∧ row.approvalAttempts < max
  | .loaded _ _ => compared ≤ row.approvalAttempts ∧ row.approvalAttempts < max
  | .matched _ _ => compared ≤ row.approvalAttempts + 1
  | .paired _ _ => compared ≤ row.approvalAttempts + 1
  | .closed _ _ => ∃ latest, version = some latest ∧ latest.consumedAt.isSome = true
  | .issued _ _ => ∃ latest, version = some latest ∧ latest.consumedAt.isSome = true
  | .rejected => compared ≤ row.approvalAttempts + 1
  | .recording now => compared ≤ row.approvalAttempts + 1 ∧ now ≤ clock
  | .counting _ loaded => compared ≤ loaded.approvalAttempts + 1
  | .counted _ => ∃ latest, version = some latest ∧ compared ≤ latest.approvalAttempts

variable [DecidableEq T]

def Owes (max : ℕ) (clock : ℤ) (requests : Table String AuthorizationRequestRow T) (compared : String → ℕ) (t : T) :
    ApprovalPhase → Prop
  | .fetched sub found =>
    (∀ row, found = some row → requests.committed sub.requestId = some row) ∧
      Rests clock requests compared sub.requestId
  | .active sub _ stage => ∃ row, requests.committed sub.requestId = some row ∧
      StageOwes max clock (compared sub.requestId) row (requests.own t sub.requestId) stage
  | _ => True

structure AttemptsKept (max : ℕ) (clock : ℤ) (requests : Table String AuthorizationRequestRow T)
    (sessions : T → ApprovalPhase) (compared : String → ℕ) : Prop where
  bounded : ∀ r, compared r ≤ max
  unseen : ∀ r, requests.committed r = none → compared r = 0
  alone : ∀ t u r, (sessions t).target = some r → (sessions u).target = some r → t = u
  rests : ∀ r, (∀ t, (sessions t).target ≠ some r) → Rests clock requests compared r
  owes : ∀ t, Owes max clock requests compared t (sessions t)
  locked : ∀ r t row, requests.pending r = some (t, row) →
    (sessions t).target = some r ∧ (sessions t).writesRequest

variable {max : ℕ} {clock : ℤ} {requests requests' : Table String AuthorizationRequestRow T}
  {sessions : T → ApprovalPhase} {compared compared' : String → ℕ} {t : T} {x : ApprovalPhase}

theorem attemptsKept_start : AttemptsKept max clock (.empty : Table String AuthorizationRequestRow T)
    (fun _ => .idle) (fun _ => 0) where
  bounded := fun _ => Nat.zero_le _
  unseen := fun _ _ => rfl
  alone := fun _ _ _ h => by cases h
  rests := fun _ _ _ h => by cases h
  owes := fun _ => trivial
  locked := fun _ _ _ h => by cases h

theorem Owes.of_target_none (h : x.target = none) : Owes max clock requests compared t x := by
  cases x with
  | fetched sub found => cases h
  | active sub record stage => cases h
  | _ => trivial

/-- What a submission owes depends on its request only. -/
theorem Owes.congr (h : Owes max clock requests compared t x)
    (hsame : ∀ r, x.target = some r → requests'.committed r = requests.committed r ∧
      requests'.pending r = requests.pending r ∧ compared' r = compared r) :
    Owes max clock requests' compared' t x := by
  cases x with
  | fetched sub found =>
    obtain ⟨hcommitted, -, hcompared⟩ := hsame sub.requestId rfl
    obtain ⟨hfound, hrests⟩ := h
    refine ⟨?_, ?_⟩
    · rwa [hcommitted]
    · unfold Rests
      rwa [hcommitted, hcompared]
  | active sub record stage =>
    obtain ⟨hcommitted, hpending, hcompared⟩ := hsame sub.requestId rfl
    obtain ⟨row, hrow, hstage⟩ := h
    have hown : requests'.own t sub.requestId = requests.own t sub.requestId := by
      unfold Table.own
      rw [hpending]
    refine ⟨row, hcommitted.trans hrow, ?_⟩
    rwa [hcompared, hown]
  | _ => trivial

theorem Owes.later {clock' : ℤ} (hclock : clock ≤ clock') (h : Owes max clock requests compared t x) :
    Owes max clock' requests compared t x := by
  cases x with
  | fetched sub found => exact ⟨h.1, h.2.later hclock⟩
  | active sub record stage =>
    obtain ⟨row, hrow, hstage⟩ := h
    refine ⟨row, hrow, ?_⟩
    cases stage with
    | recording now => exact ⟨hstage.1, le_trans hstage.2 hclock⟩
    | _ => exact hstage
  | _ => trivial

/-- A session that does not flush a change of its request owns no version of any. -/
theorem AttemptsKept.no_versions (hs : AttemptsKept max clock requests sessions compared)
    (ht : ¬ (sessions t).writesRequest) (r : String) (row : AuthorizationRequestRow) :
    requests.pending r ≠ some (t, row) := fun hp => ht (hs.locked r t row hp).2

theorem AttemptsKept.tick (hs : AttemptsKept max clock requests sessions compared) (seconds : ℕ) :
    AttemptsKept max (clock + seconds) requests sessions compared where
  bounded := hs.bounded
  unseen := hs.unseen
  alone := hs.alone
  rests := fun r hr => (hs.rests r hr).later (by omega)
  owes := fun u => (hs.owes u).later (by omega)
  locked := hs.locked

/-- A new request has seen no comparison, and whoever looked for it before did not find it. -/
theorem AttemptsKept.authorize (hs : AttemptsKept max clock requests sessions compared) {r : String}
    {row : AuthorizationRequestRow} (hr : requests.committed r = none) :
    AttemptsKept max clock (requests.seed r row) sessions compared := by
  have zero := hs.unseen r hr
  have others : ∀ j, j ≠ r → (requests.seed r row).committed j = requests.committed j := fun j hj =>
    Function.update_of_ne hj _ _
  have resting : ∀ j, Rests clock requests compared j → Rests clock (requests.seed r row) compared j := by
    intro j hj latest hlatest havail
    by_cases hjr : j = r
    · subst hjr
      rw [zero]
      exact Nat.zero_le _
    · rw [others j hjr] at hlatest
      exact hj latest hlatest havail
  refine ⟨hs.bounded, ?_, hs.alone, fun j hj => resting j (hs.rests j hj), ?_, hs.locked⟩
  · intro j hj
    by_cases hjr : j = r
    · subst hjr
      exact zero
    · exact hs.unseen j ((others j hjr).symm.trans hj)
  · intro u
    have hu := hs.owes u
    revert hu
    cases sessions u with
    | fetched sub found =>
      rintro ⟨hfound, hrests⟩
      refine ⟨?_, resting _ hrests⟩
      intro latest hlatest
      have hcommitted := hfound latest hlatest
      have hne : sub.requestId ≠ r := by
        rintro rfl
        rw [hr] at hcommitted
        simp at hcommitted
      exact (others _ hne).trans hcommitted
    | active sub record stage =>
      rintro ⟨latest, hcommitted, hstage⟩
      have hne : sub.requestId ≠ r := by
        rintro rfl
        rw [hr] at hcommitted
        simp at hcommitted
      exact ⟨latest, (others _ hne).trans hcommitted, hstage⟩
    | _ => exact fun _ => trivial

/-- The session works on no request before and after. -/
theorem AttemptsKept.quiet (hs : AttemptsKept max clock requests sessions compared)
    (ht : (sessions t).target = none) (hx : x.target = none) :
    AttemptsKept max clock requests (Function.update sessions t x) compared := by
  have same : ∀ u, (Function.update sessions t x u).target = (sessions u).target := by
    intro u
    by_cases hu : u = t
    · subst hu
      rw [Function.update_self, ht, hx]
    · rw [Function.update_of_ne hu]
  refine ⟨hs.bounded, hs.unseen, ?_, ?_, ?_, ?_⟩
  · intro u v r hu hv
    rw [same] at hu hv
    exact hs.alone u v r hu hv
  · intro r hr
    apply hs.rests r
    intro u hu
    exact hr u ((same u).trans hu)
  · intro u
    by_cases hu : u = t
    · subst hu
      rw [Function.update_self]
      exact Owes.of_target_none hx
    · rw [Function.update_of_ne hu]
      exact hs.owes u
  · intro r u row hp
    obtain ⟨htarget, hwrites⟩ := hs.locked r u row hp
    have hu : u ≠ t := by
      rintro rfl
      rw [ht] at htarget
      simp at htarget
    rw [Function.update_of_ne hu]
    exact ⟨htarget, hwrites⟩

/-- The session works on request `r`, alone, and everything about other requests stays as it was. -/
theorem AttemptsKept.home (hs : AttemptsKept max clock requests sessions compared) {r : String}
    (ht : (sessions t).target = some r ∨ (sessions t).target = none ∧ ∀ u, (sessions u).target ≠ some r)
    (hx : x.target = some r ∨ x.target = none)
    (hsame : ∀ j, j ≠ r → requests'.committed j = requests.committed j ∧
      requests'.pending j = requests.pending j ∧ compared' j = compared j)
    (hlocked : ∀ u row, requests'.pending r = some (u, row) → u = t ∧ x.target = some r ∧ x.writesRequest)
    (hbound : compared' r ≤ max) (hunseen : requests'.committed r = none → compared' r = 0)
    (howes : Owes max clock requests' compared' t x)
    (hrests : x.target = none → Rests clock requests' compared' r) :
    AttemptsKept max clock requests' (Function.update sessions t x) compared' := by
  have hothers : ∀ u, u ≠ t → (sessions u).target ≠ some r := by
    intro u hu hur
    obtain hold | ⟨-, hfree⟩ := ht
    · exact hu (hs.alone u t r hur hold)
    · exact hfree u hur
  have htr : ∀ j, (sessions t).target = some j → j = r := by
    intro j hj
    obtain hold | ⟨hnone, -⟩ := ht
    · exact Option.some.inj (hj.symm.trans hold)
    · rw [hnone] at hj
      simp at hj
  have hxr : ∀ j, x.target = some j → j = r := by
    intro j hj
    obtain hnew | hnone := hx
    · exact Option.some.inj (hj.symm.trans hnew)
    · rw [hnone] at hj
      simp at hj
  have owner : ∀ j, j ≠ r → ∀ u, (Function.update sessions t x u).target = some j ↔ (sessions u).target = some j := by
    intro j hj u
    by_cases hu : u = t
    · subst hu
      rw [Function.update_self]
      exact ⟨fun h => absurd (hxr j h) hj, fun h => absurd (htr j h) hj⟩
    · rw [Function.update_of_ne hu]
  have only : ∀ u, (Function.update sessions t x u).target = some r → u = t := by
    intro u hu
    by_contra hne
    rw [Function.update_of_ne hne] at hu
    exact hothers u hne hu
  refine ⟨?_, ?_, ?_, ?_, ?_, ?_⟩
  · intro j
    by_cases hj : j = r
    · rwa [hj]
    · rw [(hsame j hj).2.2]
      exact hs.bounded j
  · intro j hnone
    by_cases hj : j = r
    · rw [hj] at hnone ⊢
      exact hunseen hnone
    · rw [(hsame j hj).2.2]
      exact hs.unseen j ((hsame j hj).1.symm.trans hnone)
  · intro u v j hu hv
    by_cases hj : j = r
    · rw [hj] at hu hv
      rw [only u hu, only v hv]
    · exact hs.alone u v j ((owner j hj u).mp hu) ((owner j hj v).mp hv)
  · intro j hfree
    by_cases hj : j = r
    · rw [hj] at hfree ⊢
      have hself := hfree t
      rw [Function.update_self] at hself
      exact hrests (hx.resolve_left hself)
    · have resting := hs.rests j fun u hu => hfree u ((owner j hj u).mpr hu)
      unfold Rests
      rw [(hsame j hj).1, (hsame j hj).2.2]
      exact resting
  · intro u
    by_cases hu : u = t
    · subst hu
      rw [Function.update_self]
      exact howes
    · rw [Function.update_of_ne hu]
      apply (hs.owes u).congr
      intro j hj
      apply hsame
      rintro rfl
      exact hothers u hu hj
  · intro j u row hp
    by_cases hj : j = r
    · rw [hj] at hp ⊢
      obtain ⟨rfl, htarget, hwrites⟩ := hlocked u row hp
      rw [Function.update_self]
      exact ⟨htarget, hwrites⟩
    · rw [(hsame j hj).2.1] at hp
      obtain ⟨htarget, hwrites⟩ := hs.locked j u row hp
      have hu : u ≠ t := by
        rintro rfl
        exact hj (htr j htarget)
      rw [Function.update_of_ne hu]
      exact ⟨htarget, hwrites⟩

/-- The session goes on with its request without touching the table. -/
theorem AttemptsKept.advance (hs : AttemptsKept max clock requests sessions compared) {r : String}
    (ht : (sessions t).target = some r) (hx : x.target = some r)
    (hwrites : (sessions t).writesRequest → x.writesRequest) (hseen : requests.committed r ≠ none)
    (hcompared : ∀ j, j ≠ r → compared' j = compared j) (hbound : compared' r ≤ max)
    (howes : Owes max clock requests compared' t x) :
    AttemptsKept max clock requests (Function.update sessions t x) compared' := by
  refine hs.home (.inl ht) (.inl hx) ?_ ?_ hbound ?_ howes ?_
  · exact fun j hj => ⟨rfl, rfl, hcompared j hj⟩
  · intro u row hp
    obtain ⟨htarget, hu⟩ := hs.locked r u row hp
    have hut := hs.alone u t r htarget ht
    rw [hut] at hu
    exact ⟨hut, hx, hwrites hu⟩
  · exact fun hnone => absurd hnone hseen
  · intro hnone
    rw [hx] at hnone
    simp at hnone

/-- The session leaves its request without having changed it. -/
theorem AttemptsKept.release (hs : AttemptsKept max clock requests sessions compared) {r : String}
    (ht : (sessions t).target = some r) (hx : x.target = none) (hwrites : ¬ (sessions t).writesRequest)
    (hrests : Rests clock requests compared r) :
    AttemptsKept max clock requests (Function.update sessions t x) compared := by
  refine hs.home (.inl ht) (.inr hx) ?_ ?_ (hs.bounded r) (hs.unseen r) (Owes.of_target_none hx) fun _ => hrests
  · exact fun j _ => ⟨rfl, rfl, rfl⟩
  · intro u row hp
    obtain ⟨htarget, hu⟩ := hs.locked r u row hp
    rw [hs.alone u t r htarget ht] at hu
    exact absurd hu hwrites

/-- The session flushes a new version of its request. -/
theorem AttemptsKept.flush (hs : AttemptsKept max clock requests sessions compared) {r : String}
    {version : AuthorizationRequestRow} (ht : (sessions t).target = some r) (hx : x.target = some r)
    (hwrites : x.writesRequest) (howes : Owes max clock (requests.write t r version) compared t x) :
    AttemptsKept max clock (requests.write t r version) (Function.update sessions t x) compared := by
  refine hs.home (.inl ht) (.inl hx) ?_ ?_ (hs.bounded r) (hs.unseen r) howes ?_
  · exact fun j hj => ⟨rfl, Table.write_pending_other hj, rfl⟩
  · intro u row hp
    rw [Table.write_pending_self] at hp
    cases hp
    exact ⟨rfl, hx, hwrites⟩
  · intro hnone
    rw [hx] at hnone
    simp at hnone

/-- The session commits its version of its request. -/
theorem AttemptsKept.commit (hs : AttemptsKept max clock requests sessions compared) {r : String}
    {version : AuthorizationRequestRow} (ht : (sessions t).target = some r) (hx : x.target = none)
    (hversion : requests.own t r = some version)
    (hrests : version.available clock = true → compared r ≤ version.approvalAttempts) :
    AttemptsKept max clock (requests.commit t) (Function.update sessions t x) compared := by
  have hown := Table.own_eq_some.mp hversion
  have foreign : ∀ j, j ≠ r → ∀ row, requests.pending j ≠ some (t, row) := by
    intro j hj row hp
    have htarget := (hs.locked j t row hp).1
    rw [ht] at htarget
    exact hj (Option.some.inj htarget).symm
  refine hs.home (.inl ht) (.inr hx) ?_ ?_ (hs.bounded r) ?_ (Owes.of_target_none hx) ?_
  · intro j hj
    refine ⟨Table.commit_unowned (foreign j hj), ?_, rfl⟩
    ext ⟨u, row⟩
    rw [Table.commit_pending]
    constructor
    · exact And.left
    · intro hp
      refine ⟨hp, ?_⟩
      rintro rfl
      exact foreign j hj row hp
  · intro u row hp
    obtain ⟨hold, hu⟩ := Table.commit_pending.mp hp
    rw [hown] at hold
    cases hold
    exact absurd rfl hu
  · intro hnone
    rw [Table.commit_owned hown] at hnone
    simp at hnone
  · intro _ row hrow havail
    rw [Table.commit_owned hown] at hrow
    cases hrow
    exact hrests havail

end Attempts

/-! ## Pairing codes -/

section Pairings
variable {T : Type}

/-- One submission at a time holds a pairing code; an approval leaves it consumed for good. -/
structure PairingsKept (pairings : Table String PairingCodeRow T) (sessions : T → ApprovalPhase) : Prop where
  alone : ∀ t u h, (sessions t).holds h → (sessions u).holds h → t = u
  there : ∀ t h, (sessions t).holds h → ∃ row, pairings.committed h = some row
  unapproved : ∀ t u h, (sessions t).holds h → ¬ (sessions u).approved h
  locked : ∀ h t row, pairings.pending h = some (t, row) → ((sessions t).spent h ∨ (sessions t).creates) ∧
    (row.consumedAt.isSome = true ∨ pairings.committed h = none)
  spent : ∀ t h, (sessions t).spent h → ∃ row, pairings.pending h = some (t, row)
  used : ∀ t h, (sessions t).approved h → ∃ row, pairings.committed h = some row ∧ row.consumedAt.isSome = true
  once : ∀ t u h, (sessions t).approved h → (sessions u).approved h → t = u

/-- What a step of session `t` may do to the pairing codes: rows stay, consumed ones stay consumed, and what the others
have locked is not touched. -/
structure PairingFrame (pairings : Table String PairingCodeRow T) (t : T)
    (pairings' : Table String PairingCodeRow T) : Prop where
  rows : ∀ h row, pairings.committed h = some row → ∃ row', pairings'.committed h = some row' ∧
    (row.consumedAt.isSome = true → row'.consumedAt.isSome = true)
  others : ∀ h u row, u ≠ t → (pairings'.pending h = some (u, row) ↔ pairings.pending h = some (u, row))
  foreign : ∀ h u row, u ≠ t → pairings.pending h = some (u, row) → pairings'.committed h = pairings.committed h

theorem pairingsKept_start : PairingsKept (.empty : Table String PairingCodeRow T) (fun _ => .idle) where
  alone := fun _ _ _ h => h.elim
  there := fun _ _ h => h.elim
  unapproved := fun _ _ _ h => h.elim
  locked := fun _ _ _ h => by cases h
  spent := fun _ _ h => h.elim
  used := fun _ _ h => h.elim
  once := fun _ _ _ h => h.elim

theorem PairingFrame.same (pairings : Table String PairingCodeRow T) (t : T) : PairingFrame pairings t pairings where
  rows := fun _ row hrow => ⟨row, hrow, id⟩
  others := fun _ _ _ _ => Iff.rfl
  foreign := fun _ _ _ _ _ => rfl

theorem ApprovalPhase.holds.not_approved {h k : String} {p : ApprovalPhase} (hp : p.holds h) : ¬ p.approved k := by
  cases p with
  | redirected sub location => exact hp.elim
  | _ => exact id

theorem ApprovalPhase.spent.holds {h : String} {p : ApprovalPhase} (hp : p.spent h) : p.holds h := by
  unfold ApprovalPhase.spent at hp
  split at hp
  · exact hp
  · exact hp
  · exact hp
  · exact hp.elim

theorem ApprovalPhase.not_holds_of_aloof {p : ApprovalPhase} (hp : p.aloof = true) (h : String) : ¬ p.holds h := by
  intro hh
  unfold ApprovalPhase.holds at hh
  split at hh
  · cases hp
  · cases hp
  · cases hp
  · cases hp
  · exact hh

theorem ApprovalPhase.not_creates_of_aloof {p : ApprovalPhase} (hp : p.aloof = true) : ¬ p.creates := by
  cases p with
  | creating new stage => cases hp
  | _ => exact id

theorem ApprovalPhase.not_approved_of_aloof {p : ApprovalPhase} (hp : p.aloof = true) (h : String) :
    ¬ p.approved h := by
  cases p with
  | redirected sub location => cases hp
  | _ => exact id

theorem PairingCodeRow.available_unconsumed {row : PairingCodeRow} {now : ℤ} (h : row.available now = true) :
    row.consumedAt = none := by
  unfold PairingCodeRow.available at h
  simpa using (Bool.and_eq_true_iff.mp h).1

variable {pairings pairings' : Table String PairingCodeRow T} {sessions : T → ApprovalPhase} {t : T} {x : ApprovalPhase}

/-- A session that neither spent a code nor creates one owns no version. -/
theorem PairingsKept.no_versions (hs : PairingsKept pairings sessions) (hspent : ∀ h, ¬ (sessions t).spent h)
    (hcreates : ¬ (sessions t).creates) (h : String) (row : PairingCodeRow) : pairings.pending h ≠ some (t, row) := by
  intro hp
  obtain hold | hold := (hs.locked h t row hp).1
  · exact hspent h hold
  · exact hcreates hold

variable [DecidableEq T]

/-- The invariant after a step of session `t`, from what the step does to the table and what `t` holds then. -/
theorem PairingsKept.frame (hs : PairingsKept pairings sessions) (hframe : PairingFrame pairings t pairings')
    (hlocked : ∀ h row, pairings'.pending h = some (t, row) → (x.spent h ∨ x.creates) ∧
      (row.consumedAt.isSome = true ∨ pairings'.committed h = none))
    (hspent : ∀ h, x.spent h → ∃ row, pairings'.pending h = some (t, row))
    (hholds : ∀ h, x.holds h → (sessions t).holds h ∨ (∀ u, ¬ (sessions u).holds h) ∧
      ∃ row, pairings.committed h = some row ∧ row.consumedAt = none)
    (happroved : ∀ h, x.approved h → (sessions t).approved h ∨ (sessions t).holds h ∧
      ∃ row, pairings'.committed h = some row ∧ row.consumedAt.isSome = true) :
    PairingsKept pairings' (Function.update sessions t x) := by
  have holder : ∀ u h, (Function.update sessions t x u).holds h → (sessions u).holds h ∨ u = t ∧
      (∀ v, ¬ (sessions v).holds h) ∧ ∃ row, pairings.committed h = some row ∧ row.consumedAt = none := by
    intro u h hu
    obtain ⟨rfl, hx⟩ | ⟨-, hold⟩ := Run.of_update (ApprovalPhase.holds h) hu
    · obtain hold | hnew := hholds h hx
      · exact .inl hold
      · exact .inr ⟨rfl, hnew⟩
    · exact .inl hold
  have approver : ∀ u h, (Function.update sessions t x u).approved h → (sessions u).approved h ∨ u = t ∧
      (sessions t).holds h ∧ ∃ row, pairings'.committed h = some row ∧ row.consumedAt.isSome = true := by
    intro u h hu
    obtain ⟨rfl, hx⟩ | ⟨-, hold⟩ := Run.of_update (ApprovalPhase.approved h) hu
    · obtain hold | hnew := happroved h hx
      · exact .inl hold
      · exact .inr ⟨rfl, hnew⟩
    · exact .inl hold
  refine ⟨?_, ?_, ?_, ?_, ?_, ?_, ?_⟩
  · intro u v h hu hv
    obtain hu' | ⟨hut, hfree, -⟩ := holder u h hu
    · obtain hv' | ⟨-, hfree, -⟩ := holder v h hv
      · exact hs.alone u v h hu' hv'
      · exact absurd hu' (hfree u)
    · obtain hv' | ⟨hvt, -, -⟩ := holder v h hv
      · exact absurd hv' (hfree v)
      · rw [hut, hvt]
  · intro u h hu
    obtain hold | ⟨-, -, row, hrow, -⟩ := holder u h hu
    · obtain ⟨row, hrow⟩ := hs.there u h hold
      obtain ⟨row', hrow', -⟩ := hframe.rows h row hrow
      exact ⟨row', hrow'⟩
    · obtain ⟨row', hrow', -⟩ := hframe.rows h row hrow
      exact ⟨row', hrow'⟩
  · intro u v h hu hv
    obtain hv' | ⟨hvt, ht, -⟩ := approver v h hv
    · obtain hu' | ⟨-, -, row, hrow, hfresh⟩ := holder u h hu
      · exact hs.unapproved u v h hu' hv'
      · -- a code that was just found unconsumed has approved nothing
        obtain ⟨used, hused, hconsumed⟩ := hs.used v h hv'
        rw [hrow] at hused
        cases hused
        rw [hfresh] at hconsumed
        simp at hconsumed
    · obtain hu' | ⟨-, hfree, -⟩ := holder u h hu
      · have hut : u = v := (hs.alone u t h hu' ht).trans hvt.symm
        rw [hut] at hu
        exact hu.not_approved hv
      · exact hfree t ht
  · intro h u row hp
    by_cases hu : u = t
    · subst hu
      rw [Function.update_self]
      exact hlocked h row hp
    · rw [Function.update_of_ne hu]
      have hold := (hframe.others h u row hu).mp hp
      rw [hframe.foreign h u row hu hold]
      exact hs.locked h u row hold
  · intro u h hu
    obtain ⟨rfl, hx⟩ | ⟨hne, hold⟩ := Run.of_update (ApprovalPhase.spent h) hu
    · exact hspent h hx
    · obtain ⟨row, hrow⟩ := hs.spent u h hold
      exact ⟨row, (hframe.others h u row hne).mpr hrow⟩
  · intro u h hu
    obtain hold | ⟨-, -, hnew⟩ := approver u h hu
    · obtain ⟨row, hrow, hconsumed⟩ := hs.used u h hold
      obtain ⟨row', hrow', hstays⟩ := hframe.rows h row hrow
      exact ⟨row', hrow', hstays hconsumed⟩
    · exact hnew
  · intro u v h hu hv
    obtain hu' | ⟨hut, ht, -⟩ := approver u h hu
    · obtain hv' | ⟨-, ht, -⟩ := approver v h hv
      · exact hs.once u v h hu' hv'
      · exact absurd hu' (hs.unapproved t u h ht)
    · obtain hv' | ⟨hvt, -, -⟩ := approver v h hv
      · exact absurd hv' (hs.unapproved t v h ht)
      · rw [hut, hvt]

/-- The session goes on without touching the pairing codes and without finding one. -/
theorem PairingsKept.move (hs : PairingsKept pairings sessions) (hholds : ∀ h, x.holds h → (sessions t).holds h)
    (hspent : ∀ h, x.spent h ↔ (sessions t).spent h) (hcreates : (sessions t).creates → x.creates)
    (happroved : ∀ h, ¬ x.approved h) : PairingsKept pairings (Function.update sessions t x) := by
  refine hs.frame (.same pairings t) ?_ ?_ ?_ ?_
  · intro h row hp
    obtain ⟨howner, hrow⟩ := hs.locked h t row hp
    refine ⟨?_, hrow⟩
    obtain hold | hold := howner
    · exact .inl ((hspent h).mpr hold)
    · exact .inr (hcreates hold)
  · exact fun h hx => hs.spent t h ((hspent h).mp hx)
  · exact fun h hx => .inl (hholds h hx)
  · exact fun h hx => absurd hx (happroved h)

/-- The session has nothing to do with a pairing code before and after. -/
theorem PairingsKept.pass (hs : PairingsKept pairings sessions) (ht : (sessions t).aloof = true) (hx : x.aloof = true) :
    PairingsKept pairings (Function.update sessions t x) := by
  apply hs.move
  · exact fun h hh => absurd hh (ApprovalPhase.not_holds_of_aloof hx h)
  · intro h
    have hold := ApprovalPhase.not_holds_of_aloof ht h
    have hnew := ApprovalPhase.not_holds_of_aloof hx h
    exact ⟨fun hh => absurd hh.holds hnew, fun hh => absurd hh.holds hold⟩
  · exact fun hh => absurd hh (ApprovalPhase.not_creates_of_aloof ht)
  · exact ApprovalPhase.not_approved_of_aloof hx

/-- The session finds a pairing code available that nobody holds. -/
theorem PairingsKept.find (hs : PairingsKept pairings sessions) {h : String} {row : PairingCodeRow} {now : ℤ}
    (hfree : ∀ u, ¬ (sessions u).holds h) (hrow : pairings.read t h = some row) (havail : row.available now = true)
    (ht : (sessions t).aloof = true)
    (hx : ∀ k, x.holds k → k = h) (hunspent : ∀ k, ¬ x.spent k) (hnew : ∀ k, ¬ x.approved k) :
    PairingsKept pairings (Function.update sessions t x) := by
  have unowned := hs.no_versions (fun k hk => ApprovalPhase.not_holds_of_aloof ht k hk.holds)
    (ApprovalPhase.not_creates_of_aloof ht)
  refine hs.frame (.same pairings t) ?_ ?_ ?_ ?_
  · exact fun k version hp => absurd hp (unowned k version)
  · exact fun k hk => absurd hk (hunspent k)
  · intro k hk
    rw [hx k hk]
    refine .inr ⟨hfree, row, ?_, PairingCodeRow.available_unconsumed havail⟩
    rwa [Table.read_eq_committed (unowned h)] at hrow
  · exact fun k hk => absurd hk (hnew k)

/-- The holder of a pairing code flushes its consumption. -/
theorem PairingsKept.spend (hs : PairingsKept pairings sessions) {h : String} {now : ℤ}
    (ht : ∀ k, (sessions t).holds k ↔ k = h) (hidle : ∀ k, ¬ (sessions t).spent k) (hcreates : ¬ (sessions t).creates)
    (hdone : pairings.update t h (PairingCodeRow.consume now) = .done pairings')
    (hholds : ∀ k, x.holds k ↔ k = h) (hspent : ∀ k, x.spent k ↔ k = h) :
    PairingsKept pairings' (Function.update sessions t x) := by
  have unowned := hs.no_versions hidle hcreates
  obtain ⟨hwritable, latest, -, rfl⟩ := Table.update_done hdone
  have hheld : x.holds h := (hholds h).mpr rfl
  refine hs.frame ⟨?_, ?_, ?_⟩ ?_ ?_ ?_ ?_
  · exact fun k row hrow => ⟨row, hrow, id⟩
  · exact fun k u row hu => Table.write_pending_foreign hwritable hu
  · exact fun _ _ _ _ _ => rfl
  · intro k row hp
    obtain ⟨hk, -, rfl⟩ | ⟨-, hold⟩ := Table.write_pending_cases hp
    · exact ⟨.inl ((hspent k).mpr hk), .inl rfl⟩
    · exact absurd hold (unowned k row)
  · intro k hk
    rw [(hspent k).mp hk]
    exact ⟨_, Table.write_pending_self⟩
  · exact fun k hk => .inl ((ht k).mpr ((hholds k).mp hk))
  · exact fun k hk => absurd hk hheld.not_approved

/-- Committing keeps the rows, and the consumed ones consumed. -/
theorem PairingsKept.commit_frame (hs : PairingsKept pairings sessions) (t : T) :
    PairingFrame pairings t (pairings.commit t) := by
  refine ⟨?_, ?_, ?_⟩
  · intro h row hrow
    cases hown : pairings.own t h with
    | none => exact ⟨row, (Table.commit_unowned (Table.own_eq_none.mp hown)).trans hrow, id⟩
    | some version =>
      have hp := Table.own_eq_some.mp hown
      refine ⟨version, Table.commit_owned hp, fun _ => ?_⟩
      obtain hconsumed | hnone := (hs.locked h t version hp).2
      · exact hconsumed
      · rw [hrow] at hnone
        simp at hnone
  · intro h u row hu
    rw [Table.commit_pending]
    exact ⟨And.left, fun hp => ⟨hp, hu⟩⟩
  · intro h u row hu hp
    apply Table.commit_unowned
    intro version hown
    rw [hp] at hown
    cases hown
    exact hu rfl

/-- The session commits: what it held is consumed from now on. -/
theorem PairingsKept.commit (hs : PairingsKept pairings sessions) (hx : ∀ h, ¬ x.holds h)
    (happroved : ∀ h, x.approved h → (sessions t).spent h) :
    PairingsKept (pairings.commit t) (Function.update sessions t x) := by
  refine hs.frame (hs.commit_frame t) ?_ ?_ ?_ ?_
  · intro h row hp
    exact absurd rfl (Table.commit_pending.mp hp).2
  · exact fun h hspent => absurd hspent.holds (hx h)
  · exact fun h hholds => absurd hholds (hx h)
  · intro h happ
    have hspent := happroved h happ
    obtain ⟨row, hp⟩ := hs.spent t h hspent
    refine .inr ⟨hspent.holds, row, Table.commit_owned hp, ?_⟩
    obtain hconsumed | hnone := (hs.locked h t row hp).2
    · exact hconsumed
    · obtain ⟨before, hbefore⟩ := hs.there t h hspent.holds
      rw [hbefore] at hnone
      simp at hnone

theorem PairingsKept.abort (hs : PairingsKept pairings sessions) (t : T) :
    PairingsKept (pairings.abort t) (Function.update sessions t .failed) := by
  refine hs.frame ⟨?_, ?_, ?_⟩ ?_ ?_ ?_ ?_
  · exact fun h row hrow => ⟨row, hrow, id⟩
  · intro h u row hu
    rw [Table.abort_pending]
    exact ⟨And.left, fun hp => ⟨hp, hu⟩⟩
  · exact fun _ _ _ _ _ => rfl
  · intro h row hp
    exact absurd rfl (Table.abort_pending.mp hp).2
  · exact fun h hx => hx.elim
  · exact fun h hx => hx.elim
  · exact fun h hx => hx.elim

/-- A session that creates a code writes a version that is consumed, or the first one of its key. -/
theorem PairingsKept.creation (hs : PairingsKept pairings sessions) {h : String} {row : PairingCodeRow}
    (hwritable : pairings.writable t h = true)
    (hrow : row.consumedAt.isSome = true ∨ pairings.committed h = none) (hx : x.creates) :
    PairingsKept (pairings.write t h row) (Function.update sessions t x) := by
  have hbusy : ∀ k, ¬ x.holds k ∧ ¬ x.approved k := by
    intro k
    cases x with
    | creating new stage => exact ⟨id, id⟩
    | _ => exact hx.elim
  refine hs.frame ⟨?_, ?_, ?_⟩ ?_ ?_ ?_ ?_
  · exact fun k latest hlatest => ⟨latest, hlatest, id⟩
  · exact fun k u latest hu => Table.write_pending_foreign hwritable hu
  · exact fun _ _ _ _ _ => rfl
  · intro k latest hp
    refine ⟨.inr hx, ?_⟩
    obtain ⟨rfl, -, rfl⟩ | ⟨-, hold⟩ := Table.write_pending_cases hp
    · exact hrow
    · exact (hs.locked k t latest hold).2
  · exact fun k hk => absurd hk.holds (hbusy k).1
  · exact fun k hk => absurd hk (hbusy k).1
  · exact fun k hk => absurd hk (hbusy k).2

end Pairings

/-! ## Every step keeps both -/

section Steps
variable {T : Type} [DecidableEq T] {settings : ApprovalSettings} {s s' : ApprovalSystem T}
attribute [local simp] approvalStep

structure ApprovalKept (settings : ApprovalSettings) (s : ApprovalSystem T) : Prop where
  attempts : AttemptsKept settings.maxApprovalAttempts s.clock s.requests s.sessions s.compared
  pairings : PairingsKept s.pairings s.sessions

/-- The committed row of an active submission's request, and what the submission knows about it. -/
theorem ApprovalKept.owes (hs : ApprovalKept settings s) {t : T} {sub : Submission} {record : AuthorizationRequestRow}
    {stage : ApprovalStage} (ht : s.sessions t = .active sub record stage) :
    ∃ row, s.requests.committed sub.requestId = some row ∧ StageOwes settings.maxApprovalAttempts s.clock
      (s.compared sub.requestId) row (s.requests.own t sub.requestId) stage := by
  have h := hs.attempts.owes t
  rwa [ht] at h

/-- An active submission goes on without touching its request. -/
theorem ApprovalKept.onward (hs : ApprovalKept settings s) {t : T} {sub : Submission}
    {record : AuthorizationRequestRow} {stage stage' : ApprovalStage} (ht : s.sessions t = .active sub record stage)
    (hwrites : (ApprovalPhase.active sub record stage).writesRequest →
      (ApprovalPhase.active sub record stage').writesRequest)
    (hstage : ∀ row, StageOwes settings.maxApprovalAttempts s.clock (s.compared sub.requestId) row
        (s.requests.own t sub.requestId) stage →
      StageOwes settings.maxApprovalAttempts s.clock (s.compared sub.requestId) row
        (s.requests.own t sub.requestId) stage') :
    AttemptsKept settings.maxApprovalAttempts s.clock s.requests
      (Function.update s.sessions t (.active sub record stage')) s.compared := by
  obtain ⟨row, hrow, howes⟩ := hs.owes ht
  have target : (s.sessions t).target = some sub.requestId := by
    rw [ht]
    rfl
  have seen : s.requests.committed sub.requestId ≠ none := by
    rw [hrow]
    exact Option.some_ne_none row
  apply hs.attempts.advance target rfl _ seen (fun _ _ => rfl) (hs.attempts.bounded _)
  · exact ⟨row, hrow, hstage row howes⟩
  · rwa [ht]

theorem ApprovalKept.fetch (hs : ApprovalKept settings s) {t : T} (hok : SubmitsAlone s (.fetch t))
    (h : approvalStep settings s (.fetch t) = some s') : ApprovalKept settings s' := by
  simp only [approvalStep] at h
  split at h
  · rename_i sub ht
    cases h
    have free : ∀ u, (s.sessions u).target ≠ some sub.requestId := by
      apply hok
      rw [ht]
      rfl
    have unowned : ∀ row, s.requests.pending sub.requestId ≠ some (t, row) := by
      apply hs.attempts.no_versions
      rw [ht]
      exact id
    have target : (s.sessions t).target = none := by
      rw [ht]
      rfl
    refine ⟨?_, ?_⟩
    · refine hs.attempts.home (.inr ⟨target, free⟩) (.inl rfl) (fun _ _ => ⟨rfl, rfl, rfl⟩) ?_
        (hs.attempts.bounded _) (hs.attempts.unseen _) ⟨?_, hs.attempts.rests _ free⟩ ?_
      · exact fun u row hp => absurd (hs.attempts.locked _ u row hp).1 (free u)
      · intro row hrow
        rwa [Table.read_eq_committed unowned] at hrow
      · intro hnone
        cases hnone
    · exact hs.pairings.pass (by rw [ht]; rfl) rfl
  · simp at h

theorem ApprovalKept.check (hs : ApprovalKept settings s) {t : T}
    (h : approvalStep settings s (.check t) = some s') : ApprovalKept settings s' := by
  simp only [approvalStep] at h
  split at h
  · rename_i sub found ht
    cases h
    have target : (s.sessions t).target = some sub.requestId := by
      rw [ht]
      rfl
    have unwritten : ¬ (s.sessions t).writesRequest := by
      rw [ht]
      exact id
    obtain ⟨hfound, hrests⟩ : (∀ row, found = some row → s.requests.committed sub.requestId = some row) ∧
        Rests s.clock s.requests s.compared sub.requestId := by
      have howes := hs.attempts.owes t
      rwa [ht] at howes
    have refuse : ∀ error, ApprovalKept settings (s.setSession t (.refused sub error)) := by
      intro error
      refine ⟨hs.attempts.release target rfl unwritten hrests, ?_⟩
      exact hs.pairings.pass (by rw [ht]; rfl) rfl
    unfold pendingAuthorization
    split
    · exact refuse _
    · rename_i row
      split
      · rename_i havail
        split
        · exact refuse _
        · rename_i hbelow
          have hrow := hfound row rfl
          have seen : s.requests.committed sub.requestId ≠ none := by
            rw [hrow]
            exact Option.some_ne_none row
          refine ⟨?_, ?_⟩
          · apply hs.attempts.advance target rfl (fun hw => absurd hw unwritten) seen (fun _ _ => rfl)
              (hs.attempts.bounded _)
            exact ⟨row, hrow, hrests row hrow havail, Nat.lt_of_not_le hbelow⟩
          · exact hs.pairings.pass (by rw [ht]; rfl) rfl
      · exact refuse _
  · simp at h

theorem ApprovalKept.begin (hs : ApprovalKept settings s) {t : T}
    (h : approvalStep settings s (.begin t) = some s') : ApprovalKept settings s' := by
  simp only [approvalStep] at h
  split at h
  · rename_i sub record ht
    cases h
    exact ⟨hs.onward ht id fun _ => id, hs.pairings.pass (by rw [ht]; rfl) rfl⟩
  · simp at h

theorem ApprovalKept.load (hs : ApprovalKept settings s) {t : T}
    (h : approvalStep settings s (.load t) = some s') : ApprovalKept settings s' := by
  simp only [approvalStep] at h
  split at h
  · rename_i sub record now ht
    cases h
    have reject : ApprovalKept settings (s.setSession t (.active sub record .rejected)) :=
      ⟨hs.onward ht id fun _ howes => Nat.le_succ_of_le howes.1, hs.pairings.pass (by rw [ht]; rfl) rfl⟩
    unfold requestLoaded
    split
    · exact reject
    · split
      · split
        · exact ⟨hs.onward ht id fun _ => id, hs.pairings.pass (by rw [ht]; rfl) rfl⟩
        · rename_i hnone
          have unpaired : ∀ k, sub.pairingCodeHash ≠ some k := by
            intro k hk
            rw [hnone] at hk
            simp at hk
          refine ⟨hs.onward ht id fun _ howes => Nat.le_succ_of_le howes.1, ?_⟩
          apply hs.pairings.move
          · exact fun k hk => absurd hk (unpaired k)
          · intro k
            rw [ht]
            exact ⟨fun hk => absurd hk (unpaired k), fun hk => hk.elim⟩
          · rw [ht]
            exact id
          · exact fun k hk => hk
      · exact reject
  · simp at h

theorem ApprovalKept.compare (hs : ApprovalKept settings s) {t : T} (hok : SubmitsAlone s (.compare t))
    (h : approvalStep settings s (.compare t) = some s') : ApprovalKept settings s' := by
  simp only [approvalStep] at h
  split at h
  · rename_i sub record now row ht
    split at h
    · rename_i codeHash hhash
      cases h
      have free : ∀ u, ¬ (s.sessions u).holds codeHash := by
        apply hok
        rw [ht]
        exact hhash
      have target : (s.sessions t).target = some sub.requestId := by
        rw [ht]
        rfl
      obtain ⟨latest, hlatest, hcounted, hbelow⟩ := hs.owes ht
      have seen : s.requests.committed sub.requestId ≠ none := by
        rw [hlatest]
        exact Option.some_ne_none latest
      -- either outcome is one comparison ahead of the count
      have ahead : ∀ stage, (∀ version, StageOwes settings.maxApprovalAttempts s.clock
          (s.compared sub.requestId + 1) latest version stage) →
          AttemptsKept settings.maxApprovalAttempts s.clock s.requests
            (Function.update s.sessions t (.active sub record stage))
            (Function.update s.compared sub.requestId (s.compared sub.requestId + 1)) := by
        intro stage hstage
        apply hs.attempts.advance target rfl
        · rw [ht]
          exact fun hw => hw.elim
        · exact seen
        · exact fun j hj => Function.update_of_ne hj _ _
        · rw [Function.update_self]
          omega
        · refine ⟨latest, hlatest, ?_⟩
          rw [Function.update_self]
          exact hstage _
      have reject : ApprovalKept settings { s.setSession t (.active sub record .rejected) with
          compared := Function.update s.compared sub.requestId (s.compared sub.requestId + 1) } :=
        ⟨ahead .rejected fun _ => Nat.succ_le_succ hcounted, hs.pairings.pass (by rw [ht]; rfl) rfl⟩
      unfold pairingLoaded
      split
      · exact reject
      · rename_i pairing hpairing
        split
        · rename_i havail
          refine ⟨ahead (.matched now row) fun _ => Nat.succ_le_succ hcounted, ?_⟩
          apply hs.pairings.find free hpairing havail
          · rw [ht]
            rfl
          · exact fun k hk => Option.some.inj (Eq.trans (Eq.symm hk) hhash)
          · exact fun k hk => hk
          · exact fun k hk => hk
        · exact reject
    · simp at h
  · simp at h

theorem ApprovalKept.pair (hs : ApprovalKept settings s) {t : T}
    (h : approvalStep settings s (.pair t) = some s') : ApprovalKept settings s' := by
  simp only [approvalStep] at h
  split at h
  · rename_i sub record now row ht
    split at h
    · rename_i codeHash hhash
      have holds : ∀ k, (s.sessions t).holds k ↔ k = codeHash := by
        intro k
        rw [ht]
        show sub.pairingCodeHash = some k ↔ k = codeHash
        rw [hhash, Option.some.injEq]
        exact eq_comm
      split at h
      · simp at h
      · rename_i hfails
        -- the row was found committed, and committed rows stay
        obtain ⟨found, hfound⟩ := hs.pairings.there t codeHash ((holds codeHash).mpr rfl)
        exact absurd hfails (Table.update_ne_fails hfound)
      · rename_i pairings hdone
        cases h
        refine ⟨hs.onward ht id fun _ => id, ?_⟩
        refine hs.pairings.spend holds ?_ ?_ hdone ?_ ?_
        · rw [ht]
          exact fun k hk => hk
        · rw [ht]
          exact fun hw => hw
        · rw [ht] at holds
          exact holds
        · rw [ht] at holds
          exact holds
    · simp at h
  · simp at h

/-- A flushed version of the request reads back as the session's own. -/
theorem own_write (requests : Table String AuthorizationRequestRow T) (t : T) (r : String)
    (version : AuthorizationRequestRow) : (requests.write t r version).own t r = some version :=
  Table.own_eq_some.mpr Table.write_pending_self

theorem ApprovalKept.close (hs : ApprovalKept settings s) {t : T}
    (h : approvalStep settings s (.close t) = some s') : ApprovalKept settings s' := by
  simp only [approvalStep] at h
  split at h
  · rename_i sub record now row ht
    obtain ⟨latest, hlatest, -⟩ := hs.owes ht
    split at h
    · simp at h
    · rename_i hfails
      exact absurd hfails (Table.update_ne_fails hlatest)
    · rename_i requests hdone
      cases h
      obtain ⟨-, version, -, rfl⟩ := Table.update_done hdone
      have target : (s.sessions t).target = some sub.requestId := by
        rw [ht]
        rfl
      refine ⟨hs.attempts.flush target rfl trivial ⟨latest, hlatest, _, own_write _ _ _ _, rfl⟩, ?_⟩
      apply hs.pairings.move
      · rw [ht]
        exact fun k hk => hk
      · intro k
        rw [ht]
        exact Iff.rfl
      · rw [ht]
        exact id
      · exact fun k hk => hk
  · simp at h

theorem ApprovalKept.issue (hs : ApprovalKept settings s) {t : T} (hok : SubmitsAlone s (.issue t))
    (h : approvalStep settings s (.issue t) = some s') : ApprovalKept settings s' := by
  simp only [approvalStep] at h
  split at h
  · rename_i sub record now row ht
    split at h
    · split at h
      · simp at h
      · rename_i hfails
        have absent : s.codes.read t sub.codeHash = none := by
          apply hok
          rw [ht]
          rfl
        exact absurd hfails (Table.insert_ne_fails absent)
      · cases h
        refine ⟨hs.onward ht id fun _ => id, ?_⟩
        apply hs.pairings.move
        · rw [ht]
          exact fun k hk => hk
        · intro k
          rw [ht]
          exact Iff.rfl
        · rw [ht]
          exact id
        · exact fun k hk => hk
    · simp at h
  · simp at h

theorem ApprovalKept.record (hs : ApprovalKept settings s) {t : T}
    (h : approvalStep settings s (.record t) = some s') : ApprovalKept settings s' := by
  simp only [approvalStep] at h
  split at h
  · rename_i sub record ht
    cases h
    exact ⟨hs.onward ht id fun _ howes => ⟨howes, le_refl _⟩, hs.pairings.pass (by rw [ht]; rfl) rfl⟩
  · simp at h

theorem ApprovalKept.reload (hs : ApprovalKept settings s) {t : T}
    (h : approvalStep settings s (.reload t) = some s') : ApprovalKept settings s' := by
  simp only [approvalStep] at h
  split at h
  · rename_i sub record now ht
    cases h
    obtain ⟨latest, hlatest, howes, hnow⟩ := hs.owes ht
    have target : (s.sessions t).target = some sub.requestId := by
      rw [ht]
      rfl
    have unwritten : ¬ (s.sessions t).writesRequest := by
      rw [ht]
      exact id
    have hread : s.requests.read t sub.requestId = some latest :=
      (Table.read_eq_committed (hs.attempts.no_versions unwritten _)).trans hlatest
    rw [hread]
    unfold failureLoaded
    simp only
    split
    · refine ⟨?_, hs.pairings.pass (by rw [ht]; rfl) rfl⟩
      apply hs.attempts.advance target rfl (fun hw => absurd hw unwritten) _ (fun _ _ => rfl)
        (hs.attempts.bounded _)
      · exact ⟨latest, hlatest, howes⟩
      · rw [hlatest]
        exact Option.some_ne_none latest
    · rename_i hgone
      -- what is not available now is not available later either
      refine ⟨hs.attempts.release target rfl unwritten ?_, hs.pairings.pass (by rw [ht]; rfl) rfl⟩
      intro row hrow havail
      rw [hlatest] at hrow
      cases hrow
      obtain ⟨hnone, hlt⟩ := AuthorizationRequestRow.available_iff.mp havail
      exact absurd (AuthorizationRequestRow.available_iff.mpr ⟨hnone, lt_of_le_of_lt hnow hlt⟩) hgone
  · simp at h

theorem ApprovalKept.count (hs : ApprovalKept settings s) {t : T}
    (h : approvalStep settings s (.count t) = some s') : ApprovalKept settings s' := by
  simp only [approvalStep] at h
  split at h
  · rename_i sub record now row ht
    obtain ⟨latest, hlatest, howes⟩ := hs.owes ht
    split at h
    · simp at h
    · rename_i hfails
      exact absurd hfails (Table.update_ne_fails hlatest)
    · rename_i requests hdone
      cases h
      obtain ⟨-, version, -, rfl⟩ := Table.update_done hdone
      have target : (s.sessions t).target = some sub.requestId := by
        rw [ht]
        rfl
      refine ⟨hs.attempts.flush target rfl trivial ⟨latest, hlatest, _, own_write _ _ _ _, howes⟩, ?_⟩
      exact hs.pairings.pass (by rw [ht]; rfl) rfl
  · simp at h

theorem ApprovalKept.touch (hs : ApprovalKept settings s) {t : T}
    (h : approvalStep settings s (.touch t) = some s') : ApprovalKept settings s' := by
  simp only [approvalStep] at h
  split at h
  · rename_i new k targets ht
    split at h
    · rename_i hwritable
      cases h
      refine ⟨hs.attempts.quiet (by rw [ht]; rfl) rfl, ?_⟩
      have keep : PairingsKept s.pairings (Function.update s.sessions t (.creating new (.replacing targets))) := by
        apply hs.pairings.move
        · exact fun k hk => hk.elim
        · intro k
          rw [ht]
          exact Iff.rfl
        · exact fun _ => trivial
        · exact fun k hk => hk
      unfold consumeTarget
      split
      · split
        · exact hs.pairings.creation hwritable (.inl rfl) trivial
        · exact keep
      · exact keep
    · simp at h
  · simp at h

theorem ApprovalKept.insert (hs : ApprovalKept settings s) {t : T}
    (h : approvalStep settings s (.insert t) = some s') : ApprovalKept settings s' := by
  simp only [approvalStep] at h
  split at h
  · rename_i new ht
    have idle : (s.sessions t).target = none := by
      rw [ht]
      rfl
    split at h
    · simp at h
    · cases h
      refine ⟨?_, hs.pairings.abort t⟩
      show AttemptsKept settings.maxApprovalAttempts s.clock (s.requests.abort t)
        (Function.update s.sessions t .failed) s.compared
      rw [Table.abort_eq_self (hs.attempts.no_versions (by rw [ht]; exact id))]
      exact hs.attempts.quiet idle rfl
    · rename_i pairings hdone
      cases h
      obtain ⟨hwritable, hnone, rfl⟩ := Table.insert_done hdone
      refine ⟨hs.attempts.quiet idle rfl, hs.pairings.creation hwritable (.inr ?_) trivial⟩
      rw [Table.read_eq, Option.or_eq_none_iff] at hnone
      exact hnone.2
  · simp at h

/-- A session that changed no request commits or is rolled back. -/
theorem ApprovalKept.requests_unchanged (hs : ApprovalKept settings s) {t : T} (ht : ¬ (s.sessions t).writesRequest) :
    s.requests.commit t = s.requests ∧ s.requests.abort t = s.requests :=
  ⟨Table.commit_eq_self (hs.attempts.no_versions ht), Table.abort_eq_self (hs.attempts.no_versions ht)⟩

/-- A submission that closed its request commits. -/
theorem ApprovalKept.commit_closed (hs : ApprovalKept settings s) {t : T} {sub : Submission}
    {record : AuthorizationRequestRow} {stage : ApprovalStage} {location : Redirect}
    (ht : s.sessions t = .active sub record stage)
    (hspent : ∀ h, sub.pairingCodeHash = some h → (s.sessions t).spent h)
    (hversion : ∃ latest, s.requests.own t sub.requestId = some latest ∧ latest.consumedAt.isSome = true) :
    ApprovalKept settings (s.commit t (.redirected sub location)) := by
  obtain ⟨latest, hlatest, hconsumed⟩ := hversion
  have target : (s.sessions t).target = some sub.requestId := by
    rw [ht]
    rfl
  refine ⟨hs.attempts.commit target rfl hlatest ?_, hs.pairings.commit (fun _ hk => hk) ?_⟩
  · intro havail
    rw [(AuthorizationRequestRow.available_iff.mp havail).1] at hconsumed
    simp at hconsumed
  · exact fun h happroved => hspent h happroved.2

theorem ApprovalKept.commit (hs : ApprovalKept settings s) {t : T}
    (h : approvalStep settings s (.commit t) = some s') : ApprovalKept settings s' := by
  simp only [approvalStep] at h
  split at h
  · rename_i sub record now row ht
    cases h
    obtain ⟨latest, -, hversion⟩ := hs.owes ht
    exact hs.commit_closed ht (fun h hh => by rw [ht]; exact hh) hversion
  · rename_i sub record now row ht
    split at h
    · simp at h
    · cases h
      obtain ⟨latest, -, hversion⟩ := hs.owes ht
      exact hs.commit_closed ht (fun h hh => by rw [ht]; exact hh) hversion
  · rename_i sub record attempts ht
    cases h
    obtain ⟨latest, -, version, hversion, hcounted⟩ := hs.owes ht
    have target : (s.sessions t).target = some sub.requestId := by
      rw [ht]
      rfl
    exact ⟨hs.attempts.commit target rfl hversion fun _ => hcounted, hs.pairings.commit (fun _ hk => hk) fun _ hk => hk.elim⟩
  · rename_i new ht
    cases h
    have unwritten : ¬ (s.sessions t).writesRequest := by
      rw [ht]
      exact id
    refine ⟨?_, hs.pairings.commit (fun _ hk => hk) fun _ hk => hk.elim⟩
    show AttemptsKept settings.maxApprovalAttempts s.clock (s.requests.commit t)
      (Function.update s.sessions t (.created new)) s.compared
    rw [(hs.requests_unchanged unwritten).1]
    exact hs.attempts.quiet (by rw [ht]; rfl) rfl
  · simp at h

theorem ApprovalKept.abort (hs : ApprovalKept settings s) {t : T} (hok : SubmitsAlone s (.abort t))
    (h : approvalStep settings s (.abort t) = some s') : ApprovalKept settings s' := by
  have early : (s.sessions t).uncompared = true := hok
  have unwritten : ¬ (s.sessions t).writesRequest := by
    intro hw
    unfold ApprovalPhase.writesRequest at hw
    split at hw <;> rename_i ht
    · rw [ht] at early
      cases early
    · rw [ht] at early
      cases early
    · rw [ht] at early
      cases early
    · exact hw
  have settle : AttemptsKept settings.maxApprovalAttempts s.clock s.requests
      (Function.update s.sessions t .failed) s.compared → ApprovalKept settings (s.rollback t) := by
    intro kept
    refine ⟨?_, hs.pairings.abort t⟩
    show AttemptsKept settings.maxApprovalAttempts s.clock (s.requests.abort t)
      (Function.update s.sessions t .failed) s.compared
    rwa [(hs.requests_unchanged unwritten).2]
  simp only [approvalStep] at h
  split at h
  · rename_i sub found ht
    cases h
    have howes := hs.attempts.owes t
    rw [ht] at howes
    exact settle (hs.attempts.release (by rw [ht]; rfl) rfl unwritten howes.2)
  · rename_i sub record stage ht
    cases h
    obtain ⟨latest, hlatest, howes⟩ := hs.owes ht
    have counted : s.compared sub.requestId ≤ latest.approvalAttempts := by
      rw [ht] at early
      cases stage with
      | ready => exact howes.1
      | begun now => exact howes.1
      | loaded now row => exact howes.1
      | _ => cases early
    apply settle
    apply hs.attempts.release (by rw [ht]; rfl) rfl unwritten
    intro row hrow _
    rw [hlatest] at hrow
    cases hrow
    exact counted
  · rename_i new stage ht
    cases h
    exact settle (hs.attempts.quiet (by rw [ht]; rfl) rfl)
  · simp at h

theorem ApprovalKept.step {l : ApprovalLabel T} (hs : ApprovalKept settings s) (hok : SubmitsAlone s l)
    (h : approvalStep settings s l = some s') : ApprovalKept settings s' := by
  cases l with
  | tick seconds =>
    cases h
    exact ⟨hs.attempts.tick seconds, hs.pairings⟩
  | authorize requestId row =>
    simp only [approvalStep] at h
    split at h
    · rename_i hnone _
      cases h
      exact ⟨hs.attempts.authorize hnone, hs.pairings⟩
    · simp at h
  | submit t sub =>
    simp only [approvalStep] at h
    split at h
    · rename_i ht
      cases h
      exact ⟨hs.attempts.quiet (by rw [ht]; rfl) rfl, hs.pairings.pass (by rw [ht]; rfl) rfl⟩
    · simp at h
  | create t codeHash =>
    simp only [approvalStep] at h
    split at h
    · rename_i ht
      cases h
      refine ⟨hs.attempts.quiet (by rw [ht]; rfl) rfl, hs.pairings.move (fun k hk => hk.elim) ?_ ?_ fun k hk => hk⟩
      · intro k
        rw [ht]
        exact Iff.rfl
      · exact fun _ => trivial
    · simp at h
  | scan t =>
    simp only [approvalStep] at h
    split at h
    · rename_i new ht
      cases h
      refine ⟨hs.attempts.quiet (by rw [ht]; rfl) rfl, hs.pairings.move (fun k hk => hk.elim) ?_ ?_ fun k hk => hk⟩
      · intro k
        rw [ht]
        exact Iff.rfl
      · exact fun _ => trivial
    · simp at h
  | fetch t => exact hs.fetch hok h
  | check t => exact hs.check h
  | begin t => exact hs.begin h
  | load t => exact hs.load h
  | compare t => exact hs.compare hok h
  | pair t => exact hs.pair h
  | close t => exact hs.close h
  | issue t => exact hs.issue hok h
  | record t => exact hs.record h
  | reload t => exact hs.reload h
  | count t => exact hs.count h
  | touch t => exact hs.touch h
  | insert t => exact hs.insert h
  | commit t => exact hs.commit h
  | abort t => exact hs.abort hok h

/-- In every run whose submissions do not overlap, the pairing codes compared for a request never exceed the limit, and
one pairing code never approves two requests. -/
theorem approval_attempts_bounded {clock : ℤ}
    (h : Run.Guarded (approvalStep settings) SubmitsAlone (ApprovalSystem.start clock) s) :
    (∀ r, s.compared r ≤ settings.maxApprovalAttempts) ∧
      ∀ t u sub sub' location location' codeHash, s.sessions t = .redirected sub location →
        s.sessions u = .redirected sub' location' → sub.decision = .approve → sub'.decision = .approve →
        sub.pairingCodeHash = some codeHash → sub'.pairingCodeHash = some codeHash → t = u := by
  have start : ApprovalKept settings (ApprovalSystem.start clock : ApprovalSystem T) :=
    ⟨attemptsKept_start, pairingsKept_start⟩
  have kept : ApprovalKept settings s := h.invariant start fun _ _ _ ha hok hstep => ha.step hok hstep
  refine ⟨kept.attempts.bounded, ?_⟩
  intro t u sub sub' location location' codeHash ht hu happrove happrove' hhash hhash'
  apply kept.pairings.once t u codeHash
  · rw [ht]
    exact ⟨happrove, hhash⟩
  · rw [hu]
    exact ⟨happrove', hhash'⟩

end Steps

/-! ## Overlapping submissions -/

def demoRequest : AuthorizationRequestRow :=
  ⟨"client", some "Client", some "state", ["mcp"], "challenge", "uri", true, "resource", 600, 0, none⟩

def demoSubmission (requestId pairingCodeHash code : String) : Submission :=
  ⟨.approve, requestId, some pairingCodeHash, code, code⟩

def oneAttempt : ApprovalSettings := ⟨1, 300, 300⟩

/-- Two guesses at a request that admits one: both look it up before either of them is counted. -/
def doubleGuess : List (ApprovalLabel Bool) :=
  [.authorize "r" demoRequest, .submit false (demoSubmission "r" "guess1" "c1"),
   .submit true (demoSubmission "r" "guess2" "c2"), .fetch false, .fetch true, .check false, .check true,
   .begin false, .begin true, .load false, .load true, .compare false, .compare true]

/-- The operator creates a pairing code, and two clients use it for their requests at the same time. -/
def doublePairing : List (ApprovalLabel (Fin (1 + 2))) :=
  [.authorize "r1" demoRequest, .authorize "r2" demoRequest, .create 2 "p", .scan 2, .insert 2, .commit 2,
   .submit 0 (demoSubmission "r1" "p" "c1"), .submit 1 (demoSubmission "r2" "p" "c2"), .fetch 0, .fetch 1,
   .check 0, .check 1, .begin 0, .begin 1, .load 0, .load 1, .compare 0, .compare 1,
   .pair 0, .close 0, .issue 0, .commit 0, .pair 1, .close 1, .issue 1, .commit 1]

/-- The decided submission of a session. -/
def ApprovalPhase.decided : ApprovalPhase → Option (Submission × Redirect)
  | .redirected sub location => some (sub, location)
  | _ => none

theorem ApprovalPhase.decided_eq_some {p : ApprovalPhase} {sub : Submission} {location : Redirect}
    (h : p.decided = some (sub, location)) : p = .redirected sub location := by
  cases p with
  | redirected sub' location' =>
    cases h
    rfl
  | _ => cases h

theorem both_guesses_compared :
    ((Run.exec (approvalStep oneAttempt) (ApprovalSystem.start 100) doubleGuess).map fun s => s.compared "r") =
      some 2 := by
  decide

theorem both_requests_approved :
    ((Run.exec (approvalStep oneAttempt) (ApprovalSystem.start 100) doublePairing).map fun s =>
      ((s.sessions 0).decided, (s.sessions 1).decided)) =
      some (some (demoSubmission "r1" "p" "c1", ⟨"uri", some "c1", none, none, some "state"⟩),
        some (demoSubmission "r2" "p" "c2", ⟨"uri", some "c2", none, none, some "state"⟩)) := by
  decide

/-- Over all interleavings, a request can see more comparisons than the limit, and one pairing code can approve two
requests. -/
theorem approval_attempts_exceeded :
    (¬ ∀ (s : ApprovalSystem Bool), Run.Runs (approvalStep oneAttempt) (ApprovalSystem.start 100) s →
      s.compared "r" ≤ oneAttempt.maxApprovalAttempts) ∧
    ¬ ∀ (s : ApprovalSystem (Fin 3)) t u sub sub' location location' codeHash,
      Run.Runs (approvalStep oneAttempt) (ApprovalSystem.start 100) s → s.sessions t = .redirected sub location →
        s.sessions u = .redirected sub' location' → sub.decision = .approve → sub'.decision = .approve →
        sub.pairingCodeHash = some codeHash → sub'.pairingCodeHash = some codeHash → sub.requestId = sub'.requestId := by
  refine ⟨?_, ?_⟩
  · intro bounded
    obtain ⟨s, hs, h⟩ := Option.map_eq_some_iff.mp both_guesses_compared
    have := bounded s (.of_exec _ hs)
    rw [h] at this
    exact absurd this (by decide)
  · intro once
    obtain ⟨s, hs, h⟩ := Option.map_eq_some_iff.mp both_requests_approved
    have ht := ApprovalPhase.decided_eq_some (congrArg Prod.fst h)
    have hu := ApprovalPhase.decided_eq_some (congrArg Prod.snd h)
    have := once s 0 1 _ _ _ _ "p" (.of_exec _ hs) ht hu rfl rfl rfl rfl
    exact absurd this (by decide)

/-- The same guesses one after the other: the second one finds the request locked. -/
def serialGuess : List (ApprovalLabel Bool) :=
  [.authorize "r" demoRequest, .submit false (demoSubmission "r" "guess1" "c1"),
   .submit true (demoSubmission "r" "guess2" "c2"), .fetch false, .check false, .begin false, .load false,
   .compare false, .record false, .reload false, .count false, .commit false, .tick 5, .fetch true, .check true]

theorem serial_guess_compared :
    ((Run.exec (Run.checked (approvalStep oneAttempt) fun s l => decide (SubmitsAlone s l)) (ApprovalSystem.start 100)
      serialGuess).map fun s => s.compared "r") = some 1 := by
  decide

theorem approval_attempts_bounded_serial :
    ∃ s : ApprovalSystem Bool, s.compared "r" = 1 ∧ ∀ r, s.compared r ≤ oneAttempt.maxApprovalAttempts := by
  obtain ⟨s, hs, h⟩ := Option.map_eq_some_iff.mp serial_guess_compared
  have permitted : ∀ (a : ApprovalSystem Bool) l, decide (SubmitsAlone a l) = true → SubmitsAlone a l :=
    fun _ _ => of_decide_eq_true
  exact ⟨s, h, (approval_attempts_bounded (.of_exec permitted _ hs)).1⟩

end Alexandria.OAuth
