import Alexandria.Embedding.Bulk
import Alexandria.Foundations.Mutex
import Alexandria.Foundations.Run
import Mathlib.Data.List.Nodup

/-! # The registry of embedding runtimes

`EmbeddingRuntimeRegistry` and the inference over its sessions, called by any number of threads. The lock of the registry is held
only to look a slot up, which is one step; the lock of a slot is held while the factory runs, the lock of a session while it
infers. A panic under a lock poisons it. The address of a session is its place among the sessions that were ever created.
-/

namespace Alexandria.Embedding
set_option autoImplicit false

def maxEmbeddingThreads : ℕ := 4096

inductive EmbeddingRuntimeErrorCode
  | invalidConfiguration
  | registryUnavailable
  | sessionUnavailable
  | backendInitialization
deriving DecidableEq

structure EmbeddingRuntimeError where
  code : EmbeddingRuntimeErrorCode
  message : String
deriving DecidableEq

def EmbeddingRuntimeError.invalidConfiguration (message : String) : EmbeddingRuntimeError := ⟨.invalidConfiguration, message⟩

def EmbeddingRuntimeError.sessionUnavailable : EmbeddingRuntimeError :=
  ⟨.sessionUnavailable, "native embedding runtime session slot is unavailable"⟩

def EmbeddingRuntimeError.backendInitialization (message : String) : EmbeddingRuntimeError := ⟨.backendInitialization, message⟩

def validateIdentityText (fieldName value : String) : Except EmbeddingRuntimeError Unit :=
  if Text.trim value = "" then .error (.invalidConfiguration (fieldName ++ " must not be blank"))
  else if value.toList.contains '\x00' then .error (.invalidConfiguration (fieldName ++ " must not contain a null byte"))
  else .ok ()

/-- What an identity is made of. -/
structure RuntimeConfiguration where
  runtimeName : String
  modelName : String
  dimensions : ℕ
  cacheDirectory : Option String
  threads : ℕ
deriving DecidableEq

/-- The checks of `EmbeddingRuntimeIdentity::new`, in its order. -/
def RuntimeConfiguration.validate (configuration : RuntimeConfiguration) : Except EmbeddingRuntimeError Unit := do
  validateIdentityText "runtime_name" configuration.runtimeName
  validateIdentityText "model_name" configuration.modelName
  if configuration.dimensions = 0 ∨ maxVectorDimensions < configuration.dimensions then
    .error (.invalidConfiguration ("dimensions must be between 1 and " ++ toString maxVectorDimensions))
  else if configuration.threads = 0 ∨ maxEmbeddingThreads < configuration.threads then
    .error (.invalidConfiguration ("threads must be between 1 and " ++ toString maxEmbeddingThreads))
  else match configuration.cacheDirectory with
    | none => .ok ()
    | some cacheDirectory => validateIdentityText "cache_directory" cacheDirectory

/-- A configuration that passes its checks. -/
structure EmbeddingRuntimeIdentity where
  configuration : RuntimeConfiguration
  valid : configuration.validate = .ok ()

instance : DecidableEq EmbeddingRuntimeIdentity := fun a b =>
  decidable_of_iff (a.configuration = b.configuration) (by cases a; cases b; simp)

def EmbeddingRuntimeIdentity.new (configuration : RuntimeConfiguration) :
    Except EmbeddingRuntimeError EmbeddingRuntimeIdentity :=
  match h : configuration.validate with
  | .ok () => .ok ⟨configuration, h⟩
  | .error error => .error error

/-! ## The calls of the threads -/

/-- A mutex: who holds its guard, and whether a holder has panicked. -/
structure Lock (T : Type) where
  holder : Option T
  poisoned : Bool
deriving DecidableEq

/-- `EmbeddingSessionSlot`. -/
structure Slot (T : Type) where
  lock : Lock T
  session : Option ℕ
deriving DecidableEq

def Slot.new {T : Type} : Slot T := ⟨⟨none, false⟩, none⟩

inductive CallError
  | runtime (error : EmbeddingRuntimeError)
  | modelLockPoisoned
  | inference
  | panicked
deriving DecidableEq

/-- Where a thread is in its call. -/
inductive CallPhase
  | idle
  | locking (identity : EmbeddingRuntimeIdentity)
  | initializing (identity : EmbeddingRuntimeIdentity)
  | lockingModel (identity : EmbeddingRuntimeIdentity) (address : ℕ)
  | inferring (identity : EmbeddingRuntimeIdentity) (address : ℕ)
deriving DecidableEq

/-- What a call has returned: the session that has inferred its vectors, or an error. -/
structure CallReturn (T : Type) where
  thread : T
  identity : EmbeddingRuntimeIdentity
  result : Except CallError ℕ

structure RegistrySystem (T : Type) where
  slots : EmbeddingRuntimeIdentity → Option (Slot T)
  models : ℕ → Lock T
  created : List EmbeddingRuntimeIdentity
  phases : T → CallPhase
  returns : List (CallReturn T)

def RegistrySystem.start (T : Type) : RegistrySystem T := ⟨fun _ => none, fun _ => ⟨none, false⟩, [], fun _ => .idle, []⟩

inductive RegistryLabel (T : Type)
  | call (t : T) (identity : EmbeddingRuntimeIdentity)
  | lock (t : T)
  | initialized (t : T)
  | initializationFailed (t : T) (message : String)
  | lockModel (t : T)
  | inferred (t : T)
  | inferenceFailed (t : T)
  | panics (t : T)

section Machine
variable {T : Type}

/-- `slot`: the slot of the identity, a new one if there is none. -/
def slotOf (s : RegistrySystem T) (identity : EmbeddingRuntimeIdentity) : Slot T := (s.slots identity).getD .new

namespace RegistrySystem

def put (s : RegistrySystem T) (identity : EmbeddingRuntimeIdentity) (slot : Slot T) : RegistrySystem T :=
  { s with slots := Function.update s.slots identity (some slot) }

def setModel (s : RegistrySystem T) (address : ℕ) (lock : Lock T) : RegistrySystem T :=
  { s with models := Function.update s.models address lock }

variable [DecidableEq T]

def goto (s : RegistrySystem T) (t : T) (phase : CallPhase) : RegistrySystem T :=
  { s with phases := Function.update s.phases t phase }

def answer (s : RegistrySystem T) (t : T) (identity : EmbeddingRuntimeIdentity) (result : Except CallError ℕ) :
    RegistrySystem T :=
  { s.goto t .idle with returns := s.returns ++ [⟨t, identity, result⟩] }

end RegistrySystem

def registryStep [DecidableEq T] (s : RegistrySystem T) : RegistryLabel T → Option (RegistrySystem T)
  | .call t identity =>
    match s.phases t with
    | .idle => some ((s.put identity (slotOf s identity)).goto t (.locking identity))
    | _ => none
  | .lock t =>
    match s.phases t with
    | .locking identity =>
      if (slotOf s identity).lock.holder.isSome then none
      else if (slotOf s identity).lock.poisoned then some (s.answer t identity (.error (.runtime .sessionUnavailable)))
      else match (slotOf s identity).session with
        | some address => some (s.goto t (.lockingModel identity address))
        | none => some ((s.put identity ⟨⟨some t, false⟩, none⟩).goto t (.initializing identity))
    | _ => none
  | .initialized t =>
    match s.phases t with
    | .initializing identity =>
      some ({ s.put identity ⟨⟨none, false⟩, some s.created.length⟩ with created := s.created ++ [identity] }.goto t
        (.lockingModel identity s.created.length))
    | _ => none
  | .initializationFailed t message =>
    match s.phases t with
    | .initializing identity =>
      some ((s.put identity .new).answer t identity (.error (.runtime (.backendInitialization message))))
    | _ => none
  | .lockModel t =>
    match s.phases t with
    | .lockingModel identity address =>
      if (s.models address).holder.isSome then none
      else if (s.models address).poisoned then some (s.answer t identity (.error .modelLockPoisoned))
      else some ((s.setModel address ⟨some t, false⟩).goto t (.inferring identity address))
    | _ => none
  | .inferred t =>
    match s.phases t with
    | .inferring identity address => some ((s.setModel address ⟨none, false⟩).answer t identity (.ok address))
    | _ => none
  | .inferenceFailed t =>
    match s.phases t with
    | .inferring identity address => some ((s.setModel address ⟨none, false⟩).answer t identity (.error .inference))
    | _ => none
  | .panics t =>
    match s.phases t with
    | .initializing identity => some ((s.put identity ⟨⟨none, true⟩, none⟩).answer t identity (.error .panicked))
    | .inferring identity address => some ((s.setModel address ⟨none, true⟩).answer t identity (.error .panicked))
    | _ => none

/-! ## What holds of the locks and the sessions -/

/-- The lock that a phase is under: that of the slot of an identity, or that of a session. -/
def CallPhase.guard : CallPhase → Option (EmbeddingRuntimeIdentity ⊕ ℕ)
  | .initializing identity => some (.inl identity)
  | .inferring _ address => some (.inr address)
  | _ => none

/-- The session that a phase has been given. -/
def CallPhase.handle : CallPhase → Option (EmbeddingRuntimeIdentity × ℕ)
  | .lockingModel identity address => some (identity, address)
  | .inferring identity address => some (identity, address)
  | _ => none

def Lock.Engaged (lock : Lock T) : Prop := lock.holder.isSome ∨ lock.poisoned = true

/-- The call was turned away at a poisoned lock. -/
def CallReturn.Refused (r : CallReturn T) : Prop :=
  r.result = .error (.runtime .sessionUnavailable) ∨ r.result = .error .modelLockPoisoned

namespace RegistrySystem

def session (s : RegistrySystem T) (identity : EmbeddingRuntimeIdentity) : Option ℕ := (slotOf s identity).session

def locks (s : RegistrySystem T) : EmbeddingRuntimeIdentity ⊕ ℕ → Lock T :=
  Sum.elim (fun identity => (slotOf s identity).lock) s.models

def holder (s : RegistrySystem T) (l : EmbeddingRuntimeIdentity ⊕ ℕ) : Option T := (s.locks l).holder

def guard (s : RegistrySystem T) (t : T) : Option (EmbeddingRuntimeIdentity ⊕ ℕ) := (s.phases t).guard

/-- The lock is one that the calls for the identity take. -/
def Uses (s : RegistrySystem T) (identity : EmbeddingRuntimeIdentity) : EmbeddingRuntimeIdentity ⊕ ℕ → Prop
  | .inl other => other = identity
  | .inr address => s.created[address]? = some identity

/-- A call for the identity has panicked. -/
def Panicked (s : RegistrySystem T) (identity : EmbeddingRuntimeIdentity) : Prop :=
  ∃ r ∈ s.returns, r.identity = identity ∧ r.result = .error .panicked

/-- A served call has used a session of its identity, a refused one has come after a panic. -/
structure Justified (s : RegistrySystem T) (r : CallReturn T) : Prop where
  served : ∀ address, r.result = .ok address → s.created[address]? = some r.identity
  refused : r.Refused → s.Panicked r.identity

structure Sound (s : RegistrySystem T) : Prop where
  owned : Mutex.Owned s.holder s.guard
  unset : ∀ identity, (s.locks (.inl identity)).Engaged → s.session identity = none
  session : ∀ identity address, s.session identity = some address ↔ s.created[address]? = some identity
  handle : ∀ t entry, (s.phases t).handle = some entry → s.created[entry.2]? = some entry.1
  poison : ∀ l, (s.locks l).poisoned = true → ∃ identity, s.Uses identity l ∧ s.Panicked identity
  justified : ∀ r ∈ s.returns, s.Justified r

variable {s u : RegistrySystem T} {t : T} {identity : EmbeddingRuntimeIdentity} {address : ℕ} {phase : CallPhase}

theorem locks_put (slot : Slot T) : (s.put identity slot).locks = Function.update s.locks (.inl identity) slot.lock := by
  funext l
  cases l with
  | inl other =>
    show ((Function.update s.slots identity (some slot) other).getD .new).lock = _
    rw [Function.update_apply, Function.update_apply]
    by_cases hother : other = identity
    · simp [hother]
    · simp [hother, locks, slotOf]
  | inr address => rfl

theorem session_put (slot : Slot T) : (s.put identity slot).session = Function.update s.session identity slot.session := by
  funext other
  show ((Function.update s.slots identity (some slot) other).getD .new).session = _
  rw [Function.update_apply, Function.update_apply]
  split <;> rfl

theorem locks_setModel (lock : Lock T) : (s.setModel address lock).locks = Function.update s.locks (.inr address) lock := by
  funext l
  cases l with
  | inl other => rfl
  | inr other =>
    show Function.update s.models address lock other = _
    rw [Function.update_apply, Function.update_apply]
    by_cases hother : other = address
    · simp [hother]
    · simp [hother, locks]

theorem Panicked.mono (h : s.Panicked identity) (hreturns : s.returns ⊆ u.returns) : u.Panicked identity := by
  obtain ⟨r, hr, hpanic⟩ := h
  exact ⟨r, hreturns hr, hpanic⟩

theorem created_mono (hcreated : s.created <+: u.created) (h : s.created[address]? = some identity) :
    u.created[address]? = some identity := by
  obtain ⟨hlt, hget⟩ := List.getElem?_eq_some_iff.mp h
  rw [← hget]
  exact List.prefix_iff_getElem?.mp hcreated address hlt

theorem Justified.mono {r : CallReturn T} (h : s.Justified r) (hcreated : s.created <+: u.created)
    (hreturns : s.returns ⊆ u.returns) : u.Justified r where
  served address hserved := created_mono hcreated (h.served address hserved)
  refused hrefused := (h.refused hrefused).mono hreturns

theorem Sound.start : Sound (RegistrySystem.start T) := by
  constructor <;>
    simp [RegistrySystem.start, RegistrySystem.session, slotOf, Slot.new, Mutex.Owned, holder, guard, locks, Lock.Engaged,
      CallPhase.guard, CallPhase.handle]

/-- The factory of an identity runs over its empty slot. -/
theorem Sound.initializing (h : s.Sound) (hphase : s.phases t = .initializing identity) :
    s.guard t = some (.inl identity) ∧ s.session identity = none := by
  have hguard : s.guard t = some (.inl identity) := by
    unfold guard
    rw [hphase]
    rfl
  refine ⟨hguard, h.unset identity (.inl ?_)⟩
  have hholder : s.holder (.inl identity) = some t := (h.owned _ _).mpr hguard
  exact Option.isSome_of_eq_some hholder

theorem Sound.inferring (h : s.Sound) (hphase : s.phases t = .inferring identity address) :
    s.guard t = some (.inr address) ∧ s.created[address]? = some identity := by
  refine ⟨?_, h.handle t (identity, address) ?_⟩
  · unfold guard
    rw [hphase]
    rfl
  · rw [hphase]
    rfl

/-- An answer that is neither a vector nor a refusal needs no reason. -/
theorem justified_of_own {error : CallError} (hown : error ≠ .runtime .sessionUnavailable ∧ error ≠ .modelLockPoisoned) :
    s.Justified ⟨t, identity, .error error⟩ where
  served address hserved := by cases hserved
  refused hrefused := by
    obtain hrefused | hrefused := hrefused
    · exact absurd (Except.error.inj hrefused) hown.1
    · exact absurd (Except.error.inj hrefused) hown.2

/-- A thread that finds a lock poisoned is turned away. -/
theorem Sound.turnedAway (h : s.Sound) {l : EmbeddingRuntimeIdentity ⊕ ℕ} {error : CallError}
    (hpoisoned : (s.locks l).poisoned = true) (huses : ∀ other, s.Uses other l → other = identity) :
    s.Justified ⟨t, identity, .error error⟩ where
  served address hserved := by cases hserved
  refused _ := by
    obtain ⟨other, hother, hpanicked⟩ := h.poison l hpoisoned
    rw [huses other hother] at hpanicked
    exact hpanicked

section Steps
variable [DecidableEq T]

/-- One lock and one phase change. -/
theorem Sound.next (h : s.Sound) {l : EmbeddingRuntimeIdentity ⊕ ℕ} {lock : Lock T}
    (hlocks : u.locks = Function.update s.locks l lock) (hphases : u.phases = Function.update s.phases t phase)
    (howned : Mutex.Owned (Function.update s.holder l lock.holder) (Function.update s.guard t phase.guard))
    (hcreated : s.created <+: u.created) (hreturns : s.returns ⊆ u.returns)
    (hunset : ∀ identity, (u.locks (.inl identity)).Engaged → u.session identity = none)
    (hsession : ∀ identity address, u.session identity = some address ↔ u.created[address]? = some identity)
    (hhandle : ∀ entry, phase.handle = some entry → u.created[entry.2]? = some entry.1)
    (hpoison : lock.poisoned = true → ∃ identity, u.Uses identity l ∧ u.Panicked identity)
    (hanswer : ∀ r ∈ u.returns, r ∈ s.returns ∨ u.Justified r) : u.Sound where
  owned := by
    have hholder : u.holder = Function.update s.holder l lock.holder := by
      funext k
      show (u.locks k).holder = _
      rw [hlocks, Function.update_apply, Function.update_apply]
      split <;> rfl
    have hguard : u.guard = Function.update s.guard t phase.guard := by
      funext v
      show (u.phases v).guard = _
      rw [hphases, Function.update_apply, Function.update_apply]
      split <;> rfl
    rw [hholder, hguard]
    exact howned
  unset := hunset
  session := hsession
  handle v entry hentry := by
    rw [hphases] at hentry
    obtain ⟨-, hentry⟩ | ⟨-, hentry⟩ := Run.of_update (fun p : CallPhase => p.handle = some entry) hentry
    · exact hhandle entry hentry
    · exact created_mono hcreated (h.handle v entry hentry)
  poison k hk := by
    rw [hlocks, Function.update_apply] at hk
    split at hk
    · rename_i hkl
      rw [hkl]
      exact hpoison hk
    · obtain ⟨identity, huses, hpanicked⟩ := h.poison k hk
      refine ⟨identity, ?_, hpanicked.mono hreturns⟩
      cases k with
      | inl other => exact huses
      | inr address => exact created_mono hcreated huses
  justified r hr := by
    obtain hr | hr := hanswer r hr
    · exact (h.justified r hr).mono hcreated hreturns
    · exact hr

/-- A thread under no lock goes on to a phase under none, and may have its call answered. -/
theorem Sound.unlocked (h : s.Sound) (hlocks : u.locks = s.locks) (hsession : u.session = s.session)
    (hcreated : u.created = s.created) (hphases : u.phases = Function.update s.phases t phase)
    (hold : (s.phases t).guard = none) (hnew : phase.guard = none) (hreturns : s.returns ⊆ u.returns)
    (hhandle : ∀ entry, phase.handle = some entry → s.created[entry.2]? = some entry.1)
    (hanswer : ∀ r ∈ u.returns, r ∈ s.returns ∨ u.Justified r) : u.Sound where
  owned := by
    have hguard : u.guard = s.guard := by
      funext v
      show (u.phases v).guard = (s.phases v).guard
      rw [hphases, Function.update_apply]
      split
      · rename_i hv
        rw [hv, hnew, hold]
      · rfl
    have hholder : u.holder = s.holder := by
      funext k
      exact congrArg Lock.holder (congrFun hlocks k)
    rw [hguard, hholder]
    exact h.owned
  unset := by
    rw [hlocks, hsession]
    exact h.unset
  session := by
    rw [hsession, hcreated]
    exact h.session
  handle v entry hentry := by
    rw [hphases] at hentry
    rw [hcreated]
    obtain ⟨-, hentry⟩ | ⟨-, hentry⟩ := Run.of_update (fun p : CallPhase => p.handle = some entry) hentry
    · exact hhandle entry hentry
    · exact h.handle v entry hentry
  poison k hk := by
    rw [hlocks] at hk
    obtain ⟨identity, huses, hpanicked⟩ := h.poison k hk
    refine ⟨identity, ?_, hpanicked.mono hreturns⟩
    cases k with
    | inl other => exact huses
    | inr address =>
      show u.created[address]? = some identity
      rw [hcreated]
      exact huses
  justified r hr := by
    obtain hr | hr := hanswer r hr
    · exact (h.justified r hr).mono (hcreated ▸ List.prefix_rfl) hreturns
    · exact hr

/-- A call returns without a lock. -/
theorem Sound.answered (h : s.Sound) {result : Except CallError ℕ} (hold : (s.phases t).guard = none)
    (hanswer : s.Justified ⟨t, identity, result⟩) : (s.answer t identity result).Sound := by
  have hreturns : s.returns ⊆ (s.answer t identity result).returns := fun r hr => List.mem_append_left _ hr
  refine h.unlocked rfl rfl rfl rfl hold rfl hreturns (fun entry hentry => by cases hentry) fun r hr => ?_
  obtain hr | hr := List.mem_append.mp hr
  · exact .inl hr
  · obtain rfl := List.mem_singleton.mp hr
    exact .inr (hanswer.mono List.prefix_rfl hreturns)

/-- The slot of the identity is looked up, or made. -/
theorem Sound.called (h : s.Sound) (hold : s.phases t = .idle) :
    ((s.put identity (slotOf s identity)).goto t (.locking identity)).Sound := by
  have hlocks : (s.put identity (slotOf s identity)).locks = s.locks := by
    rw [locks_put]
    exact Function.update_eq_self (.inl identity) s.locks
  have hsession : (s.put identity (slotOf s identity)).session = s.session := by
    rw [session_put]
    exact Function.update_eq_self identity s.session
  exact h.unlocked hlocks hsession rfl rfl (by rw [hold]; rfl) rfl (List.Subset.refl _) (fun entry hentry => by cases hentry)
    fun r hr => .inl hr

/-- The slot of an identity without a session changes: it is taken, or given up without a session. -/
theorem Sound.emptySlot (h : s.Sound) {lock : Lock T} (hempty : s.session identity = none)
    (hlocks : u.locks = Function.update s.locks (.inl identity) lock)
    (hslot : u.session = Function.update s.session identity none) (hcreated : u.created = s.created)
    (hphases : u.phases = Function.update s.phases t phase)
    (howned : Mutex.Owned (Function.update s.holder (.inl identity) lock.holder) (Function.update s.guard t phase.guard))
    (hreturns : s.returns ⊆ u.returns) (hhandle : phase.handle = none)
    (hpoison : lock.poisoned = true → u.Panicked identity)
    (hanswer : ∀ r ∈ u.returns, r ∈ s.returns ∨ u.Justified r) : u.Sound := by
  have hsame : u.session = s.session := by
    rw [hslot, ← hempty]
    exact Function.update_eq_self identity s.session
  refine h.next hlocks hphases howned (hcreated ▸ List.prefix_rfl) hreturns ?_ ?_ ?_ ?_ hanswer
  · intro other hother
    rw [hsame]
    by_cases heq : other = identity
    · rw [heq, hempty]
    · rw [hlocks, Function.update_of_ne (by simpa using heq)] at hother
      exact h.unset other hother
  · rw [hsame, hcreated]
    exact h.session
  · intro entry hentry
    rw [hhandle] at hentry
    cases hentry
  · exact fun hpoisoned => ⟨identity, rfl, hpoison hpoisoned⟩

theorem Sound.taken (h : s.Sound) (hold : (s.phases t).guard = none) (hfree : (slotOf s identity).lock.holder = none)
    (hempty : (slotOf s identity).session = none) :
    ((s.put identity ⟨⟨some t, false⟩, none⟩).goto t (.initializing identity)).Sound := by
  have hholder : s.holder (.inl identity) = none := hfree
  have howned := h.owned.acquire hholder hold
  exact h.emptySlot hempty (locks_put _) (session_put _) rfl rfl howned (List.Subset.refl _) rfl
    (fun hpoisoned => by cases hpoisoned) fun r hr => .inl hr

/-- The factory has failed or panicked. -/
theorem Sound.abandoned (h : s.Sound) {poisoned : Bool} {error : CallError} (hphase : s.phases t = .initializing identity)
    (hpanic : poisoned = true → error = .panicked)
    (hown : error ≠ .runtime .sessionUnavailable ∧ error ≠ .modelLockPoisoned) :
    ((s.put identity ⟨⟨none, poisoned⟩, none⟩).answer t identity (.error error)).Sound := by
  obtain ⟨hguard, hempty⟩ := h.initializing hphase
  refine h.emptySlot hempty (locks_put _) (session_put _) rfl rfl (h.owned.release hguard)
    (fun r hr => List.mem_append_left _ hr) rfl ?_ fun r hr => ?_
  · intro hpoisoned
    exact ⟨_, List.mem_append_right _ List.mem_cons_self, rfl, congrArg Except.error (hpanic hpoisoned)⟩
  · obtain hr | hr := List.mem_append.mp hr
    · exact .inl hr
    · obtain rfl := List.mem_singleton.mp hr
      exact .inr (justified_of_own hown)

/-- The factory has made a session: the next address. -/
theorem Sound.initialized (h : s.Sound) (hphase : s.phases t = .initializing identity) :
    ({ s.put identity ⟨⟨none, false⟩, some s.created.length⟩ with created := s.created ++ [identity] }.goto t
      (.lockingModel identity s.created.length)).Sound := by
  obtain ⟨hguard, hempty⟩ := h.initializing hphase
  have hnext : (s.created ++ [identity])[s.created.length]? = some identity := List.getElem?_concat_length
  refine h.next (l := .inl identity) (locks_put _) rfl (h.owned.release hguard) (List.prefix_append _ _)
    (List.Subset.refl _) ?_ ?_ ?_ (fun hpoisoned => by cases hpoisoned) fun r hr => .inl hr
  · intro other hother
    have hother : ((s.put identity ⟨⟨none, false⟩, some s.created.length⟩).locks (.inl other)).Engaged := hother
    show (s.put identity _).session other = none
    rw [locks_put, Function.update_apply] at hother
    rw [session_put, Function.update_apply]
    by_cases heq : other = identity
    · subst heq
      simp [Lock.Engaged] at hother
    · rw [if_neg (by simpa using heq)] at hother
      rw [if_neg heq]
      exact h.unset other hother
  · intro other address
    show (s.put identity _).session other = some address ↔ (s.created ++ [identity])[address]? = some other
    rw [session_put, Function.update_apply, List.getElem?_append]
    by_cases heq : other = identity
    · subst heq
      have hnone : s.created[address]? ≠ some other := by
        rw [Ne, ← h.session, hempty]
        simp
      rw [if_pos rfl]
      split
      · simp only [hnone, iff_false, Option.some.injEq]
        omega
      · rw [List.getElem?_singleton]
        split <;> simp <;> omega
    · rw [if_neg heq, h.session]
      split
      · rfl
      · rename_i hge
        rw [List.getElem?_singleton, List.getElem?_eq_none (by omega)]
        split <;> simp [Ne.symm heq]
  · intro entry hentry
    obtain rfl := Option.some.inj hentry
    exact hnext

/-- The lock of a session is taken or given up. -/
theorem Sound.model (h : s.Sound) (address : ℕ) (lock : Lock T)
    (hlocks : u.locks = Function.update s.locks (.inr address) lock) (hslot : u.session = s.session)
    (hcreated : u.created = s.created) (hphases : u.phases = Function.update s.phases t phase)
    (howned : Mutex.Owned (Function.update s.holder (.inr address) lock.holder) (Function.update s.guard t phase.guard))
    (hreturns : s.returns ⊆ u.returns)
    (hhandle : ∀ entry, phase.handle = some entry → s.created[entry.2]? = some entry.1)
    (hpoison : lock.poisoned = true → ∃ identity, s.created[address]? = some identity ∧ u.Panicked identity)
    (hanswer : ∀ r ∈ u.returns, r ∈ s.returns ∨ s.Justified r) : u.Sound := by
  refine h.next hlocks hphases howned (hcreated ▸ List.prefix_rfl) hreturns ?_ ?_ ?_ ?_ ?_
  · intro other hother
    rw [hlocks, Function.update_of_ne (by simp)] at hother
    rw [hslot]
    exact h.unset other hother
  · rw [hslot, hcreated]
    exact h.session
  · rw [hcreated]
    exact hhandle
  · intro hpoisoned
    obtain ⟨identity, huses, hpanicked⟩ := hpoison hpoisoned
    refine ⟨identity, ?_, hpanicked⟩
    show u.created[address]? = some identity
    rw [hcreated]
    exact huses
  · intro r hr
    obtain hr | hr := hanswer r hr
    · exact .inl hr
    · exact .inr (hr.mono (hcreated ▸ List.prefix_rfl) hreturns)

theorem Sound.inferenceStarted (h : s.Sound) (hphase : s.phases t = .lockingModel identity address)
    (hfree : (s.models address).holder = none) :
    ((s.setModel address ⟨some t, false⟩).goto t (.inferring identity address)).Sound := by
  have hold : s.guard t = none := by
    unfold guard
    rw [hphase]
    rfl
  have hholder : s.holder (.inr address) = none := hfree
  have howned := h.owned.acquire hholder hold
  refine h.model address ⟨some t, false⟩ (locks_setModel (s := s) _) rfl rfl rfl howned (List.Subset.refl _) ?_
    (fun hpoisoned => by cases hpoisoned) fun r hr => .inl hr
  intro entry hentry
  exact h.handle t entry (by rw [hphase]; exact hentry)

/-- The inference has returned or panicked. -/
theorem Sound.inferenceEnded (h : s.Sound) {poisoned : Bool} {result : Except CallError ℕ}
    (hphase : s.phases t = .inferring identity address) (hpanic : poisoned = true → result = .error .panicked)
    (hanswer : s.Justified ⟨t, identity, result⟩) :
    ((s.setModel address ⟨none, poisoned⟩).answer t identity result).Sound := by
  obtain ⟨hguard, hcreated⟩ := h.inferring hphase
  refine h.model address ⟨none, poisoned⟩ (locks_setModel (s := s) _) rfl rfl rfl (h.owned.release hguard)
    (fun r hr => List.mem_append_left _ hr) (fun entry hentry => by cases hentry) ?_ fun r hr => ?_
  · intro hpoisoned
    exact ⟨identity, hcreated, _, List.mem_append_right _ List.mem_cons_self, rfl, hpanic hpoisoned⟩
  · obtain hr | hr := List.mem_append.mp hr
    · exact .inl hr
    · obtain rfl := List.mem_singleton.mp hr
      exact .inr hanswer

theorem Sound.step {label : RegistryLabel T} (h : s.Sound) (hstep : registryStep s label = some u) : u.Sound := by
  cases label with
  | call t identity =>
    simp only [registryStep] at hstep
    split at hstep
    · rename_i hphase
      cases hstep
      exact h.called hphase
    · cases hstep
  | lock t =>
    simp only [registryStep] at hstep
    split at hstep
    · rename_i identity hphase
      have hold : (s.phases t).guard = none := by rw [hphase]; rfl
      split at hstep
      · cases hstep
      rename_i hfree
      have hfree : (slotOf s identity).lock.holder = none := Option.not_isSome_iff_eq_none.mp hfree
      split at hstep
      · rename_i hpoisoned
        cases hstep
        exact h.answered hold (h.turnedAway (l := .inl identity) hpoisoned fun other hother => hother.symm)
      split at hstep
      · rename_i address hsession
        cases hstep
        refine h.unlocked rfl rfl rfl rfl hold rfl (List.Subset.refl _) (fun entry hentry => ?_) fun r hr => .inl hr
        obtain rfl := Option.some.inj hentry
        exact (h.session identity address).mp hsession
      · rename_i hsession
        cases hstep
        exact h.taken hold hfree hsession
    · cases hstep
  | initialized t =>
    simp only [registryStep] at hstep
    split at hstep
    · rename_i identity hphase
      cases hstep
      exact h.initialized hphase
    · cases hstep
  | initializationFailed t message =>
    simp only [registryStep] at hstep
    split at hstep
    · rename_i identity hphase
      cases hstep
      exact h.abandoned hphase (fun hpoisoned => by cases hpoisoned) (by simp [EmbeddingRuntimeError.backendInitialization,
        EmbeddingRuntimeError.sessionUnavailable])
    · cases hstep
  | lockModel t =>
    simp only [registryStep] at hstep
    split at hstep
    · rename_i identity address hphase
      have hold : (s.phases t).guard = none := by rw [hphase]; rfl
      have hcreated : s.created[address]? = some identity := h.handle t (identity, address) (by rw [hphase]; rfl)
      split at hstep
      · cases hstep
      rename_i hfree
      split at hstep
      · rename_i hpoisoned
        cases hstep
        refine h.answered hold (h.turnedAway (l := .inr address) hpoisoned fun other hother => ?_)
        have hother : s.created[address]? = some other := hother
        rw [hcreated] at hother
        exact (Option.some.inj hother).symm
      · cases hstep
        exact h.inferenceStarted hphase (Option.not_isSome_iff_eq_none.mp hfree)
    · cases hstep
  | inferred t =>
    simp only [registryStep] at hstep
    split at hstep
    · rename_i identity address hphase
      cases hstep
      refine h.inferenceEnded hphase (fun hpoisoned => by cases hpoisoned) ⟨fun other hserved => ?_, fun hrefused => ?_⟩
      · cases hserved
        exact (h.inferring hphase).2
      · obtain hrefused | hrefused := hrefused <;> cases hrefused
    · cases hstep
  | inferenceFailed t =>
    simp only [registryStep] at hstep
    split at hstep
    · cases hstep
      rename_i identity address hphase
      exact h.inferenceEnded hphase (fun hpoisoned => by cases hpoisoned) (justified_of_own (by simp))
    · cases hstep
  | panics t =>
    simp only [registryStep] at hstep
    split at hstep
    · rename_i identity hphase
      cases hstep
      exact h.abandoned hphase (fun _ => rfl) (by simp)
    · rename_i identity address hphase
      cases hstep
      exact h.inferenceEnded hphase (fun _ => rfl) (justified_of_own (by simp))
    · cases hstep

end Steps

/-! ## What the callers see -/

end RegistrySystem

/-- The lock that a phase waits for. -/
def CallPhase.awaits : CallPhase → Option (EmbeddingRuntimeIdentity ⊕ ℕ)
  | .locking identity => some (.inl identity)
  | .lockingModel _ address => some (.inr address)
  | _ => none

def RegistryLabel.thread : RegistryLabel T → T
  | .call t _ | .lock t | .initialized t | .initializationFailed t _ | .lockModel t | .inferred t | .inferenceFailed t
  | .panics t => t

namespace RegistrySystem

variable [DecidableEq T] {s : RegistrySystem T} {t : T}

def Enabled (s : RegistrySystem T) (t : T) : Prop := ∃ label u, label.thread = t ∧ registryStep s label = some u

/-- One factory of an identity runs at a time, one session of it is ever created, all calls share it, one at a time. -/
structure Shared (s : RegistrySystem T) : Prop where
  oneFactory : ∀ t v identity, s.phases t = .initializing identity → s.phases v = .initializing identity → t = v
  oneSession : s.created.Nodup
  retried : ∀ t identity, s.phases t = .initializing identity → identity ∉ s.created
  oneInference : ∀ t v identity other address,
    s.phases t = .inferring identity address → s.phases v = .inferring other address → t = v
  served : ∀ r ∈ s.returns, ∀ r' ∈ s.returns, ∀ address address', r.result = .ok address → r'.result = .ok address' →
    (address = address' ↔ r.identity = r'.identity)
  refused : ∀ r ∈ s.returns, r.Refused → s.Panicked r.identity
  live : ∀ t, s.phases t ≠ .idle →
    s.Enabled t ∨ ∃ v l, (s.phases t).awaits = some l ∧ s.guard v = some l ∧ s.Enabled v

/-- A thread under a lock can go on. -/
theorem enabled_of_guard {v : T} {l : EmbeddingRuntimeIdentity ⊕ ℕ} (h : s.guard v = some l) : s.Enabled v := by
  unfold guard at h
  cases hphase : s.phases v with
  | initializing identity => exact ⟨.initialized v, _, rfl, by simp only [registryStep, hphase]; rfl⟩
  | inferring identity address => exact ⟨.inferred v, _, rfl, by simp only [registryStep, hphase]; rfl⟩
  | idle | locking _ | lockingModel _ _ =>
    rw [hphase] at h
    cases h

/-- A thread that waits for a free lock can go on, or one under the lock can. -/
theorem Sound.live (h : s.Sound) (hphase : s.phases t ≠ .idle) :
    s.Enabled t ∨ ∃ v l, (s.phases t).awaits = some l ∧ s.guard v = some l ∧ s.Enabled v := by
  have hbusy : ∀ l, (s.phases t).awaits = some l → (s.holder l).isSome = true →
      ∃ v l, (s.phases t).awaits = some l ∧ s.guard v = some l ∧ s.Enabled v := by
    intro l hawaits hl
    obtain ⟨v, hv⟩ := h.owned.busy_iff.mp hl
    exact ⟨v, l, hawaits, hv, enabled_of_guard hv⟩
  cases hp : s.phases t with
  | idle => exact absurd hp hphase
  | locking identity =>
    rw [hp] at hbusy
    by_cases hl : (slotOf s identity).lock.holder.isSome = true
    · exact .inr (hbusy (.inl identity) rfl hl)
    · refine .inl ⟨.lock t, ?_⟩
      simp only [registryStep, hp, if_neg hl]
      split
      · exact ⟨_, rfl, rfl⟩
      · split <;> exact ⟨_, rfl, rfl⟩
  | initializing identity => exact .inl (enabled_of_guard (l := .inl identity) (by unfold guard; rw [hp]; rfl))
  | lockingModel identity address =>
    rw [hp] at hbusy
    by_cases hl : (s.models address).holder.isSome = true
    · exact .inr (hbusy (.inr address) rfl hl)
    · refine .inl ⟨.lockModel t, ?_⟩
      simp only [registryStep, hp, if_neg hl]
      split <;> exact ⟨_, rfl, rfl⟩
  | inferring identity address => exact .inl (enabled_of_guard (l := .inr address) (by unfold guard; rw [hp]; rfl))

theorem Sound.shared (h : s.Sound) : s.Shared where
  oneFactory t v identity ht hv := h.owned.exclusive (h.initializing ht).1 (h.initializing hv).1
  oneSession := by
    rw [List.nodup_iff_getElem?_ne_getElem?]
    intro i j hij hj heq
    have hlast : s.created[j]? = some s.created[j] := List.getElem?_eq_getElem hj
    have hsession := (h.session _ j).mpr hlast
    rw [(h.session _ i).mpr (heq.trans hlast)] at hsession
    have hsame := Option.some.inj hsession
    omega
  retried t identity ht hmem := by
    obtain ⟨address, haddress⟩ := List.getElem?_of_mem hmem
    have hsession := (h.session identity address).mpr haddress
    rw [(h.initializing ht).2] at hsession
    cases hsession
  oneInference t v identity other address ht hv := h.owned.exclusive (h.inferring ht).1 (h.inferring hv).1
  served r hr r' hr' address address' hserved hserved' := by
    have hr := (h.justified r hr).served address hserved
    have hr' := (h.justified r' hr').served address' hserved'
    constructor
    · rintro rfl
      exact Option.some.inj (hr.symm.trans hr')
    · intro hsame
      rw [← h.session] at hr hr'
      rw [hsame] at hr
      exact Option.some.inj (hr.symm.trans hr')
  refused r hr := (h.justified r hr).refused
  live t := h.live

def sampleIdentity : EmbeddingRuntimeIdentity := ⟨⟨"fastembed", "model", 384, none, 4⟩, by decide⟩

/-- In every interleaving of any number of calls, with factories that fail and threads that panic, the sessions are shared. -/
theorem runtimes_shared {s : RegistrySystem T} (h : Run.Runs registryStep (.start T) s) : s.Shared := by
  have hsound : s.Sound := h.invariant Sound.start fun _ _ _ hs _ hstep => hs.step hstep
  exact hsound.shared

def twoCalls : List (RegistryLabel Bool) :=
  [.call true sampleIdentity, .call false sampleIdentity, .lock true, .initialized true, .lock false, .lockModel true,
    .inferred true, .lockModel false, .inferred false]

/-- Two threads ask for one model: the second waits for the factory of the first, and both infer over its session. -/
theorem runtimes_shared_by_two : ∃ s : RegistrySystem Bool, Run.Runs registryStep (.start Bool) s ∧
    s.returns.map (fun r => r.result.toOption) = [some 0, some 0] ∧ s.Shared :=
  ⟨_, Run.Runs.of_exec twoCalls rfl, rfl, runtimes_shared (Run.Runs.of_exec twoCalls rfl)⟩

end RegistrySystem

end Machine

end Alexandria.Embedding
