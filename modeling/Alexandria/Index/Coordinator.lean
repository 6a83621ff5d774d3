import Alexandria.Foundations.Run
import Mathlib.Data.Int.Notation
import Mathlib.Data.List.AList

/-! # The index maintenance coordinator

`IndexMaintenanceCoordinator` with the tasks that enter and leave its leases. No task suspends while it holds the
lock of the condition, so the code between two suspensions is one step: entering, resuming after `wait()`, and
leaving. The process lock is the environment's; a task awaits it after its local lease and releases it before.
`taskLeases` lists the newest lease first.
-/

namespace Alexandria.Index
set_option autoImplicit false

inductive IndexLeaseMode
  | exclusive
  | shared
deriving DecidableEq

structure TaskLease where
  mode : IndexLeaseMode
  name : String
  depth : ℕ
deriving DecidableEq

/-- `waiters` is the queue of the condition, each with whether its future is done. -/
structure Coordinator (T : Type) where
  taskLeases : AList fun _ : T => TaskLease
  exclusiveOwner : Option T
  activeSharedCount : ℤ
  waitingExclusiveCount : ℤ
  activeOperation : Option String
  waiters : List (T × Bool)

inductive LeaseError
  | indexMaintenanceConflictError (message : String)
  | runtimeError (message : String)
  | interrupted
deriving DecidableEq

/-- One `_lease` between the return of `_acquire_local` and `_release_local`, in its effective mode. -/
structure OpenLease where
  name : String
  mode : IndexLeaseMode
  outermost : Bool
deriving DecidableEq

/-- What a suspended task awaits. -/
inductive Await
  | sharedTurn (name : String) (wait : Bool)
  | exclusiveTurn (name : String) (wait : Bool)
  | processLock (name : String) (wait shared : Bool)
  | processUnlock
deriving DecidableEq

/-- `leases` are the open leases, innermost first; `raised` is what the last call of the task has raised. -/
structure TaskState where
  leases : List OpenLease
  awaiting : Option Await
  interrupted : Bool
  raised : Option LeaseError
deriving DecidableEq

structure IndexSystem (T : Type) where
  coordinator : Coordinator T
  tasks : T → TaskState

structure CoordinatorConfig where
  processLock : Bool
  allowConcurrentWrites : Bool

inductive IndexLabel (T : Type)
  | enter (t : T) (name : String) (wait : Bool) (requestedMode : IndexLeaseMode)
  | interrupt (t : T)
  | resume (t : T)
  | lockTaken (t : T)
  | lockFailed (t : T) (blocking : Bool)
  | leave (t : T)
  | lockReleased (t : T)

def IndexLabel.task {T : Type} : IndexLabel T → T
  | .enter t _ _ _ => t
  | .interrupt t => t
  | .resume t => t
  | .lockTaken t => t
  | .lockFailed t _ => t
  | .leave t => t
  | .lockReleased t => t

/-- `operation` enters an exclusive lease. -/
def IndexLabel.operation {T : Type} (t : T) (name : String) (wait : Bool) : IndexLabel T :=
  .enter t name wait .exclusive

def IndexLabel.writeOperation {T : Type} (cfg : CoordinatorConfig) (t : T) (name : String) : IndexLabel T :=
  .enter t name true (if cfg.allowConcurrentWrites then .shared else .exclusive)

/-! ## The condition -/

/-- `notify(n)`: the first `n` futures that are not done. -/
def notify {T : Type} : ℕ → List (T × Bool) → List (T × Bool)
  | 0, waiters => waiters
  | _ + 1, [] => []
  | n + 1, (t, true) :: waiters => (t, true) :: notify (n + 1) waiters
  | n + 1, (t, false) :: waiters => (t, true) :: notify n waiters

namespace Coordinator
variable {T : Type}

def notifyAll (c : Coordinator T) : Coordinator T := { c with waiters := notify c.waiters.length c.waiters }

/-- `wait()` up to its suspension. -/
def join (c : Coordinator T) (t : T) : Coordinator T := { c with waiters := c.waiters ++ [(t, false)] }

/-! ## Acquiring and releasing -/

/-- The property `active_operation`: the exclusive or the oldest operation. -/
def currentOperation (c : Coordinator T) : Option String :=
  match c.activeOperation with
  | some name => some name
  | none => c.taskLeases.entries.getLast?.map fun lease => lease.2.name

def exclusiveAvailable (c : Coordinator T) : Bool := c.exclusiveOwner.isNone && c.activeSharedCount == 0

/-- The loop condition of `_acquire_shared`. -/
def sharedBlocked (c : Coordinator T) : Bool := c.exclusiveOwner.isSome || decide (0 < c.waitingExclusiveCount)

/-- The error of an exclusive request that does not wait; an empty name counts as none. -/
def conflict (c : Coordinator T) (name : String) : LeaseError :=
  let active := match c.currentOperation with
    | some active => if active = "" then "concurrent index writes" else active
    | none => "concurrent index writes"
  .indexMaintenanceConflictError
    ("index maintenance '" ++ name ++ "' cannot start while '" ++ active ++ "' is active")

variable [DecidableEq T]

def takeShared (c : Coordinator T) (t : T) (name : String) : Coordinator T :=
  { c with taskLeases := c.taskLeases.insert t ⟨.shared, name, 1⟩, activeSharedCount := c.activeSharedCount + 1 }

def takeExclusive (c : Coordinator T) (t : T) (name : String) : Coordinator T :=
  { c with
    taskLeases := c.taskLeases.insert t ⟨.exclusive, name, 1⟩, exclusiveOwner := some t, activeOperation := some name }

def setDepth (c : Coordinator T) (t : T) (lease : TaskLease) (depth : ℕ) : Coordinator T :=
  { c with taskLeases := c.taskLeases.replace t { lease with depth := depth } }

def releaseLocal (c : Coordinator T) (t : T) : Except LeaseError (Coordinator T) :=
  match c.taskLeases.lookup t with
  | none => .error (.runtimeError "index lease release without matching acquisition")
  | some lease =>
    if 0 < lease.depth - 1 then .ok (c.setDepth t lease (lease.depth - 1))
    else
      match lease.mode with
      | .exclusive =>
        .ok { c with
          taskLeases := c.taskLeases.erase t, exclusiveOwner := none, activeOperation := none : Coordinator T }.notifyAll
      | .shared =>
        .ok { c with
          taskLeases := c.taskLeases.erase t, activeSharedCount := c.activeSharedCount - 1 : Coordinator T }.notifyAll

/-- The resumed task takes its future out of the queue. -/
def withdraw (c : Coordinator T) (t : T) : Coordinator T :=
  { c with waiters := c.waiters.filter fun waiter => waiter.1 ≠ t }

/-- An interrupted `wait()` passes a notification on. -/
def notifyOne (c : Coordinator T) : Coordinator T := { c with waiters := notify 1 c.waiters }

/-- The future of the task is done. -/
def signal (c : Coordinator T) (t : T) : Coordinator T :=
  { c with waiters := c.waiters.map fun waiter => if waiter.1 = t then (t, true) else waiter }

end Coordinator

/-! ## Steps -/

section Steps
variable {T : Type} [DecidableEq T]

def IndexSystem.setTask (s : IndexSystem T) (t : T) (task : TaskState) : IndexSystem T :=
  { s with tasks := Function.update s.tasks t task }

/-- The call raises; the open leases of the task stay. -/
def IndexSystem.raise (s : IndexSystem T) (t : T) (e : LeaseError) : IndexSystem T :=
  s.setTask t { (s.tasks t) with awaiting := none, interrupted := false, raised := some e }

/-- The task suspends in `wait()`. -/
def IndexSystem.suspend (s : IndexSystem T) (t : T) (c : Coordinator T) (turn : Await) : IndexSystem T :=
  { s.setTask t { (s.tasks t) with awaiting := some turn, interrupted := false, raised := none } with
    coordinator := c.join t }

/-- `_acquire_local` returned an outermost lease: the process lock is next, if there is one. -/
def IndexSystem.acquired (cfg : CoordinatorConfig) (s : IndexSystem T) (t : T) (c : Coordinator T) (name : String)
    (wait : Bool) (mode : IndexLeaseMode) : IndexSystem T :=
  { s.setTask t
      { leases := ⟨name, mode, true⟩ :: (s.tasks t).leases
        awaiting := if cfg.processLock then some (.processLock name wait (mode == .shared)) else none
        interrupted := false
        raised := none } with
    coordinator := c }

/-- `_release_local` of the innermost lease; the call ends with `raised`. -/
def IndexSystem.release (s : IndexSystem T) (t : T) (raised : Option LeaseError) : IndexSystem T :=
  match s.coordinator.releaseLocal t with
  | .ok c =>
    { s.setTask t ⟨(s.tasks t).leases.tail, none, false, raised⟩ with coordinator := c }
  | .error e => s.setTask t ⟨(s.tasks t).leases.tail, none, false, some e⟩

def acquireLocal (cfg : CoordinatorConfig) (s : IndexSystem T) (t : T) (name : String) (wait : Bool)
    (requestedMode : IndexLeaseMode) : IndexSystem T :=
  match s.coordinator.taskLeases.lookup t with
  | some existing =>
    if existing.mode = .shared ∧ requestedMode = .exclusive then
      s.raise t (.runtimeError
        "index lease cannot upgrade from shared to exclusive; enter the outer operation as exclusive")
    else
      { s.setTask t ⟨⟨name, existing.mode, false⟩ :: (s.tasks t).leases, none, false, none⟩ with
        coordinator := s.coordinator.setDepth t existing (existing.depth + 1) }
  | none =>
    match requestedMode with
    | .shared =>
      if s.coordinator.sharedBlocked then s.suspend t s.coordinator (.sharedTurn name wait)
      else s.acquired cfg t (s.coordinator.takeShared t name) name wait .shared
    | .exclusive =>
      if s.coordinator.exclusiveAvailable then
        s.acquired cfg t (s.coordinator.takeExclusive t name) name wait .exclusive
      else if wait then
        s.suspend t { s.coordinator with waitingExclusiveCount := s.coordinator.waitingExclusiveCount + 1 }
          (.exclusiveTurn name wait)
      else s.raise t (s.coordinator.conflict name)

/-- The task resumes in the loop of `_acquire_shared`. -/
def resumeShared (cfg : CoordinatorConfig) (s : IndexSystem T) (t : T) (name : String) (wait : Bool) : IndexSystem T :=
  let c := s.coordinator.withdraw t
  if (s.tasks t).interrupted then { s.raise t .interrupted with coordinator := c.notifyOne }
  else if c.sharedBlocked then s.suspend t c (.sharedTurn name wait)
  else s.acquired cfg t (c.takeShared t name) name wait .shared

/-- The task resumes in the loop of `_acquire_exclusive`; it stops waiting on every way out of the loop. -/
def resumeExclusive (cfg : CoordinatorConfig) (s : IndexSystem T) (t : T) (name : String) (wait : Bool) :
    IndexSystem T :=
  let c := s.coordinator.withdraw t
  let settled := { c with waitingExclusiveCount := c.waitingExclusiveCount - 1 }
  if (s.tasks t).interrupted then { s.raise t .interrupted with coordinator := settled.notifyOne }
  else if c.exclusiveAvailable then s.acquired cfg t (settled.takeExclusive t name) name wait .exclusive
  else s.suspend t c (.exclusiveTurn name wait)

/-- The error of a process lock that was not entered. -/
def lockError (name : String) (blocking : Bool) : LeaseError :=
  if blocking then
    .indexMaintenanceConflictError
      ("index maintenance '" ++ name ++ "' cannot start because another process owns an incompatible index lease")
  else .interrupted

def indexStep (cfg : CoordinatorConfig) (s : IndexSystem T) : IndexLabel T → Option (IndexSystem T)
  | .enter t name wait requestedMode =>
    match (s.tasks t).awaiting with
    | none => some (acquireLocal cfg s t name wait requestedMode)
    | some _ => none
  | .interrupt t =>
    -- a cancellation or a timeout while the task is suspended in `wait()`
    match (s.tasks t).awaiting with
    | some (.sharedTurn _ _) | some (.exclusiveTurn _ _) =>
      some { s.setTask t { (s.tasks t) with interrupted := true } with coordinator := s.coordinator.signal t }
    | _ => none
  | .resume t =>
    if (t, true) ∈ s.coordinator.waiters then
      match (s.tasks t).awaiting with
      | some (.sharedTurn name wait) => some (resumeShared cfg s t name wait)
      | some (.exclusiveTurn name wait) => some (resumeExclusive cfg s t name wait)
      | _ => none
    else none
  | .lockTaken t =>
    match (s.tasks t).awaiting with
    | some (.processLock _ _ _) => some (s.setTask t { (s.tasks t) with awaiting := none, raised := none })
    | _ => none
  | .lockFailed t blocking =>
    match (s.tasks t).awaiting with
    | some (.processLock name _ _) => some (s.release t (some (lockError name blocking)))
    | _ => none
  | .leave t =>
    match (s.tasks t).awaiting, (s.tasks t).leases with
    | none, lease :: _ =>
      if lease.outermost && cfg.processLock then
        some (s.setTask t { (s.tasks t) with awaiting := some .processUnlock, raised := none })
      else some (s.release t none)
    | _, _ => none
  | .lockReleased t =>
    match (s.tasks t).awaiting with
    | some .processUnlock => some (s.release t none)
    | _ => none

end Steps

def Coordinator.new {T : Type} : Coordinator T := ⟨∅, none, 0, 0, none, []⟩

def TaskState.new : TaskState := ⟨[], none, false, none⟩

def IndexSystem.start {T : Type} : IndexSystem T := ⟨.new, fun _ => .new⟩

end Alexandria.Index
