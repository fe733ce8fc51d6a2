import Mathlib.Logic.Function.Basic
import Serverust.Model.Entities

/-!
# Processes and their ids

The process manager, the workers that start child processes, and the process ids that the operating system
gives out. An action is what one of them does at once. A cancel holds the lock of the map until it returns,
also while it sleeps, and everything else that uses the map waits for it.
-/

namespace Serverust

abbrev Pid := Nat

/-- A one-shot channel for the cancel signal. -/
abbrev Channel := Nat

structure ProcessInfo where
  pid : Option Pid
  cancelTx : Channel

/-- The process that has an id: a child for an execution, until it is waited for, or any other process that
the server may signal. -/
inductive Owner where
  | child (executionId : Uuid)
  | other
deriving DecidableEq, Repr

inductive Signal where
  | sigterm | sigkill
deriving DecidableEq, Repr

/-- A signal that a cancel of the execution sent to an id, and the process that it reached. -/
structure Hit where
  executionId : Uuid
  signal : Signal
  pid : Pid
  owner : Owner
deriving DecidableEq, Repr

/-- Where `kill_process_unix` is: before SIGTERM, in the sleep before the probe, or before SIGKILL. -/
inductive CancelPhase where
  | terminating | sleeping | killing
deriving DecidableEq, Repr

structure Cancelling where
  executionId : Uuid
  pid : Pid
  phase : CancelPhase

/-- Where a worker is with an execution: it has registered it, it waits for its child, or it is about to
unregister it. -/
inductive WorkerState where
  | idle
  | registered (executionId : Uuid) (cancelRx : Channel)
  | waiting (executionId : Uuid) (cancelRx : Channel) (pid : Pid)
  | finished (executionId : Uuid)
deriving DecidableEq, Repr

/-- `closed` are the channels over which the signal was sent, or whose sender was dropped, which the receiver
takes for the signal. `reports` are the tasks that are to tell the manager the id of a child. `dropped` are the
children that were killed and not yet waited for. `hits` are the signals that reached a process. -/
structure Machine where
  processes : Uuid → Option ProcessInfo
  cancelling : Option Cancelling
  closed : List Channel
  nextChannel : Channel
  workers : Nat → WorkerState
  reports : List (Uuid × Pid)
  table : Pid → Option Owner
  dropped : List Pid
  hits : List Hit

def Machine.start : Machine where
  processes _ := none
  cancelling := none
  closed := []
  nextChannel := 0
  workers _ := .idle
  reports := []
  table _ := none
  dropped := []
  hits := []

namespace ProcessManager

/-- `processes.remove(execution_id)`, after which the sender is used or dropped. -/
def remove (m : Machine) (executionId : Uuid) : Machine :=
  { m with
    processes := Function.update m.processes executionId none
    closed := m.closed ++ ((m.processes executionId).map ProcessInfo.cancelTx).toList }

/-- Register an execution without a process id. -/
def register (m : Machine) (executionId : Uuid) : Machine :=
  { remove m executionId with
    processes := Function.update m.processes executionId (some ⟨none, m.nextChannel⟩)
    nextChannel := m.nextChannel + 1 }

def updatePid (m : Machine) (executionId : Uuid) (pid : Pid) : Machine :=
  { m with
    processes := Function.update m.processes executionId
      ((m.processes executionId).map fun info => { info with pid := some pid }) }

def unregister (m : Machine) (executionId : Uuid) : Machine := remove m executionId

/-- A cancel up to its first signal to a process. -/
def cancel (m : Machine) (executionId : Uuid) : Machine :=
  match m.processes executionId with
  | some info =>
    { remove m executionId with cancelling := info.pid.map fun pid => ⟨executionId, pid, .terminating⟩ }
  | none => m

/-- `kill(pid, signal)`, which fails if no process has the id. -/
def kill (m : Machine) (c : Cancelling) (signal : Signal) : Machine :=
  match m.table c.pid with
  | some owner => { m with hits := m.hits ++ [⟨c.executionId, signal, c.pid, owner⟩] }
  | none => m

/-- The next step of `kill_process_unix`. The probe and SIGKILL are two calls. -/
def killProcessUnix (m : Machine) (c : Cancelling) : Machine :=
  match c.phase with
  | .terminating =>
    if (m.table c.pid).isSome then
      { kill m c .sigterm with cancelling := some { c with phase := .sleeping } }
    else { m with cancelling := none }
  | .sleeping =>
    if (m.table c.pid).isSome then { m with cancelling := some { c with phase := .killing } }
    else { m with cancelling := none }
  | .killing => { kill m c .sigkill with cancelling := none }

end ProcessManager

/-! ### Actions -/

/-- What may happen next. The operating system chooses the ids of new processes. -/
inductive Action where
  | register (worker : Nat) (executionId : Uuid)
  | spawn (worker : Nat) (pid : Pid)
  | spawnFails (worker : Nat)
  | updatePid (executionId : Uuid) (pid : Pid)
  | signalled (worker : Nat)
  | exits (worker : Nat)
  | unregister (worker : Nat)
  | abort (worker : Nat)
  | reaped (pid : Pid)
  | cancel (executionId : Uuid)
  | continueCancel
  | dropCancel
  | otherStarts (pid : Pid)
  | otherExits (pid : Pid)

namespace Machine

def setWorker (m : Machine) (worker : Nat) (state : WorkerState) : Machine :=
  { m with workers := Function.update m.workers worker state }

def setOwner (m : Machine) (pid : Pid) (owner : Option Owner) : Machine :=
  { m with table := Function.update m.table pid owner }

/-- The worker drops the future of its execution: the child, if there is one, is killed. -/
def dropFuture (m : Machine) (worker : Nat) (next : Uuid → WorkerState) : Machine :=
  match m.workers worker with
  | .registered executionId _ => m.setWorker worker (next executionId)
  | .waiting executionId _ pid => { m.setWorker worker (next executionId) with dropped := pid :: m.dropped }
  | _ => m

/-- What an action does. One that is not possible does nothing. -/
def act (m : Machine) : Action → Machine
  | .register worker executionId =>
    if m.cancelling.isNone ∧ m.workers worker = .idle then
      (ProcessManager.register m executionId).setWorker worker (.registered executionId m.nextChannel)
    else m
  | .spawn worker pid =>
    match m.workers worker with
    | .registered executionId cancelRx =>
      -- The id of the child goes to the reporting task in the same poll.
      if (m.table pid).isNone then
        { (m.setOwner pid (some (.child executionId))).setWorker worker (.waiting executionId cancelRx pid) with
          reports := m.reports ++ [(executionId, pid)] }
      else m
    | _ => m
  | .spawnFails worker =>
    match m.workers worker with
    | .registered executionId _ => m.setWorker worker (.finished executionId)
    | _ => m
  | .updatePid executionId pid =>
    if m.cancelling.isNone ∧ (executionId, pid) ∈ m.reports then
      { ProcessManager.updatePid m executionId pid with reports := m.reports.erase (executionId, pid) }
    else m
  | .signalled worker =>
    match m.workers worker with
    | .registered _ cancelRx | .waiting _ cancelRx _ =>
      if cancelRx ∈ m.closed then m.dropFuture worker .finished else m
    | _ => m
  | .exits worker =>
    match m.workers worker with
    | .waiting executionId _ pid => (m.setOwner pid none).setWorker worker (.finished executionId)
    | _ => m
  | .unregister worker =>
    match m.workers worker with
    | .finished executionId =>
      if m.cancelling.isNone then (ProcessManager.unregister m executionId).setWorker worker .idle else m
    | _ => m
  | .abort worker => m.dropFuture worker fun _ => .idle
  | .reaped pid =>
    if pid ∈ m.dropped then { m.setOwner pid none with dropped := m.dropped.erase pid } else m
  | .cancel executionId => if m.cancelling.isNone then ProcessManager.cancel m executionId else m
  | .continueCancel =>
    match m.cancelling with
    | some c => ProcessManager.killProcessUnix m c
    | none => m
  -- The request ends early, and its lock is given back.
  | .dropCancel => { m with cancelling := none }
  | .otherStarts pid => if (m.table pid).isNone then m.setOwner pid (some .other) else m
  | .otherExits pid => if m.table pid = some .other then m.setOwner pid none else m

end Machine

end Serverust
