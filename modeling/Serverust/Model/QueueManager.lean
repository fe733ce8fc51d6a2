import Serverust.Model.Repositories

/-!
# Queue manager

The in-memory heap holds at most `maxMemorySize` items; every item also has a row in `job_queue`, and
rows beyond the heap are the overflow. `enqueue`, `dequeue` and `remove` hold the mutex over both
stores. A re-queue task and `retryDeadLetter` write the row first and take the mutex later.
-/

namespace Serverust

open Resumption

/-- The delay before a retry is left out: a spawned task may wake at any later time. -/
structure QueueManager where
  maxMemorySize : Nat
  maxRetries : Int

namespace QueueManager

/-- The item of an execution, or nothing if the execution or its job cannot be read. -/
def fetchItem (executionId : Uuid) (priority : Job → Int) : Async (Option QueueItem) := do
  match ← (ExecutionRepository.getById executionId).attempt with
  | .ok exec =>
    match ← (JobRepository.getById exec.jobId).attempt with
    | .ok job => return some (.new exec job (priority job))
    | .error _ => return none
  | .error _ => return none

def reconstructItem (entry : QueueEntry) : Async (Option QueueItem) :=
  fetchItem entry.executionId fun _ => entry.priority

/-- Read the entry of an execution, and write it back marked if there is one. -/
def markEntry (mark : QueueEntry → String → QueueEntry) (executionId : Uuid) : Async Unit := do
  match ← QueueRepository.getByExecution executionId with
  | some entry =>
    let now ← nowRfc3339
    let _ ← QueueRepository.update (mark entry now)
  | none => return ()

def markCompleted (executionId : Uuid) : Async Unit := markEntry .markCompleted executionId

def markFailed (executionId : Uuid) : Async Unit := markEntry .markFailed executionId

def moveToDeadLetter (executionId : Uuid) : Async Unit := markEntry .markDeadLetter executionId

variable (qm : QueueManager)

/-- Push an item while the heap has room; otherwise it stays in the overflow. -/
def pushIfRoom (item : QueueItem) : Async Unit := do
  if (← queueLen) < qm.maxMemorySize then queuePush item

def enqueue (item : QueueItem) : Async Unit :=
  withLock (fun _ => .unlock) do
    let id ← newV4
    let now ← nowRfc3339
    let _ ← QueueRepository.enqueue (.new id item.executionId item.jobId item.priority now)
    qm.pushIfRoom item

/-- The heap is empty: take the first queued row. A row whose item cannot be rebuilt is marked failed. -/
def dequeueOverflow : Async (Option QueueItem) := do
  match ← QueueRepository.dequeueAtomic with
  | some entry =>
    match ← reconstructItem entry with
    | some item => return some item
    | none =>
      let now ← nowRfc3339
      let _ ← QueueRepository.update (entry.markFailed now)
      return none
  | none => return none

def dequeue : Async (Option QueueItem) :=
  withLock (fun | .ok item => .dequeued item | .error _ => .unlock) do
    match ← queuePop with
    | some item =>
      markEntry .markProcessing item.executionId
      return some item
    | none => dequeueOverflow

def remove (executionId : Uuid) : Async Unit :=
  withLock (fun | .ok _ => .removed executionId | .error _ => .unlock) do
    queueDrainOther executionId
    QueueRepository.removeByExecution executionId

def cleanup (olderThanHours : Int) : Async Nat := QueueRepository.cleanupOld olderThanHours

/-- Whether the item is queued again after the delay; if not, it is a dead letter. -/
def markFailedWithRetry (executionId : Uuid) (retryCount : Int) (maxRetriesOverride : Option Int) :
    Async Bool := do
  let maxRetries := maxRetriesOverride.getD qm.maxRetries
  if retryCount < maxRetries then
    match ← QueueRepository.getByExecution executionId with
    | some entry =>
      spawnRequeue { entryId := entry.id, executionId := executionId }
      return true
    | none =>
      moveToDeadLetter executionId
      return false
  else
    moveToDeadLetter executionId
    return false

/-- The spawned task, once its delay has elapsed. -/
def requeueTask (task : RequeueTask) : Async Unit := do
  match ← (QueueRepository.requeue task.entryId).attempt with
  | .error _ => return ()
  | .ok _ =>
    match ← fetchItem task.executionId Job.priority with
    | some item => withLock (fun _ => .unlock) (qm.pushIfRoom item)
    | none => return ()

def retryDeadLetter (executionId : Uuid) : Async Unit := do
  match ← QueueRepository.getByExecution executionId with
  | some entry =>
    if entry.status ≠ .deadLetter then
      Task.throw (.validation "Entry is not in dead letter queue")
    else
      QueueRepository.requeue entry.id
      match ← reconstructItem entry with
      | some item => withLock (fun _ => .unlock) (qm.pushIfRoom item)
      | none => return ()
  | none => return ()

/-- Load entries into the heap until it is full. -/
def loadEntries : List QueueEntry → Async Unit
  | [] => return ()
  | entry :: rest => do
    if qm.maxMemorySize ≤ (← queueLen) then return ()
    else
      match ← reconstructItem entry with
      | some item =>
        queuePush item
        loadEntries rest
      | none => loadEntries rest

/-- Restore the queue after a restart. -/
def recover : Async Nat := do
  let _ ← QueueRepository.resetProcessingToQueued
  let entries ← QueueRepository.getAllQueued
  withLock (fun _ => .unlock) do
    qm.loadEntries entries
    return entries.length

end QueueManager

end Serverust
