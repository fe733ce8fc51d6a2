import Serverust.Model.DagEngine

/-!
# Worker pool

A worker repeats one pass: dequeue an execution, mark it running, run it, write its outcome, update
its queue entry, and tell the DAG engine. How the job runs is a parameter of the pass.
-/

namespace Serverust

open Resumption

/-- What running the job's process yields. A cancel signal yields a failure. -/
structure ExecutionResult where
  success : Bool
  stdout : String
  stderr : String
  exitCode : Option Int
  timedOut : Bool
  memoryExceeded : Bool
deriving DecidableEq, Repr

namespace ExecutionResult

/-- `{:?}` of an exit code. -/
def exitCodeText : Option Int → String
  | some code => "Some(" ++ toString code ++ ")"
  | none => "None"

/-- The final status and the error message. -/
def outcome (result : ExecutionResult) : ExecutionStatus × Option String :=
  if result.timedOut then (.timeout, some "Execution timed out")
  else if result.memoryExceeded then (.failed, some "Memory limit exceeded")
  else if result.success then (.success, none)
  else
    (.failed, some <| if result.stderr.isEmpty then "Exit code: " ++ exitCodeText result.exitCode
      else result.stderr)

end ExecutionResult

structure WorkerPool where
  queueManager : QueueManager
  dagEngine : Option DagEngine

namespace WorkerPool

def setExecutionRunning (execId : Uuid) (workerId : String) : Async Unit := do
  let execution ← ExecutionRepository.getById execId
  let now ← nowRfc3339
  let _ ← ExecutionRepository.update
    { execution with status := .running, startedAt := some now, workerId := some workerId }

def finalizeExecution (execId : Uuid) (status : ExecutionStatus) (errorMsg output : Option String) :
    Async Unit := do
  let execution ← ExecutionRepository.getById execId
  let now ← nowRfc3339
  let _ ← ExecutionRepository.update
    { execution with
      status := status, completedAt := some now, outputData := output, errorMessage := errorMsg }

/-- `let _ = log_repo.create_with_type(..)`. -/
def log (execId : Uuid) (logType : LogType) (content : String) : Async Unit := do
  let _ ← (ExecutionLogRepository.createWithType execId logType content).attempt

/-- Log what the process printed, if it printed anything. -/
def logOutput (execId : Uuid) (logType : LogType) (content : String) : Async Unit :=
  if content.isEmpty then return () else log execId logType content

/-- Write the outcome, unless the execution was cancelled. -/
def writeOutcome (execId : Uuid) (result : ExecutionResult) : Async Unit := do
  match ← (ExecutionRepository.getById execId).attempt with
  | .ok current =>
    if current.status = .cancelled then return ()
    else finish
  | .error _ => finish
where
  finish : Async Unit := do
    let _ ← (finalizeExecution execId result.outcome.1 result.outcome.2
      (if result.success then some result.stdout else none)).attempt

/-- The stored retry count, or 0 if it cannot be read. -/
def retryCountOf (execId : Uuid) : Async Int := do
  match ← (ExecutionRepository.getById execId).attempt with
  | .ok exec => return exec.retryCount
  | .error _ => return 0

/-- The `max_retries` of the execution's job, or nothing if it cannot be read. -/
def maxRetriesOf (execId : Uuid) : Async (Option Int) := do
  match ← (ExecutionRepository.getById execId).attempt with
  | .ok exec =>
    match ← (JobRepository.getById exec.jobId).attempt with
    | .ok job => return some job.maxRetries
    | .error _ => return none
  | .error _ => return none

variable (pool : WorkerPool)

def updateQueueEntry (execId : Uuid) (status : ExecutionStatus) : Async Unit := do
  if status = .success then
    let _ ← (QueueManager.markCompleted execId).attempt
  else
    let retryCount ← retryCountOf execId
    let maxRetries ← maxRetriesOf execId
    let _ ← (pool.queueManager.markFailedWithRetry execId retryCount maxRetries).attempt

def dagCallback (execId : Uuid) : Async Unit := do
  match pool.dagEngine with
  | some engine =>
    let _ ← (engine.onExecutionComplete execId).attempt
  | none => return ()

/-- Run the process and write what it printed. The event marks that the final status is determined. -/
def executeItem (execId : Uuid) (result : ExecutionResult) : Async Unit := do
  log execId .system "Execution started"
  logOutput execId .stdout result.stdout
  logOutput execId .stderr result.stderr
  perform (fun _ => .executed execId) fun w => ((), w)

/-- What a worker does with an execution it dequeued. -/
def process (workerId : Nat) (execId : Uuid) (result : ExecutionResult) : Async Unit := do
  match ← (setExecutionRunning execId ("worker-" ++ toString workerId)).attempt with
  | .error _ =>
    let _ ← (QueueManager.markFailed execId).attempt
  | .ok _ =>
    executeItem execId result
    writeOutcome execId result
    pool.updateQueueEntry execId result.outcome.1
    perform (fun _ => .released execId) fun w => ((), w)
    pool.dagCallback execId
    log execId .system ("Execution completed: " ++ result.outcome.1.asStr)

/-- One turn of a worker's loop; `result` is how the process of each item would end. -/
def pass (workerId : Nat) (result : QueueItem → ExecutionResult) : Async Unit := do
  match ← QueueManager.dequeue.attempt with
  | .ok (some item) => pool.process workerId item.executionId (result item)
  | .ok none => return ()
  | .error _ => return ()

end WorkerPool

end Serverust
