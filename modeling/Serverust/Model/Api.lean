import Serverust.Model.ExecutionService
import Serverust.Model.JobService

/-!
# Handlers

The requests that put an execution in the queue, that delete executions and jobs, and that report the
state of the queue.
-/

namespace Serverust

open Resumption

/-- The body of an execute request, which may be absent. -/
structure ExecuteJobRequest where
  inputData : Option JsonText.Value
  priority : Option Int

namespace Api

/-- `.map_err(|e| AppError::Internal(format!("{context}: {}", e)))`. -/
def internal {α : Type} (context : String) (p : Async α) : Async α := do
  match ← p.attempt with
  | .ok value => return value
  | .error e => Task.throw (.internal (context ++ ": " ++ e.toString))

/-- `POST /jobs/{id}/execute`. -/
def executeJob (qm : QueueManager) (jobId : Uuid) (req : Option ExecuteJobRequest) : Async Execution := do
  let priority := (req.bind ExecuteJobRequest.priority).getD 0
  let execution ← ExecutionService.createExecution jobId
    ((req.bind ExecuteJobRequest.inputData).map jsonText)
  let job ← JobRepository.getById jobId
  internal "Failed to enqueue execution" (qm.enqueue (.new execution job priority))
  return execution

/-- `POST /executions/{id}/retry`. -/
def retryExecution (qm : QueueManager) (fromStr : String → Option JsonText.Value) (id : Uuid) :
    Async Execution := do
  let execution ← ExecutionService.retryExecution fromStr id
  let job ← JobRepository.getById execution.jobId
  internal "Failed to enqueue retry" (qm.enqueue (.new execution job job.priority))
  return execution

/-- `DELETE /executions/{id}`. -/
def deleteExecution (id : Uuid) : Async Unit := ExecutionService.deleteExecution id

structure BulkOperationResponse where
  successCount : Nat
  failureCount : Nat
  errors : List String

/-- `DELETE /executions/bulk`. -/
def bulkDeleteExecutions (ids : List Uuid) : Async BulkOperationResponse := do
  if ids.isEmpty then Task.throw (.badRequest "No IDs provided")
  else
    let deleted ← ExecutionService.deleteExecutions ids
    return { successCount := deleted, failureCount := ids.length - deleted, errors := [] }

/-- `POST /jobs/bulk`. -/
def bulkCreateJobs (hash : FieldOrder) (requests : List CreateJobRequest) : Async BulkOperationResponse := do
  if requests.isEmpty then Task.throw (.validation "No jobs provided")
  else if 100 < requests.length then Task.throw (.validation "Cannot create more than 100 jobs at once")
  else
    let (jobs, errors) ← JobService.bulkCreateJobs hash requests
    return { successCount := jobs.length, failureCount := errors.length, errors }

/-- `DELETE /jobs/{id}`. -/
def deleteJob (id : Uuid) : Async Unit := JobService.deleteJob id

end Api

/-- The counts are `i64`, which the rows of a table do not exhaust. -/
structure QueueStatusResponse where
  totalQueued : Nat
  processing : Nat
  completedLastHour : Nat
  failedLastHour : Nat
  deadLetterCount : Nat
  byPriority : List (Int × Nat)
  inMemorySize : Nat
  overflowSize : Int

namespace QueueService

/-- `saturating_sub` stops at the bounds of `i64`, not at zero. -/
def getStatus (inMemorySize : Nat) : Async QueueStatusResponse := do
  let totalQueued ← QueueRepository.countQueued
  let processing ← QueueRepository.countProcessing
  let completedLastHour ← QueueRepository.countCompletedLastHour
  let failedLastHour ← QueueRepository.countFailedLastHour
  let deadLetterCount ← QueueRepository.countDeadLetter
  let byPriority ← QueueRepository.getDepthByPriority
  return {
    totalQueued, processing, completedLastHour, failedLastHour, deadLetterCount, byPriority, inMemorySize
    overflowSize := totalQueued - inMemorySize }

end QueueService

/-- `GET /queue/status`. -/
def Api.getQueueStatus : Async QueueStatusResponse := do
  let inMemorySize ← withLock (fun _ => .unlock) queueLen
  QueueService.getStatus inMemorySize

end Serverust
