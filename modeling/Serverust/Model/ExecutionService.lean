import Serverust.Library.JsonText
import Serverust.Model.QueueManager

/-!
# Execution service

Creating an execution for a job, which enables a disabled job; creating one for another try; cancelling
and deleting executions; and the handler that also takes a cancelled execution out of the queue.
-/

namespace Serverust

open Resumption

/-- `v.to_string()`. -/
def jsonText (v : JsonText.Value) : String := String.ofList (JsonText.text v)

namespace ExecutionService

def createExecution (jobId : Uuid) (inputData : Option String) : Async Execution := do
  let job ← JobRepository.getById jobId
  if !job.enabled then
    let now ← nowRfc3339
    let _ ← JobRepository.update { job with enabled := true, updatedAt := now }
  let now ← nowRfc3339
  let id ← newV4
  ExecutionRepository.create (.new id jobId inputData now)

def cancelExecution (id : Uuid) : Async Execution := do
  let execution ← ExecutionRepository.getById id
  match execution.status with
  | .pending | .queued | .running =>
    let now ← nowRfc3339
    ExecutionRepository.update (execution.markCancelled now)
  | status =>
    Task.throw (.badRequest ("Cannot cancel execution with status '" ++ status.asStr ++ "'"))

/-- `serde_json::from_str` is a parameter. -/
def retryExecution (fromStr : String → Option JsonText.Value) (id : Uuid) : Async Execution := do
  let execution ← ExecutionRepository.getById id
  match execution.status with
  | .failed | .timeout | .cancelled =>
    let job ← JobRepository.getById execution.jobId
    if job.maxRetries ≤ execution.retryCount then
      Task.throw (.badRequest
        ("Execution has reached maximum retry count (" ++ toString job.maxRetries ++ ")"))
    else
      let inputData := (execution.inputData.bind fromStr).map jsonText
      let now ← nowRfc3339
      let newId ← newV4
      ExecutionRepository.create
        { Execution.new newId execution.jobId inputData now with retryCount := execution.retryCount + 1 }
  | status =>
    Task.throw (.badRequest ("Cannot retry execution with status '" ++ status.asStr ++ "'"))

def deleteExecution (id : Uuid) : Async Unit := do
  let _ ← (ExecutionLogRepository.deleteByExecution id).attempt
  ExecutionRepository.delete id

def deleteExecutions (ids : List Uuid) : Async Nat := ExecutionRepository.deleteBulk ids

end ExecutionService

/-- `POST /executions/{id}/cancel`. Killing the process touches no table. -/
def Api.cancelExecution (id : Uuid) : Async Execution := do
  let execution ← ExecutionService.cancelExecution id
  let _ ← (QueueManager.remove id).attempt
  return execution

end Serverust
