import Serverust.Model.ExecutionService

/-!
# Log stream

The stream of an execution's logs polls the database. One lap of its loop fetches a page of logs behind
those already sent, and then looks whether the execution is complete.
-/

namespace Serverust

open Resumption

/-- `as i32`. -/
def asI32 (n : Int) : Int := n.bmod 4294967296

structure ListLogsQuery where
  logType : Option LogType
  offset : Option Int
  limit : Option Int

structure ExecutionLogsResponse where
  executionId : Uuid
  logs : List ExecutionLog
  total : Nat

namespace ExecutionLogRepository

/-- `ORDER BY created_at ASC`. -/
def StoredBefore (a b : ExecutionLog) : Prop := a.createdAt ≤ b.createdAt

instance : DecidableRel StoredBefore := fun _ _ => inferInstanceAs (Decidable (_ ≤ _))

/-- `execution_id = ?`, and `log_type = ?` if a type is asked for. -/
def isAsked (executionId : Uuid) (logType : Option LogType) (log : ExecutionLog) : Bool :=
  log.executionId = executionId && logType.all fun asked => log.logType = asked

def getByExecutionPaginated (executionId : Uuid) (logType : Option LogType) (offset limit : Int) :
    Async (List ExecutionLog × Nat) := do
  let total ← select (fun _ => .other) fun db => db.executionLogs.countP (isAsked executionId logType)
  let logs ← select (fun _ => .other) fun db =>
    (((db.executionLogs.filter (isAsked executionId logType)).insertionSort StoredBefore).drop
      offset.toNat).take limit.toNat
  return (logs, total)

end ExecutionLogRepository

namespace ExecutionService

def getExecution (id : Uuid) : Async Execution := ExecutionRepository.getById id

def getLogs (executionId : Uuid) (query : ListLogsQuery) : Async ExecutionLogsResponse := do
  let _ ← ExecutionRepository.getById executionId
  let offset := max (query.offset.getD 0) 0
  let limit := min (max (query.limit.getD 1000) 1) 10000
  let (logs, total) ←
    ExecutionLogRepository.getByExecutionPaginated executionId query.logType offset limit
  return { executionId, logs, total }

end ExecutionService

/-- An event of the stream, with the fields of its data. -/
inductive SseEvent where
  | status (executionId : Uuid) (status : ExecutionStatus) (startedAt : Option String)
  | log (id : Uuid) (logType : LogType) (content createdAt : String)
  | complete (executionId : Uuid) (status : ExecutionStatus) (outputData errorMessage : Option String)
  | error (data : String)
deriving DecidableEq, Repr

def SseEvent.ofLog (log : ExecutionLog) : SseEvent :=
  .log log.id log.logType log.logContent log.createdAt

/-- What the loop keeps from one lap to the next. -/
structure LogStream where
  lastLogCount : Int
  executionComplete : Bool

namespace LogStream

def start (initialExecution : Execution) : LogStream where
  lastLogCount := 0
  executionComplete := initialExecution.completedAt.isSome

/-- Check if the execution is complete: the events of this lap, and what the next lap starts from, or
nothing after the last. -/
def checkComplete (executionId : Uuid) (stream : LogStream) (sent : List SseEvent) :
    Async (List SseEvent × Option LogStream) := do
  if !stream.executionComplete then
    match ← (ExecutionService.getExecution executionId).attempt with
    | .ok exec =>
      if exec.completedAt.isSome then
        return (sent ++ [.complete executionId exec.status exec.outputData exec.errorMessage], none)
      else return (sent, some stream)
    | .error _ => return (sent, some stream)
  else return (sent, none)

/-- One lap of the loop. -/
def lap (executionId : Uuid) (stream : LogStream) : Async (List SseEvent × Option LogStream) := do
  match ← (ExecutionService.getLogs executionId
      ⟨none, some (asI32 stream.lastLogCount), some 100⟩).attempt with
  | .ok response =>
    checkComplete executionId
      { stream with lastLogCount := stream.lastLogCount + response.logs.length }
      (response.logs.map SseEvent.ofLog)
  | .error e => checkComplete executionId stream [.error ("Failed to fetch logs: " ++ e.toString)]

/-- The loop of `create_log_stream`, which has no end of its own as long as the execution is not complete: its
client leaves after so many laps. -/
def follow (executionId : Uuid) : Nat → LogStream → Async (List SseEvent)
  | 0, _ => return []
  | laps + 1, stream => do
    let (sent, next) ← lap executionId stream
    match next with
    | none => return sent
    | some stream => do
      let events ← follow executionId laps stream
      return sent ++ events

end LogStream

/-- `GET /executions/{id}/stream`. -/
def Api.streamExecutionLogs (id : Uuid) (laps : Nat) : Async (List SseEvent) := do
  let execution ← ExecutionService.getExecution id
  let events ← LogStream.follow id laps (.start execution)
  return .status id execution.status execution.startedAt :: events

end Serverust
