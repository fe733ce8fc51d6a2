import Serverust.Library.Rows
import Serverust.Model.World
import Mathlib.Data.List.Sort

/-!
# Repositories

The statements of the queue, execution, execution-log and job repositories. The constraints are those
of the migrations, with foreign keys enforced.
-/

namespace Serverust

open Calendar Resumption

/-! ### Job queue -/

namespace QueueEntry

def new (id executionId jobId : Uuid) (priority : Int) (now : String) : QueueEntry where
  id := id
  executionId := executionId
  jobId := jobId
  priority := priority
  status := .queued
  queuedAt := now
  startedAt := none
  completedAt := none

def markProcessing (entry : QueueEntry) (now : String) : QueueEntry :=
  { entry with status := .processing, startedAt := some now }

def markCompleted (entry : QueueEntry) (now : String) : QueueEntry :=
  { entry with status := .completed, completedAt := some now }

def markFailed (entry : QueueEntry) (now : String) : QueueEntry :=
  { entry with status := .failed, completedAt := some now }

def markDeadLetter (entry : QueueEntry) (now : String) : QueueEntry :=
  { entry with status := .deadLetter, completedAt := some now }

/-- `ORDER BY priority DESC, queued_at ASC`. -/
def Precedes (a b : QueueEntry) : Prop :=
  b.priority < a.priority ∨ a.priority = b.priority ∧ a.queuedAt ≤ b.queuedAt

instance : DecidableRel Precedes := fun _ _ => inferInstanceAs (Decidable (_ ∨ _))

end QueueEntry

namespace QueueRepository

/-- `WHERE status = 'queued' ORDER BY priority DESC, queued_at ASC`. -/
def queuedInOrder (rows : List QueueEntry) : List QueueEntry :=
  (rows.filter fun row => row.status = .queued).insertionSort QueueEntry.Precedes

def insertEntry (entry : QueueEntry) (db : Db) : Except SqlError (Unit × Db) :=
  if Rows.hits QueueEntry.id entry.id db.jobQueue ≠ 0 then .error (.unique "job_queue.id")
  else if Rows.hits QueueEntry.executionId entry.executionId db.jobQueue ≠ 0 then
    .error (.unique "job_queue.execution_id")
  else if Rows.hits Execution.id entry.executionId db.executions = 0 then .error .foreignKey
  else if Rows.hits Job.id entry.jobId db.jobs = 0 then .error .foreignKey
  else .ok ((), { db with jobQueue := db.jobQueue ++ [entry] })

def enqueue (entry : QueueEntry) : Async QueueEntry := do
  sql (fun _ _ => .enqueue entry) fun _ => insertEntry entry
  return entry

def getByExecution (executionId : Uuid) : Async (Option QueueEntry) :=
  select (.getByExecution executionId) fun db =>
    Rows.lookup QueueEntry.executionId executionId db.jobQueue

def update (entry : QueueEntry) : Async QueueEntry := do
  let _ ← execute (fun _ => .updateEntry entry) fun db =>
    (Rows.hits QueueEntry.id entry.id db.jobQueue,
      { db with jobQueue := Rows.modify QueueEntry.id entry.id (fun row =>
          { row with status := entry.status, startedAt := entry.startedAt,
                     completedAt := entry.completedAt }) db.jobQueue })
  return entry

def removeByExecution (executionId : Uuid) : Async Unit := do
  let _ ← execute (fun _ => .removeByExecution executionId) fun db =>
    (Rows.hits QueueEntry.executionId executionId db.jobQueue,
      { db with jobQueue := Rows.remove QueueEntry.executionId executionId db.jobQueue })

def resetProcessingToQueued : Async Nat :=
  execute (fun _ => .resetProcessing) fun db =>
    (Rows.hits QueueEntry.status .processing db.jobQueue,
      { db with jobQueue := Rows.modify QueueEntry.status .processing (fun row =>
          { row with status := .queued, startedAt := none }) db.jobQueue })

/-- Take the first queued row: the row as it is after the update, and the table. -/
def takeFirst (now : DateTime) (rows : List QueueEntry) : Option QueueEntry × List QueueEntry :=
  match (queuedInOrder rows).head? with
  | none => (none, rows)
  | some first =>
    let rows := Rows.modify QueueEntry.id first.id (fun row =>
      { row with status := .processing, startedAt := some (sqliteDatetime now) }) rows
    (Rows.lookup QueueEntry.id first.id rows, rows)

def dequeueAtomic : Async (Option QueueEntry) :=
  sql (fun _ row => .dequeueAtomic row) fun now db =>
    let (row, jobQueue) := takeFirst now db.jobQueue
    .ok (row, { db with jobQueue })

def getAllQueued : Async (List QueueEntry) :=
  select .getAllQueued fun db => queuedInOrder db.jobQueue

/-- `datetime('now', '-' || ? || ' hours')`, which is `NULL` for a negative number of hours. -/
def hoursAgo (now : DateTime) (hours : Int) : Option String :=
  if hours < 0 then none else (now.minusHours hours.toNat).map sqliteDatetime

/-- `status IN ('completed', 'failed') AND completed_at < ?`. -/
def isOld (cutoff : Option String) (row : QueueEntry) : Bool :=
  (row.status = .completed ∨ row.status = .failed) &&
    match row.completedAt, cutoff with
    | some completedAt, some cutoff => completedAt < cutoff
    | _, _ => false

def cleanupOld (hours : Int) : Async Nat :=
  sql (fun _ deleted => .cleanup deleted) fun now db =>
    let cutoff := hoursAgo now hours
    .ok (db.jobQueue.countP (isOld cutoff),
      { db with jobQueue := db.jobQueue.filter fun row => !isOld cutoff row })

/-- Reset an entry to queued. It succeeds when no row has this id. -/
def requeue (id : Uuid) : Async Unit := do
  let _ ← execute (fun db => .requeue id (Rows.lookup QueueEntry.id id db.jobQueue)) fun db =>
    (Rows.hits QueueEntry.id id db.jobQueue,
      { db with jobQueue := Rows.modify QueueEntry.id id (fun row =>
          { row with status := .queued, startedAt := none, completedAt := none }) db.jobQueue })

def countQueued : Async Nat :=
  select (fun _ => .other) fun db => Rows.hits QueueEntry.status .queued db.jobQueue

def countProcessing : Async Nat :=
  select (fun _ => .other) fun db => Rows.hits QueueEntry.status .processing db.jobQueue

def countDeadLetter : Async Nat :=
  select (fun _ => .other) fun db => Rows.hits QueueEntry.status .deadLetter db.jobQueue

/-- `completed_at >= datetime('now', '-1 hour')`. Every text is after an hour in the year before year 0, which
is written with a minus sign. -/
def isRecent (now : DateTime) (row : QueueEntry) : Bool :=
  match row.completedAt, hoursAgo now 1 with
  | some completedAt, some cutoff => cutoff ≤ completedAt
  | some _, none => true
  | none, _ => false

def countLastHour (status : QueueStatus) : Async Nat :=
  sql (fun _ _ => .other) fun now db =>
    .ok (db.jobQueue.countP fun row => row.status = status && isRecent now row, db)

def countCompletedLastHour : Async Nat := countLastHour .completed

def countFailedLastHour : Async Nat := countLastHour .failed

/-- `GROUP BY priority ORDER BY priority DESC`, over the queued rows. -/
def depthByPriority (rows : List QueueEntry) : List (Int × Nat) :=
  let queued := rows.filter fun row => row.status = .queued
  let priorities := (queued.map QueueEntry.priority).dedup.insertionSort fun a b => b ≤ a
  priorities.map fun priority => (priority, Rows.hits QueueEntry.priority priority queued)

def getDepthByPriority : Async (List (Int × Nat)) :=
  select (fun _ => .other) fun db => depthByPriority db.jobQueue

end QueueRepository

/-! ### Executions and their logs -/

namespace Execution

def new (id jobId : Uuid) (inputData : Option String) (now : String) : Execution where
  id := id
  jobId := jobId
  status := .pending
  inputData := inputData
  outputData := none
  errorMessage := none
  retryCount := 0
  workerId := none
  startedAt := none
  completedAt := none
  createdAt := now

def markCancelled (execution : Execution) (now : String) : Execution :=
  { execution with status := .cancelled, completedAt := some now }

end Execution

namespace ExecutionRepository

def notFound (id : Uuid) : AppError := .notFound ("Execution not found: " ++ id.text)

def getById (id : Uuid) : Async Execution := do
  let row ← select (.getExecution id) fun db => Rows.lookup Execution.id id db.executions
  okOr row (notFound id)

def insertExecution (execution : Execution) (db : Db) : Except SqlError (Unit × Db) :=
  if Rows.hits Execution.id execution.id db.executions ≠ 0 then .error (.unique "executions.id")
  else if Rows.hits Job.id execution.jobId db.jobs = 0 then .error .foreignKey
  else .ok ((), { db with executions := db.executions ++ [execution] })

def create (execution : Execution) : Async Execution := do
  sql (fun _ _ => .createExecution execution) fun _ => insertExecution execution
  getById execution.id

/-- Write all columns but the job, the input and the creation time. -/
def update (execution : Execution) : Async Execution := do
  let affected ← execute (fun _ => .updateExecution execution) fun db =>
    (Rows.hits Execution.id execution.id db.executions,
      { db with executions := Rows.modify Execution.id execution.id (fun row =>
          { execution with id := row.id, jobId := row.jobId, inputData := row.inputData,
                           createdAt := row.createdAt }) db.executions })
  if affected = 0 then Task.throw (notFound execution.id)
  else getById execution.id

/-- Delete executions. Their logs and queue rows go with them, and the nodes that ran them lose the
reference. -/
def deleteRows (gone : Uuid → Bool) (db : Db) : Db :=
  { db with
    executions := db.executions.filter fun x => !gone x.id
    executionLogs := db.executionLogs.filter fun log => !gone log.executionId
    jobQueue := db.jobQueue.filter fun row => !gone row.executionId
    dagNodeExecutions := db.dagNodeExecutions.map fun node =>
      if node.executionId.any gone then { node with executionId := none } else node }

def delete (id : Uuid) : Async Unit := do
  let affected ← execute (fun _ => .deleteExecutions [id]) fun db =>
    (Rows.hits Execution.id id db.executions, deleteRows (fun e => e = id) db)
  if affected = 0 then Task.throw (notFound id)

/-- `datetime('now', '-' || ? || ' days')`. -/
def daysAgo (now : DateTime) (days : Nat) : Option String := (now.minusDays days).map sqliteDatetime

/-- `status IN ('success', 'failed', 'timeout', 'cancelled') AND completed_at IS NOT NULL AND completed_at < ?`. -/
def isExpired (cutoff : Option String) (row : Execution) : Bool :=
  [.success, .failed, .timeout, .cancelled].contains row.status &&
    match row.completedAt, cutoff with
    | some completedAt, some cutoff => completedAt < cutoff
    | _, _ => false

def deleteOlderThanDays (days : Nat) : Async Nat := do
  let ids ← sql (fun _ ids => .deleteExecutions ids) fun now db =>
    let cutoff := daysAgo now days
    let ids := (db.executions.filter (isExpired cutoff)).map Execution.id
    .ok (ids, { deleteRows (fun e => e ∈ ids) db with
      executions := db.executions.filter fun row => !isExpired cutoff row })
  return ids.length

def deleteBulk (ids : List Uuid) : Async Nat := do
  if ids.isEmpty then return 0
  else
    execute (fun _ => .deleteExecutions ids) fun db =>
      (db.executions.countP fun x => x.id ∈ ids, deleteRows (fun e => e ∈ ids) db)

end ExecutionRepository

namespace ExecutionLogRepository

def deleteByExecution (executionId : Uuid) : Async Nat :=
  execute (fun _ => .other) fun db =>
    (Rows.hits ExecutionLog.executionId executionId db.executionLogs,
      { db with executionLogs := Rows.remove ExecutionLog.executionId executionId db.executionLogs })

def insertLog (log : ExecutionLog) (db : Db) : Except SqlError (Unit × Db) :=
  if Rows.hits ExecutionLog.id log.id db.executionLogs ≠ 0 then .error (.unique "execution_logs.id")
  else if Rows.hits Execution.id log.executionId db.executions = 0 then .error .foreignKey
  else .ok ((), { db with executionLogs := db.executionLogs ++ [log] })

def create (log : ExecutionLog) : Async ExecutionLog := do
  sql (fun _ _ => .other) fun _ => insertLog log
  return log

def createWithType (executionId : Uuid) (logType : LogType) (content : String) :
    Async ExecutionLog := do
  let id ← newV4
  let now ← nowRfc3339
  create { id, executionId, logType, logContent := content, createdAt := now }

end ExecutionLogRepository

/-! ### Jobs -/

namespace JobRepository

def notFound (id : Uuid) : AppError := .notFound ("Job not found: " ++ id.text)

def getById (id : Uuid) : Async Job := do
  let row ← select (.getJob id) fun db => Rows.lookup Job.id id db.jobs
  okOr row (notFound id)

/-- `venv_id REFERENCES venvs(id)` is broken: the job selects a venv that is not stored. -/
def selectsUnstored (job : Job) (db : Db) : Bool :=
  job.venvId.any fun id => Rows.hits Venv.id id db.venvs = 0

/-- Write all columns but the creation time. -/
def writeJob (job : Job) (db : Db) : Except SqlError (Nat × Db) :=
  let affected := Rows.hits Job.id job.id db.jobs
  if affected ≠ 0 ∧ selectsUnstored job db then .error .foreignKey
  else .ok (affected, { db with jobs := Rows.modify Job.id job.id (fun row =>
    { job with id := row.id, createdAt := row.createdAt }) db.jobs })

def update (job : Job) : Async Job := do
  let affected ← sql (fun _ _ => .updateJob job) fun _ => writeJob job
  if affected = 0 then Task.throw (notFound job.id)
  else getById job.id

/-- `ON DELETE SET NULL`: the jobs that have selected a venv that is gone lose the selection. -/
def deselect (gone : VenvId → Bool) (jobs : List Job) : List Job :=
  jobs.map fun job => if job.venvId.any gone then { job with venvId := none } else job

/-- Delete a job. Its executions, queue rows, schedules, edges, nodes, venvs and dependencies go with it. -/
def deleteRows (id : Uuid) (db : Db) : Db :=
  let ofJob (e : Uuid) : Bool := db.executions.any fun x => x.id = e && x.jobId = id
  let rest := ExecutionRepository.deleteRows ofJob db
  { rest with
    jobs := deselect (fun v => db.venvs.any fun venv => venv.id = v && venv.jobId = some id)
      (Rows.remove Job.id id rest.jobs)
    jobQueue := Rows.remove QueueEntry.jobId id rest.jobQueue
    jobSchedules := Rows.remove JobSchedule.jobId id rest.jobSchedules
    dagEdges := rest.dagEdges.filter fun edge => edge.upstreamJobId ≠ id && edge.downstreamJobId ≠ id
    dagNodeExecutions := Rows.remove DagNodeExecution.jobId id rest.dagNodeExecutions
    venvs := Rows.remove Venv.jobId (some id) rest.venvs
    jobDependencies := Rows.remove JobDependency.jobId id rest.jobDependencies }

def delete (id : Uuid) : Async Unit := do
  let affected ← execute (fun _ => .deleteJob id) fun db =>
    (Rows.hits Job.id id db.jobs, deleteRows id db)
  if affected = 0 then Task.throw (notFound id)

end JobRepository

end Serverust
