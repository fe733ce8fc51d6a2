import Serverust.Library.Resumption
import Serverust.Model.Entities
import Serverust.Model.Time

/-!
# The shared state and its atomic actions

All tasks of the process share the database, the in-memory queue behind its mutex, the re-queue tasks
that sleep, and the clock. Each SQL statement, each acquisition and release of the mutex, and each
access to the heap under it is one action. An action reports what it did as an event.
-/

namespace Serverust

open Calendar Resumption

/-- The tables, as lists of rows in insertion order. -/
structure Db where
  jobs : List Job
  executions : List Execution
  executionLogs : List ExecutionLog
  jobQueue : List QueueEntry
  jobSchedules : List JobSchedule
  dags : List Dag
  dagEdges : List DagEdge
  dagRuns : List DagRun
  dagNodeExecutions : List DagNodeExecution
  venvs : List Venv := []
  jobDependencies : List JobDependency := []
  packageCache : List PackageCache := []

/-- What the process keeps on disk: the named venvs, the main venv, and its packages with their versions. -/
structure Disk where
  venvDirs : List String := []
  mainVenv : Bool := false
  installed : List (String × String) := []

/-- `fault` is set by the environment: the next statement fails with that text. `nextUuid` is the next
id `Uuid::new_v4` returns, so no id is returned twice. -/
structure World where
  db : Db
  memoryQueue : MemoryQueue
  locked : Bool
  spawned : List RequeueTask
  now : DateTime
  nextUuid : Uuid
  fault : Option String
  disk : Disk := {}

def Db.empty : Db where
  jobs := []
  executions := []
  executionLogs := []
  jobQueue := []
  jobSchedules := []
  dags := []
  dagEdges := []
  dagRuns := []
  dagNodeExecutions := []

/-- The process as it starts on a database. -/
def World.start (db : Db) (now : DateTime) (nextUuid : Uuid) : World where
  db := db
  memoryQueue := .empty
  locked := false
  spawned := []
  now := now
  nextUuid := nextUuid
  fault := none

inductive SqlError where
  | unique (column : String)
  | foreignKey
  | fault (text : String)
deriving DecidableEq, Repr

def SqlError.toString : SqlError → String
  | .unique column => "UNIQUE constraint failed: " ++ column
  | .foreignKey => "FOREIGN KEY constraint failed"
  | .fault text => text

/-- A statement on the tables of the DAGs that succeeded, with the rows it read. -/
inductive DagStmt where
  | getDag (id : Uuid) (row : Option Dag)
  | getEdges (dagId : Uuid) (edges : List DagEdge)
  | getEdge (id : Uuid) (row : Option DagEdge)
  | createEdge (edge : DagEdge)
  | deleteEdge (id : Uuid)
  | createRun (run : DagRun)
  | getRun (id : Uuid) (row : Option DagRun)
  | updateRun (run : DagRun)
  | createNode (node : DagNodeExecution)
  | findNode (executionId : Uuid) (row : Option DagNodeExecution)
  | getNodes (runId : Uuid) (nodes : List DagNodeExecution)
  | updateNode (node : DagNodeExecution)
deriving DecidableEq, Repr

/-- A statement on the schedules that succeeded, with the rows it read. -/
inductive ScheduleStmt where
  | getDue (rows : List JobSchedule)
  | getByJob (jobId : Uuid) (row : Option JobSchedule)
  | getById (id : Uuid) (row : Option JobSchedule)
  | create (schedule : JobSchedule)
  | update (schedule : JobSchedule)
  | delete (id : Uuid)
  | markTriggered (id : Uuid) (nextRunAt : String)
deriving DecidableEq, Repr

/-- A statement that succeeded, with the row it read, or the row it hit as it was before. -/
inductive Stmt where
  | enqueue (entry : QueueEntry)
  | getByExecution (executionId : Uuid) (row : Option QueueEntry)
  | updateEntry (entry : QueueEntry)
  | removeByExecution (executionId : Uuid)
  | requeue (id : Uuid) (row : Option QueueEntry)
  | dequeueAtomic (row : Option QueueEntry)
  | resetProcessing
  | getAllQueued (rows : List QueueEntry)
  | cleanup (deleted : Nat)
  | getExecution (id : Uuid) (row : Option Execution)
  | updateExecution (execution : Execution)
  | createExecution (execution : Execution)
  | deleteExecutions (ids : List Uuid)
  | getJob (id : Uuid) (row : Option Job)
  | nameExists (name : String) (excludeId : Option Uuid) (found : Bool)
  | createJob (job : Job)
  | updateJob (job : Job)
  | deleteJob (id : Uuid)
  | dag (stmt : DagStmt)
  | schedule (stmt : ScheduleStmt)
  | other
deriving DecidableEq, Repr

/-- What one action did. `dequeued` and `removed` are the return of `dequeue` and the successful return
of `remove`, which release the mutex. `executed` is a worker's turn from running an execution to
writing its outcome, and `released` its turn from the queue entry to the DAG engine. `pip` is a command line
of pip. `returned` is the end of a task; `quiet` touches nothing another task can see. -/
inductive Event where
  | quiet
  | lock
  | unlock
  | dequeued (item : Option QueueItem)
  | removed (executionId : Uuid)
  | pop (item : Option QueueItem)
  | push (item : QueueItem)
  | drained (executionId : Uuid)
  | spawned (task : RequeueTask)
  | executed (executionId : Uuid)
  | released (executionId : Uuid)
  | pip (args : List String)
  | returned
  | sql (stmt : Stmt)
  | failed (error : SqlError)
deriving DecidableEq, Repr

/-- An `async fn` that returns a `Result<_, AppError>`. -/
abbrev Async (α : Type) := Task Event World AppError α

/-! ### SQL statements -/

/-- What a statement does at this time: it fails if the environment says so. -/
def World.query {α : Type} (w : World) (statement : DateTime → Db → Except SqlError (α × Db)) :
    Except SqlError (α × Db) :=
  match w.fault with
  | some text => .error (.fault text)
  | none => statement w.now w.db

/-- `.map_err(|e| AppError::Database(e.to_string()))`. -/
def databaseError (e : SqlError) : AppError := .database e.toString

/-- Execute one statement. A statement that fails changes nothing. -/
def sql {α : Type} (stmt : Db → α → Stmt) (statement : DateTime → Db → Except SqlError (α × Db))
    (mapErr : SqlError → AppError := databaseError) : Async α :=
  Task.action
    (fun w => match w.query statement with
      | .ok (value, _) => .sql (stmt w.db value)
      | .error e => .failed e)
    (fun w => match w.query statement with
      | .ok (value, db) => (.ok value, { w with db })
      | .error e => (.error (mapErr e), w))

/-- Execute a `SELECT`. -/
def select {α : Type} (stmt : α → Stmt) (read : Db → α) : Async α :=
  sql (fun _ value => stmt value) fun _ db => .ok (read db, db)

/-- Execute an `UPDATE` or `DELETE` that cannot break a constraint, for its number of rows. -/
def execute (stmt : Db → Stmt) (write : Db → Nat × Db) : Async Nat :=
  sql (fun db _ => stmt db) fun _ db => .ok (write db)

/-! ### Local actions -/

/-- An action that cannot fail. -/
def perform {α : Type} (event : World → Event) (act : World → α × World) : Async α :=
  Task.action event fun w => (.ok (act w).1, (act w).2)

/-- `Uuid::new_v4`. -/
def newV4 : Async Uuid :=
  perform (fun _ => .quiet) fun w => (w.nextUuid, { w with nextUuid := w.nextUuid + 1 })

/-- `Utc::now().to_rfc3339()`. -/
def nowRfc3339 : Async String := perform (fun _ => .quiet) fun w => (toRfc3339 w.now, w)

/-- `Option::ok_or_else(..)?`. -/
def okOr {α : Type} (value : Option α) (e : AppError) : Async α :=
  match value with
  | some a => pure a
  | none => Task.throw e

/-! ### The in-memory queue and its mutex -/

/-- `memory_queue.lock().await`. -/
def lock : Async Unit :=
  Prog.step (fun w => !w.locked) (fun _ => .lock) (fun w => { w with locked := true })
    fun _ => .ret (.ok ())

def release (event : Event) : Async Unit :=
  perform (fun _ => event) fun w => ((), { w with locked := false })

/-- Hold the mutex while `body` runs. The guard is dropped as the function returns, which is the event
`done` of the result. -/
def withLock {α : Type} (done : Except AppError α → Event) (body : Async α) : Async α := do
  lock
  let result ← body.attempt
  release (done result)
  match result with
  | .ok value => return value
  | .error e => Task.throw e

def queueLen : Async Nat := perform (fun _ => .quiet) fun w => (w.memoryQueue.len, w)

def queuePush (item : QueueItem) : Async Unit :=
  perform (fun _ => .push item) fun w => ((), { w with memoryQueue := w.memoryQueue.push item })

def queuePop : Async (Option QueueItem) :=
  perform (fun w => .pop w.memoryQueue.pop.1) fun w =>
    (w.memoryQueue.pop.1, { w with memoryQueue := w.memoryQueue.pop.2 })

/-- `queue.drain().filter(|i| i.execution_id != execution_id)`, and push the rest back. -/
def queueDrainOther (executionId : Uuid) : Async Unit :=
  perform (fun _ => .drained executionId) fun w =>
    ((), { w with memoryQueue :=
      MaxHeap.ofList (w.memoryQueue.items.filter fun item => item.executionId != executionId) })

/-- `tokio::spawn` of a task that first sleeps. -/
def spawnRequeue (task : RequeueTask) : Async Unit :=
  perform (fun _ => .spawned task) fun w => ((), { w with spawned := w.spawned ++ [task] })

end Serverust
