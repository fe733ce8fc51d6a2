import Serverust.Library.MaxHeap
import Mathlib.Algebra.Group.Nat.Defs
import Mathlib.Data.Prod.Lex
import Mathlib.Data.Int.Order.Basic

/-!
# Rows and items

The records of the database tables and the in-memory queue item, with the fields the modelled
functions read or write. Timestamps are text, as the columns are.
-/

namespace Serverust

/-- A `Uuid::new_v4`, as the 128-bit number its canonical text spells. The text has a fixed length, so
it is ordered as the number is. -/
abbrev Uuid := Nat

/-- The last `width` hexadecimal digits of a number. -/
def hex : Nat → Nat → List Char
  | 0, _ => []
  | width + 1, n => hex width (n / 16) ++ [Nat.digitChar (n % 16)]

/-- The canonical text: 32 hexadecimal digits in groups of 8, 4, 4, 4 and 12. -/
def Uuid.text (id : Uuid) : String :=
  String.ofList (hex 8 (id / 16 ^ 24) ++ '-' :: (hex 4 (id / 16 ^ 20) ++ '-' :: (hex 4 (id / 16 ^ 16) ++
    '-' :: (hex 4 (id / 16 ^ 12) ++ '-' :: hex 12 id))))

inductive AppError where
  | notFound (message : String)
  | badRequest (message : String)
  | validation (message : String)
  | database (message : String)
  | internal (message : String)
  | conflict (message : String)
deriving DecidableEq, Repr

/-- `{}` of an error. -/
def AppError.toString : AppError → String
  | .notFound message => "Not found: " ++ message
  | .badRequest message => "Bad request: " ++ message
  | .validation message => "Validation error: " ++ message
  | .database message => "Database error: " ++ message
  | .internal message => "Internal error: " ++ message
  | .conflict message => "Conflict: " ++ message

/-! ### Jobs and executions -/

/-- The main venv has a fixed id. -/
inductive VenvId where
  | main
  | uuid (id : Uuid)
deriving DecidableEq, Repr

def VenvId.text : VenvId → String
  | .main => "main-venv"
  | .uuid id => id.text

structure Job where
  id : Uuid
  name : String
  description : Option String
  pythonCode : String
  timeoutSeconds : Int
  memoryLimitMb : Int
  useCustomVenv : Bool
  venvId : Option VenvId
  priority : Int
  maxRetries : Int
  createdAt : String
  updatedAt : String
  enabled : Bool
deriving DecidableEq, Repr

inductive ExecutionStatus where
  | pending | queued | running | success | failed | timeout | cancelled
deriving DecidableEq, Repr

namespace ExecutionStatus

def asStr : ExecutionStatus → String
  | .pending => "pending"
  | .queued => "queued"
  | .running => "running"
  | .success => "success"
  | .failed => "failed"
  | .timeout => "timeout"
  | .cancelled => "cancelled"

def isTerminal : ExecutionStatus → Bool
  | .success | .failed | .timeout | .cancelled => true
  | .pending | .queued | .running => false

end ExecutionStatus

structure Execution where
  id : Uuid
  jobId : Uuid
  status : ExecutionStatus
  inputData : Option String
  outputData : Option String
  errorMessage : Option String
  retryCount : Int
  workerId : Option String
  startedAt : Option String
  completedAt : Option String
  createdAt : String
deriving DecidableEq, Repr

inductive LogType where
  | stdout | stderr | system
deriving DecidableEq, Repr

structure ExecutionLog where
  id : Uuid
  executionId : Uuid
  logType : LogType
  logContent : String
  createdAt : String
deriving DecidableEq, Repr

/-! ### The queue -/

inductive QueueStatus where
  | queued | processing | completed | failed | deadLetter
deriving DecidableEq, Repr

/-- A row of `job_queue`. -/
structure QueueEntry where
  id : Uuid
  executionId : Uuid
  jobId : Uuid
  priority : Int
  status : QueueStatus
  queuedAt : String
  startedAt : Option String
  completedAt : Option String
deriving DecidableEq, Repr

/-- An item of the in-memory heap, with all a worker needs to run the execution. -/
structure QueueItem where
  executionId : Uuid
  jobId : Uuid
  priority : Int
  pythonCode : String
  timeoutSeconds : Int
  memoryLimitMb : Int
  inputData : Option String
  useCustomVenv : Bool
deriving DecidableEq, Repr

/-- Every caller of `QueueItem::new` takes all fields but the priority from the execution and its job. -/
def QueueItem.new (execution : Execution) (job : Job) (priority : Int) : QueueItem where
  executionId := execution.id
  jobId := job.id
  priority := priority
  pythonCode := job.pythonCode
  timeoutSeconds := job.timeoutSeconds
  memoryLimitMb := job.memoryLimitMb
  inputData := execution.inputData
  useCustomVenv := job.useCustomVenv

/-- `impl Ord for QueueItem`: by priority, then by execution id. -/
def QueueItem.key (item : QueueItem) : ℤ ×ₗ ℕ := toLex (item.priority, item.executionId)

/-- `BinaryHeap<QueueItem>`. -/
abbrev MemoryQueue := MaxHeap QueueItem.key

/-- The task `mark_failed_with_retry` spawns, with what it captured. -/
structure RequeueTask where
  entryId : Uuid
  executionId : Uuid
deriving DecidableEq, Repr

/-! ### DAGs -/

inductive OnFailure where
  | stop | continue | retry
deriving DecidableEq, Repr

structure Dag where
  id : Uuid
  name : String
  enabled : Bool
  maxConcurrentNodes : Int
  onFailure : OnFailure
deriving DecidableEq, Repr

/-- The condition of an edge. `add_edge` admits the first four texts; any other reads as `success`. -/
inductive EdgeCondition where
  | success | failure | always | skipped
  | other (text : String)
deriving DecidableEq, Repr

structure DagEdge where
  id : Uuid
  dagId : Uuid
  upstreamJobId : Uuid
  downstreamJobId : Uuid
  condition : EdgeCondition
  createdAt : String
deriving DecidableEq, Repr

/-- The status of a DAG run; `partially` is the text `partial`. -/
inductive RunStatus where
  | pending | running | success | failed | partially | cancelled
deriving DecidableEq, Repr

namespace RunStatus

def asStr : RunStatus → String
  | .pending => "pending"
  | .running => "running"
  | .success => "success"
  | .failed => "failed"
  | .partially => "partial"
  | .cancelled => "cancelled"

def isTerminal : RunStatus → Bool
  | .success | .failed | .partially | .cancelled => true
  | .pending | .running => false

end RunStatus

structure DagRun where
  id : Uuid
  dagId : Uuid
  status : RunStatus
  triggerType : String
  startedAt : Option String
  completedAt : Option String
  totalNodes : Int
  completedNodes : Int
  failedNodes : Int
  createdAt : String
deriving DecidableEq, Repr

inductive NodeStatus where
  | waiting | ready | running | success | failed | skipped | cancelled
deriving DecidableEq, Repr

namespace NodeStatus

/-- `matches!(status, "success" | "failed" | "skipped" | "cancelled")`. -/
def isTerminal : NodeStatus → Bool
  | .success | .failed | .skipped | .cancelled => true
  | .waiting | .ready | .running => false

end NodeStatus

structure DagNodeExecution where
  id : Uuid
  dagRunId : Uuid
  jobId : Uuid
  executionId : Option Uuid
  status : NodeStatus
  startedAt : Option String
  completedAt : Option String
  createdAt : String
deriving DecidableEq, Repr

/-! ### Schedules -/

structure JobSchedule where
  id : Uuid
  jobId : Uuid
  cronExpression : String
  nextRunAt : Option String
  lastRunAt : Option String
  enabled : Bool
  createdAt : String
  updatedAt : String
deriving DecidableEq, Repr

/-! ### Virtual environments and packages -/

inductive VenvType where
  | main | custom
deriving DecidableEq, Repr

inductive VenvStatus where
  | creating | ready | updating | failed | deleted
deriving DecidableEq, Repr

structure Venv where
  id : VenvId
  venvType : VenvType
  jobId : Option Uuid
  path : String
  pythonVersion : Option String
  status : VenvStatus
  sizeBytes : Option Int
  packageCount : Int
  errorMessage : Option String
  createdAt : String
  updatedAt : String
  lastUsedAt : Option String
deriving DecidableEq, Repr

structure JobDependency where
  id : Uuid
  jobId : Uuid
  packageName : String
  versionConstraint : String
  createdAt : String
deriving DecidableEq, Repr

inductive PackageStatus where
  | installing | ready | failed
deriving DecidableEq, Repr

/-- An entry of a venv other than the main one names it by `venvId`. -/
structure PackageCache where
  id : Uuid
  venvType : VenvType
  venvId : Option String
  packageName : String
  version : String
  installationPath : String
  sizeBytes : Option Int
  status : PackageStatus
  errorMessage : Option String
  installedAt : String
  lastUsedAt : Option String
  useCount : Int
deriving DecidableEq, Repr

end Serverust
