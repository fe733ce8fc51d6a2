import Serverust.Model.Repositories

/-!
# Job service

Creating, updating, cloning and deleting jobs. A request is checked by its validator, and a name by a
query before the write. An update reads the row, applies the request to it, and writes it back as a whole.
-/

namespace Serverust

open Resumption

/-- `SELECT COUNT(*) FROM jobs WHERE name = ?`, with `AND id != ?` if an id is excluded. -/
def JobRepository.nameExists (name : String) (excludeId : Option Uuid) : Async Bool :=
  select (.nameExists name excludeId) fun db =>
    0 < db.jobs.countP fun job => job.name = name && excludeId ≠ some job.id

def JobRepository.insertJob (job : Job) (db : Db) : Except SqlError (Unit × Db) :=
  if Rows.hits Job.id job.id db.jobs ≠ 0 then .error (.unique "jobs.id")
  else if selectsUnstored job db then .error .foreignKey
  else .ok ((), { db with jobs := db.jobs ++ [job] })

def JobRepository.create (job : Job) : Async Job := do
  sql (fun _ _ => .createJob job) fun _ => insertJob job
  getById job.id

/-- A `venv_id` that is no id of a venv is one that is not stored. -/
structure CreateJobRequest where
  name : String
  description : Option String
  pythonCode : String
  timeoutSeconds : Int
  memoryLimitMb : Int
  useCustomVenv : Bool
  venvId : Option VenvId
  priority : Int
  maxRetries : Int

/-- A `venv_id` of `some none` is the empty text, which clears the selection. -/
structure UpdateJobRequest where
  name : Option String
  description : Option String
  pythonCode : Option String
  timeoutSeconds : Option Int
  memoryLimitMb : Option Int
  useCustomVenv : Option Bool
  venvId : Option (Option VenvId)
  priority : Option Int
  maxRetries : Option Int
  enabled : Option Bool

/-- A field that a check rejects, with the message of the check. -/
abbrev Violation := String × String

/-- `#[validate(length(min, max))]`, which counts characters. -/
def checkLength (field message : String) (min max : Nat) : Option String → List Violation
  | some text => if min ≤ text.length ∧ text.length ≤ max then [] else [(field, message)]
  | none => []

/-- `#[validate(range(min, max))]`. -/
def checkRange (field message : String) (min max : Int) : Option Int → List Violation
  | some value => if min ≤ value ∧ value ≤ max then [] else [(field, message)]
  | none => []

def CreateJobRequest.violations (req : CreateJobRequest) : List Violation :=
  checkLength "name" "Name must be 1-100 characters" 1 100 (some req.name) ++
  checkLength "description" "Description must be at most 1000 characters" 0 1000 req.description ++
  checkLength "python_code" "Python code must be 1-102400 characters" 1 102400 (some req.pythonCode) ++
  checkRange "timeout_seconds" "Timeout must be 1-3600 seconds" 1 3600 (some req.timeoutSeconds) ++
  checkRange "memory_limit_mb" "Memory limit must be 16-4096 MB" 16 4096 (some req.memoryLimitMb) ++
  checkRange "priority" "Priority must be -100 to 100" (-100) 100 (some req.priority) ++
  checkRange "max_retries" "Max retries must be 0-10" 0 10 (some req.maxRetries)

def UpdateJobRequest.violations (req : UpdateJobRequest) : List Violation :=
  checkLength "name" "Name must be 1-100 characters" 1 100 req.name ++
  checkLength "description" "Description must be at most 1000 characters" 0 1000 req.description ++
  checkLength "python_code" "Python code must be 1-102400 characters" 1 102400 req.pythonCode ++
  checkRange "timeout_seconds" "Timeout must be 1-3600 seconds" 1 3600 req.timeoutSeconds ++
  checkRange "memory_limit_mb" "Memory limit must be 16-4096 MB" 16 4096 req.memoryLimitMb ++
  checkRange "priority" "Priority must be -100 to 100" (-100) 100 req.priority ++
  checkRange "max_retries" "Max retries must be 0-10" 0 10 req.maxRetries

/-- An order in which the hash map of the validation errors yields its fields. -/
structure FieldOrder where
  order : List Violation → List Violation
  perm : ∀ violations, (order violations).Perm violations

def formatValidationErrors (hash : FieldOrder) (violations : List Violation) : String :=
  if violations.isEmpty then "Validation failed"
  else String.intercalate "; " ((hash.order violations).map fun v => v.1 ++ ": " ++ v.2)

def Job.new (id : Uuid) (req : CreateJobRequest) (now : String) : Job where
  id := id
  name := req.name
  description := req.description
  pythonCode := req.pythonCode
  timeoutSeconds := req.timeoutSeconds
  memoryLimitMb := req.memoryLimitMb
  useCustomVenv := req.useCustomVenv
  venvId := req.venvId
  priority := req.priority
  maxRetries := req.maxRetries
  createdAt := now
  updatedAt := now
  enabled := false

/-- `Job::apply_update`, at the time `now`. -/
def Job.applyUpdate (job : Job) (req : UpdateJobRequest) (now : String) : Job :=
  { job with
    name := req.name.getD job.name
    description := req.description.or job.description
    pythonCode := req.pythonCode.getD job.pythonCode
    timeoutSeconds := req.timeoutSeconds.getD job.timeoutSeconds
    memoryLimitMb := req.memoryLimitMb.getD job.memoryLimitMb
    useCustomVenv := req.useCustomVenv.getD job.useCustomVenv
    venvId := req.venvId.getD job.venvId
    priority := req.priority.getD job.priority
    maxRetries := req.maxRetries.getD job.maxRetries
    enabled := req.enabled.getD job.enabled
    updatedAt := now }

namespace JobService

/-- `Job::new` and the write. -/
def insertNew (req : CreateJobRequest) : Async Job := do
  let now ← nowRfc3339
  let id ← newV4
  JobRepository.create (Job.new id req now)

def createJob (hash : FieldOrder) (req : CreateJobRequest) : Async Job := do
  if req.violations ≠ [] then
    Task.throw (.validation (formatValidationErrors hash req.violations))
  else if ← JobRepository.nameExists req.name none then
    Task.throw (.conflict ("Job with name '" ++ req.name ++ "' already exists"))
  else insertNew req

/-- The name a request sets, if another job has it. -/
def checkName (id : Uuid) (job : Job) (req : UpdateJobRequest) : Async Unit := do
  match req.name with
  | some newName =>
    if newName ≠ job.name then
      if ← JobRepository.nameExists newName (some id) then
        Task.throw (.conflict ("Job with name '" ++ newName ++ "' already exists"))
  | none => return ()

def updateJob (hash : FieldOrder) (id : Uuid) (req : UpdateJobRequest) : Async Job := do
  if req.violations ≠ [] then
    Task.throw (.validation (formatValidationErrors hash req.violations))
  else
    let job ← JobRepository.getById id
    checkName id job req
    let now ← nowRfc3339
    JobRepository.update (job.applyUpdate req now)

def deleteJob (id : Uuid) : Async Unit := JobRepository.delete id

def enableJob (hash : FieldOrder) (id : Uuid) : Async Job :=
  updateJob hash id
    { name := none, description := none, pythonCode := none, timeoutSeconds := none, memoryLimitMb := none
      useCustomVenv := none, venvId := none, priority := none, maxRetries := none, enabled := some true }

def disableJob (hash : FieldOrder) (id : Uuid) : Async Job :=
  updateJob hash id
    { name := none, description := none, pythonCode := none, timeoutSeconds := none, memoryLimitMb := none
      useCustomVenv := none, venvId := none, priority := none, maxRetries := none, enabled := some false }

/-- The jobs created, and the errors of the others. -/
def bulkCreateJobs (hash : FieldOrder) : List CreateJobRequest → Async (List Job × List String)
  | [] => return ([], [])
  | req :: requests => do
    let result ← (createJob hash req).attempt
    let (jobs, errors) ← bulkCreateJobs hash requests
    match result with
    | .ok job => return (job :: jobs, errors)
    | .error e => return (jobs, e.toString :: errors)

def cloneJob (id : Uuid) (newName : Option String) : Async Job := do
  let source ← JobRepository.getById id
  let clonedName := newName.getD (source.name ++ " (copy)")
  if ← JobRepository.nameExists clonedName none then
    Task.throw (.conflict ("Job with name '" ++ clonedName ++ "' already exists"))
  else
    insertNew
      { name := clonedName, description := source.description, pythonCode := source.pythonCode
        timeoutSeconds := source.timeoutSeconds, memoryLimitMb := source.memoryLimitMb
        useCustomVenv := source.useCustomVenv, venvId := source.venvId, priority := source.priority
        maxRetries := source.maxRetries }

end JobService

end Serverust
