import Serverust.Model.JobService

/-!
# Virtual environments

The handlers of the standalone venvs, and the one that toggles the venv of a job. A venv is a directory on
disk and a row of the table.
-/

namespace Serverust

open Resumption

/-! ### Text -/

/-- `char::is_whitespace`, the Unicode property `White_Space`. -/
def isWhitespace (c : Char) : Bool :=
  let n := c.toNat
  (9 ≤ n && n ≤ 13) || n == 0x20 || n == 0x85 || n == 0xA0 || n == 0x1680 || (0x2000 ≤ n && n ≤ 0x200A) ||
    n == 0x2028 || n == 0x2029 || n == 0x202F || n == 0x205F || n == 0x3000

/-- `str::trim`. -/
def trim (s : String) : String :=
  String.ofList ((s.toList.dropWhile isWhitespace).reverse.dropWhile isWhitespace).reverse

/-! ### The table -/

namespace VenvRepository

def insertVenv (venv : Venv) (db : Db) : Except SqlError (Unit × Db) :=
  if Rows.hits Venv.id venv.id db.venvs ≠ 0 then .error (.unique "venvs.id")
  else if venv.jobId.any fun jobId => Rows.hits Job.id jobId db.jobs = 0 then .error .foreignKey
  else .ok ((), { db with venvs := db.venvs ++ [venv] })

def getById (id : VenvId) : Async Venv := do
  let row ← select (fun _ => .other) fun db => Rows.lookup Venv.id id db.venvs
  okOr row (.notFound ("Venv not found: " ++ id.text))

def create (venv : Venv) : Async Venv := do
  sql (fun _ _ => .other) fun _ => insertVenv venv
  getById venv.id

def getMain : Async (Option Venv) :=
  select (fun _ => .other) fun db => Rows.lookup Venv.venvType .main db.venvs

def getByJob (jobId : Uuid) : Async (Option Venv) :=
  select (fun _ => .other) fun db => Rows.lookup Venv.jobId (some jobId) db.venvs

/-- Delete a venv. The jobs that have selected it lose the selection. -/
def deleteRows (id : VenvId) (db : Db) : Db :=
  { db with
    venvs := Rows.remove Venv.id id db.venvs
    jobs := JobRepository.deselect (fun v => v = id) db.jobs }

def delete (id : VenvId) : Async Unit := do
  let affected ← execute (fun _ => .other) fun db => (Rows.hits Venv.id id db.venvs, deleteRows id db)
  if affected = 0 then Task.throw (.notFound ("Venv not found: " ++ id.text)) else return ()

end VenvRepository

namespace Venv

/-- A named venv that belongs to no job. -/
def newStandalone (id : Uuid) (path : String) (pythonVersion : Option String) (now : String) : Venv where
  id := .uuid id
  venvType := .custom
  jobId := none
  path := path
  pythonVersion := pythonVersion
  status := .creating
  sizeBytes := none
  packageCount := 0
  errorMessage := none
  createdAt := now
  updatedAt := now
  lastUsedAt := none

def markReady (venv : Venv) (now : String) : Venv := { venv with status := .ready, updatedAt := now }

end Venv

namespace VenvService

def deleteVenv (id : VenvId) : Async Unit := do
  let venv ← VenvRepository.getById id
  if venv.venvType = .main then
    Task.throw (.badRequest "Cannot delete main venv through this endpoint")
  else VenvRepository.delete id

def createStandaloneVenv (venv : Venv) : Async Venv := VenvRepository.create venv

end VenvService

/-! ### The disk -/

/-- `succeeds` says which commands run, `versionOf` what `python --version` prints in a venv, and
`mainVenvError` how the main venv fails to be made. They depend on the host. -/
structure VenvManager where
  basePath : String
  pythonExecutable : String
  succeeds : String → Bool
  versionOf : String → Option String
  mainVenvError : Option String := none

namespace VenvManager

variable (manager : VenvManager)

/-- `base_path.join(name)`, for a name that is not empty and has no separator. -/
def namedVenvPath (name : String) : String :=
  if manager.basePath = "" ∨ manager.basePath.toList.getLast? = some '/' then manager.basePath ++ name
  else manager.basePath ++ "/" ++ name

def mainVenvPath : String := manager.namedVenvPath "main"

def mainVenvExists : Async Bool := perform (fun _ => .quiet) fun w => (w.disk.mainVenv, w)

def createMainVenv : Async (Except String Unit) :=
  perform (fun _ => .quiet) fun w =>
    match manager.mainVenvError with
    | some e => (.error e, w)
    | none => (.ok (), { w with disk := { w.disk with mainVenv := true } })

def namedVenvExists (name : String) : Async Bool :=
  perform (fun _ => .quiet) fun w => (w.disk.venvDirs.contains (manager.namedVenvPath name), w)

/-- `python -m venv` is taken to succeed. -/
def createNamedVenvWithPython (name _pythonExe : String) : Async (Except String String) :=
  perform (fun _ => .quiet) fun w =>
    let path := manager.namedVenvPath name
    if w.disk.venvDirs.contains path then
      (.error ("Virtual environment '" ++ name ++ "' already exists"), w)
    else (.ok path, { w with disk := { w.disk with venvDirs := w.disk.venvDirs ++ [path] } })

/-- The version-specific commands that are tried for a version. -/
def candidates (version : String) : List String :=
  match (trim version).splitOn "." with
  | major :: minor :: _ => ["python" ++ major ++ "." ++ minor]
  | [only] =>
    if only.utf8ByteSize ≤ 3 ∧ only.toList.all Char.isDigit ∧ 4 ≤ only.toNat?.getD 0 then
      ["python3." ++ only, "python" ++ only]
    else ["python" ++ only]
  | [] => ["python" ++ trim version]

def resolvePythonForVersion (version : String) : Option String :=
  (candidates version).find? manager.succeeds

end VenvManager

/-! ### The handlers -/

structure CreateVenvRequest where
  name : String
  pythonVersion : Option String

structure JobVenvInfo where
  jobId : Uuid
  useCustomVenv : Bool
  venv : Option Venv
  mainVenv : Option Venv

namespace Api

variable (manager : VenvManager)

/-- The command a request asks for. -/
def pythonExe (req : CreateVenvRequest) : Except AppError String :=
  match req.pythonVersion with
  | some versionHint =>
    match manager.resolvePythonForVersion versionHint with
    | some command => .ok command
    | none => .error (.badRequest ("No Python executable found for version '" ++ versionHint ++ "'"))
  | none => .ok manager.pythonExecutable

/-- `POST /venvs`. -/
def createVenv (req : CreateVenvRequest) : Async Venv := do
  let name := trim req.name
  if name = "" then Task.throw (.badRequest "Venv name cannot be empty")
  else if name = "main" then Task.throw (.badRequest "'main' is a reserved name")
  else if name.toList.any fun c => c = '/' || c = '\\' || c = '.' then
    Task.throw (.badRequest "Venv name must not contain path separators or dots")
  else if ← manager.namedVenvExists name then
    Task.throw (.badRequest ("Virtual environment '" ++ name ++ "' already exists on disk"))
  else
    match pythonExe manager req with
    | .error e => Task.throw e
    | .ok pythonExe =>
      match ← manager.createNamedVenvWithPython name pythonExe with
      | .error e => Task.throw (.internal e)
      | .ok venvPath =>
        let pythonVersion := (manager.versionOf venvPath).or req.pythonVersion
        let now ← nowRfc3339
        let id ← newV4
        let venv := Venv.newStandalone id venvPath pythonVersion now
        let ready ← nowRfc3339
        VenvService.createStandaloneVenv (venv.markReady ready)

/-- `DELETE /venvs/{id}`. -/
def deleteVenv (id : VenvId) : Async Unit := VenvService.deleteVenv id

/-- `POST /jobs/{id}/venv/toggle`. -/
def toggleJobVenv (hash : FieldOrder) (jobId : Uuid) : Async JobVenvInfo := do
  let job ← JobRepository.getById jobId
  let updatedJob ← JobService.updateJob hash jobId
    { name := none, description := none, pythonCode := none, timeoutSeconds := none, memoryLimitMb := none
      useCustomVenv := some (!job.useCustomVenv), venvId := none, priority := none, maxRetries := none
      enabled := none }
  let customVenv ← VenvRepository.getByJob jobId
  let mainVenv ← VenvRepository.getMain
  return { jobId, useCustomVenv := updatedJob.useCustomVenv
           venv := if updatedJob.useCustomVenv then customVenv else none, mainVenv }

end Api

end Serverust
