import Mathlib.Data.List.Sort
import Serverust.Model.Api
import Serverust.Model.VenvService

/-!
# Packages of the main venv

The cache of packages and the dependencies of jobs as the database keeps them, the command lines of pip, and
the service that runs pip and writes down what it did. The lock of the main venv is left out: it makes the
commands of one installation follow each other.
-/

namespace Serverust

open Resumption

/-! ### Text -/

/-- `str::starts_with`. -/
def startsWith (s pat : String) : Bool := pat.toList.isPrefixOf s.toList

/-- The text without the occurrences of `pat`, from left to right. The first `skip` characters belong to one. -/
def removeAll (pat : List Char) : Nat → List Char → List Char
  | _, [] => []
  | skip + 1, _ :: rest => removeAll pat skip rest
  | 0, c :: rest =>
    if pat.isPrefixOf (c :: rest) then removeAll pat (pat.length - 1) rest else c :: removeAll pat 0 rest

/-- `str::lines`, with `\n` alone at the end of a line. -/
def lines : List Char → List (List Char)
  | [] => []
  | c :: rest =>
    if c = '\n' then [] :: lines rest
    else match lines rest with
      | [] => [[c]]
      | line :: more => (c :: line) :: more

/-! ### The tables -/

namespace PackageRepository

/-- `INSERT .. ON CONFLICT(job_id, package_name) DO UPDATE`. -/
def upsertDependency (dep : JobDependency) (db : Db) : Except SqlError (Unit × Db) :=
  let same (row : JobDependency) : Bool := row.jobId = dep.jobId && row.packageName = dep.packageName
  if Rows.hits JobDependency.id dep.id db.jobDependencies ≠ 0 then .error (.unique "job_dependencies.id")
  else if db.jobDependencies.any same then
    .ok ((), { db with
      jobDependencies := db.jobDependencies.map fun row =>
        if same row then { row with versionConstraint := dep.versionConstraint } else row })
  else if Rows.hits Job.id dep.jobId db.jobs = 0 then .error .foreignKey
  else .ok ((), { db with jobDependencies := db.jobDependencies ++ [dep] })

def addDependency (dep : JobDependency) : Async JobDependency := do
  sql (fun _ _ => .other) fun _ => upsertDependency dep
  return dep

def getDependencies (jobId : Uuid) : Async (List JobDependency) :=
  select (fun _ => .other) fun db =>
    (db.jobDependencies.filter fun dep => dep.jobId = jobId).insertionSort fun a b =>
      a.packageName ≤ b.packageName

/-- The rows of one venv. -/
def inVenv (venvType : VenvType) (venvId : Option String) (row : PackageCache) : Bool :=
  row.venvType = venvType && row.venvId = venvId

/-- The row for one version of a package in one venv. -/
def isEntry (venvType : VenvType) (venvId : Option String) (name version : String) (row : PackageCache) : Bool :=
  inVenv venvType venvId row && row.packageName = name && row.version = version

/-- `UPDATE package_cache SET ..` for the main venv. -/
def updateCache (cache : PackageCache) (db : Db) : Nat × Db :=
  let hit := isEntry cache.venvType none cache.packageName cache.version
  (db.packageCache.countP hit,
    { db with
      packageCache := db.packageCache.map fun row =>
        if hit row then
          { row with
            status := cache.status
            errorMessage := cache.errorMessage
            sizeBytes := cache.sizeBytes
            lastUsedAt := cache.lastUsedAt
            useCount := cache.useCount
            installationPath := cache.installationPath }
        else row })

def insertCache (cache : PackageCache) (db : Db) : Except SqlError (Unit × Db) :=
  if Rows.hits PackageCache.id cache.id db.packageCache ≠ 0 then .error (.unique "package_cache.id")
  else .ok ((), { db with packageCache := db.packageCache ++ [cache] })

/-- `INSERT .. ON CONFLICT(package_name, version, venv_type, venv_id) DO UPDATE`, for a venv with an id. The
named columns are checked before the primary key. -/
def insertOrUpdate (cache : PackageCache) (db : Db) : Except SqlError (Unit × Db) :=
  let hit := isEntry cache.venvType cache.venvId cache.packageName cache.version
  if db.packageCache.any hit then
    .ok ((), { db with
      packageCache := db.packageCache.map fun row =>
        if hit row then
          { row with
            status := cache.status
            errorMessage := cache.errorMessage
            sizeBytes := cache.sizeBytes
            lastUsedAt := cache.lastUsedAt
            useCount := cache.useCount }
        else row })
  else if Rows.hits PackageCache.id cache.id db.packageCache ≠ 0 then .error (.unique "package_cache.id")
  else .ok ((), { db with packageCache := db.packageCache ++ [cache] })

/-- Two rows whose `venv_id` is `NULL` do not conflict, so the main venv has an update and then an insert. -/
def upsertCache (cache : PackageCache) : Async PackageCache := do
  match cache.venvId with
  | none =>
    let updated ← execute (fun _ => .other) (updateCache cache)
    if updated = 0 then
      sql (fun _ _ => .other) fun _ => insertCache cache
      return cache
    else return cache
  | some _ =>
    sql (fun _ _ => .other) fun _ => insertOrUpdate cache
    return cache

def getCacheByVenv (venvType : VenvType) (venvId : Option String) : Async (List PackageCache) :=
  select (fun _ => .other) fun db =>
    (db.packageCache.filter (inVenv venvType venvId)).insertionSort fun a b => a.packageName ≤ b.packageName

/-- The statement has no `ORDER BY`. The rows of the main venv come by the index on `(package_name, version)`,
those of another venv in the order in which they were stored. -/
def getCachedPackage (venvType : VenvType) (venvId : Option String) (packageName : String) :
    Async (Option PackageCache) :=
  select (fun _ => .other) fun db =>
    let found := db.packageCache.filter fun row => inVenv venvType venvId row && row.packageName = packageName
    match venvId with
    | none => (found.insertionSort fun a b => a.version ≤ b.version).head?
    | some _ => found.head?

def deleteCache (venvType : VenvType) (venvId : Option String) (packageName version : String) : Async Unit := do
  let _ ← execute (fun _ => .other) fun db =>
    let hit := isEntry venvType venvId packageName version
    (db.packageCache.countP hit, { db with packageCache := db.packageCache.filter fun row => !hit row })
  return ()

end PackageRepository

/-! ### pip -/

/-- What a command printed, and whether its status is a success. -/
structure PipOutput where
  success : Bool
  stdout : String
  stderr : String

/-- A command that took some seconds, and could not be run or gave an output. -/
structure PipRun where
  seconds : Nat
  result : Except String PipOutput

/-- What pip does with the arguments of a command and the packages of the venv. -/
abbrev Pip := List String → List (String × String) → PipRun × List (String × String)

structure InstallResult where
  success : Bool
  packageName : String
  version : Option String
  error : Option String

structure PackageManager where
  pipTimeout : Nat
  useCache : Bool
  cacheDir : Option String
  pip : Pip

namespace PackageManager

def operators : List String := ["==", ">=", "<=", ">", "<", "~=", "!="]

/-- The requirement that pip is given. -/
def packageSpec (name : String) (versionConstraint : Option String) : String :=
  match versionConstraint with
  | some constraint =>
    if constraint = "*" then name
    else if operators.any (startsWith constraint) then name ++ constraint
    else name ++ "==" ++ constraint
  | none => name

variable (manager : PackageManager)

def installArgs (name : String) (versionConstraint : Option String) : List String :=
  ["install", packageSpec name versionConstraint, "--no-input"] ++
    if manager.useCache then (manager.cacheDir.map fun dir => "--cache-dir=" ++ dir).toList
    else ["--no-cache-dir"]

def uninstallArgs (name : String) : List String := ["uninstall", name, "-y"]

def showArgs (name : String) : List String := ["show", name]

/-- Run a command of pip. -/
def run (args : List String) : Async PipRun :=
  perform (fun _ => .pip args) fun w =>
    ((manager.pip args w.disk.installed).1,
      { w with disk := { w.disk with installed := (manager.pip args w.disk.installed).2 } })

/-- The version in what `pip show` printed. -/
def shownVersion (stdout : String) : Option String :=
  ((lines stdout.toList).find? fun line => "Version:".toList.isPrefixOf line).map fun line =>
    trim (String.ofList (removeAll "Version:".toList 0 line))

def getInstalledVersion (name : String) : Async (Option String) := do
  let shown ← manager.run (showArgs name)
  match shown.result with
  | .ok output => return if output.success then shownVersion output.stdout else none
  | .error _ => return none

def installPackage (name : String) (versionConstraint : Option String) : Async InstallResult := do
  let installed ← manager.run (manager.installArgs name versionConstraint)
  if manager.pipTimeout < installed.seconds then
    return ⟨false, name, none, some "Installation timed out"⟩
  else
    match installed.result with
    | .ok output =>
      if output.success then
        let version ← manager.getInstalledVersion name
        return ⟨true, name, version, none⟩
      else return ⟨false, name, none, some output.stderr⟩
    | .error e => return ⟨false, name, none, some ("Failed to run pip: " ++ e)⟩

def uninstallPackage (name : String) : Async InstallResult := do
  let uninstalled ← manager.run (uninstallArgs name)
  match uninstalled.result with
  | .ok output =>
    if output.success then return ⟨true, name, none, none⟩
    else return ⟨false, name, none, some output.stderr⟩
  | .error e => return ⟨false, name, none, some ("Failed to run pip: " ++ e)⟩

end PackageManager

/-! ### The service -/

structure InstallPackageRequest where
  name : String
  version : Option String

/-- The validator that the name of an `InstallPackageRequest` declares, and no handler calls.
`isAlphanumeric` is `char::is_alphanumeric`. -/
def validatePackageName (isAlphanumeric : Char → Bool) (name : String) : Bool :=
  !name.toList.isEmpty && (name.toList.head?.map isAlphanumeric).getD false &&
    name.toList.all fun c => isAlphanumeric c || c = '_' || c = '-' || c = '.'

structure AddDependencyRequest where
  packageName : String
  versionConstraint : Option String

/-- What the cache says about one dependency. -/
inductive InstallState where
  | ready | installing | failed | notInstalled
deriving DecidableEq, Repr

structure PackageInstallStatus where
  name : String
  required : String
  installed : Option String
  status : InstallState
deriving DecidableEq, Repr

inductive DependencyState where
  | noDependencies | ready | pending
deriving DecidableEq, Repr

structure DependencyStatusResponse where
  jobId : Uuid
  status : DependencyState
  packages : List PackageInstallStatus
deriving DecidableEq, Repr

/-- `toLowercase` is `str::to_lowercase`. -/
structure PackageService where
  workers : Option (VenvManager × PackageManager)
  conflictStrategy : String
  toLowercase : String → String

namespace PackageService

variable (service : PackageService)

/-- Another version of the package is ready. -/
def conflicts (existing : PackageCache) (requested : String) : Bool :=
  existing.status = .ready && existing.version != requested && requested != "*"

/-- Only the strategy "fail" refuses a conflict. -/
def checkConflict (req : InstallPackageRequest) : Async Unit := do
  match req.version with
  | none => return ()
  | some requested =>
    match ← (PackageRepository.getCachedPackage .main none req.name).attempt with
    | .ok (some existing) =>
      if conflicts existing requested && service.conflictStrategy = "fail" then
        Task.throw (.validation ("Package conflict: " ++ req.name ++ " v" ++ existing.version ++
          " is already installed in main-venv. Requested v" ++ requested ++
          ". Use a custom venv or change the conflict resolution strategy."))
      else return ()
    | _ => return ()

/-- Make the main venv if there is none. -/
def ensureMainVenv (venvManager : VenvManager) : Async Unit := do
  if ← VenvManager.mainVenvExists then return ()
  else
    match ← venvManager.createMainVenv with
    | .ok () => return ()
    | .error e => Task.throw (.internal ("Failed to create main venv: " ++ e))

/-- The entry for a package that is being installed. -/
def newCache (req : InstallPackageRequest) (path : String) (id : Uuid) (installedAt lastUsedAt : String) :
    PackageCache where
  id := id
  venvType := .main
  venvId := none
  packageName := req.name
  version := req.version.getD "latest"
  installationPath := path
  sizeBytes := none
  status := .installing
  errorMessage := none
  installedAt := installedAt
  lastUsedAt := some lastUsedAt
  useCount := 0

/-- Write down how an installation went. -/
def recordResult (cache : PackageCache) (result : InstallResult) : Async PackageCache := do
  match result.success, result.version, result.error with
  | true, some version, _ => PackageRepository.upsertCache { cache with version, status := .ready }
  | true, none, _ => PackageRepository.upsertCache { cache with status := .ready }
  | false, _, some e =>
    let _ ← PackageRepository.upsertCache { cache with status := .failed, errorMessage := some e }
    Task.throw (.internal ("Package installation failed: " ++ e))
  | false, _, none =>
    let _ ← PackageRepository.upsertCache
      { cache with status := .failed, errorMessage := some "Unknown installation error" }
    Task.throw (.internal "Package installation failed")

def installPackage (req : InstallPackageRequest) : Async PackageCache := do
  if trim req.name = "" then Task.throw (.validation "Package name cannot be empty")
  else
    match service.workers with
    | none => Task.throw (.internal "Package installation service not available")
    | some (venvManager, packageManager) =>
      service.checkConflict req
      ensureMainVenv venvManager
      let id ← newV4
      let installedAt ← nowRfc3339
      let lastUsedAt ← nowRfc3339
      let result ← packageManager.installPackage req.name req.version
      recordResult (newCache req venvManager.mainVenvPath id installedAt lastUsedAt) result

/-- Delete the entries of a package, whatever their versions. -/
def forgetPackage (packageName : String) : Async Unit := do
  let cached ← PackageRepository.getCacheByVenv .main none
  let entries := cached.filter fun entry =>
    service.toLowercase entry.packageName = service.toLowercase packageName
  entries.forM fun entry => do
    let _ ← (PackageRepository.deleteCache .main none entry.packageName entry.version).attempt
    return ()

def uninstallPackage (packageName : String) : Async Unit := do
  if trim packageName = "" then Task.throw (.validation "Package name cannot be empty")
  else
    match service.workers with
    | none => Task.throw (.internal "Package uninstall service not available")
    | some (_, packageManager) =>
      let result ← packageManager.uninstallPackage packageName
      if result.success then service.forgetPackage packageName
      else Task.throw (.internal ("Package uninstall failed: " ++ result.error.getD "Unknown error"))

def addDependency (jobId : Uuid) (req : AddDependencyRequest) : Async JobDependency := do
  if trim req.packageName = "" then Task.throw (.validation "Package name cannot be empty")
  else
    let id ← newV4
    let now ← nowRfc3339
    PackageRepository.addDependency
      { id, jobId, packageName := req.packageName, versionConstraint := req.versionConstraint.getD "*"
        createdAt := now }

/-- The status of one dependency, from the first row with its name. -/
def installStatus (cached : List PackageCache) (dep : JobDependency) : PackageInstallStatus :=
  let (status, installed) := match cached.find? fun c => c.packageName = dep.packageName with
    | some c =>
      match c.status with
      | .ready => (.ready, some c.version)
      | .installing => (.installing, none)
      | .failed => (.failed, none)
    | none => (.notInstalled, none)
  { name := dep.packageName, required := dep.versionConstraint, installed, status }

/-- The statuses of the dependencies, and whether all are ready. -/
def checkAll (cached : List PackageCache) : List JobDependency → List PackageInstallStatus × Bool
  | [] => ([], true)
  | dep :: rest =>
    let package := installStatus cached dep
    let (packages, allReady) := checkAll cached rest
    (package :: packages, package.status = .ready && allReady)

def getDependencyStatus (jobId : Uuid) (venvType : VenvType) (venvId : Option String) :
    Async DependencyStatusResponse := do
  let dependencies ← PackageRepository.getDependencies jobId
  let cached ← PackageRepository.getCacheByVenv venvType venvId
  let (packages, allReady) := checkAll cached dependencies
  let status := if packages.isEmpty then .noDependencies else if allReady then .ready else .pending
  return { jobId, status, packages }

end PackageService

/-! ### The handlers -/

namespace Api

variable (service : PackageService)

/-- `POST /packages/install`. -/
def installPackage (req : InstallPackageRequest) : Async PackageCache := service.installPackage req

/-- `POST /packages/uninstall`. -/
def uninstallPackage (name : String) : Async Unit := service.uninstallPackage name

/-- `POST /jobs/{id}/dependencies`. -/
def addJobDependency (jobId : Uuid) (req : AddDependencyRequest) : Async JobDependency := do
  let _ ← JobRepository.getById jobId
  PackageService.addDependency jobId req

/-- `GET /jobs/{id}/dependencies/status`, for the main venv. -/
def getDependencyStatus (jobId : Uuid) : Async DependencyStatusResponse :=
  PackageService.getDependencyStatus jobId .main none

/-- One dependency after the other. One that fails does not stop the next. -/
def installAll : List JobDependency → Async BulkOperationResponse
  | [] => return ⟨0, 0, []⟩
  | dep :: rest => do
    let version := if dep.versionConstraint = "*" then none else some dep.versionConstraint
    let result ← (service.installPackage ⟨dep.packageName, version⟩).attempt
    let ⟨successCount, failureCount, errors⟩ ← installAll rest
    match result with
    | .ok _ => return ⟨successCount + 1, failureCount, errors⟩
    | .error e => return ⟨successCount, failureCount + 1, (dep.packageName ++ ": " ++ e.toString) :: errors⟩

/-- `POST /jobs/{id}/dependencies/install`. -/
def installJobDependencies (jobId : Uuid) : Async BulkOperationResponse := do
  let dependencies ← PackageRepository.getDependencies jobId
  if dependencies.isEmpty then return ⟨0, 0, []⟩
  else
    let _ ← JobRepository.getById jobId
    installAll service dependencies

end Api

end Serverust
