import Serverust.Model.LogStream
import Serverust.Model.PackageService

/-!
# Upkeep

What clears and refreshes stored data: the retention cycle, the record of the main venv at startup, and the
handlers that delete jobs, dependencies, venvs of jobs and entries of the package cache, or install the packages
of the main venv again.
-/

namespace Serverust

open Resumption

/-! ### Statements -/

/-- `DELETE FROM execution_logs WHERE execution_id NOT IN (SELECT id FROM executions)`. -/
def ExecutionLogRepository.deleteOrphaned : Async Nat :=
  execute (fun _ => .other) fun db =>
    let orphaned (log : ExecutionLog) : Bool := Rows.hits Execution.id log.executionId db.executions = 0
    (db.executionLogs.countP orphaned,
      { db with executionLogs := db.executionLogs.filter fun log => !orphaned log })

/-- `DELETE FROM jobs WHERE id IN (..)`, and what goes with each job. -/
def JobRepository.deleteBulk (ids : List Uuid) : Async Nat := do
  if ids.isEmpty then return 0
  else
    execute (fun _ => .other) fun db =>
      (db.jobs.countP fun job => job.id ∈ ids, ids.foldl (fun db id => JobRepository.deleteRows id db) db)

def PackageRepository.deleteDependency (jobId : Uuid) (packageName : String) : Async Unit := do
  let affected ← execute (fun _ => .other) fun db =>
    let hit (row : JobDependency) : Bool := row.jobId = jobId && row.packageName = packageName
    (db.jobDependencies.countP hit,
      { db with jobDependencies := db.jobDependencies.filter fun row => !hit row })
  if affected = 0 then
    Task.throw (.notFound ("Dependency " ++ packageName ++ " not found for job " ++ jobId.text))
  else return ()

/-- Write the status and the usage of a venv. -/
def VenvRepository.update (venv : Venv) : Async Venv := do
  let affected ← execute (fun _ => .other) fun db =>
    (Rows.hits Venv.id venv.id db.venvs,
      { db with venvs := Rows.modify Venv.id venv.id (fun row =>
          { row with status := venv.status, sizeBytes := venv.sizeBytes, packageCount := venv.packageCount
                     errorMessage := venv.errorMessage, updatedAt := venv.updatedAt
                     lastUsedAt := venv.lastUsedAt }) db.venvs })
  if affected = 0 then Task.throw (.notFound ("Venv not found: " ++ venv.id.text))
  else VenvRepository.getById venv.id

/-! ### The main venv -/

def Venv.newMain (path : String) (pythonVersion : Option String) (now : String) : Venv where
  id := .main
  venvType := .main
  jobId := none
  path := path
  pythonVersion := pythonVersion
  status := .creating
  sizeBytes := none
  packageCount := 0
  errorMessage := none
  createdAt := now
  updatedAt := now
  lastUsedAt := none

def VenvService.ensureMainVenv (path : String) (pythonVersion : Option String) : Async Venv := do
  match ← VenvRepository.getMain with
  | some venv => return venv
  | none =>
    let now ← nowRfc3339
    let ready ← nowRfc3339
    VenvRepository.create ((Venv.newMain path pythonVersion now).markReady ready)

/-- The record of the main venv, at startup. Every error is only logged. -/
def recordMainVenv (path : String) (pythonVersion : Option String) : Async Unit := do
  match ← (VenvService.ensureMainVenv path pythonVersion).attempt with
  | .ok venv =>
    if venv.status = .ready then return ()
    else
      let now ← nowRfc3339
      let _ ← (VenvRepository.update (venv.markReady now)).attempt
      return ()
  | .error _ => return ()

namespace PackageService

def getMainVenvPackages : Async (List PackageCache) := PackageRepository.getCacheByVenv .main none

def removePackage (packageName version : String) : Async Unit :=
  PackageRepository.deleteCache .main none packageName version

/-- Delete the dependency, if there is one, and add it again. -/
def updateDependency (jobId : Uuid) (packageName versionConstraint : String) : Async JobDependency := do
  let _ ← (PackageRepository.deleteDependency jobId packageName).attempt
  let id ← newV4
  let now ← nowRfc3339
  PackageRepository.addDependency { id, jobId, packageName, versionConstraint, createdAt := now }

def removeDependency (jobId : Uuid) (packageName : String) : Async Unit :=
  PackageRepository.deleteDependency jobId packageName

end PackageService

/-! ### The handlers -/

namespace Api

/-- `DELETE /jobs/bulk`. -/
def bulkDeleteJobs (ids : List Uuid) : Async BulkOperationResponse := do
  if ids.isEmpty then Task.throw (.badRequest "No IDs provided")
  else
    let deleted ← JobRepository.deleteBulk ids
    return { successCount := deleted, failureCount := ids.length - deleted, errors := [] }

/-- `DELETE /jobs/{id}/venv`. -/
def deleteJobVenv (jobId : Uuid) : Async Unit := do
  let _ ← JobRepository.getById jobId
  match ← VenvRepository.getByJob jobId with
  | some venv => VenvService.deleteVenv venv.id
  | none => Task.throw (.notFound ("No custom venv found for job " ++ jobId.text))

/-- `GET /jobs/{id}/venv/info`. -/
def getJobVenvInfo (jobId : Uuid) : Async JobVenvInfo := do
  let job ← JobRepository.getById jobId
  let customVenv ← VenvRepository.getByJob jobId
  let mainVenv ← VenvRepository.getMain
  return { jobId, useCustomVenv := job.useCustomVenv, venv := if job.useCustomVenv then customVenv else none
           mainVenv }

/-- Install each package again, without a version. One that fails does not stop the next. -/
def reinstallAll (service : PackageService) : List PackageCache → Async BulkOperationResponse
  | [] => return ⟨0, 0, []⟩
  | pkg :: rest => do
    let result ← (service.installPackage ⟨pkg.packageName, none⟩).attempt
    let ⟨successCount, failureCount, errors⟩ ← reinstallAll service rest
    match result with
    | .ok _ => return ⟨successCount + 1, failureCount, errors⟩
    | .error e => return ⟨successCount, failureCount + 1, (pkg.packageName ++ ": " ++ e.toString) :: errors⟩

/-- `POST /packages/main-venv/update`. -/
def updateMainVenvPackages (service : PackageService) : Async BulkOperationResponse := do
  let packages ← PackageService.getMainVenvPackages
  reinstallAll service packages

/-- `DELETE /packages/main-venv`: only the entries of the cache go. Returns how many there were. -/
def clearMainVenv : Async Nat := do
  let packages ← PackageService.getMainVenvPackages
  packages.forM fun pkg => do
    let _ ← (PackageService.removePackage pkg.packageName pkg.version).attempt
    return ()
  return packages.length

end Api

/-! ### Retention -/

/-- One cycle of the retention task, which keeps `historyDays` of executions. Every error is only logged. -/
def retentionCycle (historyDays : Nat) : Async Unit := do
  let _ ← (ExecutionRepository.deleteOlderThanDays historyDays).attempt
  let _ ← ExecutionLogRepository.deleteOrphaned.attempt
  let _ ← (QueueRepository.cleanupOld (asI32 (historyDays * 24))).attempt
  return ()

end Serverust
