import Serverust.Model.Listing
import Serverust.Model.ScheduleService
import Serverust.Model.Upkeep

/-!
# Overviews

The lists that have no filters, the executions of one job, and the statistics.
-/

namespace Serverust

open Resumption

/-- `ORDER BY created_at DESC`. -/
def newestFirst {ρ : Type} (createdAt : ρ → String) (rows : List ρ) : List ρ :=
  rows.insertionSort fun a b => createdAt b ≤ createdAt a

def ExecutionRepository.listByJob (jobId : Uuid) (limit offset : Int) : Async (List Execution × Nat) := do
  let ofJob (exec : Execution) : Bool := exec.jobId = jobId
  let total ← select (fun _ => .other) fun db => db.executions.countP ofJob
  let executions ← select (fun _ => .other) fun db =>
    Query.window limit offset (newestFirst Execution.createdAt (db.executions.filter ofJob))
  return (executions, total)

def ExecutionService.listJobExecutions (jobId : Uuid) (limit offset : Int) : Async ExecutionListResponse := do
  let _ ← JobRepository.getById jobId
  let limit := max 1 (min limit 100)
  let offset := max offset 0
  let (executions, total) ← ExecutionRepository.listByJob jobId limit offset
  return { executions, total, limit, offset }

def DagRepository.listRunsByDagId (dagId : Uuid) : Async (List DagRun × Nat) := do
  let runs ← select (fun _ => .other) fun db =>
    newestFirst DagRun.createdAt (db.dagRuns.filter fun run => run.dagId = dagId)
  return (runs, runs.length)

def ScheduleRepository.listAll : Async (List JobSchedule × Nat) := do
  let schedules ← select (fun _ => .other) fun db => newestFirst JobSchedule.createdAt db.jobSchedules
  return (schedules, schedules.length)

/-- `ORDER BY venv_type, created_at DESC`; `custom` comes before `main`. -/
def VenvRepository.list : Async (List Venv × Nat) := do
  let total ← select (fun _ => .other) fun db => db.venvs.length
  let venvs ← select (fun _ => .other) fun db =>
    let ofType (venvType : VenvType) : List Venv := db.venvs.filter fun venv => venv.venvType = venvType
    newestFirst Venv.createdAt (ofType .custom) ++ newestFirst Venv.createdAt (ofType .main)
  return (venvs, total)

/-- `WHERE status = 'ready' ORDER BY package_name, version`. -/
def PackageRepository.listAllCached : Async (List PackageCache × Nat) := do
  let ready (row : PackageCache) : Bool := row.status = .ready
  let total ← select (fun _ => .other) fun db => db.packageCache.countP ready
  let packages ← select (fun _ => .other) fun db =>
    (db.packageCache.filter ready).insertionSort fun a b =>
      a.packageName < b.packageName ∨ a.packageName = b.packageName ∧ a.version ≤ b.version
  return (packages, total)

structure StatsResponse where
  totalJobs : Nat
  enabledJobs : Nat
  totalExecutions : Nat
  runningExecutions : Nat
  queueDepth : Nat
  venvCount : Nat

namespace Api

/-- `GET /jobs/{id}/executions`. -/
def listJobExecutions (jobId : Uuid) (query : ListExecutionsQuery) : Async ExecutionListResponse :=
  ExecutionService.listJobExecutions jobId query.limit query.offset

/-- `GET /stats`. -/
def getStats : Async StatsResponse := do
  let totalJobs ← select (fun _ => .other) fun db => db.jobs.length
  let enabledJobs ← select (fun _ => .other) fun db => db.jobs.countP fun job => job.enabled
  let totalExecutions ← select (fun _ => .other) fun db => db.executions.length
  let runningExecutions ← select (fun _ => .other) fun db => db.executions.countP fun exec => exec.status = .running
  let queueDepth ← QueueRepository.countQueued
  let (_, venvCount) ← VenvRepository.list
  return { totalJobs, enabledJobs, totalExecutions, runningExecutions, queueDepth, venvCount }

end Api

end Serverust
