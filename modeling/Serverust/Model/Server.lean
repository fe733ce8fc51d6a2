import Serverust.Model.Dags
import Serverust.Model.Overview
import Serverust.Model.WorkerPool

/-!
# The server

What runs in the process: the handlers of the routes, the turns of the workers and of the scheduler, the
re-queue tasks, the retention cycle, and what happens at startup. All of them share one `QueueManager`.
-/

namespace Serverust

open Resumption

/-- What the process is started with. -/
structure Server where
  queueManager : QueueManager
  jobOrder : HashOrder
  degreeOrder : HashOrder
  fields : FieldOrder
  cron : Cron
  packages : PackageService
  venvs : VenvManager
  fromStr : String → Option JsonText.Value
  historyDays : Nat

namespace Server

variable (server : Server)

def engine : DagEngine := ⟨server.queueManager, server.jobOrder, server.degreeOrder⟩

def pool : WorkerPool := ⟨server.queueManager, some server.engine⟩

def scheduler : SchedulerRunner := ⟨server.queueManager, server.cron⟩

/-- The requests of the API. The client of a log stream stays for so many laps. -/
inductive Request where
  | listJobs (query : ListJobsQuery)
  | createJob (req : CreateJobRequest)
  | getJob (id : Uuid)
  | updateJob (id : Uuid) (req : UpdateJobRequest)
  | deleteJob (id : Uuid)
  | enableJob (id : Uuid)
  | disableJob (id : Uuid)
  | bulkCreateJobs (requests : List CreateJobRequest)
  | bulkDeleteJobs (ids : List Uuid)
  | cloneJob (id : Uuid) (newName : Option String)
  | listExecutions (query : ListExecutionsQuery)
  | getExecution (id : Uuid)
  | deleteExecution (id : Uuid)
  | bulkDeleteExecutions (ids : List Uuid)
  | getExecutionLogs (id : Uuid) (query : ListLogsQuery)
  | streamExecutionLogs (id : Uuid) (laps : Nat)
  | cancelExecution (id : Uuid)
  | retryExecution (id : Uuid)
  | executeJob (id : Uuid) (req : Option ExecuteJobRequest)
  | listJobExecutions (id : Uuid) (query : ListExecutionsQuery)
  | listPackages
  | installPackage (req : InstallPackageRequest)
  | uninstallPackage (name : String)
  | getMainVenvPackages
  | updateMainVenvPackages
  | clearMainVenv
  | deletePackage (name version : String)
  | getJobDependencies (id : Uuid)
  | addJobDependency (id : Uuid) (req : AddDependencyRequest)
  | updateDependency (id : Uuid) (name versionConstraint : String)
  | removeDependency (id : Uuid) (name : String)
  | getDependencyStatus (id : Uuid)
  | installJobDependencies (id : Uuid)
  | getQueueStatus
  | getStats
  | createSchedule (id : Uuid) (req : CreateScheduleRequest)
  | getSchedule (id : Uuid)
  | updateSchedule (id : Uuid) (req : UpdateScheduleRequest)
  | deleteSchedule (id : Uuid)
  | toggleSchedule (id : Uuid)
  | listSchedules
  | createVenv (req : CreateVenvRequest)
  | listVenvs
  | getVenv (id : VenvId)
  | deleteVenv (id : VenvId)
  | getJobVenvInfo (id : Uuid)
  | toggleJobVenv (id : Uuid)
  | deleteJobVenv (id : Uuid)
  | createDag (req : CreateDagRequest)
  | getDag (id : Uuid)
  | updateDag (id : Uuid) (req : UpdateDagRequest)
  | deleteDag (id : Uuid)
  | addEdge (id : Uuid) (req : AddEdgeRequest)
  | deleteEdge (dagId edgeId : Uuid)
  | getTopology (id : Uuid)
  | validateDag (id : Uuid)
  | triggerDag (id : Uuid)
  | listDagRuns (id : Uuid)
  | getDagRun (runId : Uuid)
  | cancelDagRun (runId : Uuid)

/-- A handler, without the response it makes of the result. -/
def handle : Request → Async Unit
  | .listJobs query => do let _ ← Api.listJobs query
  | .createJob req => do let _ ← JobService.createJob server.fields req
  | .getJob id => do let _ ← JobRepository.getById id
  | .updateJob id req => do let _ ← JobService.updateJob server.fields id req
  | .deleteJob id => Api.deleteJob id
  | .enableJob id => do let _ ← JobService.enableJob server.fields id
  | .disableJob id => do let _ ← JobService.disableJob server.fields id
  | .bulkCreateJobs requests => do let _ ← Api.bulkCreateJobs server.fields requests
  | .bulkDeleteJobs ids => do let _ ← Api.bulkDeleteJobs ids
  | .cloneJob id newName => do let _ ← JobService.cloneJob id newName
  | .listExecutions query => do let _ ← Api.listExecutions query
  | .getExecution id => do let _ ← ExecutionService.getExecution id
  | .deleteExecution id => Api.deleteExecution id
  | .bulkDeleteExecutions ids => do let _ ← Api.bulkDeleteExecutions ids
  | .getExecutionLogs id query => do let _ ← ExecutionService.getLogs id query
  | .streamExecutionLogs id laps => do let _ ← Api.streamExecutionLogs id laps
  | .cancelExecution id => do let _ ← Api.cancelExecution id
  | .retryExecution id => do let _ ← Api.retryExecution server.queueManager server.fromStr id
  | .executeJob id req => do let _ ← Api.executeJob server.queueManager id req
  | .listJobExecutions id query => do let _ ← Api.listJobExecutions id query
  | .listPackages => do let _ ← PackageRepository.listAllCached
  | .installPackage req => do let _ ← Api.installPackage server.packages req
  | .uninstallPackage name => Api.uninstallPackage server.packages name
  | .getMainVenvPackages => do let _ ← PackageService.getMainVenvPackages
  | .updateMainVenvPackages => do let _ ← Api.updateMainVenvPackages server.packages
  | .clearMainVenv => do let _ ← Api.clearMainVenv
  | .deletePackage name version => PackageService.removePackage name version
  | .getJobDependencies id => do let _ ← PackageRepository.getDependencies id
  | .addJobDependency id req => do let _ ← Api.addJobDependency id req
  | .updateDependency id name versionConstraint => do
      let _ ← PackageService.updateDependency id name versionConstraint
  | .removeDependency id name => PackageService.removeDependency id name
  | .getDependencyStatus id => do let _ ← Api.getDependencyStatus id
  | .installJobDependencies id => do let _ ← Api.installJobDependencies server.packages id
  | .getQueueStatus => do let _ ← Api.getQueueStatus
  | .getStats => do let _ ← Api.getStats
  | .createSchedule id req => do let _ ← ScheduleService.createSchedule server.cron id req
  | .getSchedule id => do let _ ← ScheduleService.getScheduleByJobId id
  | .updateSchedule id req => do let _ ← ScheduleService.updateSchedule server.cron id req
  | .deleteSchedule id => ScheduleService.deleteSchedule id
  | .toggleSchedule id => do let _ ← ScheduleService.toggleSchedule server.cron id
  | .listSchedules => do let _ ← ScheduleRepository.listAll
  | .createVenv req => do let _ ← Api.createVenv server.venvs req
  | .listVenvs => do let _ ← VenvRepository.list
  | .getVenv id => do let _ ← VenvRepository.getById id
  | .deleteVenv id => Api.deleteVenv id
  | .getJobVenvInfo id => do let _ ← Api.getJobVenvInfo id
  | .toggleJobVenv id => do let _ ← Api.toggleJobVenv server.fields id
  | .deleteJobVenv id => Api.deleteJobVenv id
  | .createDag req => do let _ ← DagService.createDag req
  | .getDag id => do let _ ← DagService.getDagDetail id
  | .updateDag id req => do let _ ← DagService.updateDag id req
  | .deleteDag id => DagService.deleteDag id
  | .addEdge id req => do let _ ← DagService.addEdge server.degreeOrder id req
  | .deleteEdge dagId edgeId => DagService.deleteEdge dagId edgeId
  | .getTopology id => do let _ ← DagService.getTopology server.degreeOrder id
  | .validateDag id => do let _ ← DagService.validateDag server.degreeOrder id
  | .triggerDag id => do let _ ← server.engine.triggerDag id "manual"
  | .listDagRuns id => do let _ ← DagRepository.listRunsByDagId id
  | .getDagRun runId => do let _ ← Api.getDagRun runId
  | .cancelDagRun runId => do let _ ← DagEngine.cancelDagRun runId

/-- All that the process does. `requeue` names one of the tasks that sleep. No route leads to
`retryDeadLetter`. -/
inductive Call where
  | request (req : Request)
  | pass (workerId : Nat) (result : QueueItem → ExecutionResult)
  | tick
  | requeue (index : Nat)
  | retryDeadLetter (executionId : Uuid)
  | retention
  | recover
  | recordMainVenv (path : String) (pythonVersion : Option String)

/-- How a call starts. A re-queue task wakes and no longer sleeps. -/
def start (w : World) : Call → Option (World × Async Unit)
  | .request req => some (w, server.handle req)
  | .pass workerId result => some (w, server.pool.pass workerId result)
  | .tick => some (w, server.scheduler.tick)
  | .requeue index => (w.spawned[index]?).map fun task =>
      ({ w with spawned := w.spawned.eraseIdx index }, server.queueManager.requeueTask task)
  | .retryDeadLetter executionId => some (w, server.queueManager.retryDeadLetter executionId)
  | .retention => some (w, retentionCycle server.historyDays)
  | .recover => some (w, do let _ ← server.queueManager.recover)
  | .recordMainVenv path pythonVersion => some (w, recordMainVenv path pythonVersion)

end Server

end Serverust
