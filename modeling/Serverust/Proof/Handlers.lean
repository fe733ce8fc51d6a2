import Serverust.Proof.Statements

/-!
# Calls beside the queue

The handlers, and the parts of the others, that neither make jobs, executions or entries nor write executions or
entries in place.
-/

namespace Serverust

open Resumption

variable {α : Type} {ρ γ : Type} {cron : Cron} {M : Monitor Event World ρ γ} [hM : Admits cron M]
  {held : Option (γ × ρ)}

include hM

/-! ### The queue -/

namespace QueueManager

theorem guarded_fetchItem (executionId : Uuid) (priority : Job → Int) :
    (fetchItem executionId priority).Safe M held fun _ => True := by
  refine (ExecutionRepository.guarded_getById executionId).attempt.bind ?_
  rintro (e | exec) _
  · exact .pure trivial
  refine (JobRepository.guarded_getById exec.jobId).attempt.bind ?_
  rintro (e | job) _
  · exact .pure trivial
  · exact .pure trivial

theorem guarded_reconstructItem (entry : QueueEntry) :
    (reconstructItem entry).Safe M held fun _ => True := guarded_fetchItem _ _

end QueueManager

/-! ### Executions and jobs -/

namespace ExecutionService

theorem guarded_deleteExecution (id : Uuid) :
    (deleteExecution id).Safe M held fun _ => True :=
  (ExecutionLogRepository.guarded_deleteByExecution id).attempt.bind fun _ _ => ExecutionRepository.guarded_delete id

theorem guarded_getLogs (executionId : Uuid) (query : ListLogsQuery) :
    (getLogs executionId query).Safe M held fun _ => True := by
  refine (ExecutionRepository.guarded_getById executionId).bind fun _ _ => ?_
  exact (ExecutionLogRepository.guarded_getByExecutionPaginated _ _ _ _).bind fun _ _ => .pure trivial

end ExecutionService

namespace JobService

theorem guarded_checkName (id : Uuid) (job : Job) (req : UpdateJobRequest) :
    (checkName id job req).Safe M held fun _ => True := by
  unfold checkName
  split
  · split
    · refine (JobRepository.guarded_nameExists _ _).bind fun found _ => ?_
      split
      · exact .throw
      · exact .pure trivial
    · exact .pure trivial
  · exact .pure trivial

theorem guarded_updateJob (hash : FieldOrder) (id : Uuid) (req : UpdateJobRequest) :
    (updateJob hash id req).Safe M held fun _ => True := by
  unfold updateJob
  split
  · exact .throw
  refine (JobRepository.guarded_getById id).bind fun job _ => ?_
  refine (guarded_checkName id job req).bind fun _ _ => ?_
  exact guarded_nowRfc3339.bind fun now _ => JobRepository.guarded_update _

end JobService

/-! ### DAG runs -/

namespace DagEngine

theorem guarded_failNode (node : DagNodeExecution) :
    (failNode node).Safe M held fun _ => True := by
  refine guarded_nowRfc3339.bind fun now _ => ?_
  exact (DagRepository.guarded_updateNodeExecution _ fun _ => rfl).bind fun _ _ => .pure trivial

theorem guarded_createNode (dagRunId jobId : Uuid) :
    (createNode dagRunId jobId).Safe M held fun _ => True := by
  refine guarded_newV4.bind fun id _ => guarded_nowRfc3339.bind fun now _ => ?_
  exact (DagRepository.guarded_createNodeExecution _ fun h => by cases h).bind fun _ _ => .pure trivial

theorem guarded_stopRun (runId : Uuid) : (stopRun runId).Safe M held fun _ => True := by
  refine (DagRepository.guarded_getNodeExecutionsByRunId runId).bind fun allNodes _ => ?_
  refine Task.Safe.bind (.forM fun n _ => ?_) fun _ _ => ?_
  · refine guarded_nowRfc3339.bind fun now _ => ?_
    exact (DagRepository.guarded_updateNodeExecution _ fun _ => rfl).bind fun _ _ => .pure trivial
  dsimp only
  split
  · exact .pure trivial
  refine (DagRepository.guarded_getRunById runId).bind fun finalRun _ => ?_
  refine guarded_nowRfc3339.bind fun now _ => ?_
  refine (DagRepository.guarded_getNodeExecutionsByRunId runId).bind fun refreshed _ => ?_
  exact (DagRepository.guarded_updateRun _ fun _ => rfl).bind fun _ _ => .pure trivial

theorem guarded_finishRun (runId : Uuid) : (finishRun runId).Safe M held fun _ => True := by
  refine (DagRepository.guarded_getNodeExecutionsByRunId runId).bind fun allNodes _ => ?_
  split
  · refine (DagRepository.guarded_getRunById runId).bind fun finalRun _ => ?_
    refine guarded_nowRfc3339.bind fun now _ => ?_
    exact (DagRepository.guarded_updateRun _ fun _ => rfl).bind fun _ _ => .pure trivial
  · exact .pure trivial

theorem guarded_cancelDagRun (runId : Uuid) :
    (cancelDagRun runId).Safe M held fun _ => True := by
  refine (DagRepository.guarded_getRunById runId).bind fun run _ => ?_
  split
  · exact .throw
  refine (DagRepository.guarded_getNodeExecutionsByRunId runId).bind fun nodes _ => ?_
  refine Task.Safe.bind (.forM fun n _ => ?_) fun _ _ => ?_
  · refine guarded_nowRfc3339.bind fun now _ => ?_
    exact (DagRepository.guarded_updateNodeExecution _ fun _ => rfl).bind fun _ _ => .pure trivial
  · exact guarded_nowRfc3339.bind fun now _ => (DagRepository.guarded_updateRun _ fun _ => rfl).trivial

end DagEngine

/-! ### Workers -/

namespace WorkerPool

theorem guarded_log (execId : Uuid) (logType : LogType) (content : String) :
    (log execId logType content).Safe M held fun _ => True :=
  guarded_logged (ExecutionLogRepository.guarded_createWithType execId logType content)

theorem guarded_logOutput (execId : Uuid) (logType : LogType) (content : String) :
    (logOutput execId logType content).Safe M held fun _ => True := by
  unfold logOutput
  split
  · exact .pure trivial
  · exact guarded_log execId logType content

theorem guarded_retryCountOf (execId : Uuid) :
    (retryCountOf execId).Safe M held fun _ => True := by
  refine (ExecutionRepository.guarded_getById execId).attempt.bind ?_
  rintro (e | exec) _
  · exact .pure trivial
  · exact .pure trivial

theorem guarded_maxRetriesOf (execId : Uuid) :
    (maxRetriesOf execId).Safe M held fun _ => True := by
  refine (ExecutionRepository.guarded_getById execId).attempt.bind ?_
  rintro (e | exec) _
  · exact .pure trivial
  refine (JobRepository.guarded_getById exec.jobId).attempt.bind ?_
  rintro (e | job) _
  · exact .pure trivial
  · exact .pure trivial

theorem guarded_executeItem (execId : Uuid) (result : ExecutionResult) :
    (executeItem execId result).Safe M held fun _ => True := by
  refine (guarded_log execId .system "Execution started").bind fun _ _ => ?_
  refine (guarded_logOutput execId .stdout result.stdout).bind fun _ _ => ?_
  refine (guarded_logOutput execId .stderr result.stderr).bind fun _ _ => ?_
  exact guarded_signal (.executed execId)

end WorkerPool

/-! ### Schedules -/

namespace ScheduleService

omit hM in
theorem validateCron_ok {cronExpression : String} {schedule : cron.Schedule}
    (h : validateCron cron cronExpression = .ok schedule) : cron.fromStr cronExpression = .ok schedule := by
  unfold validateCron at h
  split at h
  · cases h
    assumption
  · cases h

theorem guarded_nextRunNow (cronExpression : String) :
    (nextRunNow cron cronExpression).Safe M held fun _ => True := by
  refine Task.Safe.bind (guarded_clock _) fun next _ => ?_
  split
  · exact .pure trivial
  · exact .throw

theorem guarded_getScheduleByJobId (jobId : Uuid) :
    (getScheduleByJobId jobId).Safe M held (JobSchedule.Valid cron) :=
  (ScheduleRepository.guarded_getByJobId jobId).bind fun _ hvalid => guarded_okOr hvalid

theorem guarded_createSchedule (jobId : Uuid) (req : CreateScheduleRequest) :
    (createSchedule cron jobId req).Safe M held fun _ => True := by
  unfold createSchedule
  split
  · exact .throw
  rename_i parsed hparsed
  refine (ScheduleRepository.guarded_getByJobId jobId).bind ?_
  rintro (_ | old) _
  · refine (guarded_nextRunNow req.cronExpression).bind fun nextRun _ => ?_
    refine guarded_nowRfc3339.bind fun now _ => guarded_newV4.bind fun id _ => ?_
    exact ScheduleRepository.guarded_create _ { cron := ⟨parsed, validateCron_ok hparsed⟩, next := rfl }
  · exact .throw

theorem guarded_applyCron (req : UpdateScheduleRequest) {schedule : JobSchedule} (hvalid : schedule.Valid cron) :
    (applyCron cron req schedule).Safe M held (JobSchedule.Valid cron) := by
  unfold applyCron
  split
  · rename_i cronExpr _
    split
    · rename_i parsed hparsed
      refine (guarded_nextRunNow cronExpr).bind fun next _ => ?_
      exact .pure { cron := ⟨parsed, validateCron_ok hparsed⟩, next := rfl }
    · exact .throw
  · exact .pure hvalid

theorem guarded_applyEnabled (req : UpdateScheduleRequest) {schedule : JobSchedule} (hvalid : schedule.Valid cron) :
    (applyEnabled cron req schedule).Safe M held (JobSchedule.Valid cron) := by
  unfold applyEnabled
  split
  · dsimp only
    split
    · refine (guarded_nextRunNow _).bind fun next _ => ?_
      exact .pure { cron := hvalid.cron, next := rfl }
    · exact .pure { cron := hvalid.cron, next := hvalid.next }
  · exact .pure hvalid

theorem guarded_restart {schedule : JobSchedule} (hvalid : schedule.Valid cron) :
    (restart cron schedule).Safe M held (JobSchedule.Valid cron) := by
  unfold restart
  split
  · refine (guarded_nextRunNow _).bind fun next _ => ?_
    exact .pure { cron := hvalid.cron, next := rfl }
  · exact .pure hvalid

theorem guarded_updateSchedule (jobId : Uuid) (req : UpdateScheduleRequest) :
    (updateSchedule cron jobId req).Safe M held fun _ => True := by
  refine (guarded_getScheduleByJobId jobId).bind fun schedule hschedule => ?_
  refine (guarded_applyCron req hschedule).bind fun schedule hschedule => ?_
  refine (guarded_applyEnabled req hschedule).bind fun schedule hschedule => ?_
  refine guarded_nowRfc3339.bind fun now _ => ?_
  exact ScheduleRepository.guarded_update _ { cron := hschedule.cron, next := hschedule.next }

theorem guarded_toggleSchedule (jobId : Uuid) :
    (toggleSchedule cron jobId).Safe M held fun _ => True := by
  refine (guarded_getScheduleByJobId jobId).bind fun schedule hschedule => ?_
  refine Task.Safe.bind (guarded_restart ?_) fun schedule hschedule => ?_
  · exact { cron := hschedule.cron, next := hschedule.next }
  refine guarded_nowRfc3339.bind fun now _ => ?_
  exact ScheduleRepository.guarded_update _ { cron := hschedule.cron, next := hschedule.next }

theorem guarded_deleteSchedule (jobId : Uuid) :
    (deleteSchedule jobId).Safe M held fun _ => True := by
  refine Task.Safe.bind (guarded_getScheduleByJobId jobId) fun schedule _ => ?_
  exact ScheduleRepository.guarded_delete schedule.id

end ScheduleService

/-! ### DAGs -/

namespace DagService

theorem guarded_createDag (req : CreateDagRequest) :
    (createDag req).Safe M held fun _ => True := by
  unfold createDag
  dsimp only
  split
  · exact .throw
  rename_i hname
  split
  · exact .throw
  · refine guarded_newV4.bind fun id _ => DagRepository.guarded_create _ ?_
    exact { name := ⟨req.name, rfl, Bool.eq_false_iff.mpr hname⟩, nodes := le_max_right _ _ }

theorem guarded_getDagDetail (id : Uuid) : (getDagDetail id).Safe M held fun _ => True :=
  (DagRepository.guarded_getById id).bind fun _ _ =>
    (DagRepository.guarded_getEdgesByDagId id).bind fun _ _ => .pure trivial

omit hM in
/-- What an update makes of a DAG. -/
theorem valid_applyUpdate {dag dag' : Dag} {req : UpdateDagRequest} (hvalid : dag.Valid)
    (h : applyUpdate dag req = .ok dag') : dag'.Valid := by
  have hnodes : 1 ≤ (req.maxConcurrentNodes.map fun n => max n 1).getD dag.maxConcurrentNodes := by
    cases req.maxConcurrentNodes with
    | none => exact hvalid.nodes
    | some n => exact le_max_right n 1
  unfold applyUpdate at h
  simp only [bind, Except.bind] at h
  -- the name, and then `on_failure`
  split at h
  · rename_i name _
    split at h
    · cases h
    rename_i hname
    have hnamed : ∃ text, trim name = trim text ∧ (trim name).isEmpty = false :=
      ⟨name, rfl, Bool.eq_false_iff.mpr hname⟩
    split at h
    · split at h
      · obtain rfl := Except.ok.inj h
        exact { name := hnamed, nodes := hnodes }
      · cases h
    · obtain rfl := Except.ok.inj h
      exact { name := hnamed, nodes := hnodes }
  · split at h
    · split at h
      · obtain rfl := Except.ok.inj h
        exact { name := hvalid.name, nodes := hnodes }
      · cases h
    · obtain rfl := Except.ok.inj h
      exact { name := hvalid.name, nodes := hnodes }

theorem guarded_updateDag (id : Uuid) (req : UpdateDagRequest) :
    (updateDag id req).Safe M held fun _ => True := by
  refine (DagRepository.guarded_getById id).bind fun dag hvalid => ?_
  split
  · exact DagRepository.guarded_update _ (valid_applyUpdate hvalid ‹_›)
  · exact .throw

theorem guarded_validateDag (hash : HashOrder) (dagId : Uuid) :
    (validateDag hash dagId).Safe M held fun _ => True := by
  refine (DagRepository.guarded_getById dagId).bind fun _ _ => ?_
  refine (DagRepository.guarded_getEdgesByDagId dagId).bind fun edges _ => ?_
  split
  · exact .pure trivial
  · exact .pure trivial

theorem guarded_addEdge (hash : HashOrder) (dagId : Uuid) (req : AddEdgeRequest) :
    (addEdge hash dagId req).Safe M held fun _ => True := by
  refine (DagRepository.guarded_getById dagId).bind fun _ _ => ?_
  split
  · exact .throw
  rename_i hends
  split
  · exact .throw
  rename_i hcondition
  refine guarded_newV4.bind fun id _ => guarded_nowRfc3339.bind fun now _ => ?_
  refine (DagRepository.guarded_getEdgesByDagId dagId).bind fun edges _ => ?_
  split
  · exact .throw
  · exact DagRepository.guarded_createEdge _ { ends := hends, condition := hcondition }

theorem guarded_deleteEdge (dagId edgeId : Uuid) :
    (deleteEdge dagId edgeId).Safe M held fun _ => True := by
  refine (DagRepository.guarded_getEdgeById edgeId).bind fun edge _ => ?_
  split
  · exact .throw
  · exact DagRepository.guarded_deleteEdge edgeId

theorem guarded_getTopology (hash : HashOrder) (dagId : Uuid) :
    (getTopology hash dagId).Safe M held fun _ => True := by
  refine (DagRepository.guarded_getEdgesByDagId dagId).bind fun edges _ => ?_
  split
  · exact .throw
  · exact .pure trivial

end DagService

/-! ### Packages -/

namespace VenvManager

variable (manager : VenvManager)

theorem guarded_createMainVenv : manager.createMainVenv.Safe M held fun _ => True := by
  refine guarded_perform (fun w => ?_) fun _ => trivial
  dsimp only
  split
  · exact .refl w
  · exact .disk w _

theorem guarded_createNamedVenvWithPython (name pythonExe : String) :
    (manager.createNamedVenvWithPython name pythonExe).Safe M held fun _ => True := by
  refine guarded_perform (fun w => ?_) fun _ => trivial
  dsimp only
  split
  · exact .refl w
  · exact .disk w _

end VenvManager

namespace PackageManager

variable (manager : PackageManager)

theorem guarded_run (args : List String) : (manager.run args).Safe M held fun _ => True :=
  guarded_perform (fun w => .disk w _) fun _ => trivial

theorem guarded_getInstalledVersion (name : String) :
    (manager.getInstalledVersion name).Safe M held fun _ => True := by
  refine (guarded_run manager _).bind fun shown _ => ?_
  split
  · exact .pure trivial
  · exact .pure trivial

theorem guarded_installPackage (name : String) (versionConstraint : Option String) :
    (manager.installPackage name versionConstraint).Safe M held fun _ => True := by
  refine (guarded_run manager _).bind fun installed _ => ?_
  split
  · exact .pure trivial
  split
  · split
    · exact (guarded_getInstalledVersion manager name).bind fun _ _ => .pure trivial
    · exact .pure trivial
  · exact .pure trivial

theorem guarded_uninstallPackage (name : String) :
    (manager.uninstallPackage name).Safe M held fun _ => True := by
  refine (guarded_run manager _).bind fun uninstalled _ => ?_
  split
  · split
    · exact .pure trivial
    · exact .pure trivial
  · exact .pure trivial

end PackageManager

namespace PackageService

variable (service : PackageService)

theorem guarded_checkConflict (req : InstallPackageRequest) :
    (service.checkConflict req).Safe M held fun _ => True := by
  unfold checkConflict
  split
  · exact .pure trivial
  refine (PackageRepository.guarded_getCachedPackage _ _ _).attempt.bind ?_
  rintro (e | _ | existing) _
  · exact .pure trivial
  · exact .pure trivial
  dsimp only
  split
  · exact .throw
  · exact .pure trivial

theorem guarded_ensureMainVenv (venvManager : VenvManager) :
    (ensureMainVenv venvManager).Safe M held fun _ => True := by
  refine Task.Safe.bind (guarded_clock _) fun found _ => ?_
  split
  · exact .pure trivial
  refine venvManager.guarded_createMainVenv.bind fun result _ => ?_
  split
  · exact .pure trivial
  · exact .throw

theorem guarded_recordResult (cache : PackageCache) (result : InstallResult) :
    (recordResult cache result).Safe M held fun _ => True := by
  unfold recordResult
  split
  · exact PackageRepository.guarded_upsertCache _
  · exact PackageRepository.guarded_upsertCache _
  · exact (PackageRepository.guarded_upsertCache _).bind fun _ _ => .throw
  · exact (PackageRepository.guarded_upsertCache _).bind fun _ _ => .throw

theorem guarded_installPackage (req : InstallPackageRequest) :
    (service.installPackage req).Safe M held fun _ => True := by
  unfold installPackage
  split
  · exact .throw
  split
  · exact .throw
  rename_i venvManager packageManager _
  refine (guarded_checkConflict service req).bind fun _ _ => ?_
  refine (guarded_ensureMainVenv venvManager).bind fun _ _ => ?_
  refine guarded_newV4.bind fun id _ => ?_
  refine guarded_nowRfc3339.bind fun installedAt _ => guarded_nowRfc3339.bind fun lastUsedAt _ => ?_
  refine (packageManager.guarded_installPackage req.name req.version).bind fun result _ => ?_
  exact guarded_recordResult _ result

theorem guarded_forgetPackage (packageName : String) :
    (service.forgetPackage packageName).Safe M held fun _ => True :=
  (PackageRepository.guarded_getCacheByVenv _ _).bind fun _ _ => .forM fun _ _ =>
    guarded_logged (PackageRepository.guarded_deleteCache _ _ _ _)

theorem guarded_uninstallPackage (packageName : String) :
    (service.uninstallPackage packageName).Safe M held fun _ => True := by
  unfold uninstallPackage
  split
  · exact .throw
  split
  · exact .throw
  rename_i packageManager _
  refine (packageManager.guarded_uninstallPackage packageName).bind fun result _ => ?_
  split
  · exact guarded_forgetPackage service packageName
  · exact .throw

theorem guarded_addDependency (jobId : Uuid) (req : AddDependencyRequest) :
    (addDependency jobId req).Safe M held fun _ => True := by
  unfold addDependency
  split
  · exact .throw
  · refine guarded_newV4.bind fun id _ => guarded_nowRfc3339.bind fun now _ => ?_
    exact PackageRepository.guarded_addDependency _

theorem guarded_updateDependency (jobId : Uuid) (packageName versionConstraint : String) :
    (updateDependency jobId packageName versionConstraint).Safe M held fun _ => True := by
  refine (PackageRepository.guarded_deleteDependency jobId packageName).attempt.bind fun _ _ => ?_
  refine guarded_newV4.bind fun id _ => guarded_nowRfc3339.bind fun now _ => ?_
  exact PackageRepository.guarded_addDependency _

theorem guarded_getDependencyStatus (jobId : Uuid) (venvType : VenvType) (venvId : Option String) :
    (getDependencyStatus jobId venvType venvId).Safe M held fun _ => True :=
  (PackageRepository.guarded_getDependencies jobId).bind fun _ _ =>
    (PackageRepository.guarded_getCacheByVenv venvType venvId).bind fun _ _ => .pure trivial

end PackageService

/-! ### Virtual environments -/

namespace VenvService

theorem guarded_deleteVenv (id : VenvId) : (deleteVenv id).Safe M held fun _ => True := by
  refine (VenvRepository.guarded_getById id).bind fun venv _ => ?_
  split
  · exact .throw
  · exact VenvRepository.guarded_delete id

theorem guarded_ensureMainVenv (path : String) (pythonVersion : Option String) :
    (ensureMainVenv path pythonVersion).Safe M held fun _ => True := by
  refine VenvRepository.guarded_getMain.bind ?_
  rintro (_ | venv) _
  · refine guarded_nowRfc3339.bind fun now _ => guarded_nowRfc3339.bind fun ready _ => ?_
    exact VenvRepository.guarded_create _ fun _ => rfl
  · exact .pure trivial

end VenvService

theorem guarded_recordMainVenv (path : String) (pythonVersion : Option String) :
    (recordMainVenv path pythonVersion).Safe M held fun _ => True := by
  refine (VenvService.guarded_ensureMainVenv path pythonVersion).attempt.bind ?_
  rintro (e | venv) _
  · exact .pure trivial
  dsimp only
  split
  · exact .pure trivial
  · exact guarded_nowRfc3339.bind fun now _ => guarded_logged (VenvRepository.guarded_update _)

/-! ### Handlers -/

namespace Api

omit hM in
theorem guarded_internal {context : String} {p : Async α} (h : p.Safe M held fun _ => True) :
    (internal context p).Safe M held fun _ => True := by
  refine h.attempt.bind ?_
  rintro (e | value) _
  · exact .throw
  · exact .pure trivial

theorem guarded_bulkDeleteExecutions (ids : List Uuid) :
    (bulkDeleteExecutions ids).Safe M held fun _ => True := by
  unfold bulkDeleteExecutions
  split
  · exact .throw
  · exact (ExecutionRepository.guarded_deleteBulk ids).bind fun _ _ => .pure trivial

theorem guarded_bulkDeleteJobs (ids : List Uuid) :
    (bulkDeleteJobs ids).Safe M held fun _ => True := by
  unfold bulkDeleteJobs
  split
  · exact .throw
  · exact (JobRepository.guarded_deleteBulk ids).bind fun _ _ => .pure trivial

theorem guarded_addJobDependency (jobId : Uuid) (req : AddDependencyRequest) :
    (addJobDependency jobId req).Safe M held fun _ => True :=
  (JobRepository.guarded_getById jobId).bind fun _ _ => PackageService.guarded_addDependency jobId req

theorem guarded_installAll (service : PackageService) (dependencies : List JobDependency) :
    (installAll service dependencies).Safe M held fun _ => True := by
  induction dependencies with
  | nil => exact .pure trivial
  | cons dep rest ih =>
      refine (PackageService.guarded_installPackage service _).attempt.bind fun result _ => ?_
      refine ih.bind ?_
      rintro ⟨successCount, failureCount, errors⟩ _
      cases result with
      | ok installed => exact .pure trivial
      | error e => exact .pure trivial

theorem guarded_installJobDependencies (service : PackageService) (jobId : Uuid) :
    (installJobDependencies service jobId).Safe M held fun _ => True := by
  refine (PackageRepository.guarded_getDependencies jobId).bind fun dependencies _ => ?_
  split
  · exact .pure trivial
  · exact (JobRepository.guarded_getById jobId).bind fun _ _ => guarded_installAll service dependencies

theorem guarded_reinstallAll (service : PackageService) (packages : List PackageCache) :
    (reinstallAll service packages).Safe M held fun _ => True := by
  induction packages with
  | nil => exact .pure trivial
  | cons pkg rest ih =>
      refine (PackageService.guarded_installPackage service _).attempt.bind fun result _ => ?_
      refine ih.bind ?_
      rintro ⟨successCount, failureCount, errors⟩ _
      cases result with
      | ok installed => exact .pure trivial
      | error e => exact .pure trivial

theorem guarded_updateMainVenvPackages (service : PackageService) :
    (updateMainVenvPackages service).Safe M held fun _ => True :=
  (PackageRepository.guarded_getCacheByVenv _ _).bind fun packages _ => guarded_reinstallAll service packages

theorem guarded_clearMainVenv : clearMainVenv.Safe M held fun _ => True := by
  refine Task.Safe.bind (PackageRepository.guarded_getCacheByVenv .main none) fun packages _ => ?_
  refine Task.Safe.bind (.forM fun pkg _ => ?_) fun _ _ => .pure trivial
  exact guarded_logged (PackageRepository.guarded_deleteCache _ _ _ _)

theorem guarded_createVenv (manager : VenvManager) (req : CreateVenvRequest) :
    (createVenv manager req).Safe M held fun _ => True := by
  unfold createVenv
  dsimp only
  split
  · exact .throw
  split
  · exact .throw
  split
  · exact .throw
  refine Task.Safe.bind (guarded_clock _) fun found _ => ?_
  split
  · exact .throw
  split
  · exact .throw
  refine (manager.guarded_createNamedVenvWithPython _ _).bind fun made _ => ?_
  split
  · exact .throw
  refine guarded_nowRfc3339.bind fun now _ => guarded_newV4.bind fun id _ => ?_
  refine guarded_nowRfc3339.bind fun ready _ => VenvRepository.guarded_create _ ?_
  exact fun h => by cases h

theorem guarded_venvInfo (jobId : Uuid) {f : Option Venv → Option Venv → JobVenvInfo} :
    (do
      let customVenv ← VenvRepository.getByJob jobId
      let mainVenv ← VenvRepository.getMain
      return f customVenv mainVenv : Async JobVenvInfo).Safe M held fun _ => True :=
  (VenvRepository.guarded_getByJob jobId).bind fun _ _ => VenvRepository.guarded_getMain.bind fun _ _ => .pure trivial

theorem guarded_toggleJobVenv (hash : FieldOrder) (jobId : Uuid) :
    (toggleJobVenv hash jobId).Safe M held fun _ => True :=
  (JobRepository.guarded_getById jobId).bind fun _ _ =>
    (JobService.guarded_updateJob hash jobId _).bind fun _ _ => guarded_venvInfo jobId

theorem guarded_getJobVenvInfo (jobId : Uuid) :
    (getJobVenvInfo jobId).Safe M held fun _ => True :=
  (JobRepository.guarded_getById jobId).bind fun _ _ => guarded_venvInfo jobId

theorem guarded_deleteJobVenv (jobId : Uuid) :
    (deleteJobVenv jobId).Safe M held fun _ => True := by
  refine (JobRepository.guarded_getById jobId).bind fun _ _ => ?_
  refine (VenvRepository.guarded_getByJob jobId).bind ?_
  rintro (_ | venv) _
  · exact .throw
  · exact VenvService.guarded_deleteVenv venv.id

omit hM in
/-- A list and how long it is. -/
theorem guarded_counted {α : Type} {total : Async Nat} {rows : Async (List α)}
    (htotal : total.Safe M held fun _ => True)
    (hrows : rows.Safe M held fun _ => True) :
    (do
      let total ← total
      let rows ← rows
      return (rows, total) : Async (List α × Nat)).Safe M held fun _ => True :=
  htotal.bind fun _ _ => hrows.bind fun _ _ => .pure trivial

theorem guarded_listed {α : Type} {stmt : List α → Stmt} {read : Db → List α} :
    (do
      let rows ← select stmt read
      return (rows, rows.length) : Async (List α × Nat)).Safe M held fun _ => True :=
  guarded_read.bind fun _ _ => .pure trivial

theorem guarded_jobs (query : ListJobsQuery) :
    (JobRepository.list query).Safe M held fun _ => True := guarded_counted guarded_read guarded_read

theorem guarded_executions (query : ListExecutionsQuery) :
    (ExecutionRepository.list query).Safe M held fun _ => True :=
  guarded_counted guarded_read guarded_read

theorem guarded_listJobs (query : ListJobsQuery) :
    (listJobs query).Safe M held fun _ => True :=
  (guarded_jobs _).bind fun _ _ => .pure trivial

theorem guarded_listExecutions (query : ListExecutionsQuery) :
    (listExecutions query).Safe M held fun _ => True :=
  (guarded_executions _).bind fun _ _ => .pure trivial

theorem guarded_listJobExecutions (jobId : Uuid) (query : ListExecutionsQuery) :
    (listJobExecutions jobId query).Safe M held fun _ => True := by
  refine (JobRepository.guarded_getById jobId).bind fun _ _ => ?_
  refine Task.Safe.bind (guarded_counted guarded_read guarded_read) fun _ _ => ?_
  exact .pure trivial

theorem guarded_getStats : getStats.Safe M held fun _ => True := by
  refine Task.Safe.bind guarded_read fun _ _ => Task.Safe.bind guarded_read fun _ _ => ?_
  refine Task.Safe.bind guarded_read fun _ _ => Task.Safe.bind guarded_read fun _ _ => ?_
  refine Task.Safe.bind guarded_read fun _ _ => ?_
  refine Task.Safe.bind (guarded_counted guarded_read guarded_read) fun _ _ => ?_
  exact .pure trivial

theorem guarded_getDagRun (runId : Uuid) : (getDagRun runId).Safe M held fun _ => True :=
  (DagRepository.guarded_getRunById runId).bind fun _ _ =>
    (DagRepository.guarded_getNodeExecutionsByRunId runId).bind fun _ _ => .pure trivial

end Api

namespace LogStream

theorem guarded_checkComplete (executionId : Uuid) (stream : LogStream) (sent : List SseEvent) :
    (checkComplete executionId stream sent).Safe M held fun _ => True := by
  unfold checkComplete
  split
  · refine (ExecutionRepository.guarded_getById executionId).attempt.bind ?_
    rintro (e | exec) _
    · exact .pure trivial
    dsimp only
    split
    · exact .pure trivial
    · exact .pure trivial
  · exact .pure trivial

theorem guarded_lap (executionId : Uuid) (stream : LogStream) :
    (lap executionId stream).Safe M held fun _ => True := by
  refine (ExecutionService.guarded_getLogs executionId _).attempt.bind ?_
  rintro (e | response) _
  · exact guarded_checkComplete executionId _ _
  · exact guarded_checkComplete executionId _ _

theorem guarded_follow (executionId : Uuid) (laps : Nat) (stream : LogStream) :
    (follow executionId laps stream).Safe M held fun _ => True := by
  induction laps generalizing stream with
  | zero => exact .pure trivial
  | succ laps ih =>
      refine (guarded_lap executionId stream).bind ?_
      rintro ⟨sent, next⟩ _
      cases next with
      | none => exact .pure trivial
      | some stream => exact (ih stream).bind fun _ _ => .pure trivial

end LogStream

theorem Api.guarded_streamExecutionLogs (id : Uuid) (laps : Nat) :
    (Api.streamExecutionLogs id laps).Safe M held fun _ => True :=
  (ExecutionRepository.guarded_getById id).bind fun _ _ =>
    (LogStream.guarded_follow id laps _).bind fun _ _ => .pure trivial

/-! ### All that the server does -/

namespace Server

variable (server : Server)

omit hM in
/-- A handler that drops the result. -/
theorem guarded_ignore {p : Async α} {φ : α → Prop} (h : p.Safe M held φ) :
    (do let _ ← p : Async Unit).Safe M held fun _ => True := h.bind fun _ _ => .pure trivial

/-- The requests that do nothing else. -/
def Request.Beside : Request → Prop
  | .createJob _ | .bulkCreateJobs _ | .cloneJob .. | .executeJob .. | .retryExecution _ | .cancelExecution _
  | .getQueueStatus | .deleteDag _ | .triggerDag _ => False
  | _ => True

theorem guarded_beside {req : Request} (hreq : req.Beside) (hcron : server.cron = cron) :
    (server.handle req).Safe M held fun _ => True := by
  subst hcron
  cases req with
  | listJobs query => exact guarded_ignore (Api.guarded_listJobs query)
  | createJob req => cases hreq
  | getJob id => exact guarded_ignore (JobRepository.guarded_getById id)
  | updateJob id req => exact guarded_ignore (JobService.guarded_updateJob server.fields id req)
  | deleteJob id => exact JobRepository.guarded_delete id
  | enableJob id => exact guarded_ignore (JobService.guarded_updateJob server.fields id _)
  | disableJob id => exact guarded_ignore (JobService.guarded_updateJob server.fields id _)
  | bulkCreateJobs requests => cases hreq
  | bulkDeleteJobs ids => exact guarded_ignore (Api.guarded_bulkDeleteJobs ids)
  | cloneJob id newName => cases hreq
  | listExecutions query => exact guarded_ignore (Api.guarded_listExecutions query)
  | getExecution id => exact guarded_ignore (ExecutionRepository.guarded_getById id)
  | deleteExecution id => exact ExecutionService.guarded_deleteExecution id
  | bulkDeleteExecutions ids => exact guarded_ignore (Api.guarded_bulkDeleteExecutions ids)
  | getExecutionLogs id query => exact guarded_ignore (ExecutionService.guarded_getLogs id query)
  | streamExecutionLogs id laps => exact guarded_ignore (Api.guarded_streamExecutionLogs id laps)
  | cancelExecution id => cases hreq
  | retryExecution id => cases hreq
  | executeJob id req => cases hreq
  | listJobExecutions id query => exact guarded_ignore (Api.guarded_listJobExecutions id query)
  | listPackages => exact guarded_ignore (Api.guarded_counted guarded_read guarded_read)
  | installPackage req => exact guarded_ignore (PackageService.guarded_installPackage server.packages req)
  | uninstallPackage name => exact PackageService.guarded_uninstallPackage server.packages name
  | getMainVenvPackages => exact guarded_ignore (PackageRepository.guarded_getCacheByVenv .main none)
  | updateMainVenvPackages => exact guarded_ignore (Api.guarded_updateMainVenvPackages server.packages)
  | clearMainVenv => exact guarded_ignore Api.guarded_clearMainVenv
  | deletePackage name version => exact PackageRepository.guarded_deleteCache .main none name version
  | getJobDependencies id => exact guarded_ignore (PackageRepository.guarded_getDependencies id)
  | addJobDependency id req => exact guarded_ignore (Api.guarded_addJobDependency id req)
  | updateDependency id name versionConstraint =>
      exact guarded_ignore (PackageService.guarded_updateDependency id name versionConstraint)
  | removeDependency id name => exact PackageRepository.guarded_deleteDependency id name
  | getDependencyStatus id => exact guarded_ignore (PackageService.guarded_getDependencyStatus id .main none)
  | installJobDependencies id => exact guarded_ignore (Api.guarded_installJobDependencies server.packages id)
  | getQueueStatus => cases hreq
  | getStats => exact guarded_ignore Api.guarded_getStats
  | createSchedule id req => exact guarded_ignore (ScheduleService.guarded_createSchedule id req)
  | getSchedule id => exact guarded_ignore (ScheduleService.guarded_getScheduleByJobId id)
  | updateSchedule id req => exact guarded_ignore (ScheduleService.guarded_updateSchedule id req)
  | deleteSchedule id => exact ScheduleService.guarded_deleteSchedule id
  | toggleSchedule id => exact guarded_ignore (ScheduleService.guarded_toggleSchedule id)
  | listSchedules => exact guarded_ignore Api.guarded_listed
  | createVenv req => exact guarded_ignore (Api.guarded_createVenv server.venvs req)
  | listVenvs => exact guarded_ignore (Api.guarded_counted guarded_read guarded_read)
  | getVenv id => exact guarded_ignore (VenvRepository.guarded_getById id)
  | deleteVenv id => exact VenvService.guarded_deleteVenv id
  | getJobVenvInfo id => exact guarded_ignore (Api.guarded_getJobVenvInfo id)
  | toggleJobVenv id => exact guarded_ignore (Api.guarded_toggleJobVenv server.fields id)
  | deleteJobVenv id => exact Api.guarded_deleteJobVenv id
  | createDag req => exact guarded_ignore (DagService.guarded_createDag req)
  | getDag id => exact guarded_ignore (DagService.guarded_getDagDetail id)
  | updateDag id req => exact guarded_ignore (DagService.guarded_updateDag id req)
  | deleteDag id => cases hreq
  | addEdge id req => exact guarded_ignore (DagService.guarded_addEdge server.degreeOrder id req)
  | deleteEdge dagId edgeId => exact DagService.guarded_deleteEdge dagId edgeId
  | getTopology id => exact guarded_ignore (DagService.guarded_getTopology server.degreeOrder id)
  | validateDag id => exact guarded_ignore (DagService.guarded_validateDag server.degreeOrder id)
  | triggerDag id => cases hreq
  | listDagRuns id => exact guarded_ignore Api.guarded_listed
  | getDagRun runId => exact guarded_ignore (Api.guarded_getDagRun runId)
  | cancelDagRun runId => exact guarded_ignore (DagEngine.guarded_cancelDagRun runId)

end Server

end Serverust
