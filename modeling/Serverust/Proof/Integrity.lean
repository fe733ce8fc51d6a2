import Serverust.Library.References
import Serverust.Model.Dags
import Serverust.Model.ScheduleService
import Serverust.Model.Upkeep
import Serverust.Proof.AddEdge

/-!
# The stored data

What holds of the tables at all times: keys are unique, references lead to rows, and every row is one that the
program means to store. `Writes` says what one statement can do to the tables, and each of the three survives it.
-/

namespace Serverust

open Resumption

/-! ### Rows as they are meant to be -/

/-- What never changes of a stored execution. -/
def Execution.ident (x : Execution) : Uuid × Uuid := (x.id, x.jobId)

def QueueEntry.ident (entry : QueueEntry) : Uuid × Uuid × Uuid := (entry.id, entry.executionId, entry.jobId)

def JobSchedule.ident (schedule : JobSchedule) : Uuid × Uuid := (schedule.id, schedule.jobId)

def DagRun.ident (run : DagRun) : Uuid × Uuid := (run.id, run.dagId)

def DagNodeExecution.ident (node : DagNodeExecution) : Uuid × Uuid × Uuid := (node.id, node.dagRunId, node.jobId)

def Venv.ident (venv : Venv) : VenvId × Option Uuid × VenvType := (venv.id, venv.jobId, venv.venvType)

def JobDependency.ident (dep : JobDependency) : Uuid × Uuid × String := (dep.id, dep.jobId, dep.packageName)

def PackageCache.ident (row : PackageCache) : Uuid × String × String × VenvType × Option String :=
  (row.id, row.packageName, row.version, row.venvType, row.venvId)

/-- The columns that `UNIQUE(package_name, version, venv_type, venv_id)` names. -/
def PackageCache.entry (row : PackageCache) : String × String × VenvType × Option String :=
  (row.packageName, row.version, row.venvType, row.venvId)

def DagEdge.ends (edge : DagEdge) : Uuid × Uuid × Uuid := (edge.dagId, edge.upstreamJobId, edge.downstreamJobId)

/-- An execution that has ended says when. -/
def Execution.Timed (x : Execution) : Prop := x.status.isTerminal = true → x.completedAt.isSome = true

/-- An entry that is being processed says since when, and one that is done with says when. -/
structure QueueEntry.Timed (entry : QueueEntry) : Prop where
  started : entry.status = .processing → entry.startedAt.isSome = true
  completed : entry.status ≠ .queued → entry.status ≠ .processing → entry.completedAt.isSome = true

def DagRun.Timed (run : DagRun) : Prop := run.status.isTerminal = true → run.completedAt.isSome = true

def DagNodeExecution.Timed (node : DagNodeExecution) : Prop :=
  node.status.isTerminal = true → node.completedAt.isSome = true

/-- A schedule has a cron expression that can be read, and a next run. -/
structure JobSchedule.Valid (cron : Cron) (schedule : JobSchedule) : Prop where
  cron : ∃ s, cron.fromStr schedule.cronExpression = .ok s
  next : schedule.nextRunAt.isSome = true

/-- A DAG has a name without blanks around it, and lets at least one node run. -/
structure Dag.Valid (dag : Dag) : Prop where
  name : ∃ text, dag.name = trim text ∧ dag.name.isEmpty = false
  nodes : 1 ≤ dag.maxConcurrentNodes

/-- An edge joins two jobs under one of the four conditions. -/
structure DagEdge.Valid (edge : DagEdge) : Prop where
  ends : edge.upstreamJobId ≠ edge.downstreamJobId
  condition : ∀ text, edge.condition ≠ .other text

/-- The main venv has its fixed id. -/
def Venv.Valid (venv : Venv) : Prop := venv.venvType = .main → venv.id = .main

/-! ### The tables -/

/-- Keys are unique. Two rows of the cache with no `venv_id` do not conflict, since `NULL` equals nothing. -/
structure Db.Keyed (db : Db) : Prop where
  jobs : Rows.Unique Job.id db.jobs
  executions : Rows.Unique Execution.id db.executions
  logs : Rows.Unique ExecutionLog.id db.executionLogs
  entries : Rows.Unique QueueEntry.id db.jobQueue
  entryExecutions : Rows.Unique QueueEntry.executionId db.jobQueue
  schedules : Rows.Unique JobSchedule.id db.jobSchedules
  dags : Rows.Unique Dag.id db.dags
  dagNames : Rows.Unique Dag.name db.dags
  edges : Rows.Unique DagEdge.id db.dagEdges
  edgeEnds : Rows.Unique DagEdge.ends db.dagEdges
  runs : Rows.Unique DagRun.id db.dagRuns
  nodes : Rows.Unique DagNodeExecution.id db.dagNodeExecutions
  venvs : Rows.Unique Venv.id db.venvs
  dependencies : Rows.Unique JobDependency.id db.jobDependencies
  dependencyNames : Rows.Unique (fun dep => (dep.jobId, dep.packageName)) db.jobDependencies
  cache : Rows.Unique PackageCache.id db.packageCache
  cacheEntries : Rows.Unique PackageCache.entry (db.packageCache.filter fun row => row.venvId.isSome)

/-- References lead to rows. -/
structure Db.Referenced (db : Db) : Prop where
  executionJob : Rows.References (fun x => some x.jobId) db.executions Job.id db.jobs
  logExecution : Rows.References (fun log => some log.executionId) db.executionLogs Execution.id db.executions
  entryExecution : Rows.References (fun entry => some entry.executionId) db.jobQueue Execution.id db.executions
  entryJob : Rows.References (fun entry => some entry.jobId) db.jobQueue Job.id db.jobs
  scheduleJob : Rows.References (fun schedule => some schedule.jobId) db.jobSchedules Job.id db.jobs
  edgeDag : Rows.References (fun edge => some edge.dagId) db.dagEdges Dag.id db.dags
  edgeUpstream : Rows.References (fun edge => some edge.upstreamJobId) db.dagEdges Job.id db.jobs
  edgeDownstream : Rows.References (fun edge => some edge.downstreamJobId) db.dagEdges Job.id db.jobs
  runDag : Rows.References (fun run => some run.dagId) db.dagRuns Dag.id db.dags
  nodeRun : Rows.References (fun node => some node.dagRunId) db.dagNodeExecutions DagRun.id db.dagRuns
  nodeJob : Rows.References (fun node => some node.jobId) db.dagNodeExecutions Job.id db.jobs
  nodeExecution : Rows.References DagNodeExecution.executionId db.dagNodeExecutions Execution.id db.executions
  venvJob : Rows.References Venv.jobId db.venvs Job.id db.jobs
  jobVenv : Rows.References Job.venvId db.jobs Venv.id db.venvs
  dependencyJob : Rows.References (fun dep => some dep.jobId) db.jobDependencies Job.id db.jobs

/-- Rows are as they are meant to be. -/
structure Db.Formed (cron : Cron) (db : Db) : Prop where
  executions : ∀ x ∈ db.executions, x.Timed
  entries : ∀ entry ∈ db.jobQueue, entry.Timed
  schedules : ∀ schedule ∈ db.jobSchedules, schedule.Valid cron
  dags : ∀ dag ∈ db.dags, dag.Valid
  edges : ∀ edge ∈ db.dagEdges, edge.Valid
  runs : ∀ run ∈ db.dagRuns, run.Timed
  nodes : ∀ node ∈ db.dagNodeExecutions, node.Timed
  venvs : ∀ venv ∈ db.venvs, venv.Valid

structure Db.Consistent (cron : Cron) (db : Db) : Prop where
  keyed : db.Keyed
  referenced : db.Referenced
  formed : db.Formed cron

/-! ### What a statement can do -/

/-- What a statement does to the tables that neither makes jobs, executions or entries nor writes executions or
entries in place. Another table is rewritten in place, or loses rows that no other refers to, or gets a row that
passes its constraints; jobs and executions are deleted with what refers to them. -/
inductive Spares (cron : Cron) : Db → Db → Prop
  | refl (db : Db) : Spares cron db db
  | trans {db mid db' : Db} (h : Spares cron db mid) (h' : Spares cron mid db') : Spares cron db db'
  | writeJob {db db' : Db} {job : Job} {affected : Nat} (h : JobRepository.writeJob job db = .ok (affected, db')) :
      Spares cron db db'
  | deleteJob (db : Db) (id : Uuid) : Spares cron db (JobRepository.deleteRows id db)
  | deleteExecutions {db : Db} {gone : Uuid → Bool} {rest : List Execution} (hsub : rest.Sublist db.executions)
      (hrest : ∀ x ∈ db.executions, gone x.id = false → x ∈ rest)
      (hgone : Rows.Unique Execution.id db.executions → ∀ x ∈ rest, gone x.id = false) :
      Spares cron db { ExecutionRepository.deleteRows gone db with executions := rest }
  | logs {db : Db} {rows : List ExecutionLog} (hsub : rows.Sublist db.executionLogs) :
      Spares cron db { db with executionLogs := rows }
  | insertLog {db db' : Db} {log : ExecutionLog} (h : ExecutionLogRepository.insertLog log db = .ok ((), db')) :
      Spares cron db db'
  | schedules {db : Db} {rows : List JobSchedule}
      (hsub : (rows.map JobSchedule.ident).Sublist (db.jobSchedules.map JobSchedule.ident))
      (hvalid : (∀ schedule ∈ db.jobSchedules, schedule.Valid cron) → ∀ schedule ∈ rows, schedule.Valid cron) :
      Spares cron db { db with jobSchedules := rows }
  | insertSchedule {db db' : Db} {schedule : JobSchedule} (hvalid : schedule.Valid cron)
      (h : ScheduleRepository.insertSchedule schedule db = .ok ((), db')) : Spares cron db db'
  | insertDag {db db' : Db} {dag : Dag} (hvalid : dag.Valid) (h : DagRepository.insertDag dag db = .ok ((), db')) :
      Spares cron db db'
  | writeDag {db db' : Db} {dag : Dag} (hvalid : dag.Valid) (h : DagRepository.writeDag dag db = .ok ((), db')) :
      Spares cron db db'
  | edges {db : Db} {rows : List DagEdge} (hsub : rows.Sublist db.dagEdges) :
      Spares cron db { db with dagEdges := rows }
  | insertEdge {db db' : Db} {edge : DagEdge} (hvalid : edge.Valid)
      (h : DagRepository.insertEdge edge db = .ok ((), db')) : Spares cron db db'
  | runs {db : Db} {rows : List DagRun} (hids : rows.map DagRun.ident = db.dagRuns.map DagRun.ident)
      (htimed : (∀ run ∈ db.dagRuns, run.Timed) → ∀ run ∈ rows, run.Timed) :
      Spares cron db { db with dagRuns := rows }
  | insertRun {db db' : Db} {run : DagRun} (htimed : run.Timed)
      (h : DagRepository.insertRun run db = .ok ((), db')) : Spares cron db db'
  | writeNode {db db' : Db} {node : DagNodeExecution} (htimed : node.Timed)
      (h : DagRepository.writeNode node db = .ok ((), db')) : Spares cron db db'
  | insertNode {db db' : Db} {node : DagNodeExecution} (htimed : node.Timed)
      (h : DagRepository.insertNode node db = .ok ((), db')) : Spares cron db db'
  | venvs {db : Db} {rows : List Venv} (hids : rows.map Venv.ident = db.venvs.map Venv.ident) :
      Spares cron db { db with venvs := rows }
  | deleteVenv (db : Db) (id : VenvId) : Spares cron db (VenvRepository.deleteRows id db)
  | insertVenv {db db' : Db} {venv : Venv} (hvalid : venv.Valid)
      (h : VenvRepository.insertVenv venv db = .ok ((), db')) : Spares cron db db'
  | dependencies {db : Db} {rows : List JobDependency}
      (hsub : (rows.map JobDependency.ident).Sublist (db.jobDependencies.map JobDependency.ident)) :
      Spares cron db { db with jobDependencies := rows }
  | upsertDependency {db db' : Db} {dep : JobDependency}
      (h : PackageRepository.upsertDependency dep db = .ok ((), db')) : Spares cron db db'
  | cache {db : Db} {rows : List PackageCache}
      (hsub : (rows.map PackageCache.ident).Sublist (db.packageCache.map PackageCache.ident)) :
      Spares cron db { db with packageCache := rows }
  | insertCache {db db' : Db} {cache : PackageCache}
      (hentry : cache.venvId.isSome = true → ∀ row ∈ db.packageCache, row.entry ≠ cache.entry)
      (h : PackageRepository.insertCache cache db = .ok ((), db')) : Spares cron db db'

/-- What the statements of the program do to the tables, one at a time. -/
inductive Writes (cron : Cron) : Db → Db → Prop
  | spares {db db' : Db} (h : Spares cron db db') : Writes cron db db'
  | insertJob {db db' : Db} {job : Job} (h : JobRepository.insertJob job db = .ok ((), db')) : Writes cron db db'
  | executions {db : Db} {rows : List Execution}
      (hids : rows.map Execution.ident = db.executions.map Execution.ident)
      (htimed : (∀ x ∈ db.executions, x.Timed) → ∀ x ∈ rows, x.Timed) :
      Writes cron db { db with executions := rows }
  | insertExecution {db db' : Db} {x : Execution} (htimed : x.Timed)
      (h : ExecutionRepository.insertExecution x db = .ok ((), db')) : Writes cron db db'
  | entries {db : Db} {rows : List QueueEntry}
      (hsub : (rows.map QueueEntry.ident).Sublist (db.jobQueue.map QueueEntry.ident))
      (htimed : (∀ entry ∈ db.jobQueue, entry.Timed) → ∀ entry ∈ rows, entry.Timed) :
      Writes cron db { db with jobQueue := rows }
  | insertEntry {db db' : Db} {entry : QueueEntry} (htimed : entry.Timed)
      (h : QueueRepository.insertEntry entry db = .ok ((), db')) : Writes cron db db'
  | deleteDag (db : Db) (id : Uuid) : Writes cron db (DagRepository.deleteRows id db)

theorem Spares.deleteRows {cron : Cron} (db : Db) (gone : Uuid → Bool) :
    Spares cron db (ExecutionRepository.deleteRows gone db) :=
  .deleteExecutions (List.filter_sublist : (db.executions.filter fun x => !gone x.id).Sublist _)
    (fun x hx hgone => List.mem_filter.mpr ⟨hx, by rw [hgone]; rfl⟩)
    fun _ x hx => by simpa using (List.mem_filter.mp hx).2

theorem Spares.deleteJobs {cron : Cron} (db : Db) (ids : List Uuid) :
    Spares cron db (ids.foldl (fun db id => JobRepository.deleteRows id db) db) := by
  induction ids generalizing db with
  | nil => exact .refl db
  | cons id ids ih => exact .trans (.deleteJob db id) (ih _)

/-! ### The rows that pass the constraints -/

section

variable {db db' : Db}

theorem ExecutionRepository.insertExecution_ok {x : Execution}
    (h : ExecutionRepository.insertExecution x db = .ok ((), db')) :
    Rows.hits Execution.id x.id db.executions = 0 ∧ (∃ job ∈ db.jobs, job.id = x.jobId) ∧
      db' = { db with executions := db.executions ++ [x] } := by
  unfold ExecutionRepository.insertExecution at h
  split at h
  · cases h
  rename_i hnew
  split at h
  · cases h
  cases h
  exact ⟨not_not.mp hnew, Rows.hits_ne_zero.mp ‹_›, rfl⟩

theorem ExecutionLogRepository.insertLog_ok {log : ExecutionLog}
    (h : ExecutionLogRepository.insertLog log db = .ok ((), db')) :
    Rows.hits ExecutionLog.id log.id db.executionLogs = 0 ∧ (∃ x ∈ db.executions, x.id = log.executionId) ∧
      db' = { db with executionLogs := db.executionLogs ++ [log] } := by
  unfold ExecutionLogRepository.insertLog at h
  split at h
  · cases h
  rename_i hnew
  split at h
  · cases h
  cases h
  exact ⟨not_not.mp hnew, Rows.hits_ne_zero.mp ‹_›, rfl⟩

/-- The entry of a new execution, whose execution and job are stored. -/
theorem QueueRepository.insertEntry_ok {entry : QueueEntry}
    (h : QueueRepository.insertEntry entry db = .ok ((), db')) :
    Rows.hits QueueEntry.id entry.id db.jobQueue = 0 ∧
      Rows.hits QueueEntry.executionId entry.executionId db.jobQueue = 0 ∧
      (∃ x ∈ db.executions, x.id = entry.executionId) ∧ (∃ job ∈ db.jobs, job.id = entry.jobId) ∧
      db' = { db with jobQueue := db.jobQueue ++ [entry] } := by
  unfold QueueRepository.insertEntry at h
  split at h
  · cases h
  rename_i hid
  split at h
  · cases h
  rename_i hexecution
  split at h
  · cases h
  rename_i hexec
  split at h
  · cases h
  cases h
  exact ⟨not_not.mp hid, not_not.mp hexecution, Rows.hits_ne_zero.mp hexec, Rows.hits_ne_zero.mp ‹_›, rfl⟩

theorem ScheduleRepository.insertSchedule_ok {schedule : JobSchedule}
    (h : ScheduleRepository.insertSchedule schedule db = .ok ((), db')) :
    Rows.hits JobSchedule.id schedule.id db.jobSchedules = 0 ∧ (∃ job ∈ db.jobs, job.id = schedule.jobId) ∧
      db' = { db with jobSchedules := db.jobSchedules ++ [schedule] } := by
  unfold ScheduleRepository.insertSchedule at h
  split at h
  · cases h
  rename_i hnew
  split at h
  · cases h
  cases h
  exact ⟨not_not.mp hnew, Rows.hits_ne_zero.mp ‹_›, rfl⟩

theorem DagRepository.insertDag_ok {dag : Dag} (h : DagRepository.insertDag dag db = .ok ((), db')) :
    Rows.hits Dag.id dag.id db.dags = 0 ∧ Rows.hits Dag.name dag.name db.dags = 0 ∧
      db' = { db with dags := db.dags ++ [dag] } := by
  unfold DagRepository.insertDag at h
  split at h
  · cases h
  rename_i hnew
  split at h
  · cases h
  cases h
  exact ⟨not_not.mp hnew, not_not.mp ‹_›, rfl⟩

theorem DagRepository.insertRun_ok {run : DagRun} (h : DagRepository.insertRun run db = .ok ((), db')) :
    Rows.hits DagRun.id run.id db.dagRuns = 0 ∧ (∃ dag ∈ db.dags, dag.id = run.dagId) ∧
      db' = { db with dagRuns := db.dagRuns ++ [run] } := by
  unfold DagRepository.insertRun at h
  split at h
  · cases h
  rename_i hnew
  split at h
  · cases h
  cases h
  exact ⟨not_not.mp hnew, Rows.hits_ne_zero.mp ‹_›, rfl⟩

theorem DagRepository.refers_iff {executionId : Option Uuid} :
    DagRepository.refers executionId db = true ↔
      ∀ id, executionId = some id → ∃ x ∈ db.executions, x.id = id := by
  cases executionId with
  | none => simp [DagRepository.refers]
  | some id =>
      simp only [DagRepository.refers, decide_eq_true_eq, Rows.hits_ne_zero, Option.some.injEq, forall_eq']

theorem DagRepository.insertNode_ok {node : DagNodeExecution}
    (h : DagRepository.insertNode node db = .ok ((), db')) :
    Rows.hits DagNodeExecution.id node.id db.dagNodeExecutions = 0 ∧
      (∃ run ∈ db.dagRuns, run.id = node.dagRunId) ∧ (∃ job ∈ db.jobs, job.id = node.jobId) ∧
      (∀ id, node.executionId = some id → ∃ x ∈ db.executions, x.id = id) ∧
      db' = { db with dagNodeExecutions := db.dagNodeExecutions ++ [node] } := by
  unfold DagRepository.insertNode at h
  split at h
  · cases h
  rename_i hnew
  split at h
  · cases h
  rename_i hrun
  split at h
  · cases h
  rename_i hjob
  split at h
  · cases h
  rename_i hrefers
  cases h
  refine ⟨not_not.mp hnew, Rows.hits_ne_zero.mp hrun, Rows.hits_ne_zero.mp hjob, ?_, rfl⟩
  exact DagRepository.refers_iff.mp (by simpa using hrefers)

theorem VenvRepository.insertVenv_ok {venv : Venv} (h : VenvRepository.insertVenv venv db = .ok ((), db')) :
    Rows.hits Venv.id venv.id db.venvs = 0 ∧ (∀ id, venv.jobId = some id → ∃ job ∈ db.jobs, job.id = id) ∧
      db' = { db with venvs := db.venvs ++ [venv] } := by
  unfold VenvRepository.insertVenv at h
  split at h
  · cases h
  rename_i hnew
  split at h
  · cases h
  rename_i hjob
  cases h
  refine ⟨not_not.mp hnew, ?_, rfl⟩
  intro id hid
  rw [hid, Option.any_some, decide_eq_true_eq] at hjob
  exact Rows.hits_ne_zero.mp hjob

theorem PackageRepository.insertCache_ok {cache : PackageCache}
    (h : PackageRepository.insertCache cache db = .ok ((), db')) :
    Rows.hits PackageCache.id cache.id db.packageCache = 0 ∧
      db' = { db with packageCache := db.packageCache ++ [cache] } := by
  unfold PackageRepository.insertCache at h
  split at h
  · cases h
  · cases h
    exact ⟨not_not.mp ‹_›, rfl⟩

end

/-! ### Keys -/

section

variable {db db' : Db}

theorem Db.Keyed.deleteExecutions (h : db.Keyed) (gone : Uuid → Bool) {rest : List Execution}
    (hsub : rest.Sublist db.executions) :
    Db.Keyed { ExecutionRepository.deleteRows gone db with executions := rest } where
  jobs := h.jobs
  executions := h.executions.sublist (hsub.map _)
  logs := h.logs.sublist (List.filter_sublist.map _)
  entries := h.entries.sublist (List.filter_sublist.map _)
  entryExecutions := h.entryExecutions.sublist (List.filter_sublist.map _)
  schedules := h.schedules
  dags := h.dags
  dagNames := h.dagNames
  edges := h.edges
  edgeEnds := h.edgeEnds
  runs := h.runs
  nodes := by
    have hids : (ExecutionRepository.deleteRows gone db).dagNodeExecutions.map DagNodeExecution.id =
        db.dagNodeExecutions.map DagNodeExecution.id := by
      simp only [ExecutionRepository.deleteRows, List.map_map]
      apply List.map_congr_left
      intro node _
      simp only [Function.comp_apply]
      split <;> rfl
    exact h.nodes.of_map_eq DagNodeExecution.id id (fun _ => rfl) hids
  venvs := h.venvs
  dependencies := h.dependencies
  dependencyNames := h.dependencyNames
  cache := h.cache
  cacheEntries := h.cacheEntries

theorem Db.Keyed.deleteRows (h : db.Keyed) (gone : Uuid → Bool) : (ExecutionRepository.deleteRows gone db).Keyed :=
  h.deleteExecutions gone (List.filter_sublist : (db.executions.filter fun x => !gone x.id).Sublist _)

theorem Db.Keyed.deleteJob (h : db.Keyed) (id : Uuid) : (JobRepository.deleteRows id db).Keyed := by
  have hrest := h.deleteRows fun e => db.executions.any fun x => x.id = e && x.jobId = id
  exact {
    jobs := (hrest.jobs.remove id).of_map_eq Job.id (fun i => i) (fun _ => rfl) (JobRepository.map_deselect (fun _ => rfl) _ _)
    executions := hrest.executions
    logs := hrest.logs
    entries := hrest.entries.remove id
    entryExecutions := hrest.entryExecutions.remove id
    schedules := hrest.schedules.remove id
    dags := hrest.dags
    dagNames := hrest.dagNames
    edges := hrest.edges.sublist (List.filter_sublist.map _)
    edgeEnds := hrest.edgeEnds.sublist (List.filter_sublist.map _)
    runs := hrest.runs
    nodes := hrest.nodes.remove id
    venvs := hrest.venvs.remove (some id)
    dependencies := hrest.dependencies.remove id
    dependencyNames := hrest.dependencyNames.remove id
    cache := hrest.cache
    cacheEntries := hrest.cacheEntries }

theorem Db.Keyed.writeDag (h : db.Keyed) {dag : Dag} (hwrite : DagRepository.writeDag dag db = .ok ((), db')) :
    db'.Keyed := by
  unfold DagRepository.writeDag at hwrite
  split at hwrite
  · cases hwrite
  rename_i hfree
  cases hwrite
  refine { h with dags := Rows.Unique.modify h.dags ?_ _, dagNames := ?_ }
  · exact fun _ => rfl
  -- the rows that are not written have other names
  by_cases hhit : Rows.hits Dag.id dag.id db.dags = 0
  · rw [Rows.modify_of_ne (Rows.hits_eq_zero.mp hhit)]
    exact h.dagNames
  have hother : ∀ row ∈ db.dags, row.id ≠ dag.id → row.name ≠ dag.name := by
    intro row hrow hid hname
    refine hfree ⟨hhit, List.any_eq_true.mpr ⟨row, hrow, ?_⟩⟩
    simp only [hid, hname, ne_eq, not_false_eq_true, decide_true, Bool.and_self]
  have hids : db.dags.Pairwise fun a b => a.id ≠ b.id := List.pairwise_map.mp h.dags
  have hnames : db.dags.Pairwise fun a b => a.name ≠ b.name := List.pairwise_map.mp h.dagNames
  refine List.pairwise_map.mpr (List.pairwise_map.mpr ?_)
  refine (hids.and hnames).imp_of_mem ?_
  rintro a b ha hb ⟨hid, hname⟩
  by_cases haid : a.id = dag.id
  · have hbid : b.id ≠ dag.id := fun heq => hid (haid.trans heq.symm)
    rw [if_pos haid, if_neg hbid]
    exact (hother b hb hbid).symm
  · rw [if_neg haid]
    by_cases hbid : b.id = dag.id
    · rw [if_pos hbid]
      exact hother a ha haid
    · rw [if_neg hbid]
      exact hname

theorem Db.Keyed.upsertDependency (h : db.Keyed) {dep : JobDependency}
    (hupsert : PackageRepository.upsertDependency dep db = .ok ((), db')) : db'.Keyed := by
  unfold PackageRepository.upsertDependency at hupsert
  dsimp only at hupsert
  split at hupsert
  · cases hupsert
  rename_i hid
  split at hupsert
  · cases hupsert
    have hids : (db.jobDependencies.map fun row => if (row.jobId = dep.jobId && row.packageName = dep.packageName)
        then { row with versionConstraint := dep.versionConstraint } else row).map JobDependency.ident =
          db.jobDependencies.map JobDependency.ident := by
      rw [List.map_map]
      apply List.map_congr_left
      intro row _
      simp only [Function.comp_apply]
      split <;> rfl
    exact { h with
      dependencies := h.dependencies.of_map_eq JobDependency.ident Prod.fst (fun _ => rfl) hids
      dependencyNames := h.dependencyNames.of_map_eq JobDependency.ident Prod.snd (fun _ => rfl) hids }
  · rename_i hnew
    split at hupsert
    · cases hupsert
    cases hupsert
    refine { h with dependencies := h.dependencies.append (not_not.mp hid), dependencyNames := ?_ }
    refine h.dependencyNames.append (Rows.hits_eq_zero.mpr ?_)
    intro row hrow heq
    obtain ⟨hjob, hname⟩ := Prod.mk.inj heq
    refine hnew (List.any_eq_true.mpr ⟨row, hrow, ?_⟩)
    simp only [hjob, hname, decide_true, Bool.and_self]

theorem Db.Keyed.cacheEntries_append (h : db.Keyed) {cache : PackageCache}
    (hentry : cache.venvId.isSome = true → ∀ row ∈ db.packageCache, row.entry ≠ cache.entry) :
    Rows.Unique PackageCache.entry ((db.packageCache ++ [cache]).filter fun row => row.venvId.isSome) := by
  rw [List.filter_append]
  by_cases hvenv : cache.venvId.isSome = true
  · rw [List.filter_cons_of_pos (by exact hvenv), List.filter_nil]
    apply h.cacheEntries.append
    exact Rows.hits_eq_zero.mpr fun row hrow => hentry hvenv row (List.mem_filter.mp hrow).1
  · rw [List.filter_cons_of_neg (by exact hvenv), List.filter_nil, List.append_nil]
    exact h.cacheEntries

/-- Keys stay unique. -/
theorem Spares.keyed {cron : Cron} (hspares : Spares cron db db') (h : db.Keyed) : db'.Keyed := by
  induction hspares with
  | refl => exact h
  | trans _ _ ih ih' => exact ih' (ih h)
  | writeJob hwrite =>
      obtain ⟨_, rfl⟩ := JobRepository.writeJob_ok hwrite
      refine { h with jobs := Rows.Unique.modify h.jobs ?_ _ }
      exact fun _ => rfl
  | deleteJob db id => exact h.deleteJob id
  | deleteExecutions hsub => exact h.deleteExecutions _ hsub
  | logs hsub => exact { h with logs := h.logs.sublist (hsub.map _) }
  | insertLog hinsert =>
      obtain ⟨hnew, _, rfl⟩ := ExecutionLogRepository.insertLog_ok hinsert
      exact { h with logs := h.logs.append hnew }
  | schedules hsub => exact { h with schedules := h.schedules.of_map JobSchedule.ident Prod.fst (fun _ => rfl) hsub }
  | insertSchedule _ hinsert =>
      obtain ⟨hnew, _, rfl⟩ := ScheduleRepository.insertSchedule_ok hinsert
      exact { h with schedules := h.schedules.append hnew }
  | insertDag _ hinsert =>
      obtain ⟨hid, hname, rfl⟩ := DagRepository.insertDag_ok hinsert
      exact { h with dags := h.dags.append hid, dagNames := h.dagNames.append hname }
  | writeDag _ hwrite => exact h.writeDag hwrite
  | edges hsub => exact { h with edges := h.edges.sublist (hsub.map _), edgeEnds := h.edgeEnds.sublist (hsub.map _) }
  | @insertEdge db db' edge _ hinsert =>
      obtain ⟨hinsertable, heq⟩ := DagRepository.insertEdge_eq_ok.mp hinsert
      obtain rfl := congrArg Prod.snd heq
      have hends : ∀ row ∈ db.dagEdges, row.ends ≠ edge.ends := by
        intro row hrow heq
        simp only [DagEdge.ends, Prod.mk.injEq] at heq
        exact hinsertable.pair row hrow heq.1 heq.2.1 heq.2.2
      exact { h with
        edges := h.edges.append (Rows.hits_eq_zero.mpr hinsertable.id)
        edgeEnds := h.edgeEnds.append (Rows.hits_eq_zero.mpr hends) }
  | runs hids => exact { h with runs := h.runs.of_map_eq DagRun.ident Prod.fst (fun _ => rfl) hids }
  | insertRun _ hinsert =>
      obtain ⟨hnew, _, rfl⟩ := DagRepository.insertRun_ok hinsert
      exact { h with runs := h.runs.append hnew }
  | writeNode _ hwrite =>
      unfold DagRepository.writeNode at hwrite
      split at hwrite
      · cases hwrite
      cases hwrite
      refine { h with nodes := Rows.Unique.modify h.nodes ?_ _ }
      exact fun _ => rfl
  | insertNode _ hinsert =>
      obtain ⟨hnew, _, _, _, rfl⟩ := DagRepository.insertNode_ok hinsert
      exact { h with nodes := h.nodes.append hnew }
  | venvs hids => exact { h with venvs := h.venvs.of_map_eq Venv.ident Prod.fst (fun _ => rfl) hids }
  | deleteVenv db id =>
      exact { h with
        jobs := h.jobs.of_map_eq Job.id (fun i => i) (fun _ => rfl) (JobRepository.map_deselect (fun _ => rfl) _ _)
        venvs := h.venvs.remove id }
  | insertVenv _ hinsert =>
      obtain ⟨hnew, _, rfl⟩ := VenvRepository.insertVenv_ok hinsert
      exact { h with venvs := h.venvs.append hnew }
  | dependencies hsub =>
      exact { h with
        dependencies := h.dependencies.of_map JobDependency.ident Prod.fst (fun _ => rfl) hsub
        dependencyNames := h.dependencyNames.of_map JobDependency.ident Prod.snd (fun _ => rfl) hsub }
  | upsertDependency hupsert => exact h.upsertDependency hupsert
  | cache hsub =>
      exact { h with
        cache := h.cache.of_map PackageCache.ident Prod.fst (fun _ => rfl) hsub
        cacheEntries := h.cacheEntries.of_map_filter PackageCache.ident Prod.snd (fun i => i.2.2.2.2.isSome)
          (fun _ => rfl) (fun _ => rfl) hsub }
  | insertCache hentry hinsert =>
      obtain ⟨hnew, rfl⟩ := PackageRepository.insertCache_ok hinsert
      exact { h with cache := h.cache.append hnew, cacheEntries := h.cacheEntries_append hentry }

theorem Writes.keyed {cron : Cron} (hwrites : Writes cron db db') (h : db.Keyed) : db'.Keyed := by
  cases hwrites with
  | spares hspares => exact hspares.keyed h
  | insertJob hinsert =>
      obtain ⟨hnew, _, rfl⟩ := JobRepository.insertJob_ok hinsert
      exact { h with jobs := h.jobs.append hnew }
  | executions hids =>
      exact { h with executions := h.executions.of_map_eq Execution.ident Prod.fst (fun _ => rfl) hids }
  | insertExecution _ hinsert =>
      obtain ⟨hnew, _, rfl⟩ := ExecutionRepository.insertExecution_ok hinsert
      exact { h with executions := h.executions.append hnew }
  | entries hsub =>
      exact { h with
        entries := h.entries.of_map QueueEntry.ident Prod.fst (fun _ => rfl) hsub
        entryExecutions := h.entryExecutions.of_map QueueEntry.ident (fun i => i.2.1) (fun _ => rfl) hsub }
  | insertEntry _ hinsert =>
      obtain ⟨hid, hexecution, _, _, rfl⟩ := QueueRepository.insertEntry_ok hinsert
      exact { h with entries := h.entries.append hid, entryExecutions := h.entryExecutions.append hexecution }
  | deleteDag id =>
      exact { h with
        dags := h.dags.remove id
        dagNames := h.dagNames.remove id
        edges := h.edges.remove id
        edgeEnds := h.edgeEnds.remove id
        runs := h.runs.remove id
        nodes := h.nodes.sublist (List.filter_sublist.map _) }

end

/-! ### References -/

section

variable {db db' : Db}

/-- Deleting executions, with their logs and entries, from which no node is left that names one of them. -/
theorem Db.Referenced.deleteExecutions (h : db.Referenced) (gone : Uuid → Bool) {rest : List Execution}
    (hsub : rest.Sublist db.executions) (hrest : ∀ x ∈ db.executions, gone x.id = false → x ∈ rest) :
    Db.Referenced { ExecutionRepository.deleteRows gone db with executions := rest } := by
  have hkept {ρ : Type} {column : ρ → Option Uuid} {rows rows' : List ρ}
      (href : Rows.References column rows Execution.id db.executions)
      (hrows : ∀ row ∈ rows', ∀ id, column row = some id →
        (∃ old ∈ rows, column old = some id) ∧ gone id = false) :
      Rows.References column rows' Execution.id rest := by
    refine href.change (fun row hrow id hid => (hrows row hrow id hid).1) ?_
    intro row hrow id hid x hx hxid
    exact ⟨x, hrest x hx (by rw [hxid]; exact (hrows row hrow id hid).2), hxid⟩
  have hnode {ι : Type} (f : DagNodeExecution → ι) (hf : ∀ node, f { node with executionId := none } = f node) :
      ∀ node ∈ (ExecutionRepository.deleteRows gone db).dagNodeExecutions,
        ∃ old ∈ db.dagNodeExecutions, f old = f node := by
    intro node hmem
    obtain ⟨old, hold, rfl⟩ := List.mem_map.mp hmem
    refine ⟨old, hold, ?_⟩
    split
    · exact (hf old).symm
    · rfl
  exact { h with
    executionJob := h.executionJob.sublist hsub
    logExecution := by
      refine hkept h.logExecution fun log hlog id hid => ?_
      obtain ⟨hmem, hgone⟩ := List.mem_filter.mp hlog
      obtain rfl := Option.some.inj hid
      exact ⟨⟨log, hmem, rfl⟩, by simpa using hgone⟩
    entryExecution := by
      refine hkept h.entryExecution fun entry hentry id hid => ?_
      obtain ⟨hmem, hgone⟩ := List.mem_filter.mp hentry
      obtain rfl := Option.some.inj hid
      exact ⟨⟨entry, hmem, rfl⟩, by simpa using hgone⟩
    entryJob := h.entryJob.sublist List.filter_sublist
    nodeRun := h.nodeRun.of_rows (hnode (fun node => some node.dagRunId) fun _ => rfl)
    nodeJob := h.nodeJob.of_rows (hnode (fun node => some node.jobId) fun _ => rfl)
    nodeExecution := by
      refine hkept h.nodeExecution fun node hmem id hid => ?_
      obtain ⟨old, hold, rfl⟩ := List.mem_map.mp hmem
      split at hid
      · cases hid
      rename_i hgone
      refine ⟨⟨old, hold, hid⟩, ?_⟩
      simpa only [hid, Option.any_some, Bool.not_eq_true] using hgone }

theorem Db.Referenced.deleteRows (h : db.Referenced) (gone : Uuid → Bool) :
    (ExecutionRepository.deleteRows gone db).Referenced := by
  refine h.deleteExecutions gone (List.filter_sublist : (db.executions.filter fun x => !gone x.id).Sublist _) ?_
  intro x hx hgone
  exact List.mem_filter.mpr ⟨hx, by rw [hgone]; rfl⟩

theorem Db.Referenced.deleteVenv (h : db.Referenced) (id : VenvId) :
    (VenvRepository.deleteRows id db).Referenced := by
  have hjobs {ρ : Type} {column : ρ → Option Uuid} {rows : List ρ}
      (href : Rows.References column rows Job.id db.jobs) :
      Rows.References column rows Job.id (VenvRepository.deleteRows id db).jobs :=
    href.of_map_parent Job.id (fun i => i) (fun _ => rfl) (JobRepository.map_deselect (fun _ => rfl) _ _)
  exact { h with
    executionJob := hjobs h.executionJob
    entryJob := hjobs h.entryJob
    scheduleJob := hjobs h.scheduleJob
    edgeUpstream := hjobs h.edgeUpstream
    edgeDownstream := hjobs h.edgeDownstream
    nodeJob := hjobs h.nodeJob
    venvJob := (hjobs h.venvJob).sublist List.filter_sublist
    jobVenv := by
      intro row hrow value hvalue
      obtain ⟨⟨job, hjob, hselected⟩, hkept⟩ := JobRepository.selected_of_deselect hrow hvalue
      obtain ⟨venv, hvenv, hid⟩ := h.jobVenv job hjob value hselected
      refine ⟨venv, Rows.mem_remove.mpr ⟨hvenv, ?_⟩, hid⟩
      rw [hid]
      exact of_decide_eq_false hkept
    dependencyJob := hjobs h.dependencyJob }

theorem Db.Referenced.writeJob (h : db.Referenced) {job : Job} {affected : Nat}
    (hwrite : JobRepository.writeJob job db = .ok (affected, db')) : db'.Referenced := by
  have hstored := JobRepository.writeJob_stored hwrite
  obtain ⟨hhits, rfl⟩ := JobRepository.writeJob_ok hwrite
  have hjobs {ρ : Type} {column : ρ → Option Uuid} {rows : List ρ}
      (href : Rows.References column rows Job.id db.jobs) :
      Rows.References column rows Job.id (Rows.modify Job.id job.id job.over db.jobs) :=
    href.modify_parent (f := job.over) job.id fun _ => rfl
  refine { h with
    executionJob := hjobs h.executionJob
    entryJob := hjobs h.entryJob
    scheduleJob := hjobs h.scheduleJob
    edgeUpstream := hjobs h.edgeUpstream
    edgeDownstream := hjobs h.edgeDownstream
    nodeJob := hjobs h.nodeJob
    venvJob := hjobs h.venvJob
    jobVenv := ?_
    dependencyJob := hjobs h.dependencyJob }
  intro row hrow value hvalue
  obtain ⟨old, hold, rfl⟩ := Rows.mem_modify.mp hrow
  split at hvalue
  · rename_i hid
    have hhit : affected ≠ 0 := hhits ▸ Rows.hits_ne_zero.mpr ⟨old, hold, hid⟩
    exact JobRepository.selectsUnstored_eq_false.mp (hstored hhit) value hvalue
  · exact h.jobVenv old hold value hvalue

/-- A job goes with everything that refers to it. -/
theorem Db.Referenced.deleteJob (h : db.Referenced) (id : Uuid) : (JobRepository.deleteRows id db).Referenced := by
  have hrest := h.deleteRows fun e => db.executions.any fun x => x.id = e && x.jobId = id
  -- rows that do not refer to the job: the jobs that are left keep their ids
  have hleft {ρ : Type} {column : ρ → Option Uuid} {rows rows' : List ρ}
      (href : Rows.References column rows Job.id db.jobs) (hrows : ∀ row ∈ rows', row ∈ rows ∧ column row ≠ some id) :
      Rows.References column rows' Job.id (JobRepository.deleteRows id db).jobs :=
    (href.remove id hrows).of_map_parent Job.id (fun i => i) (fun _ => rfl)
      (JobRepository.map_deselect (fun _ => rfl) _ _)
  -- rows that have lost those of the job, whatever they refer to
  have hof {ρ : Type} {column : ρ → Uuid} {rows : List ρ}
      (href : Rows.References (fun row => some (column row)) rows Job.id db.jobs) :
      Rows.References (fun row => some (column row)) (Rows.remove column id rows) Job.id
        (JobRepository.deleteRows id db).jobs := by
    refine hleft href fun row hrow => ?_
    obtain ⟨hmem, hne⟩ := Rows.mem_remove.mp hrow
    exact ⟨hmem, fun heq => hne (Option.some.inj heq)⟩
  have hedges : ∀ edge ∈ (JobRepository.deleteRows id db).dagEdges,
      edge ∈ db.dagEdges ∧ edge.upstreamJobId ≠ id ∧ edge.downstreamJobId ≠ id := by
    intro edge hedge
    obtain ⟨hmem, hends⟩ := List.mem_filter.mp hedge
    exact ⟨hmem, by simpa using hends⟩
  exact { hrest with
    executionJob := by
      refine hleft h.executionJob fun x hx => ?_
      obtain ⟨hmem, hgone⟩ := List.mem_filter.mp hx
      refine ⟨hmem, fun heq => ?_⟩
      have hany : (db.executions.any fun y => y.id = x.id && y.jobId = id) = true := by
        refine List.any_eq_true.mpr ⟨x, hmem, ?_⟩
        simp only [Option.some.inj heq, decide_true, Bool.and_self]
      beta_reduce at hgone
      rw [hany] at hgone
      cases hgone
    entryExecution := hrest.entryExecution.sublist List.filter_sublist
    entryJob := hof hrest.entryJob
    scheduleJob := hof h.scheduleJob
    edgeDag := h.edgeDag.of_rows fun edge hedge => ⟨edge, (hedges edge hedge).1, rfl⟩
    edgeUpstream := hleft h.edgeUpstream fun edge hedge =>
      ⟨(hedges edge hedge).1, fun heq => (hedges edge hedge).2.1 (Option.some.inj heq)⟩
    edgeDownstream := hleft h.edgeDownstream fun edge hedge =>
      ⟨(hedges edge hedge).1, fun heq => (hedges edge hedge).2.2 (Option.some.inj heq)⟩
    nodeRun := hrest.nodeRun.sublist List.filter_sublist
    nodeJob := hof hrest.nodeJob
    nodeExecution := hrest.nodeExecution.sublist List.filter_sublist
    venvJob := hleft h.venvJob fun venv hvenv => Rows.mem_remove.mp hvenv
    jobVenv := by
      intro row hrow value hvalue
      obtain ⟨⟨job, hjob, hselected⟩, hkept⟩ := JobRepository.selected_of_deselect hrow hvalue
      obtain ⟨venv, hvenv, hid⟩ := h.jobVenv job (Rows.mem_remove.mp hjob).1 value hselected
      refine ⟨venv, Rows.mem_remove.mpr ⟨hvenv, fun hown => ?_⟩, hid⟩
      refine Bool.eq_false_iff.mp hkept (List.any_eq_true.mpr ⟨venv, hvenv, ?_⟩)
      simp only [hid, hown, decide_true, Bool.and_self]
    dependencyJob := hof h.dependencyJob }

/-- A DAG goes with its edges and its runs, and these with their nodes. -/
theorem Db.Referenced.deleteDag (h : db.Referenced) (id : Uuid) : (DagRepository.deleteRows id db).Referenced := by
  have hof {ρ : Type} {column : ρ → Uuid} {rows : List ρ}
      (href : Rows.References (fun row => some (column row)) rows Dag.id db.dags) :
      Rows.References (fun row => some (column row)) (Rows.remove column id rows) Dag.id
        (Rows.remove Dag.id id db.dags) := by
    refine href.remove id fun row hrow => ?_
    obtain ⟨hmem, hne⟩ := Rows.mem_remove.mp hrow
    exact ⟨hmem, fun heq => hne (Option.some.inj heq)⟩
  exact { h with
    edgeDag := hof h.edgeDag
    edgeUpstream := h.edgeUpstream.sublist List.filter_sublist
    edgeDownstream := h.edgeDownstream.sublist List.filter_sublist
    runDag := hof h.runDag
    nodeRun := by
      refine h.nodeRun.change (fun node hnode value hvalue => ⟨node, (List.mem_filter.mp hnode).1, hvalue⟩) ?_
      intro node hnode value hvalue run hrun hid
      refine ⟨run, Rows.mem_remove.mpr ⟨hrun, fun hdag => ?_⟩, hid⟩
      have hany : (db.dagRuns.any fun r => r.id = node.dagRunId && r.dagId = id) = true := by
        refine List.any_eq_true.mpr ⟨run, hrun, ?_⟩
        simp only [hid, Option.some.inj hvalue, hdag, decide_true, Bool.and_self]
      have hgone := (List.mem_filter.mp hnode).2
      beta_reduce at hgone
      rw [hany] at hgone
      cases hgone
    nodeJob := h.nodeJob.sublist List.filter_sublist
    nodeExecution := h.nodeExecution.sublist List.filter_sublist }

theorem Db.Referenced.writeNode (h : db.Referenced) {node : DagNodeExecution}
    (hwrite : DagRepository.writeNode node db = .ok ((), db')) : db'.Referenced := by
  unfold DagRepository.writeNode at hwrite
  split at hwrite
  · cases hwrite
  rename_i hrefers
  cases hwrite
  refine { h with
    nodeRun := h.nodeRun.modify node.id ?_
    nodeJob := h.nodeJob.modify node.id ?_
    nodeExecution := ?_ }
  · exact fun _ => rfl
  · exact fun _ => rfl
  intro row hrow id hid
  obtain ⟨old, hold, rfl⟩ := Rows.mem_modify.mp hrow
  split at hid
  · rename_i heq
    have hhit : Rows.hits DagNodeExecution.id node.id db.dagNodeExecutions ≠ 0 :=
      Rows.hits_ne_zero.mpr ⟨old, hold, heq⟩
    have hok : DagRepository.refers node.executionId db = true := by
      cases href : DagRepository.refers node.executionId db with
      | true => rfl
      | false => exact absurd ⟨hhit, by rw [href]; rfl⟩ hrefers
    exact DagRepository.refers_iff.mp hok id hid
  · exact h.nodeExecution old hold id hid

theorem Db.Referenced.upsertDependency (h : db.Referenced) {dep : JobDependency}
    (hupsert : PackageRepository.upsertDependency dep db = .ok ((), db')) : db'.Referenced := by
  unfold PackageRepository.upsertDependency at hupsert
  dsimp only at hupsert
  split at hupsert
  · cases hupsert
  split at hupsert
  · cases hupsert
    refine { h with dependencyJob := h.dependencyJob.of_rows ?_ }
    intro row hrow
    obtain ⟨old, hold, rfl⟩ := List.mem_map.mp hrow
    refine ⟨old, hold, ?_⟩
    split <;> rfl
  · split at hupsert
    · cases hupsert
    rename_i hjob
    cases hupsert
    exact { h with dependencyJob := h.dependencyJob.append_some (Rows.hits_ne_zero.mp hjob) }

/-- References still lead to rows. -/
theorem Spares.referenced {cron : Cron} (hspares : Spares cron db db') (h : db.Referenced) : db'.Referenced := by
  induction hspares with
  | refl => exact h
  | trans _ _ ih ih' => exact ih' (ih h)
  | writeJob hwrite => exact h.writeJob hwrite
  | deleteJob db id => exact h.deleteJob id
  | deleteExecutions hsub hrest => exact h.deleteExecutions _ hsub hrest
  | logs hsub => exact { h with logExecution := h.logExecution.sublist hsub }
  | insertLog hinsert =>
      obtain ⟨_, hexecution, rfl⟩ := ExecutionLogRepository.insertLog_ok hinsert
      exact { h with logExecution := h.logExecution.append_some hexecution }
  | schedules hsub =>
      exact { h with
        scheduleJob := h.scheduleJob.of_map JobSchedule.ident (fun i => some i.2) (fun _ => rfl) hsub }
  | insertSchedule _ hinsert =>
      obtain ⟨_, hjob, rfl⟩ := ScheduleRepository.insertSchedule_ok hinsert
      exact { h with scheduleJob := h.scheduleJob.append_some hjob }
  | insertDag _ hinsert =>
      obtain ⟨_, _, rfl⟩ := DagRepository.insertDag_ok hinsert
      exact { h with edgeDag := h.edgeDag.append_parent _, runDag := h.runDag.append_parent _ }
  | @writeDag db db' dag _ hwrite =>
      unfold DagRepository.writeDag at hwrite
      split at hwrite
      · cases hwrite
      cases hwrite
      refine { h with
        edgeDag := h.edgeDag.modify_parent dag.id ?_
        runDag := h.runDag.modify_parent dag.id ?_ }
      · exact fun _ => rfl
      · exact fun _ => rfl
  | edges hsub =>
      exact { h with
        edgeDag := h.edgeDag.sublist hsub
        edgeUpstream := h.edgeUpstream.sublist hsub
        edgeDownstream := h.edgeDownstream.sublist hsub }
  | insertEdge _ hinsert =>
      obtain ⟨hinsertable, heq⟩ := DagRepository.insertEdge_eq_ok.mp hinsert
      obtain rfl := congrArg Prod.snd heq
      exact { h with
        edgeDag := h.edgeDag.append_some hinsertable.dag
        edgeUpstream := h.edgeUpstream.append_some hinsertable.upstream
        edgeDownstream := h.edgeDownstream.append_some hinsertable.downstream }
  | runs hids =>
      exact { h with
        runDag := h.runDag.of_map DagRun.ident (fun i => some i.2) (fun _ => rfl) (hids ▸ List.Sublist.refl _)
        nodeRun := h.nodeRun.of_map_parent DagRun.ident Prod.fst (fun _ => rfl) hids }
  | insertRun _ hinsert =>
      obtain ⟨_, hdag, rfl⟩ := DagRepository.insertRun_ok hinsert
      exact { h with
        runDag := h.runDag.append_some hdag
        nodeRun := h.nodeRun.append_parent _ }
  | writeNode _ hwrite => exact h.writeNode hwrite
  | insertNode _ hinsert =>
      obtain ⟨_, hrun, hjob, hexecution, rfl⟩ := DagRepository.insertNode_ok hinsert
      exact { h with
        nodeRun := h.nodeRun.append_some hrun
        nodeJob := h.nodeJob.append_some hjob
        nodeExecution := h.nodeExecution.append hexecution }
  | venvs hids =>
      exact { h with
        venvJob := h.venvJob.of_map Venv.ident (fun i => i.2.1) (fun _ => rfl) (hids ▸ List.Sublist.refl _)
        jobVenv := h.jobVenv.of_map_parent Venv.ident Prod.fst (fun _ => rfl) hids }
  | deleteVenv db id => exact h.deleteVenv id
  | insertVenv _ hinsert =>
      obtain ⟨_, hjob, rfl⟩ := VenvRepository.insertVenv_ok hinsert
      exact { h with
        venvJob := h.venvJob.append hjob
        jobVenv := h.jobVenv.append_parent _ }
  | dependencies hsub =>
      exact { h with
        dependencyJob := h.dependencyJob.of_map JobDependency.ident (fun i => some i.2.1) (fun _ => rfl) hsub }
  | upsertDependency hupsert => exact h.upsertDependency hupsert
  | cache => exact { h with }
  | insertCache _ hinsert =>
      obtain ⟨_, rfl⟩ := PackageRepository.insertCache_ok hinsert
      exact { h with }

theorem Writes.referenced {cron : Cron} (hwrites : Writes cron db db') (h : db.Referenced) : db'.Referenced := by
  cases hwrites with
  | spares hspares => exact hspares.referenced h
  | insertJob hinsert =>
      obtain ⟨_, hvenv, rfl⟩ := JobRepository.insertJob_ok hinsert
      exact { h with
        jobVenv := h.jobVenv.append (JobRepository.selectsUnstored_eq_false.mp hvenv)
        executionJob := h.executionJob.append_parent _
        entryJob := h.entryJob.append_parent _
        scheduleJob := h.scheduleJob.append_parent _
        edgeUpstream := h.edgeUpstream.append_parent _
        edgeDownstream := h.edgeDownstream.append_parent _
        nodeJob := h.nodeJob.append_parent _
        venvJob := h.venvJob.append_parent _
        dependencyJob := h.dependencyJob.append_parent _ }
  | executions hids =>
      exact { h with
        executionJob := h.executionJob.of_map Execution.ident (fun i => some i.2) (fun _ => rfl)
          (hids ▸ List.Sublist.refl _)
        logExecution := h.logExecution.of_map_parent Execution.ident Prod.fst (fun _ => rfl) hids
        entryExecution := h.entryExecution.of_map_parent Execution.ident Prod.fst (fun _ => rfl) hids
        nodeExecution := h.nodeExecution.of_map_parent Execution.ident Prod.fst (fun _ => rfl) hids }
  | insertExecution _ hinsert =>
      obtain ⟨_, hjob, rfl⟩ := ExecutionRepository.insertExecution_ok hinsert
      exact { h with
        executionJob := h.executionJob.append_some hjob
        logExecution := h.logExecution.append_parent _
        entryExecution := h.entryExecution.append_parent _
        nodeExecution := h.nodeExecution.append_parent _ }
  | entries hsub =>
      exact { h with
        entryExecution := h.entryExecution.of_map QueueEntry.ident (fun i => some i.2.1) (fun _ => rfl) hsub
        entryJob := h.entryJob.of_map QueueEntry.ident (fun i => some i.2.2) (fun _ => rfl) hsub }
  | insertEntry _ hinsert =>
      obtain ⟨_, _, hexecution, hjob, rfl⟩ := QueueRepository.insertEntry_ok hinsert
      exact { h with
        entryExecution := h.entryExecution.append_some hexecution
        entryJob := h.entryJob.append_some hjob }
  | deleteDag id => exact h.deleteDag id

end

/-! ### Rows -/

section

variable {db db' : Db} {cron : Cron}

theorem forall_mem_append {ρ : Type} {p : ρ → Prop} {rows : List ρ} {new : ρ} (h : ∀ row ∈ rows, p row)
    (hnew : p new) : ∀ row ∈ rows ++ [new], p row :=
  List.forall_mem_append.mpr ⟨h, List.forall_mem_singleton.mpr hnew⟩

theorem Db.Formed.deleteExecutions (h : db.Formed cron) (gone : Uuid → Bool) {rest : List Execution}
    (hsub : rest.Sublist db.executions) :
    Db.Formed cron { ExecutionRepository.deleteRows gone db with executions := rest } :=
  { h with
    executions := fun x hx => h.executions x (hsub.subset hx)
    entries := fun entry hentry => h.entries entry (List.mem_filter.mp hentry).1
    nodes := by
      intro node hmem
      obtain ⟨old, hold, rfl⟩ := List.mem_map.mp hmem
      split
      · exact h.nodes old hold
      · exact h.nodes old hold }

theorem Db.Formed.deleteJob (h : db.Formed cron) (id : Uuid) : (JobRepository.deleteRows id db).Formed cron := by
  have hrest := h.deleteExecutions (fun e => db.executions.any fun x => x.id = e && x.jobId = id)
    (List.filter_sublist : (db.executions.filter fun x => !(db.executions.any fun y =>
      y.id = x.id && y.jobId = id)).Sublist _)
  exact { hrest with
    entries := fun entry hentry => hrest.entries entry (Rows.mem_remove.mp hentry).1
    schedules := fun schedule hschedule => h.schedules schedule (Rows.mem_remove.mp hschedule).1
    edges := fun edge hedge => h.edges edge (List.mem_filter.mp hedge).1
    nodes := fun node hnode => hrest.nodes node (Rows.mem_remove.mp hnode).1
    venvs := fun venv hvenv => h.venvs venv (Rows.mem_remove.mp hvenv).1 }

/-- Rows are still as they are meant to be. -/
theorem Spares.formed (hspares : Spares cron db db') (h : db.Formed cron) : db'.Formed cron := by
  induction hspares with
  | refl => exact h
  | trans _ _ ih ih' => exact ih' (ih h)
  | writeJob hwrite =>
      obtain ⟨_, rfl⟩ := JobRepository.writeJob_ok hwrite
      exact { h with }
  | deleteJob db id => exact h.deleteJob id
  | deleteExecutions hsub => exact h.deleteExecutions _ hsub
  | logs => exact { h with }
  | insertLog hinsert =>
      obtain ⟨_, _, rfl⟩ := ExecutionLogRepository.insertLog_ok hinsert
      exact { h with }
  | schedules _ hvalid => exact { h with schedules := hvalid h.schedules }
  | insertSchedule hvalid hinsert =>
      obtain ⟨_, _, rfl⟩ := ScheduleRepository.insertSchedule_ok hinsert
      exact { h with schedules := forall_mem_append h.schedules hvalid }
  | insertDag hvalid hinsert =>
      obtain ⟨_, _, rfl⟩ := DagRepository.insertDag_ok hinsert
      exact { h with dags := forall_mem_append h.dags hvalid }
  | writeDag hvalid hwrite =>
      unfold DagRepository.writeDag at hwrite
      split at hwrite
      · cases hwrite
      cases hwrite
      refine { h with dags := ?_ }
      intro row hrow
      obtain ⟨old, hold, rfl⟩ := Rows.mem_modify.mp hrow
      split
      · exact { name := hvalid.name, nodes := hvalid.nodes }
      · exact h.dags old hold
  | edges hsub => exact { h with edges := fun edge hedge => h.edges edge (hsub.subset hedge) }
  | insertEdge hvalid hinsert =>
      obtain ⟨_, heq⟩ := DagRepository.insertEdge_eq_ok.mp hinsert
      obtain rfl := congrArg Prod.snd heq
      exact { h with edges := forall_mem_append h.edges hvalid }
  | runs _ htimed => exact { h with runs := htimed h.runs }
  | insertRun htimed hinsert =>
      obtain ⟨_, _, rfl⟩ := DagRepository.insertRun_ok hinsert
      exact { h with runs := forall_mem_append h.runs htimed }
  | writeNode htimed hwrite =>
      unfold DagRepository.writeNode at hwrite
      split at hwrite
      · cases hwrite
      cases hwrite
      refine { h with nodes := ?_ }
      intro row hrow
      obtain ⟨old, hold, rfl⟩ := Rows.mem_modify.mp hrow
      split
      · exact htimed
      · exact h.nodes old hold
  | insertNode htimed hinsert =>
      obtain ⟨_, _, _, _, rfl⟩ := DagRepository.insertNode_ok hinsert
      exact { h with nodes := forall_mem_append h.nodes htimed }
  | @venvs db rows hids =>
      refine { h with venvs := ?_ }
      intro venv hvenv hmain
      have hident : venv.ident ∈ db.venvs.map Venv.ident := hids ▸ List.mem_map_of_mem hvenv
      obtain ⟨old, hold, heq⟩ := List.mem_map.mp hident
      simp only [Venv.ident, Prod.mk.injEq] at heq
      exact heq.1.symm.trans (h.venvs old hold (heq.2.2.trans hmain))
  | deleteVenv => exact { h with venvs := fun venv hvenv => h.venvs venv (Rows.mem_remove.mp hvenv).1 }
  | insertVenv hvalid hinsert =>
      obtain ⟨_, _, rfl⟩ := VenvRepository.insertVenv_ok hinsert
      exact { h with venvs := forall_mem_append h.venvs hvalid }
  | dependencies => exact { h with }
  | upsertDependency hupsert =>
      unfold PackageRepository.upsertDependency at hupsert
      dsimp only at hupsert
      split at hupsert
      · cases hupsert
      split at hupsert
      · cases hupsert
        exact { h with }
      · split at hupsert
        · cases hupsert
        · cases hupsert
          exact { h with }
  | cache => exact { h with }
  | insertCache _ hinsert =>
      obtain ⟨_, rfl⟩ := PackageRepository.insertCache_ok hinsert
      exact { h with }

theorem Writes.formed (hwrites : Writes cron db db') (h : db.Formed cron) : db'.Formed cron := by
  cases hwrites with
  | spares hspares => exact hspares.formed h
  | insertJob hinsert =>
      obtain ⟨_, _, rfl⟩ := JobRepository.insertJob_ok hinsert
      exact { h with }
  | executions _ htimed => exact { h with executions := htimed h.executions }
  | insertExecution htimed hinsert =>
      obtain ⟨_, _, rfl⟩ := ExecutionRepository.insertExecution_ok hinsert
      exact { h with executions := forall_mem_append h.executions htimed }
  | entries _ htimed => exact { h with entries := htimed h.entries }
  | insertEntry htimed hinsert =>
      obtain ⟨_, _, _, _, rfl⟩ := QueueRepository.insertEntry_ok hinsert
      exact { h with entries := forall_mem_append h.entries htimed }
  | deleteDag id =>
      exact { h with
        dags := fun dag hdag => h.dags dag (Rows.mem_remove.mp hdag).1
        edges := fun edge hedge => h.edges edge (Rows.mem_remove.mp hedge).1
        runs := fun run hrun => h.runs run (Rows.mem_remove.mp hrun).1
        nodes := fun node hnode => h.nodes node (List.mem_filter.mp hnode).1 }

theorem Writes.consistent (hwrites : Writes cron db db') (h : db.Consistent cron) : db'.Consistent cron where
  keyed := hwrites.keyed h.keyed
  referenced := hwrites.referenced h.referenced
  formed := hwrites.formed h.formed

theorem consistent_empty (cron : Cron) : Db.empty.Consistent cron where
  keyed := ⟨.nil, .nil, .nil, .nil, .nil, .nil, .nil, .nil, .nil, .nil, .nil, .nil, .nil, .nil, .nil, .nil, .nil⟩
  referenced := by
    constructor <;> exact List.forall_mem_nil _
  formed := by
    constructor <;> exact List.forall_mem_nil _

end

end Serverust
