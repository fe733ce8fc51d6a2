import Serverust.Library.Monitor
import Serverust.Model.Server
import Serverust.Proof.Background
import Serverust.Proof.HeapOrder
import Serverust.Proof.Integrity

/-!
# Statements beside the queue

Most of what the server does neither makes jobs, executions or entries nor writes executions or entries in place. A
monitor that admits such actions is left alone by the functions of the repositories that take no others.
-/

namespace Serverust

open Calendar Resumption

variable {α β : Type}

/-- What an action does that leaves the queue and, but for deletions, what it is about. -/
structure World.Spares (cron : Cron) (u v : World) : Prop where
  db : Serverust.Spares cron u.db v.db
  locked : v.locked = u.locked
  heap : v.memoryQueue = u.memoryQueue
  spawned : v.spawned = u.spawned
  fault : v.fault = u.fault
  nextUuid : u.nextUuid ≤ v.nextUuid

theorem World.Spares.of_db {cron : Cron} {u : World} {db : Db} (h : Serverust.Spares cron u.db db) :
    u.Spares cron { u with db } := ⟨h, rfl, rfl, rfl, rfl, le_rfl⟩

theorem World.Spares.refl {cron : Cron} (u : World) : u.Spares cron u := .of_db (.refl u.db)

theorem World.Spares.disk {cron : Cron} (u : World) (disk : Disk) : u.Spares cron { u with disk } :=
  ⟨.refl u.db, rfl, rfl, rfl, rfl, le_rfl⟩

/-- A monitor that such actions leave alone. -/
class Admits {ρ γ : Type} (cron : outParam Cron) (M : Monitor Event World ρ γ) : Prop where
  consistent : ∀ {w : World}, M.inv w → w.db.Consistent cron
  leaves : ∀ {u v : World} {ev : Event}, M.inv u → u.Spares cron v → M.Leaves u ev v

variable {ρ γ : Type} {cron : Cron} {M : Monitor Event World ρ γ} [hM : Admits cron M] {held : Option (γ × ρ)}

/-! ### Results -/

theorem guarded_okOr {value : Option α} {e : AppError} {φ : α → Prop} (h : ∀ a, value = some a → φ a) :
    (okOr value e).Safe M held φ := by
  cases value with
  | some a => exact .pure (h a rfl)
  | none => exact .throw

/-- A count that is zero is an error. -/
theorem guarded_affected {p : Async Nat} {e : AppError} (h : p.Safe M held fun _ => True) :
    (do let affected ← p; if affected = 0 then Task.throw e else return () : Async Unit).Safe
      M held fun _ => True := by
  apply h.bind
  intro affected _
  split
  · exact .throw
  · exact .pure trivial

/-- A function whose errors are only logged. -/
theorem guarded_logged {p : Async α} {φ : α → Prop} (h : p.Safe M held φ) :
    (do let _ ← p.attempt; return () : Async Unit).Safe M held fun _ => True :=
  h.attempt.bind fun _ _ => .pure trivial

include hM

/-! ### One action -/

theorem guarded_sql {stmt : Db → α → Stmt} {statement : DateTime → Db → Except SqlError (α × Db)}
    {mapErr : SqlError → AppError} {φ : α → Prop}
    (h : ∀ now db value db', db.Consistent cron → statement now db = .ok (value, db') →
      Spares cron db db' ∧ φ value) : (sql stmt statement mapErr).Safe M held φ := by
  apply Task.Safe.action
  intro u hinv
  cases hquery : u.query statement with
  | error e =>
      refine ⟨Admits.leaves hinv (.refl u), ?_⟩
      rintro _ ⟨⟩
  | ok r =>
      obtain ⟨hspares, hvalue⟩ := h _ _ _ _ (Admits.consistent hinv) (query_ok hquery).2
      refine ⟨Admits.leaves hinv (.of_db hspares), ?_⟩
      rintro _ ⟨⟩
      exact hvalue

theorem guarded_write {stmt : Db → α → Stmt} {statement : DateTime → Db → Except SqlError (α × Db)}
    {mapErr : SqlError → AppError}
    (h : ∀ now db value db', statement now db = .ok (value, db') → Spares cron db db') :
    (sql stmt statement mapErr).Safe M held fun _ => True :=
  guarded_sql fun now db value db' _ hok => ⟨h now db value db' hok, trivial⟩

theorem guarded_select {stmt : α → Stmt} {read : Db → α} {φ : α → Prop}
    (h : ∀ db : Db, db.Consistent cron → φ (read db)) : (select stmt read).Safe M held φ := by
  apply guarded_sql
  rintro now db _ _ hdb ⟨⟩
  exact ⟨.refl db, h db hdb⟩

theorem guarded_read {stmt : α → Stmt} {read : Db → α} : (select stmt read).Safe M held fun _ => True :=
  guarded_select fun _ _ => trivial

theorem guarded_execute {stmt : Db → Stmt} {write : Db → Nat × Db} (h : ∀ db, Spares cron db (write db).2) :
    (execute stmt write).Safe M held fun _ => True := by
  apply guarded_write
  intro now db value db' hok
  obtain rfl : (write db).2 = db' := congrArg Prod.snd (Except.ok.inj hok)
  exact h db

/-- An action beside the tables and the queue. -/
theorem guarded_perform {event : World → Event} {act : World → α × World} {φ : α → Prop}
    (h : ∀ w : World, w.Spares cron (act w).2) (hφ : ∀ w, φ (act w).1) : (perform event act).Safe M held φ := by
  apply Task.Safe.action
  intro w hinv
  refine ⟨Admits.leaves hinv (h w), ?_⟩
  rintro _ ⟨⟩
  exact hφ w

theorem guarded_nowRfc3339 : nowRfc3339.Safe M held fun _ => True := guarded_perform .refl fun _ => trivial

theorem guarded_newV4 : newV4.Safe M held fun _ => True :=
  guarded_perform (fun w => ⟨.refl w.db, rfl, rfl, rfl, rfl, Nat.le_succ _⟩) fun _ => trivial

/-- An action that only leaves an event. -/
theorem guarded_signal (ev : Event) : (perform (fun _ => ev) fun w => ((), w)).Safe M held fun _ => True :=
  guarded_perform .refl fun _ => trivial

/-- What is computed from the state. -/
theorem guarded_clock (read : World → α) :
    (perform (fun _ => .quiet) fun w => (read w, w)).Safe M held fun _ => True :=
  guarded_perform .refl fun _ => trivial

/-- A row that is looked up, or an error. -/
theorem guarded_lookup {ρ κ : Type} [DecidableEq κ] {stmt : Option ρ → Stmt} {column : ρ → κ} {value : κ}
    {rows : Db → List ρ} {e : AppError} {φ : ρ → Prop}
    (h : ∀ db : Db, db.Consistent cron → ∀ row ∈ rows db, φ row) :
    (do let row ← select stmt fun db => Rows.lookup column value (rows db); okOr row e : Async ρ).Safe
      M held φ := by
  have hselect : (select stmt fun db => Rows.lookup column value (rows db)).Safe M held
      fun row => ∀ a, row = some a → φ a := by
    apply guarded_select
    intro db hdb row hrow
    exact h db hdb row (Rows.mem_of_lookup hrow)
  exact hselect.bind fun _ hrow => guarded_okOr hrow

/-! ### The queue -/

namespace QueueRepository

theorem guarded_getByExecution (executionId : Uuid) :
    (getByExecution executionId).Safe M held fun _ => True := guarded_read

theorem guarded_getAllQueued : getAllQueued.Safe M held fun _ => True := guarded_read

theorem guarded_countLastHour (status : QueueStatus) :
    (countLastHour status).Safe M held fun _ => True := by
  apply guarded_write
  rintro now db _ _ ⟨⟩
  exact .refl db

end QueueRepository

/-! ### Executions and their logs -/

namespace ExecutionRepository

theorem guarded_getById (id : Uuid) : (getById id).Safe M held fun _ => True :=
  guarded_lookup fun _ _ _ _ => trivial

theorem guarded_delete (id : Uuid) : (delete id).Safe M held fun _ => True :=
  guarded_affected (guarded_execute fun db => .deleteRows db fun e => e = id)

theorem guarded_deleteOlderThanDays (days : Nat) :
    (deleteOlderThanDays days).Safe M held fun _ => True := by
  refine Task.Safe.bind (guarded_write fun now db _ _ hok => ?_) fun _ _ => .pure trivial
  cases hok
  refine .deleteExecutions List.filter_sublist (fun x hx hgone => List.mem_filter.mpr ⟨hx, ?_⟩) fun hunique x hx => ?_
  -- a row that is kept has not the id of one that expires
  · cases hexpired : isExpired (daysAgo now days) x with
    | false => rfl
    | true =>
        have hmem : x.id ∈ (db.executions.filter (isExpired (daysAgo now days))).map Execution.id :=
          List.mem_map_of_mem (List.mem_filter.mpr ⟨hx, hexpired⟩)
        rw [decide_eq_false_iff_not] at hgone
        exact absurd hmem hgone
  · obtain ⟨hmem, hkept⟩ := List.mem_filter.mp hx
    refine decide_eq_false fun hexpired => ?_
    obtain ⟨y, hy, hid⟩ := List.mem_map.mp hexpired
    obtain ⟨hstored, hyes⟩ := List.mem_filter.mp hy
    obtain rfl := hunique.eq_of_column hstored hmem hid
    rw [hyes] at hkept
    cases hkept

theorem guarded_deleteBulk (ids : List Uuid) : (deleteBulk ids).Safe M held fun _ => True := by
  unfold deleteBulk
  split
  · exact .pure trivial
  · exact guarded_execute fun db => .deleteRows db fun e => e ∈ ids

end ExecutionRepository

namespace ExecutionLogRepository

theorem guarded_deleteByExecution (executionId : Uuid) :
    (deleteByExecution executionId).Safe M held fun _ => True :=
  guarded_execute fun _ => .logs List.filter_sublist

theorem guarded_createWithType (executionId : Uuid) (logType : LogType) (content : String) :
    (createWithType executionId logType content).Safe M held fun _ => True := by
  refine guarded_newV4.bind fun id _ => guarded_nowRfc3339.bind fun now _ => ?_
  refine Task.Safe.bind (guarded_write fun now db _ _ hinsert => ?_) fun _ _ => .pure trivial
  exact .insertLog hinsert

theorem guarded_getByExecutionPaginated (executionId : Uuid) (logType : Option LogType) (offset limit : Int) :
    (getByExecutionPaginated executionId logType offset limit).Safe M held fun _ => True :=
  guarded_read.bind fun _ _ => guarded_read.bind fun _ _ => .pure trivial

theorem guarded_deleteOrphaned : deleteOrphaned.Safe M held fun _ => True :=
  guarded_execute fun _ => .logs List.filter_sublist

end ExecutionLogRepository

/-! ### Jobs -/

namespace JobRepository

theorem guarded_getById (id : Uuid) : (getById id).Safe M held fun _ => True :=
  guarded_lookup fun _ _ _ _ => trivial

theorem guarded_nameExists (name : String) (excludeId : Option Uuid) :
    (nameExists name excludeId).Safe M held fun _ => True := guarded_read

theorem guarded_update (job : Job) : (update job).Safe M held fun _ => True := by
  refine Task.Safe.bind (guarded_write fun _ _ _ _ hwrite => .writeJob hwrite) fun affected _ => ?_
  split
  · exact .throw
  · exact guarded_getById job.id

theorem guarded_delete (id : Uuid) : (delete id).Safe M held fun _ => True :=
  guarded_affected (guarded_execute fun db => .deleteJob db id)

theorem guarded_deleteBulk (ids : List Uuid) : (deleteBulk ids).Safe M held fun _ => True := by
  unfold deleteBulk
  split
  · exact .pure trivial
  · exact guarded_execute fun db => .deleteJobs db ids

end JobRepository

/-! ### DAGs -/

namespace DagRepository

theorem guarded_getById (id : Uuid) : (getById id).Safe M held Dag.Valid :=
  guarded_lookup fun _ hdb => hdb.formed.dags

theorem guarded_getEdgesByDagId (dagId : Uuid) :
    (getEdgesByDagId dagId).Safe M held fun _ => True := guarded_read

theorem guarded_getRunById (id : Uuid) : (getRunById id).Safe M held DagRun.Timed :=
  guarded_lookup fun _ hdb => hdb.formed.runs

theorem guarded_createRun (run : DagRun) (htimed : run.Timed) :
    (createRun run).Safe M held DagRun.Timed := by
  refine Task.Safe.bind (guarded_write fun now db _ _ hinsert => ?_) fun _ _ => guarded_getRunById run.id
  exact .insertRun htimed hinsert

theorem guarded_updateRun (run : DagRun) (htimed : run.Timed) :
    (updateRun run).Safe M held DagRun.Timed := by
  refine Task.Safe.bind (guarded_execute fun db => .runs ?_ fun h row hrow => ?_) fun _ _ => guarded_getRunById run.id
  · apply Rows.map_modify
    exact fun _ => rfl
  · obtain ⟨old, hold, rfl⟩ := Rows.mem_modify.mp hrow
    split
    · exact htimed
    · exact h old hold

theorem guarded_getNodeExecutionById (id : Uuid) :
    (getNodeExecutionById id).Safe M held fun _ => True := guarded_lookup fun _ _ _ _ => trivial

theorem guarded_createNodeExecution (node : DagNodeExecution) (htimed : node.Timed) :
    (createNodeExecution node).Safe M held fun _ => True := by
  refine Task.Safe.bind (guarded_write fun now db _ _ hinsert => ?_) fun _ _ => guarded_getNodeExecutionById node.id
  exact .insertNode htimed hinsert

theorem guarded_updateNodeExecution (node : DagNodeExecution) (htimed : node.Timed) :
    (updateNodeExecution node).Safe M held fun _ => True := by
  refine Task.Safe.bind (guarded_write fun now db _ _ hwrite => ?_) fun _ _ => guarded_getNodeExecutionById node.id
  exact .writeNode htimed hwrite

theorem guarded_getNodeExecutionsByRunId (runId : Uuid) :
    (getNodeExecutionsByRunId runId).Safe M held fun _ => True := guarded_read

theorem guarded_findNodeByExecutionId (executionId : Uuid) :
    (findNodeByExecutionId executionId).Safe M held fun _ => True := guarded_read

theorem guarded_getEdgeById (id : Uuid) : (getEdgeById id).Safe M held fun _ => True :=
  guarded_lookup fun _ _ _ _ => trivial

theorem guarded_createEdge (edge : DagEdge) (hvalid : edge.Valid) :
    (createEdge edge).Safe M held fun _ => True := by
  refine Task.Safe.bind (guarded_write fun now db _ _ hinsert => ?_) fun _ _ => guarded_getEdgeById edge.id
  exact .insertEdge hvalid hinsert

theorem guarded_deleteEdge (edgeId : Uuid) : (deleteEdge edgeId).Safe M held fun _ => True :=
  guarded_affected (guarded_execute fun _ => .edges List.filter_sublist)

theorem guarded_create (dag : Dag) (hvalid : dag.Valid) :
    (create dag).Safe M held fun _ => True := by
  refine Task.Safe.bind (guarded_write fun now db _ _ hinsert => ?_) fun _ _ => (guarded_getById dag.id).trivial
  exact .insertDag hvalid hinsert

theorem guarded_update (dag : Dag) (hvalid : dag.Valid) :
    (update dag).Safe M held fun _ => True := by
  refine Task.Safe.bind (guarded_write fun now db _ _ hwrite => ?_) fun _ _ => (guarded_getById dag.id).trivial
  exact .writeDag hvalid hwrite

end DagRepository

/-! ### Schedules -/

namespace ScheduleRepository

theorem guarded_getById (id : Uuid) : (getById id).Safe M held fun _ => True :=
  guarded_lookup fun _ _ _ _ => trivial

theorem guarded_getByJobId (jobId : Uuid) :
    (getByJobId jobId).Safe M held fun row => ∀ schedule, row = some schedule →
      schedule.Valid cron := by
  apply guarded_select
  intro db hdb schedule hrow
  exact hdb.formed.schedules schedule (Rows.mem_of_lookup hrow)

theorem guarded_update (schedule : JobSchedule) (hvalid : schedule.Valid cron) :
    (update schedule).Safe M held fun _ => True := by
  refine Task.Safe.bind (guarded_execute fun db => .schedules ?_ fun h row hrow => ?_) fun _ _ =>
    guarded_getById schedule.id
  · exact Rows.sublist_modify fun _ => rfl
  · obtain ⟨old, hold, rfl⟩ := Rows.mem_modify.mp hrow
    split
    · exact { cron := hvalid.cron, next := hvalid.next }
    · exact h old hold

theorem guarded_create (schedule : JobSchedule) (hvalid : schedule.Valid cron) :
    (create schedule).Safe M held fun _ => True := by
  refine Task.Safe.bind (guarded_write fun now db _ _ hinsert => ?_) fun _ _ => guarded_getById schedule.id
  exact .insertSchedule hvalid hinsert

theorem guarded_delete (id : Uuid) : (delete id).Safe M held fun _ => True := by
  refine guarded_affected (guarded_execute fun db => .schedules ?_ fun h row hrow => ?_)
  · exact List.filter_sublist.map _
  · exact h row (Rows.mem_remove.mp hrow).1

theorem guarded_getDueSchedules : getDueSchedules.Safe M held fun _ => True := by
  apply guarded_write
  rintro now db _ _ ⟨⟩
  exact .refl db

theorem guarded_markTriggered (id : Uuid) (lastRunAt nextRunAt : String) :
    (markTriggered id lastRunAt nextRunAt).Safe M held fun _ => True := by
  refine Task.Safe.bind (guarded_write fun now db _ _ hok => ?_) fun _ _ => .pure trivial
  cases hok
  refine .schedules ?_ fun h row hrow => ?_
  · exact Rows.sublist_modify fun _ => rfl
  · obtain ⟨old, hold, rfl⟩ := Rows.mem_modify.mp hrow
    split
    · exact { cron := (h old hold).cron, next := rfl }
    · exact h old hold

end ScheduleRepository

/-! ### Virtual environments -/

namespace VenvRepository

theorem guarded_getById (id : VenvId) : (getById id).Safe M held fun _ => True :=
  guarded_lookup fun _ _ _ _ => trivial

theorem guarded_getMain : getMain.Safe M held fun _ => True := guarded_read

theorem guarded_getByJob (jobId : Uuid) : (getByJob jobId).Safe M held fun _ => True :=
  guarded_read

theorem guarded_create (venv : Venv) (hvalid : venv.Valid) :
    (create venv).Safe M held fun _ => True := by
  refine Task.Safe.bind (guarded_write fun now db _ _ hinsert => ?_) fun _ _ => guarded_getById venv.id
  exact .insertVenv hvalid hinsert

theorem guarded_update (venv : Venv) : (update venv).Safe M held fun _ => True := by
  refine Task.Safe.bind (guarded_execute fun db => .venvs ?_) fun affected _ => ?_
  · apply Rows.map_modify
    exact fun _ => rfl
  · split
    · exact .throw
    · exact guarded_getById venv.id

theorem guarded_delete (id : VenvId) : (delete id).Safe M held fun _ => True :=
  guarded_affected (guarded_execute fun db => .deleteVenv db id)

end VenvRepository

/-! ### Packages -/

namespace PackageRepository

theorem guarded_addDependency (dep : JobDependency) :
    (addDependency dep).Safe M held fun _ => True :=
  Task.Safe.bind (guarded_write fun _ _ _ _ hupsert => .upsertDependency hupsert) fun _ _ => .pure trivial

theorem guarded_getDependencies (jobId : Uuid) :
    (getDependencies jobId).Safe M held fun _ => True := guarded_read

theorem guarded_deleteDependency (jobId : Uuid) (packageName : String) :
    (deleteDependency jobId packageName).Safe M held fun _ => True :=
  guarded_affected (guarded_execute fun _ => .dependencies (List.filter_sublist.map _))

omit hM in
/-- Entries of the cache that stay those of their packages. -/
theorem spares_cache {hit : PackageCache → Bool} {f : PackageCache → PackageCache} (db : Db)
    (hident : ∀ row, (f row).ident = row.ident) :
    Spares cron db { db with packageCache := db.packageCache.map fun row => if hit row then f row else row } := by
  apply Spares.cache
  have hidents : (db.packageCache.map fun row => if hit row then f row else row).map PackageCache.ident =
      db.packageCache.map PackageCache.ident := by
    rw [List.map_map]
    apply List.map_congr_left
    intro row _
    simp only [Function.comp_apply]
    split
    · exact hident row
    · rfl
  rw [hidents]

omit hM in
theorem spares_insertOrUpdate {cache : PackageCache} {db : Db} {r : Unit × Db}
    (h : insertOrUpdate cache db = .ok r) : Spares cron db r.2 := by
  unfold insertOrUpdate at h
  dsimp only at h
  split at h
  · cases h
    exact spares_cache db fun _ => rfl
  · rename_i hnone
    refine .insertCache (fun _ row hrow hentry => hnone (List.any_eq_true.mpr ⟨row, hrow, ?_⟩)) h
    simp only [PackageCache.entry, Prod.mk.injEq] at hentry
    obtain ⟨hname, hversion, htype, hvenv⟩ := hentry
    simp only [isEntry, inVenv, hname, hversion, htype, hvenv, decide_true, Bool.and_self]

theorem guarded_upsertCache (cache : PackageCache) :
    (upsertCache cache).Safe M held fun _ => True := by
  unfold upsertCache
  split
  · rename_i hnone
    refine Task.Safe.bind (guarded_execute fun db => spares_cache db fun _ => rfl) fun updated _ => ?_
    split
    · refine Task.Safe.bind (guarded_write fun _ _ _ _ hinsert => .insertCache ?_ hinsert) fun _ _ => .pure trivial
      intro hsome
      rw [hnone] at hsome
      cases hsome
    · exact .pure trivial
  · exact Task.Safe.bind (guarded_write fun _ _ _ _ hok => spares_insertOrUpdate hok) fun _ _ => .pure trivial

theorem guarded_getCacheByVenv (venvType : VenvType) (venvId : Option String) :
    (getCacheByVenv venvType venvId).Safe M held fun _ => True := guarded_read

theorem guarded_getCachedPackage (venvType : VenvType) (venvId : Option String) (packageName : String) :
    (getCachedPackage venvType venvId packageName).Safe M held fun _ => True := guarded_read

theorem guarded_deleteCache (venvType : VenvType) (venvId : Option String) (packageName version : String) :
    (deleteCache venvType venvId packageName version).Safe M held fun _ => True :=
  Task.Safe.bind (guarded_execute fun _ => .cache (List.filter_sublist.map _)) fun _ _ => .pure trivial

end PackageRepository

end Serverust
