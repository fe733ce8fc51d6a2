import Serverust.Model.Scheduler

/-!
# Schedule service

Creating, updating, toggling and deleting the schedule of a job. An update reads the row, and writes it back
as a whole.
-/

namespace Serverust

open Resumption

namespace ScheduleRepository

def getById (id : Uuid) : Async JobSchedule := do
  let row ← select (fun row => .schedule (.getById id row)) fun db =>
    Rows.lookup JobSchedule.id id db.jobSchedules
  okOr row (.notFound ("Schedule not found: " ++ id.text))

def getByJobId (jobId : Uuid) : Async (Option JobSchedule) :=
  select (fun row => .schedule (.getByJob jobId row)) fun db =>
    Rows.lookup JobSchedule.jobId jobId db.jobSchedules

/-- What a whole-row write makes of a row. -/
def overwrite (schedule row : JobSchedule) : JobSchedule :=
  { row with cronExpression := schedule.cronExpression, nextRunAt := schedule.nextRunAt
             lastRunAt := schedule.lastRunAt, enabled := schedule.enabled, updatedAt := schedule.updatedAt }

def update (schedule : JobSchedule) : Async JobSchedule := do
  let _ ← execute (fun _ => .schedule (.update schedule)) fun db =>
    (Rows.hits JobSchedule.id schedule.id db.jobSchedules,
      { db with jobSchedules :=
          Rows.modify JobSchedule.id schedule.id (overwrite schedule) db.jobSchedules })
  getById schedule.id

def insertSchedule (schedule : JobSchedule) (db : Db) : Except SqlError (Unit × Db) :=
  if Rows.hits JobSchedule.id schedule.id db.jobSchedules ≠ 0 then .error (.unique "job_schedules.id")
  else if Rows.hits Job.id schedule.jobId db.jobs = 0 then .error .foreignKey
  else .ok ((), { db with jobSchedules := db.jobSchedules ++ [schedule] })

def create (schedule : JobSchedule) : Async JobSchedule := do
  sql (fun _ _ => .schedule (.create schedule)) fun _ => insertSchedule schedule
  getById schedule.id

def delete (id : Uuid) : Async Unit := do
  let affected ← execute (fun _ => .schedule (.delete id)) fun db =>
    (Rows.hits JobSchedule.id id db.jobSchedules,
      { db with jobSchedules := Rows.remove JobSchedule.id id db.jobSchedules })
  if affected = 0 then Task.throw (.notFound ("Schedule not found: " ++ id.text)) else return ()

end ScheduleRepository

def JobSchedule.new (id jobId : Uuid) (cronExpression : String) (nextRunAt : Option String) (now : String) :
    JobSchedule where
  id := id
  jobId := jobId
  cronExpression := cronExpression
  nextRunAt := nextRunAt
  lastRunAt := none
  enabled := true
  createdAt := now
  updatedAt := now

structure CreateScheduleRequest where
  cronExpression : String

structure UpdateScheduleRequest where
  cronExpression : Option String
  enabled : Option Bool

namespace ScheduleService

def getScheduleByJobId (jobId : Uuid) : Async JobSchedule := do
  let row ← ScheduleRepository.getByJobId jobId
  okOr row (.notFound ("No schedule found for job " ++ jobId.text))

variable (cron : Cron)

/-- `Self::calculate_next_run(..)?` at the current time. -/
def nextRunNow (cronExpression : String) : Async String := do
  match ← perform (fun _ => .quiet) fun w => (calculateNextRun cron cronExpression w.now, w) with
  | .ok next => return next
  | .error e => Task.throw e

def createSchedule (jobId : Uuid) (req : CreateScheduleRequest) : Async JobSchedule := do
  match validateCron cron req.cronExpression with
  | .error e => Task.throw e
  | .ok _ =>
    match ← ScheduleRepository.getByJobId jobId with
    | some _ =>
      Task.throw (.conflict ("Schedule already exists for job " ++ jobId.text ++
        ". Delete it first or update it."))
    | none =>
      let nextRun ← nextRunNow cron req.cronExpression
      let now ← nowRfc3339
      let id ← newV4
      ScheduleRepository.create (JobSchedule.new id jobId req.cronExpression (some nextRun) now)

/-- Set a new cron expression, if the request has one, with its next run. -/
def applyCron (req : UpdateScheduleRequest) (schedule : JobSchedule) : Async JobSchedule := do
  match req.cronExpression with
  | some cronExpr =>
    match validateCron cron cronExpr with
    | .ok _ =>
      let next ← nextRunNow cron cronExpr
      return { schedule with cronExpression := cronExpr, nextRunAt := some next }
    | .error e => Task.throw e
  | none => return schedule

/-- Set `enabled`, if the request has it. A schedule that is enabled has a next run. -/
def applyEnabled (req : UpdateScheduleRequest) (schedule : JobSchedule) : Async JobSchedule := do
  match req.enabled with
  | some enabled =>
    let schedule := { schedule with enabled }
    if enabled && schedule.nextRunAt.isNone then
      let next ← nextRunNow cron schedule.cronExpression
      return { schedule with nextRunAt := some next }
    else return schedule
  | none => return schedule

def updateSchedule (jobId : Uuid) (req : UpdateScheduleRequest) : Async JobSchedule := do
  let schedule ← getScheduleByJobId jobId
  let schedule ← applyCron cron req schedule
  let schedule ← applyEnabled cron req schedule
  let now ← nowRfc3339
  ScheduleRepository.update { schedule with updatedAt := now }

/-- The schedule with its next run, if it is enabled now. -/
def restart (schedule : JobSchedule) : Async JobSchedule := do
  if schedule.enabled then
    let next ← nextRunNow cron schedule.cronExpression
    return { schedule with nextRunAt := some next }
  else return schedule

def toggleSchedule (jobId : Uuid) : Async JobSchedule := do
  let schedule ← getScheduleByJobId jobId
  let schedule ← restart cron { schedule with enabled := !schedule.enabled }
  let now ← nowRfc3339
  ScheduleRepository.update { schedule with updatedAt := now }

def deleteSchedule (jobId : Uuid) : Async Unit := do
  let schedule ← getScheduleByJobId jobId
  ScheduleRepository.delete schedule.id

end ScheduleService

end Serverust
