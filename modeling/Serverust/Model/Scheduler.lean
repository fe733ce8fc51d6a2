import Serverust.Model.ExecutionService

/-!
# Scheduler

A schedule stores the instant of its next run as text. Every tick selects the schedules that are due,
enqueues an execution for each, and stores the next run. The cron crate is a parameter.
-/

namespace Serverust

open Calendar Resumption

/-- The cron crate: `Schedule::from_str`, and `upcoming(Utc).next()` at an instant. -/
structure Cron where
  Schedule : Type
  fromStr : String → Except String Schedule
  next : Schedule → DateTime → Option DateTime

namespace ScheduleRepository

/-- `enabled = 1 AND next_run_at IS NOT NULL AND next_run_at <= datetime('now')`. -/
def isDue (now : DateTime) (schedule : JobSchedule) : Bool :=
  schedule.enabled &&
    match schedule.nextRunAt with
    | some nextRunAt => nextRunAt ≤ sqliteDatetime now
    | none => false

/-- `ORDER BY next_run_at ASC`; a null is first. -/
def RunsBefore (a b : JobSchedule) : Prop := (a.nextRunAt.getD "") ≤ (b.nextRunAt.getD "")

instance : DecidableRel RunsBefore := fun _ _ => inferInstanceAs (Decidable (_ ≤ _))

def getDueSchedules : Async (List JobSchedule) :=
  sql (fun _ rows => .schedule (.getDue rows)) fun now db =>
    .ok ((db.jobSchedules.filter (isDue now)).insertionSort RunsBefore, db)

def markTriggered (id : Uuid) (lastRunAt nextRunAt : String) : Async Unit := do
  let _ ← sql (fun _ _ => .schedule (.markTriggered id nextRunAt)) fun now db =>
    .ok (Rows.hits JobSchedule.id id db.jobSchedules,
      { db with jobSchedules := Rows.modify JobSchedule.id id (fun row =>
          { row with lastRunAt := some lastRunAt, nextRunAt := some nextRunAt
                     updatedAt := sqliteDatetime now }) db.jobSchedules })

end ScheduleRepository

namespace ScheduleService

variable (cron : Cron)

def validateCron (cronExpression : String) : Except AppError cron.Schedule :=
  match cron.fromStr cronExpression with
  | .ok schedule => .ok schedule
  | .error e => .error (.validation ("Invalid cron expression: " ++ e))

def calculateNextRun (cronExpression : String) (now : DateTime) : Except AppError String := do
  let schedule ← validateCron cron cronExpression
  match cron.next schedule now with
  | some next => .ok (toRfc3339 next)
  | none => .error (.validation "Cron expression has no upcoming occurrences")

end ScheduleService

structure SchedulerRunner where
  queueManager : QueueManager
  cron : Cron

namespace SchedulerRunner

/-- The next run a tick stores, or nothing if it leaves the schedule as it is. -/
def nextRun (cron : Cron) (cronExpression : String) (now : DateTime) : Option String :=
  match cron.fromStr cronExpression with
  | .ok schedule => (cron.next schedule now).map toRfc3339
  | .error _ => none

variable (runner : SchedulerRunner)

/-- Trigger one due schedule. Every failure only skips the rest for this schedule. -/
def trigger (schedule : JobSchedule) : Async Unit := do
  match ← (JobRepository.getById schedule.jobId).attempt with
  | .error _ => return ()
  | .ok job =>
    if !job.enabled then return ()
    else
      match ← (ExecutionService.createExecution schedule.jobId none).attempt with
      | .error _ => return ()
      | .ok execution =>
        match ← (runner.queueManager.enqueue (.new execution job job.priority)).attempt with
        | .error _ => return ()
        | .ok _ =>
          let now ← nowRfc3339
          match ← perform (fun _ => .quiet) fun w =>
            (nextRun runner.cron schedule.cronExpression w.now, w) with
          | none => return ()
          | some next =>
            let _ ← (ScheduleRepository.markTriggered schedule.id now next).attempt
            return ()

def tick : Async Unit := do
  let dueSchedules ← ScheduleRepository.getDueSchedules
  dueSchedules.forM runner.trigger

end SchedulerRunner

end Serverust
