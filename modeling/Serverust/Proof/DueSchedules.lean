import Serverust.Model.Scheduler
import Serverust.Proof.Sequential
import Serverust.Proof.Timestamps

/-!
# Which schedules are due

Both writers of `next_run_at` store an occurrence in the `T` format, and the selection compares it with
the space format of SQLite. So a schedule is selected only once the day of its next run is over.
-/

namespace Serverust

open Calendar

namespace ScheduleRepository

theorem run_getDueSchedules {w : World} (hfault : w.fault = none) :
    getDueSchedules.run w =
      some (.ok ((w.db.jobSchedules.filter (isDue w.now)).insertionSort RunsBefore), w) := by
  rw [getDueSchedules, run_sql hfault]

theorem mem_dueSchedules {rows : List JobSchedule} {now : DateTime} {schedule : JobSchedule} :
    schedule ∈ (rows.filter (isDue now)).insertionSort RunsBefore ↔
      schedule ∈ rows ∧ isDue now schedule = true := by
  rw [(List.perm_insertionSort _ _).mem_iff, List.mem_filter]

/-- An enabled schedule is due once the day of its next run is over. -/
theorem isDue_iff {schedule : JobSchedule} {t : DateTime} (henabled : schedule.enabled = true)
    (hnext : schedule.nextRunAt = some (toRfc3339 t)) (now : DateTime) :
    isDue now schedule = true ↔ t.date.Before now.date := by
  simp only [isDue, henabled, hnext, Bool.true_and, decide_eq_true_eq, toRfc3339_le_sqliteDatetime]

/-- The selection is right about a schedule exactly when its next run is on another day than now, or is
still to come. -/
theorem dueSchedules_right_iff {w : World} {schedule : JobSchedule} {t : DateTime}
    (hfault : w.fault = none) (hrow : schedule ∈ w.db.jobSchedules)
    (henabled : schedule.enabled = true) (hnext : schedule.nextRunAt = some (toRfc3339 t)) :
    ∃ due, getDueSchedules.run w = some (.ok due, w) ∧
      ((schedule ∈ due ↔ t ≤ w.now) ↔ t.date ≠ w.now.date ∨ w.now < t) := by
  refine ⟨_, run_getDueSchedules hfault, ?_⟩
  rw [mem_dueSchedules, isDue_iff henabled hnext, and_iff_right hrow]
  rcases Date.before_trichotomy t.date w.now.date with hbefore | hsame | hafter
  · have hle : t ≤ w.now := (DateTime.lt_of_date_before hbefore).le
    have hne : t.date ≠ w.now.date := fun h => Date.before_irrefl _ (h ▸ hbefore)
    simp only [hbefore, hle, hne, ne_eq, not_false_eq_true, true_or]
  · rw [← DateTime.not_le]
    simp only [hsame, Date.before_irrefl, false_iff, ne_eq, not_true_eq_false, false_or]
  · have hlt : w.now < t := DateTime.lt_of_date_before hafter
    have hnot : ¬ t.date.Before w.now.date := fun h =>
      DateTime.not_le.mpr hlt (DateTime.lt_of_date_before h).le
    simp only [hnot, DateTime.not_le.mpr hlt, hlt, or_true]

/-- A schedule whose next run is the start of the epoch. -/
def epochSchedule : JobSchedule where
  id := 1
  jobId := 2
  cronExpression := "0 0 0 * * *"
  nextRunAt := some (toRfc3339 epoch)
  lastRunAt := none
  enabled := true
  createdAt := ""
  updatedAt := ""

def epochWorld : World := .start { Db.empty with jobSchedules := [epochSchedule] } epoch 3

theorem dueSchedules_right_iff_epoch :
    ∃ due, getDueSchedules.run epochWorld = some (.ok due, epochWorld) ∧
      ((epochSchedule ∈ due ↔ epoch ≤ epochWorld.now) ↔
        epoch.date ≠ epochWorld.now.date ∨ epochWorld.now < epoch) :=
  dueSchedules_right_iff rfl (List.mem_singleton.mpr rfl) rfl rfl

/-- At the very instant of its next run a schedule is not selected. -/
theorem dueSchedules_misses_same_day :
    ¬ ∀ (w : World) (schedule : JobSchedule) (t : DateTime), w.fault = none →
      schedule ∈ w.db.jobSchedules → schedule.enabled = true → t.nanos = 0 →
      schedule.nextRunAt = some (toRfc3339 t) →
      ∃ due, getDueSchedules.run w = some (.ok due, w) ∧ (schedule ∈ due ↔ t ≤ w.now) := by
  intro h
  obtain ⟨due, hrun, hiff⟩ := h epochWorld epochSchedule epoch rfl (List.mem_singleton.mpr rfl) rfl rfl rfl
  have hempty : getDueSchedules.run epochWorld = some (.ok [], epochWorld) :=
    run_getDueSchedules rfl
  obtain rfl : [] = due := by simpa [hempty] using hrun
  exact absurd (hiff.mpr le_rfl) List.not_mem_nil

end ScheduleRepository

end Serverust
