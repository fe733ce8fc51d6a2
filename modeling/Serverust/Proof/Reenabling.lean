import Serverust.Proof.ScheduleEdits

/-!
# Enabling a schedule again

Both edits can enable a schedule. A toggle always computes the next run then. An update computes it only if
there is none, or with a new expression, and so a schedule that has rested past its next run fires at once.
-/

namespace Serverust

namespace Reenabling

open Calendar Resumption ScheduleEdits

/-! ### Histories -/

inductive Call where
  | create (jobId : Uuid) (req : CreateScheduleRequest)
  | update (jobId : Uuid) (req : UpdateScheduleRequest)
  | toggle (jobId : Uuid)
  | delete (jobId : Uuid)
  | tick

def Call.task (runner : SchedulerRunner) : Call → Async Unit
  | .create jobId req => do let _ ← ScheduleService.createSchedule runner.cron jobId req
  | .update jobId req => do let _ ← ScheduleService.updateSchedule runner.cron jobId req
  | .toggle jobId => do let _ ← ScheduleService.toggleSchedule runner.cron jobId
  | .delete jobId => ScheduleService.deleteSchedule jobId
  | .tick => runner.tick

/-- The states between calls that are served one at a time, from a table without schedules. Time goes on, and
others may change anything but the schedules. -/
inductive Reached (runner : SchedulerRunner) : World → Prop
  | start {w : World} (hrows : w.db.jobSchedules = []) : Reached runner w
  | elsewhere {w u : World} (before : Reached runner w) (hsame : u.db.jobSchedules = w.db.jobSchedules) :
      Reached runner u
  | call {w u : World} {r : Except AppError Unit} (call : Call) (before : Reached runner w)
      (hfree : w.locked = false) (hrun : (call.task runner).run w = some (r, u)) : Reached runner u

/-- The next run is an occurrence of the expression, and later than now. -/
def Ahead (cron : Cron) (now : DateTime) (row : JobSchedule) : Prop :=
  ∃ parsed earlier t, cron.fromStr row.cronExpression = .ok parsed ∧ cron.next parsed earlier = some t ∧
    row.nextRunAt = some (toRfc3339 t) ∧ now < t

/-- What a call that is served at `w` leaves: every schedule that it has enabled runs next at an occurrence
still to come. -/
def Resumes (cron : Cron) (w w' : World) : Prop :=
  ∀ row ∈ w.db.jobSchedules, row.enabled = false → ∀ row' ∈ w'.db.jobSchedules, row'.id = row.id →
    row'.enabled = true → Ahead cron w.now row'

/-- An update that enables a schedule and has no new expression finds no next run, or one still to come. -/
def Fresh (w : World) : Call → Prop
  | .update jobId req => ∀ row, Rows.lookup JobSchedule.jobId jobId w.db.jobSchedules = some row →
      row.enabled = false → req.enabled = some true → req.cronExpression = none → row.nextRunAt ≠ none →
        ∃ t, row.nextRunAt = some (toRfc3339 t) ∧ w.now < t
  | _ => True

/-! ### What a call writes -/

/-- The next run is the one from now. -/
def Renewed (cron : Cron) (now : DateTime) (edited : JobSchedule) : Prop :=
  ∃ text, SchedulerRunner.nextRun cron edited.cronExpression now = some text ∧ edited.nextRunAt = some text

/-- What an edit makes of the row that it has read: the expression and the next run as they were, or the next
run from now. -/
structure Rewrites (cron : Cron) (now : DateTime) (row edited : JobSchedule) : Prop where
  id : edited.id = row.id
  next : edited.cronExpression = row.cronExpression ∧ edited.nextRunAt = row.nextRunAt ∨ Renewed cron now edited

/-- What an update makes of it. -/
structure Updates (cron : Cron) (now : DateTime) (req : UpdateScheduleRequest) (row edited : JobSchedule) :
    Prop extends Rewrites cron now row edited where
  enabled : edited.enabled = req.enabled.getD row.enabled
  kept : req.cronExpression = none → row.nextRunAt ≠ none → edited.nextRunAt = row.nextRunAt
  renewed : req.cronExpression ≠ none ∨ req.enabled = some true ∧ row.nextRunAt = none → Renewed cron now edited

section

variable {cron : Cron} {w u : World} {row : JobSchedule}

theorem run_getScheduleByJobId (hfault : w.fault = none) (jobId : Uuid) :
    (ScheduleService.getScheduleByJobId jobId).run w =
      some (match Rows.lookup JobSchedule.jobId jobId w.db.jobSchedules with
        | some row => .ok row
        | none => .error (.notFound ("No schedule found for job " ++ jobId.text)), w) := by
  simp only [ScheduleService.getScheduleByJobId, ScheduleRepository.getByJobId, Task.run_bind, run_select hfault]
  cases Rows.lookup JobSchedule.jobId jobId w.db.jobSchedules with
  | none => rfl
  | some row => rfl

theorem run_nextRunNow (cronExpression : String) : (ScheduleService.nextRunNow cron cronExpression).run w =
    some (ScheduleService.calculateNextRun cron cronExpression w.now, w) := by
  simp only [ScheduleService.nextRunNow, Task.run_bind, run_perform]
  cases ScheduleService.calculateNextRun cron cronExpression w.now with
  | ok next => rfl
  | error e => rfl

theorem run_update (hfault : w.fault = none) (schedule : JobSchedule) :
    ∃ r, (ScheduleRepository.update schedule).run w = some (r, { w with
      db := { w.db with
        jobSchedules := Rows.modify JobSchedule.id schedule.id (ScheduleRepository.overwrite schedule)
          w.db.jobSchedules } }) := by
  simp only [ScheduleRepository.update, ScheduleRepository.getById, Task.run_bind, run_execute hfault]
  rw [run_select (by exact hfault)]
  dsimp only
  cases Rows.lookup JobSchedule.id schedule.id (Rows.modify JobSchedule.id schedule.id
    (ScheduleRepository.overwrite schedule) w.db.jobSchedules) with
  | none => exact ⟨_, rfl⟩
  | some row => exact ⟨_, rfl⟩

/-- The cron part of an update leaves the schedule, or sets another expression with its next run. -/
theorem run_applyCron (cron : Cron) (w : World) (req : UpdateScheduleRequest) (row : JobSchedule) :
    ∃ r, (ScheduleService.applyCron cron req row).run w = some (r, w) ∧ ∀ edited, r = .ok edited →
      edited.id = row.id ∧ edited.enabled = row.enabled ∧
        (req.cronExpression = none ∧ edited = row ∨
          req.cronExpression ≠ none ∧ Renewed cron w.now edited) := by
  unfold ScheduleService.applyCron
  cases hcron : req.cronExpression with
  | none => exact ⟨_, rfl, fun edited h => by cases h; exact ⟨rfl, rfl, .inl ⟨rfl, rfl⟩⟩⟩
  | some cronExpr =>
      dsimp only
      cases ScheduleService.validateCron cron cronExpr with
      | error e => exact ⟨_, rfl, nofun⟩
      | ok parsed =>
          simp only [Task.run_bind, run_nextRunNow]
          cases hnext : ScheduleService.calculateNextRun cron cronExpr w.now with
          | error e => exact ⟨_, rfl, nofun⟩
          | ok next =>
              refine ⟨_, rfl, fun edited h => ?_⟩
              cases h
              exact ⟨rfl, rfl, .inr ⟨by simp, next, nextRun_of_calculateNextRun hnext, rfl⟩⟩

/-- The other part sets `enabled`, and a next run if an enabled schedule has none. -/
theorem run_applyEnabled (cron : Cron) (w : World) (req : UpdateScheduleRequest) (row : JobSchedule) :
    ∃ r, (ScheduleService.applyEnabled cron req row).run w = some (r, w) ∧ ∀ edited, r = .ok edited →
      edited.id = row.id ∧ edited.enabled = req.enabled.getD row.enabled ∧
        (¬(req.enabled = some true ∧ row.nextRunAt = none) ∧ edited = { row with enabled := edited.enabled } ∨
          row.nextRunAt = none ∧ Renewed cron w.now edited) := by
  unfold ScheduleService.applyEnabled
  cases henabled : req.enabled with
  | none => exact ⟨_, rfl, fun edited h => by cases h; exact ⟨rfl, rfl, .inl ⟨by simp, rfl⟩⟩⟩
  | some enabled =>
      dsimp only
      by_cases hmissing : (enabled && row.nextRunAt.isNone) = true
      · obtain ⟨htrue, hnone⟩ := Bool.and_eq_true_iff.mp hmissing
        rw [if_pos hmissing, Task.run_bind, run_nextRunNow]
        cases hnext : ScheduleService.calculateNextRun cron row.cronExpression w.now with
        | error e => exact ⟨_, rfl, nofun⟩
        | ok next =>
            refine ⟨_, rfl, fun edited h => ?_⟩
            cases h
            exact ⟨rfl, rfl, .inr ⟨Option.isNone_iff_eq_none.mp hnone, next, nextRun_of_calculateNextRun hnext, rfl⟩⟩
      · rw [if_neg hmissing]
        refine ⟨_, rfl, fun edited h => ?_⟩
        cases h
        refine ⟨rfl, rfl, .inl ⟨?_, rfl⟩⟩
        rintro ⟨htrue, hnone⟩
        cases htrue
        simp [hnone] at hmissing

theorem Updates.stamped {now : DateTime} {req : UpdateScheduleRequest} {edited : JobSchedule}
    (h : Updates cron now req row edited) (text : String) :
    Updates cron now req row { edited with updatedAt := text } where
  id := h.id
  next := h.next
  enabled := h.enabled
  kept := h.kept
  renewed := h.renewed

theorem Updates.of_parts {now : DateTime} {req : UpdateScheduleRequest} {mid edited : JobSchedule}
    (hmid : mid.id = row.id ∧ mid.enabled = row.enabled ∧
      (req.cronExpression = none ∧ mid = row ∨ req.cronExpression ≠ none ∧ Renewed cron now mid))
    (hedited : edited.id = mid.id ∧ edited.enabled = req.enabled.getD mid.enabled ∧
      (¬(req.enabled = some true ∧ mid.nextRunAt = none) ∧ edited = { mid with enabled := edited.enabled } ∨
        mid.nextRunAt = none ∧ Renewed cron now edited)) :
    Updates cron now req row edited := by
  obtain ⟨hid, henabled, hcron⟩ := hmid
  obtain ⟨hid', henabled', hnext⟩ := hedited
  have hrenewed : Renewed cron now edited ∨ req.cronExpression = none ∧ mid = row ∧
      ¬(req.enabled = some true ∧ row.nextRunAt = none) ∧ edited = { row with enabled := edited.enabled } := by
    rcases hnext with ⟨hkept, hsame⟩ | ⟨_, hrenewed⟩
    · rcases hcron with ⟨hnone, rfl⟩ | ⟨_, text, hocc, htext⟩
      · exact .inr ⟨hnone, rfl, hkept, hsame⟩
      · exact .inl ⟨text, by rw [hsame]; exact hocc, by rw [hsame]; exact htext⟩
    · exact .inl hrenewed
  refine ⟨⟨hid'.trans hid, ?_⟩, by rw [henabled', henabled], ?_, ?_⟩
  · rcases hrenewed with h | ⟨-, -, -, hsame⟩
    · exact .inr h
    · exact .inl (by rw [hsame]; exact ⟨rfl, rfl⟩)
  · intro hnone hstored
    obtain rfl : mid = row := (hcron.resolve_right fun h => h.1 hnone).2
    rw [(hnext.resolve_right fun h => hstored h.1).2]
  · rintro (hexpr | hmissing)
    · exact hrenewed.resolve_right fun h => hexpr h.1
    · exact hrenewed.resolve_right fun h => h.2.2.1 hmissing

/-- An update fails and writes nothing, or rewrites the row of the job. -/
theorem updateSchedule_run (hfault : w.fault = none) {jobId : Uuid} {req : UpdateScheduleRequest}
    {r : Except AppError JobSchedule} (hrun : (ScheduleService.updateSchedule cron jobId req).run w = some (r, u)) :
    (u.db.jobSchedules = w.db.jobSchedules ∧ ∃ e, r = .error e) ∨
      ∃ row edited, Rows.lookup JobSchedule.jobId jobId w.db.jobSchedules = some row ∧
        Updates cron w.now req row edited ∧ u.db.jobSchedules = Rows.modify JobSchedule.id row.id
          (ScheduleRepository.overwrite edited) w.db.jobSchedules := by
  simp only [ScheduleService.updateSchedule, Task.run_bind, run_getScheduleByJobId hfault] at hrun
  cases hrow : Rows.lookup JobSchedule.jobId jobId w.db.jobSchedules with
  | none =>
      rw [hrow] at hrun
      cases hrun
      exact .inl ⟨rfl, _, rfl⟩
  | some row =>
      obtain ⟨rmid, hmidRun, hmid⟩ := run_applyCron cron w req row
      simp only [hrow, hmidRun] at hrun
      cases rmid with
      | error e =>
          cases hrun
          exact .inl ⟨rfl, _, rfl⟩
      | ok mid =>
          obtain ⟨redited, heditedRun, hedited⟩ := run_applyEnabled cron w req mid
          simp only [heditedRun] at hrun
          cases redited with
          | error e =>
              cases hrun
              exact .inl ⟨rfl, _, rfl⟩
          | ok edited =>
              have hupdates := Updates.of_parts (hmid mid rfl) (hedited edited rfl)
              simp only [run_nowRfc3339] at hrun
              obtain ⟨result, hwrite⟩ := run_update hfault { edited with updatedAt := toRfc3339 w.now }
              rw [hwrite] at hrun
              cases hrun
              refine .inr ⟨row, _, rfl, hupdates.stamped (toRfc3339 w.now), ?_⟩
              rw [← hupdates.id]

/-- What a toggle makes of the row that it has read. -/
structure Toggles (cron : Cron) (now : DateTime) (row edited : JobSchedule) : Prop extends
    Rewrites cron now row edited where
  enabled : edited.enabled = !row.enabled
  renewed : row.enabled = false → Renewed cron now edited

theorem toggleSchedule_run (hfault : w.fault = none) {jobId : Uuid} {r : Except AppError JobSchedule}
    (hrun : (ScheduleService.toggleSchedule cron jobId).run w = some (r, u)) :
    u.db.jobSchedules = w.db.jobSchedules ∨
      ∃ row edited, Rows.lookup JobSchedule.jobId jobId w.db.jobSchedules = some row ∧
        Toggles cron w.now row edited ∧ u.db.jobSchedules = Rows.modify JobSchedule.id row.id
          (ScheduleRepository.overwrite edited) w.db.jobSchedules := by
  simp only [ScheduleService.toggleSchedule, Task.run_bind, run_getScheduleByJobId hfault] at hrun
  cases hrow : Rows.lookup JobSchedule.jobId jobId w.db.jobSchedules with
  | none =>
      rw [hrow] at hrun
      cases hrun
      exact .inl rfl
  | some row =>
      simp only [hrow, ScheduleService.restart] at hrun
      cases henabled : row.enabled with
      | true =>
          simp only [henabled, Bool.not_true, Bool.false_eq_true, if_false, Task.run_pure, run_nowRfc3339] at hrun
          obtain ⟨result, hwrite⟩ := run_update hfault
            { row with enabled := false, updatedAt := toRfc3339 w.now }
          rw [hwrite] at hrun
          cases hrun
          exact .inr ⟨row, { row with enabled := false, updatedAt := toRfc3339 w.now }, rfl,
            ⟨⟨rfl, .inl ⟨rfl, rfl⟩⟩, by simp [henabled], by simp [henabled]⟩, rfl⟩
      | false =>
          simp only [henabled, Bool.not_false, if_true, Task.run_bind, run_nextRunNow] at hrun
          cases hnext : ScheduleService.calculateNextRun cron row.cronExpression w.now with
          | error e =>
              rw [hnext] at hrun
              cases hrun
              exact .inl rfl
          | ok next =>
              simp only [hnext, Task.run_pure, run_nowRfc3339] at hrun
              obtain ⟨result, hwrite⟩ := run_update hfault
                { row with enabled := true, nextRunAt := some next, updatedAt := toRfc3339 w.now }
              rw [hwrite] at hrun
              cases hrun
              have hrenewed : Renewed cron w.now
                  { row with enabled := true, nextRunAt := some next, updatedAt := toRfc3339 w.now } :=
                ⟨next, nextRun_of_calculateNextRun hnext, rfl⟩
              exact .inr ⟨row, { row with enabled := true, nextRunAt := some next, updatedAt := toRfc3339 w.now }, rfl,
                ⟨⟨rfl, .inr hrenewed⟩, by simp [henabled], fun _ => hrenewed⟩, rfl⟩

theorem insertSchedule_ok {db : Db} {inserted : Unit × Db}
    (h : ScheduleRepository.insertSchedule row db = .ok inserted) :
    Rows.hits JobSchedule.id row.id db.jobSchedules = 0 ∧
      inserted.2.jobSchedules = db.jobSchedules ++ [row] := by
  unfold ScheduleRepository.insertSchedule at h
  split at h
  · cases h
  split at h
  · cases h
  · cases h
    exact ⟨not_not.mp ‹_›, rfl⟩

/-- A creation writes nothing, or a row with a new id and the next run from now. -/
theorem createSchedule_run (hfault : w.fault = none) {jobId : Uuid} {req : CreateScheduleRequest}
    {r : Except AppError JobSchedule} (hrun : (ScheduleService.createSchedule cron jobId req).run w = some (r, u)) :
    u.db.jobSchedules = w.db.jobSchedules ∨
      ∃ row, Rows.hits JobSchedule.id row.id w.db.jobSchedules = 0 ∧ Renewed cron w.now row ∧
        u.db.jobSchedules = w.db.jobSchedules ++ [row] := by
  unfold ScheduleService.createSchedule ScheduleRepository.getByJobId at hrun
  cases hvalid : ScheduleService.validateCron cron req.cronExpression with
  | error e =>
      rw [hvalid] at hrun
      cases hrun
      exact .inl rfl
  | ok parsed =>
      simp only [hvalid, Task.run_bind, run_select hfault] at hrun
      cases hrow : Rows.lookup JobSchedule.jobId jobId w.db.jobSchedules with
      | some row =>
          rw [hrow] at hrun
          cases hrun
          exact .inl rfl
      | none =>
          simp only [hrow, Task.run_bind, run_nextRunNow] at hrun
          cases hnext : ScheduleService.calculateNextRun cron req.cronExpression w.now with
          | error e =>
              rw [hnext] at hrun
              cases hrun
              exact .inl rfl
          | ok next =>
              simp only [hnext, run_nowRfc3339, run_newV4, ScheduleRepository.create, Task.run_bind] at hrun
              rw [run_sql (by exact hfault)] at hrun
              have hrenewed : Renewed cron w.now
                  (.new w.nextUuid jobId req.cronExpression (some next) (toRfc3339 w.now)) :=
                ⟨next, nextRun_of_calculateNextRun hnext, rfl⟩
              generalize JobSchedule.new w.nextUuid jobId req.cronExpression (some next) (toRfc3339 w.now) = row
                at hrun hrenewed
              cases hinsert : ScheduleRepository.insertSchedule row w.db with
              | error e =>
                  simp only [hinsert] at hrun
                  cases hrun
                  exact .inl rfl
              | ok inserted =>
                  simp only [hinsert, ScheduleRepository.getById, Task.run_bind] at hrun
                  rw [run_select (by exact hfault)] at hrun
                  obtain ⟨hfresh, hrows⟩ := insertSchedule_ok hinsert
                  refine .inr ⟨row, hfresh, hrenewed, ?_⟩
                  rw [← hrows]
                  cases hback : Rows.lookup JobSchedule.id row.id inserted.2.jobSchedules with
                  | none =>
                      simp only [hback] at hrun
                      cases hrun
                      rfl
                  | some found =>
                      simp only [hback] at hrun
                      cases hrun
                      rfl

theorem deleteSchedule_run (hfault : w.fault = none) {jobId : Uuid} {r : Except AppError Unit}
    (hrun : (ScheduleService.deleteSchedule jobId).run w = some (r, u)) :
    u.db.jobSchedules.Sublist w.db.jobSchedules := by
  simp only [ScheduleService.deleteSchedule, Task.run_bind, run_getScheduleByJobId hfault] at hrun
  cases hrow : Rows.lookup JobSchedule.jobId jobId w.db.jobSchedules with
  | none =>
      rw [hrow] at hrun
      cases hrun
      exact List.Sublist.refl _
  | some row =>
      simp only [hrow, ScheduleRepository.delete, Task.run_bind, run_execute hfault] at hrun
      split at hrun
      · cases hrun
        exact List.filter_sublist
      · cases hrun
        exact List.filter_sublist

/-! ### Invariants -/

/-- What a pass of a tick leaves of a row. -/
def view (row : JobSchedule) : Uuid × Bool × String := (row.id, row.enabled, row.cronExpression)

/-- Rows with distinct ids, whose next runs are occurrences of their expressions. -/
structure Sound (cron : Cron) (rows : List JobSchedule) : Prop where
  unique : Rows.Unique JobSchedule.id rows
  consistent : ∀ row ∈ rows, Consistent cron row

theorem Renewed.consistent {now : DateTime} {edited : JobSchedule} (h : Renewed cron now edited) :
    Consistent cron edited := by
  obtain ⟨text, hnext, htext⟩ := h
  intro other hother
  rw [htext] at hother
  cases hother
  exact ⟨now, hnext⟩

theorem Rewrites.consistent {now : DateTime} {edited : JobSchedule} (h : Rewrites cron now row edited)
    (hrow : Consistent cron row) : Consistent cron edited := by
  rcases h.next with ⟨hcron, hnext⟩ | hrenewed
  · intro text htext
    rw [hcron]
    exact hrow text (hnext ▸ htext)
  · exact hrenewed.consistent

theorem Sound.rewrite {now : DateTime} {rows : List JobSchedule} {edited : JobSchedule} (h : Sound cron rows)
    (hrow : row ∈ rows) (hrewrites : Rewrites cron now row edited) :
    Sound cron (Rows.modify JobSchedule.id row.id (ScheduleRepository.overwrite edited) rows) where
  unique := by
    refine h.unique.modify ?_ _
    exact fun _ => rfl
  consistent := by
    intro written hwritten
    obtain ⟨old, hold, rfl⟩ := Rows.mem_modify.mp hwritten
    split
    · exact hrewrites.consistent (h.consistent row hrow)
    · exact h.consistent old hold

theorem Sound.append {now : DateTime} {rows : List JobSchedule} (h : Sound cron rows)
    (hfresh : Rows.hits JobSchedule.id row.id rows = 0) (hrenewed : Renewed cron now row) :
    Sound cron (rows ++ [row]) where
  unique := h.unique.append hfresh
  consistent := by
    intro other hother
    rcases List.mem_append.mp hother with hold | hnew
    · exact h.consistent other hold
    · rw [List.mem_singleton.mp hnew]
      exact hrenewed.consistent

theorem Sound.sublist {rows rows' : List JobSchedule} (h : Sound cron rows) (hsub : rows'.Sublist rows) :
    Sound cron rows' where
  unique := List.Nodup.sublist (hsub.map _) h.unique
  consistent row hrow := h.consistent row (hsub.subset hrow)

theorem Sound.marked {now : DateTime} {rows : List JobSchedule} {schedule : JobSchedule} (h : Sound cron rows)
    (hexpr : ∀ row ∈ rows, row.id = schedule.id → row.cronExpression = schedule.cronExpression) :
    Sound cron (SchedulerRunner.marked cron schedule now rows) ∧
      (SchedulerRunner.marked cron schedule now rows).map view = rows.map view := by
  unfold SchedulerRunner.marked
  cases hnext : SchedulerRunner.nextRun cron schedule.cronExpression now with
  | none => exact ⟨h, rfl⟩
  | some next =>
      have hstamp : ∀ old, view (SchedulerRunner.stamp now next old) = view old := fun _ => rfl
      have hid : ∀ old : JobSchedule, (SchedulerRunner.stamp now next old).id = old.id := fun _ => rfl
      refine ⟨⟨h.unique.modify hid _, fun written hwritten => ?_⟩, Rows.map_modify hstamp _ _⟩
      obtain ⟨old, hold, rfl⟩ := Rows.mem_modify.mp hwritten
      split
      · rename_i hid
        intro text htext
        cases htext
        exact ⟨now, by rw [← hnext, ← hexpr old hold hid]; rfl⟩
      · exact h.consistent old hold

theorem Sound.forM {runner : SchedulerRunner} {schedules : List JobSchedule} {r : Except AppError Unit}
    (h : Sound runner.cron w.db.jobSchedules) (hidle : w.Idle)
    (hexpr : ∀ s ∈ schedules, ∀ row ∈ w.db.jobSchedules, row.id = s.id → row.cronExpression = s.cronExpression)
    (hrun : (schedules.forM runner.trigger).run w = some (r, u)) :
    Sound runner.cron u.db.jobSchedules ∧ u.db.jobSchedules.map view = w.db.jobSchedules.map view := by
  induction schedules generalizing w with
  | nil =>
      cases hrun
      exact ⟨h, rfl⟩
  | cons first rest ih =>
      rcases Task.run_bind_some (f := fun _ => rest.forM runner.trigger) hrun with
        ⟨_, v, hfirst, hrest⟩ | ⟨e, hfirst, _⟩
      · obtain ⟨_, hvidle, -, hpass⟩ := SchedulerRunner.trigger_run hidle hfirst
        have hv : Sound runner.cron v.db.jobSchedules ∧ v.db.jobSchedules.map view = w.db.jobSchedules.map view := by
          rcases hpass with ⟨_, hsame⟩ | ⟨_, hmarked⟩
          · rw [hsame]
            exact ⟨h, rfl⟩
          · rw [hmarked]
            exact h.marked (hexpr first List.mem_cons_self)
        have hexprV : ∀ s ∈ rest, ∀ row ∈ v.db.jobSchedules, row.id = s.id →
            row.cronExpression = s.cronExpression := by
          intro s hs row hrow hid
          have hview : view row ∈ w.db.jobSchedules.map view := hv.2 ▸ List.mem_map_of_mem hrow
          obtain ⟨old, hold, heq⟩ := List.mem_map.mp hview
          simp only [view, Prod.mk.injEq] at heq
          rw [← heq.2.2]
          exact hexpr s (List.mem_cons_of_mem first hs) old hold (heq.1.trans hid)
        obtain ⟨hsound, hview⟩ := ih hv.1 hvidle hexprV hrest
        exact ⟨hsound, hview.trans hv.2⟩
      · exact absurd (SchedulerRunner.trigger_run hidle hfirst).1 (by simp)

theorem Sound.tick {runner : SchedulerRunner} {r : Except AppError Unit} (h : Sound runner.cron w.db.jobSchedules)
    (hidle : w.Idle) (hrun : runner.tick.run w = some (r, u)) :
    Sound runner.cron u.db.jobSchedules ∧ u.db.jobSchedules.map view = w.db.jobSchedules.map view := by
  refine h.forM hidle ?_ (SchedulerRunner.tick_run hidle hrun)
  intro s hs row hrow hid
  have hstored := (ScheduleRepository.mem_dueSchedules.mp hs).1
  rw [h.unique.eq_of_column hrow hstored hid]

end

/-! ### One call -/

/-- What a call does to the schedules, and the edits apart it enables none. -/
inductive Effect (cron : Cron) (w : World) (u : World) : Call → Prop
  | same {call : Call} (hsame : u.db.jobSchedules = w.db.jobSchedules) : Effect cron w u call
  | create {jobId : Uuid} {req : CreateScheduleRequest} {row : JobSchedule}
      (hfresh : Rows.hits JobSchedule.id row.id w.db.jobSchedules = 0) (hrenewed : Renewed cron w.now row)
      (hrows : u.db.jobSchedules = w.db.jobSchedules ++ [row]) : Effect cron w u (.create jobId req)
  | update {jobId : Uuid} {req : UpdateScheduleRequest} {row edited : JobSchedule}
      (hrow : Rows.lookup JobSchedule.jobId jobId w.db.jobSchedules = some row)
      (hupdates : Updates cron w.now req row edited)
      (hrows : u.db.jobSchedules =
        Rows.modify JobSchedule.id row.id (ScheduleRepository.overwrite edited) w.db.jobSchedules) :
      Effect cron w u (.update jobId req)
  | toggle {jobId : Uuid} {row edited : JobSchedule}
      (hrow : Rows.lookup JobSchedule.jobId jobId w.db.jobSchedules = some row)
      (htoggles : Toggles cron w.now row edited)
      (hrows : u.db.jobSchedules =
        Rows.modify JobSchedule.id row.id (ScheduleRepository.overwrite edited) w.db.jobSchedules) :
      Effect cron w u (.toggle jobId)
  | delete {jobId : Uuid} (hsub : u.db.jobSchedules.Sublist w.db.jobSchedules) : Effect cron w u (.delete jobId)
  | tick (hsound : Sound cron u.db.jobSchedules) (hview : u.db.jobSchedules.map view = w.db.jobSchedules.map view) :
      Effect cron w u .tick

section

variable {runner : SchedulerRunner} {w u : World} {r : Except AppError Unit} {call : Call}

theorem run_discard {α : Type} {p : Async α} (hrun : Task.run (do let _ ← p) w = some (r, u)) :
    ∃ r', p.run w = some (r', u) ∧ ((∃ e, r' = .error e) → ∃ e, r = .error e) := by
  rcases Task.run_bind_some hrun with ⟨a, v, hp, hend⟩ | ⟨e, hp, rfl⟩
  · cases hend
    exact ⟨_, hp, fun ⟨_, h⟩ => by cases h⟩
  · exact ⟨_, hp, fun _ => ⟨e, rfl⟩⟩

/-- With a statement that fails, a call fails and changes nothing. -/
theorem Call.run_fault {text : String} (hfault : w.fault = some text)
    (hrun : (call.task runner).run w = some (r, u)) : u = w ∧ ∃ e, r = .error e := by
  have hschedule (jobId : Uuid) : (ScheduleService.getScheduleByJobId jobId).run w =
      some (.error (databaseError (.fault text)), w) := by
    simp [ScheduleService.getScheduleByJobId, ScheduleRepository.getByJobId, select, sql, World.query, hfault]
  cases call with
  | create jobId req =>
      have hread : (ScheduleRepository.getByJobId jobId).run w = some (.error (databaseError (.fault text)), w) := by
        simp [ScheduleRepository.getByJobId, select, sql, World.query, hfault]
      simp only [Call.task, Task.run_bind, ScheduleService.createSchedule] at hrun
      cases hvalid : ScheduleService.validateCron runner.cron req.cronExpression with
      | error e =>
          rw [hvalid] at hrun
          cases hrun
          exact ⟨rfl, _, rfl⟩
      | ok parsed =>
          simp only [hvalid, Task.run_bind, hread] at hrun
          cases hrun
          exact ⟨rfl, _, rfl⟩
  | update jobId req =>
      simp only [Call.task, Task.run_bind, ScheduleService.updateSchedule, hschedule] at hrun
      cases hrun
      exact ⟨rfl, _, rfl⟩
  | toggle jobId =>
      simp only [Call.task, Task.run_bind, ScheduleService.toggleSchedule, hschedule] at hrun
      cases hrun
      exact ⟨rfl, _, rfl⟩
  | delete jobId =>
      simp only [Call.task, Task.run_bind, ScheduleService.deleteSchedule, hschedule] at hrun
      cases hrun
      exact ⟨rfl, _, rfl⟩
  | tick =>
      have hselect : ScheduleRepository.getDueSchedules.run w = some (.error (databaseError (.fault text)), w) := by
        simp [ScheduleRepository.getDueSchedules, sql, World.query, hfault]
      simp only [Call.task, SchedulerRunner.tick, Task.run_bind, hselect] at hrun
      cases hrun
      exact ⟨rfl, _, rfl⟩

/-- What a call does, from its run. An update that writes nothing fails. -/
theorem Call.effect (hsound : Sound runner.cron w.db.jobSchedules) (hfree : w.locked = false)
    (hrun : (call.task runner).run w = some (r, u)) : Effect runner.cron w u call := by
  cases hfault : w.fault with
  | some text => exact .same (by rw [(Call.run_fault hfault hrun).1])
  | none =>
      cases call with
      | create jobId req =>
          obtain ⟨r', hcall, -⟩ := run_discard hrun
          rcases createSchedule_run hfault hcall with hsame | ⟨row, hfresh, hrenewed, hrows⟩
          · exact .same hsame
          · exact .create hfresh hrenewed hrows
      | update jobId req =>
          obtain ⟨r', hcall, -⟩ := run_discard hrun
          rcases updateSchedule_run hfault hcall with ⟨hsame, -⟩ | ⟨row, edited, hrow, hupdates, hrows⟩
          · exact .same hsame
          · exact .update hrow hupdates hrows
      | toggle jobId =>
          obtain ⟨r', hcall, -⟩ := run_discard hrun
          rcases toggleSchedule_run hfault hcall with hsame | ⟨row, edited, hrow, htoggles, hrows⟩
          · exact .same hsame
          · exact .toggle hrow htoggles hrows
      | delete jobId => exact .delete (deleteSchedule_run hfault hrun)
      | tick =>
          obtain ⟨hrows, hview⟩ := hsound.tick ⟨hfree, hfault⟩ hrun
          exact .tick hrows hview

theorem Effect.sound {cron : Cron} (h : Effect cron w u call) (hsound : Sound cron w.db.jobSchedules) :
    Sound cron u.db.jobSchedules := by
  cases h with
  | same hsame => exact hsame ▸ hsound
  | create hfresh hrenewed hrows => exact hrows ▸ hsound.append hfresh hrenewed
  | update hrow hupdates hrows => exact hrows ▸ hsound.rewrite (Rows.mem_of_lookup hrow) hupdates.toRewrites
  | toggle hrow htoggles hrows => exact hrows ▸ hsound.rewrite (Rows.mem_of_lookup hrow) htoggles.toRewrites
  | delete hsub => exact hsound.sublist hsub
  | tick hrows _ => exact hrows

/-- In every state between calls the ids are distinct, and the next runs are occurrences. -/
theorem Reached.sound (h : Reached runner w) : Sound runner.cron w.db.jobSchedules := by
  induction h with
  | start hrows =>
      rw [hrows]
      exact ⟨List.nodup_nil, List.forall_mem_nil _⟩
  | elsewhere _ hsame ih => exact hsame ▸ ih
  | call call _ hfree hrun ih => exact (Call.effect ih hfree hrun).sound ih

theorem resumes_of_kept {cron : Cron} (hsound : Sound cron w.db.jobSchedules)
    (hkept : ∀ row' ∈ u.db.jobSchedules, ∃ old ∈ w.db.jobSchedules, old.id = row'.id ∧ old.enabled = row'.enabled) :
    Resumes cron w u := by
  intro row hrow hdisabled row' hrow' hid henabled
  obtain ⟨old, hold, holdId, holdEnabled⟩ := hkept row' hrow'
  obtain rfl := hsound.unique.eq_of_column hold hrow (holdId.trans hid)
  rw [hdisabled, henabled] at holdEnabled
  cases holdEnabled

theorem Renewed.ahead {cron : Cron} (hcron : ∀ parsed now t, cron.next parsed now = some t → now < t)
    {now : DateTime} {edited : JobSchedule} (h : Renewed cron now edited) : Ahead cron now edited := by
  obtain ⟨text, hnext, htext⟩ := h
  obtain ⟨parsed, t, hparsed, hoccurs, rfl⟩ := SchedulerRunner.nextRun_eq_some.mp hnext
  exact ⟨parsed, now, t, hparsed, hoccurs, htext, hcron parsed now t hoccurs⟩

theorem ahead_of_later {cron : Cron} {row : JobSchedule} {now t : DateTime} (hrow : Consistent cron row)
    (hnext : row.nextRunAt = some (toRfc3339 t)) (hlater : now < t) : Ahead cron now row := by
  obtain ⟨earlier, hoccurs⟩ := hrow _ hnext
  obtain ⟨parsed, t', hparsed, hfound, htext⟩ := SchedulerRunner.nextRun_eq_some.mp hoccurs
  obtain rfl := toRfc3339_injective htext
  exact ⟨parsed, earlier, t, hparsed, hfound, hnext, hlater⟩

/-- A row that is written, if the edit that enables it gives it a next run to come. -/
theorem resumes_of_edit {cron : Cron} {row edited : JobSchedule} (hsound : Sound cron w.db.jobSchedules)
    (hrow : row ∈ w.db.jobSchedules)
    (hrows : u.db.jobSchedules =
      Rows.modify JobSchedule.id row.id (ScheduleRepository.overwrite edited) w.db.jobSchedules)
    (hahead : row.enabled = false → edited.enabled = true → Ahead cron w.now edited) : Resumes cron w u := by
  intro old hold hdisabled written hwritten hid henabled
  rw [hrows] at hwritten
  obtain ⟨before, hbefore, rfl⟩ := Rows.mem_modify.mp hwritten
  split at hid
  · rename_i hbeforeId
    obtain rfl : before = row := hsound.unique.eq_of_column hbefore hrow hbeforeId
    obtain rfl : before = old := hsound.unique.eq_of_column hbefore hold hid
    rw [if_pos rfl] at henabled ⊢
    exact hahead hdisabled henabled
  · rename_i hne
    rw [if_neg hne] at henabled ⊢
    obtain rfl : before = old := hsound.unique.eq_of_column hbefore hold hid
    rw [hdisabled] at henabled
    cases henabled

/-- What a call that enables a schedule leaves is ahead, if the call is fresh. -/
theorem Effect.resumes {cron : Cron} (hcron : ∀ parsed now t, cron.next parsed now = some t → now < t)
    (h : Effect cron w u call) (hsound : Sound cron w.db.jobSchedules) (hfresh : Fresh w call) :
    Resumes cron w u := by
  cases h with
  | same hsame => exact resumes_of_kept hsound fun row hrow => ⟨row, hsame ▸ hrow, rfl, rfl⟩
  | @create jobId req row hnew _ hrows =>
      intro old hold hdisabled row' hrow' hid henabled
      rw [hrows] at hrow'
      rcases List.mem_append.mp hrow' with hstored | hlast
      · obtain rfl := hsound.unique.eq_of_column hstored hold hid
        rw [hdisabled] at henabled
        cases henabled
      · rw [List.mem_singleton.mp hlast] at hid
        exact absurd hid.symm (Rows.hits_eq_zero.mp hnew old hold)
  | @update jobId req row edited hrow hupdates hrows =>
      have hstored := Rows.mem_of_lookup hrow
      refine resumes_of_edit hsound hstored hrows fun hdisabled henabled => ?_
      have hasked : req.enabled = some true := by
        have hvalue := hupdates.enabled
        rw [hdisabled, henabled] at hvalue
        cases henabledReq : req.enabled with
        | none => simp [henabledReq] at hvalue
        | some value => simpa [henabledReq] using hvalue.symm
      rcases hupdates.next with ⟨hexpr, hnext⟩ | hrenewed
      · by_cases hrenew : req.cronExpression ≠ none ∨ req.enabled = some true ∧ row.nextRunAt = none
        · exact (hupdates.renewed hrenew).ahead hcron
        · simp only [not_or, not_not, not_and] at hrenew
          obtain ⟨t, ht, hlater⟩ := hfresh row hrow hdisabled hasked hrenew.1 (hrenew.2 hasked)
          exact ahead_of_later (hupdates.consistent (hsound.consistent row hstored)) (hnext.trans ht) hlater
      · exact hrenewed.ahead hcron
  | toggle hrow htoggles hrows =>
      exact resumes_of_edit hsound (Rows.mem_of_lookup hrow) hrows
        fun hdisabled _ => (htoggles.renewed hdisabled).ahead hcron
  | delete hsub => exact resumes_of_kept hsound fun row hrow => ⟨row, hsub.subset hrow, rfl, rfl⟩
  | tick _ hview =>
      refine resumes_of_kept hsound fun row hrow => ?_
      have hmem : view row ∈ w.db.jobSchedules.map view := hview ▸ List.mem_map_of_mem hrow
      obtain ⟨old, hold, heq⟩ := List.mem_map.mp hmem
      simp only [view, Prod.mk.injEq] at heq
      exact ⟨old, hold, heq.1, heq.2.1⟩

theorem fresh_of_resumes {jobId : Uuid} {req : UpdateScheduleRequest}
    (hrun : ((Call.update jobId req).task runner).run w = some (.ok (), u)) (h : Resumes runner.cron w u) :
    Fresh w (.update jobId req) := by
  cases hfault : w.fault with
  | some text =>
      obtain ⟨-, e, he⟩ := Call.run_fault hfault hrun
      cases he
  | none =>
      intro row hrow hdisabled hasked hexpr hnext
      obtain ⟨r', hcall, herror⟩ := run_discard hrun
      rcases updateSchedule_run hfault hcall with ⟨-, hfails⟩ | ⟨found, edited, hfound, hupdates, hrows⟩
      · obtain ⟨e, he⟩ := herror hfails
        cases he
      · obtain rfl : row = found := Option.some.inj (hrow.symm.trans hfound)
        have hwritten : ScheduleRepository.overwrite edited row ∈ u.db.jobSchedules := by
          rw [hrows]
          exact Rows.mem_modify_of_eq (Rows.mem_of_lookup hrow) rfl
        have henabled : (ScheduleRepository.overwrite edited row).enabled = true := by
          change edited.enabled = true
          rw [hupdates.enabled, hasked]
          rfl
        obtain ⟨parsed, earlier, t, -, -, htext, hlater⟩ :=
          h row (Rows.mem_of_lookup hrow) hdisabled _ hwritten rfl henabled
        exact ⟨t, (hupdates.kept hexpr hnext).symm.trans htext, hlater⟩

end

/-- In every history, a call leaves the schedules that it has enabled with a next run to come, if an update that
enables one without a new expression finds no next run or one to come. An update that returns does so only
then. -/
theorem resumes_iff_fresh {runner : SchedulerRunner}
    (hcron : ∀ parsed now t, runner.cron.next parsed now = some t → now < t) {w u : World}
    (hreached : Reached runner w) (hfree : w.locked = false) (call : Call) {r : Except AppError Unit}
    (hrun : (call.task runner).run w = some (r, u)) :
    (Fresh w call → Resumes runner.cron w u) ∧ (r = .ok () → (Resumes runner.cron w u ↔ Fresh w call)) := by
  have hsound := hreached.sound
  have heffect := Call.effect hsound hfree hrun
  refine ⟨heffect.resumes hcron hsound, fun hok => ⟨fun hresumes => ?_, heffect.resumes hcron hsound⟩⟩
  subst hok
  cases call with
  | update jobId req => exact fresh_of_resumes hrun hresumes
  | create | toggle | delete | tick => trivial

/-! ### A schedule that has rested -/

theorem eve_lt_first : eve < SchedulerRunner.first := DateTime.lt_of_date_before (.inl (by decide))

theorem second_lt_fourth : SchedulerRunner.second < fourth :=
  DateTime.lt_of_date_before (.inr ⟨rfl, .inr ⟨rfl, by decide⟩⟩)

theorem eve_lt_fourth : eve < fourth := DateTime.lt_of_date_before (.inl (by decide))

theorem pair_later : ∀ parsed now t, pairRunner.cron.next parsed now = some t → now < t := by
  intro both now t h
  simp only [pairRunner, Cron.pair] at h
  split at h
  · subst now
    cases h
    cases both
    · exact second_lt_fourth
    · exact SchedulerRunner.second_lt_third
  split at h
  · subst now
    cases h
    cases both
    · exact eve_lt_fourth
    · exact eve_lt_first
  · cases h

/-- The sample job with these schedules, at this time. -/
def scheduled (rows : List JobSchedule) (now : DateTime) : World :=
  { World.sample 0 [] with db := { (World.sample 0 []).db with jobSchedules := rows }, now }

/-- The schedule as it is made on the eve of the first day. -/
def made : JobSchedule :=
  .new (World.sample 0 []).nextUuid 1 firstAndThird (some (toRfc3339 SchedulerRunner.first)) (toRfc3339 eve)

/-- The schedule as a toggle leaves it then. -/
def resting : JobSchedule := { made with enabled := false }

theorem reached_resting : Reached pairRunner (scheduled [resting] SchedulerRunner.second) := by
  have hmade : Reached pairRunner (scheduled [made] eve) := by
    have hrun : ∃ u r, ((Call.create 1 ⟨firstAndThird⟩).task pairRunner).run (scheduled [] eve) = some (r, u) ∧
        u.db.jobSchedules = [made] := ⟨_, _, rfl, rfl⟩
    obtain ⟨u, r, hrun, hrows⟩ := hrun
    exact .elsewhere (.call (.create 1 ⟨firstAndThird⟩) (.start rfl) rfl hrun) hrows.symm
  have hrun : ∃ u r, ((Call.toggle 1).task pairRunner).run (scheduled [made] eve) = some (r, u) ∧
      u.db.jobSchedules = [resting] := ⟨_, _, rfl, rfl⟩
  obtain ⟨u, r, hrun, hrows⟩ := hrun
  exact .elsewhere (.call (.toggle 1) hmade rfl hrun) hrows.symm

/-- On the second day a toggle enables the schedule for the third. -/
theorem resumes_iff_fresh_toggle : ∃ u,
    ((Call.toggle 1).task pairRunner).run (scheduled [resting] SchedulerRunner.second) = some (.ok (), u) ∧
      (Fresh (scheduled [resting] SchedulerRunner.second) (.toggle 1) →
        Resumes pairRunner.cron (scheduled [resting] SchedulerRunner.second) u) ∧
      ((.ok () : Except AppError Unit) = .ok () →
        (Resumes pairRunner.cron (scheduled [resting] SchedulerRunner.second) u ↔
          Fresh (scheduled [resting] SchedulerRunner.second) (.toggle 1))) :=
  ⟨_, rfl, resumes_iff_fresh pair_later reached_resting rfl (.toggle 1) rfl⟩

/-- An update enables it with the run of the first day, which it has missed. -/
theorem update_fires_missed_run : Reached pairRunner (scheduled [resting] SchedulerRunner.second) ∧ ∃ u,
    ((Call.update 1 ⟨none, some true⟩).task pairRunner).run (scheduled [resting] SchedulerRunner.second) =
      some (.ok (), u) ∧
    u.db.jobSchedules.map (fun row => (row.enabled, row.nextRunAt)) = [(true, some (toRfc3339 SchedulerRunner.first))] ∧
    ¬Resumes pairRunner.cron (scheduled [resting] SchedulerRunner.second) u := by
  refine ⟨reached_resting, _, rfl, rfl, ?_⟩
  intro h
  obtain ⟨_, _, t, _, _, htext, hlater⟩ :=
    h resting (List.mem_singleton_self _) rfl _ (List.mem_singleton_self _) rfl rfl
  obtain rfl : SchedulerRunner.first = t := toRfc3339_injective (Option.some.inj htext)
  have hpast : SchedulerRunner.first < SchedulerRunner.second :=
    DateTime.lt_of_date_before (.inr ⟨rfl, .inr ⟨rfl, by decide⟩⟩)
  exact Nat.lt_asymm hlater hpast

end Reenabling

end Serverust
