import Serverust.Library.Pool
import Serverust.Model.ScheduleService
import Serverust.Proof.Footprints
import Serverust.Proof.Ticks

/-!
# Ticks and edits of schedules, interleaved

The service writes a schedule as a whole, with a next run that belongs to the expression it writes. A
tick writes the next run alone, computed from the expression it read when it selected the schedule. So
the two columns part exactly when the expression was changed in between.
-/

namespace Serverust

namespace ScheduleEdits

open Calendar Resumption

variable {cron : Cron}

/-- The text is an occurrence of the expression. -/
def Occurs (cron : Cron) (cronExpression text : String) : Prop :=
  ∃ now, SchedulerRunner.nextRun cron cronExpression now = some text

/-- The stored next run is an occurrence of the stored expression. -/
def Consistent (cron : Cron) (row : JobSchedule) : Prop :=
  ∀ text, row.nextRunAt = some text → Occurs cron row.cronExpression text

/-! ### The rules -/

/-- Events that touch no schedule and select none. -/
def Aside : Event → Prop
  | .sql (.schedule (.getDue _)) | .sql (.schedule (.create _)) | .sql (.schedule (.update _))
  | .sql (.schedule (.delete _)) | .sql (.schedule (.markTriggered ..)) => False
  | _ => True

/-- What an action may do, when its task has selected these schedules. -/
inductive Acts (cron : Cron) (selected : List JobSchedule) : Event → World → World → Prop
  | aside {ev : Event} {u v : World} (hev : Aside ev) (hsame : v.db.jobSchedules = u.db.jobSchedules) :
      Acts cron selected ev u v
  | select {rows : List JobSchedule} {u : World} : Acts cron selected (.sql (.schedule (.getDue rows))) u u
  | update {schedule : JobSchedule} {u v : World} (hconsistent : Consistent cron schedule)
      (hrows : v.db.jobSchedules = Rows.modify JobSchedule.id schedule.id
        (ScheduleRepository.overwrite schedule) u.db.jobSchedules) :
      Acts cron selected (.sql (.schedule (.update schedule))) u v
  | mark {schedule : JobSchedule} {text : String} {u v : World} (stamp : JobSchedule → JobSchedule)
      (hselected : schedule ∈ selected) (hoccurs : Occurs cron schedule.cronExpression text)
      (hstamp : ∀ row, (stamp row).cronExpression = row.cronExpression ∧ (stamp row).nextRunAt = some text)
      (hrows : v.db.jobSchedules = Rows.modify JobSchedule.id schedule.id stamp u.db.jobSchedules) :
      Acts cron selected (.sql (.schedule (.markTriggered schedule.id text))) u v

/-- The schedules a task has selected last. -/
def select (selected : List JobSchedule) : Event → List JobSchedule
  | .sql (.schedule (.getDue rows)) => rows
  | _ => selected

def protocol (cron : Cron) : Protocol Event World (List JobSchedule) where
  next := select
  knows _ w := ∀ row ∈ w.db.jobSchedules, Consistent cron row
  grows _ _ := True
  allows selected ev u v := Acts cron selected ev u v

instance : (protocol cron).Lawful := ⟨fun _ => trivial, fun _ _ => trivial⟩

theorem select_aside {selected : List JobSchedule} {ev : Event} (h : Aside ev) : select selected ev = selected := by
  unfold select
  split
  · cases h
  · rfl

/-! ### What the tasks do -/

section

variable {selected : List JobSchedule} {α : Type}

theorem keeps_aside {R : World → Event → World → Prop} {p : Async α} (h : p.Acts R)
    (hR : ∀ u ev v, R u ev v → Aside ev ∧ v.db.jobSchedules = u.db.jobSchedules) :
    Task.Keeps (protocol cron) (fun _ => True) selected p := by
  refine h.keeps fun u ev v _ hact => ?_
  obtain ⟨hev, hsame⟩ := hR u ev v hact
  exact ⟨.aside hev hsame, select_aside hev, trivial⟩

theorem aside_of_background {ev : Event} (h : ev.Background) : Aside ev := by
  unfold Aside
  split
  · cases h
  · cases h
  · cases h
  · cases h
  · cases h
  · trivial

theorem keeps_creating {p : Async α} (h : p.Acts Creating) :
    Task.Keeps (protocol cron) (fun _ => True) selected p := by
  refine keeps_aside h fun u ev v hact => ?_
  obtain ⟨_, _, _, rfl⟩ := hact.same
  refine ⟨?_, rfl⟩
  rcases hact.event with hback | ⟨job, rfl⟩ | ⟨x, rfl⟩
  · exact aside_of_background hback
  · trivial
  · trivial

theorem keeps_reading {p : Async α} (h : p.Acts Reading) :
    Task.Keeps (protocol cron) (fun _ => True) selected p :=
  keeps_creating (h.mono fun _ _ _ => Reading.creating)

theorem keeps_queueing {p : Async α} (h : p.Acts Queueing) :
    Task.Keeps (protocol cron) (fun _ => True) selected p := by
  refine keeps_aside h fun u ev v hact => ?_
  obtain ⟨_, _, _, _, rfl⟩ := hact.same
  refine ⟨?_, rfl⟩
  have hqueueing := hact.event
  unfold Aside
  split
  · cases hqueueing
  · cases hqueueing
  · cases hqueueing
  · cases hqueueing
  · cases hqueueing
  · trivial

/-- A statement on the schedules that keeps the selection. -/
theorem keeps_schedule {φ : α → Prop} {stmt : Db → α → ScheduleStmt}
    {statement : DateTime → Db → Except SqlError (α × Db)}
    (h : ∀ u value db, (∀ row ∈ u.db.jobSchedules, Consistent cron row) →
      statement u.now u.db = .ok (value, db) →
        Acts cron selected (.sql (.schedule (stmt u.db value))) u { u with db } ∧
          select selected (.sql (.schedule (stmt u.db value))) = selected ∧ φ value) :
    Task.Keeps (protocol cron) φ selected (sql (fun db value => .schedule (stmt db value)) statement) := by
  intro w
  apply obeys_sql
  · intro u value db _ hknows hquery
    obtain ⟨hallows, hnext, hφ⟩ := h u value db hknows (query_ok hquery).2
    exact ⟨hallows, hnext, trivial, hφ⟩
  · exact fun u e _ _ _ => ⟨.aside trivial rfl, rfl, trivial⟩

/-- A tick's pass for a schedule it has selected. -/
theorem keeps_trigger (runner : SchedulerRunner) {schedule : JobSchedule} (hselected : schedule ∈ selected) :
    Task.Keeps (protocol runner.cron) (fun _ => True) selected (runner.trigger schedule) := by
  apply (keeps_reading (acts_getJob _)).attempt.bind
  intro job _
  cases job with
  | error e => exact .pure trivial
  | ok job =>
      dsimp only
      split
      · exact .pure trivial
      apply (keeps_creating (acts_createExecution _ _)).attempt.bind
      intro execution _
      cases execution with
      | error e => exact .pure trivial
      | ok execution =>
          apply (keeps_queueing (acts_enqueue _ _)).attempt.bind
          intro result _
          cases result with
          | error e => exact .pure trivial
          | ok _ =>
              apply (keeps_reading acts_nowRfc3339).bind
              intro now _
              have hnext : Task.Keeps (protocol runner.cron)
                  (fun next => ∀ text, next = some text → Occurs runner.cron schedule.cronExpression text)
                  selected (perform (fun _ => .quiet) fun w =>
                    (SchedulerRunner.nextRun runner.cron schedule.cronExpression w.now, w)) := by
                intro w
                apply obeys_perform
                exact fun u _ _ => ⟨.aside trivial rfl, rfl, trivial, fun text h => ⟨u.now, h⟩⟩
              apply hnext.bind
              intro next hoccurs
              cases next with
              | none => exact .pure trivial
              | some text =>
                  have hmark : Task.Keeps (protocol runner.cron) (fun _ => True) selected
                      (ScheduleRepository.markTriggered schedule.id now text) := by
                    apply Task.Keeps.bind (φ := fun _ => True)
                    · apply keeps_schedule
                      intro u value db _ h
                      cases h
                      refine ⟨?_, rfl, trivial⟩
                      let stamp := fun row : JobSchedule =>
                        { row with lastRunAt := some now, nextRunAt := some text
                                   updatedAt := sqliteDatetime u.now }
                      exact .mark stamp hselected (hoccurs text rfl) (fun _ => ⟨rfl, rfl⟩) rfl
                    · exact fun _ _ => .pure trivial
                  exact hmark.attempt.bind fun _ _ => .pure trivial

theorem obeys_tick (runner : SchedulerRunner) (w : World) :
    Task.Obeys (protocol runner.cron) (fun _ _ _ => True) (fun _ _ _ => True) runner.tick selected w := by
  apply Task.obeys_bind.mpr
  apply obeys_sql
  · intro u rows db _ _ hquery
    cases (query_ok hquery).2
    refine ⟨.select, ?_⟩
    exact (Task.Keeps.forM fun schedule hschedule => keeps_trigger runner hschedule).obeys.mono
      (fun _ _ _ _ => trivial) fun _ _ _ _ => trivial
  · exact fun u e _ _ _ => ⟨.aside trivial rfl, trivial⟩

theorem keeps_readSchedule {φ : α → Prop} {stmt : α → ScheduleStmt} {read : Db → α}
    (hstmt : ∀ value, Aside (.sql (.schedule (stmt value))))
    (hφ : ∀ u : World, (∀ row ∈ u.db.jobSchedules, Consistent cron row) → φ (read u.db)) :
    Task.Keeps (protocol cron) φ selected (Serverust.select (fun value => .schedule (stmt value)) read) := by
  apply keeps_schedule
  intro u value db hknows h
  cases h
  exact ⟨.aside (hstmt _) rfl, select_aside (hstmt _), hφ u hknows⟩

theorem keeps_okOr {φ : α → Prop} {value : Option α} {e : AppError} (h : ∀ a, value = some a → φ a) :
    Task.Keeps (protocol cron) φ selected (okOr value e) := by
  cases value with
  | none => exact .throw
  | some a => exact .pure (h a rfl)

theorem keeps_getById (id : Uuid) :
    Task.Keeps (protocol cron) (fun _ => True) selected (ScheduleRepository.getById id) := by
  unfold ScheduleRepository.getById
  apply Task.Keeps.bind (φ := fun _ => True)
  · exact keeps_readSchedule (fun _ => trivial) fun _ _ => trivial
  · exact fun _ _ => keeps_okOr fun _ _ => trivial

theorem keeps_getScheduleByJobId (jobId : Uuid) :
    Task.Keeps (protocol cron) (Consistent cron) selected (ScheduleService.getScheduleByJobId jobId) := by
  unfold ScheduleService.getScheduleByJobId ScheduleRepository.getByJobId
  apply Task.Keeps.bind (φ := fun row => ∀ schedule, row = some schedule → Consistent cron schedule)
  · apply keeps_readSchedule
    · exact fun _ => trivial
    · exact fun u hknows schedule hrow => hknows schedule (Rows.mem_of_lookup hrow)
  · exact fun _ hrow => keeps_okOr hrow

theorem nextRun_of_calculateNextRun {cronExpression text : String} {now : DateTime}
    (h : ScheduleService.calculateNextRun cron cronExpression now = .ok text) :
    SchedulerRunner.nextRun cron cronExpression now = some text := by
  unfold ScheduleService.calculateNextRun ScheduleService.validateCron at h
  unfold SchedulerRunner.nextRun
  cases hparse : cron.fromStr cronExpression with
  | error e =>
      rw [hparse] at h
      cases h
  | ok schedule =>
      rw [hparse] at h
      cases hnext : cron.next schedule now with
      | none =>
          simp only [bind, Except.bind, hnext, reduceCtorEq] at h
      | some t =>
          simp only [bind, Except.bind, hnext, Except.ok.injEq] at h
          simp only [hnext, Option.map_some, h]

theorem keeps_nextRunNow (cronExpression : String) :
    Task.Keeps (protocol cron) (Occurs cron cronExpression) selected
      (ScheduleService.nextRunNow cron cronExpression) := by
  unfold ScheduleService.nextRunNow
  apply Task.Keeps.bind (φ := fun r => ∀ text, r = .ok text → Occurs cron cronExpression text)
  · intro w
    apply obeys_perform
    intro u _ _
    refine ⟨.aside trivial rfl, rfl, trivial, ?_⟩
    exact fun text h => ⟨u.now, nextRun_of_calculateNextRun h⟩
  · intro r hr
    cases r with
    | ok next => exact .pure (hr next rfl)
    | error e => exact .throw

/-- A schedule with a next run that is an occurrence of its expression. -/
theorem consistent_of_occurs {schedule : JobSchedule} {next : String}
    (h : Occurs cron schedule.cronExpression next) : Consistent cron { schedule with nextRunAt := some next } := by
  intro text htext
  cases htext
  exact h

theorem keeps_applyCron {schedule : JobSchedule} (h : Consistent cron schedule) (req : UpdateScheduleRequest) :
    Task.Keeps (protocol cron) (Consistent cron) selected (ScheduleService.applyCron cron req schedule) := by
  unfold ScheduleService.applyCron
  cases req.cronExpression with
  | none => exact .pure h
  | some cronExpr =>
      dsimp only
      split
      · apply (keeps_nextRunNow cronExpr).bind
        intro next hnext
        have hnew : Occurs cron { schedule with cronExpression := cronExpr }.cronExpression next := hnext
        exact .pure (consistent_of_occurs hnew)
      · exact .throw

theorem keeps_applyEnabled {schedule : JobSchedule} (h : Consistent cron schedule)
    (req : UpdateScheduleRequest) :
    Task.Keeps (protocol cron) (Consistent cron) selected (ScheduleService.applyEnabled cron req schedule) := by
  unfold ScheduleService.applyEnabled
  cases req.enabled with
  | none => exact .pure h
  | some enabled =>
      dsimp only
      split
      · apply (keeps_nextRunNow _).bind
        exact fun next hnext => .pure (consistent_of_occurs hnext)
      · exact .pure h

theorem keeps_restart {schedule : JobSchedule} (h : Consistent cron schedule) :
    Task.Keeps (protocol cron) (Consistent cron) selected (ScheduleService.restart cron schedule) := by
  unfold ScheduleService.restart
  split
  · apply (keeps_nextRunNow _).bind
    exact fun next hnext => .pure (consistent_of_occurs hnext)
  · exact .pure h

theorem keeps_update {schedule : JobSchedule} (h : Consistent cron schedule) :
    Task.Keeps (protocol cron) (fun _ => True) selected (do
      let now ← nowRfc3339
      ScheduleRepository.update { schedule with updatedAt := now }) := by
  apply (keeps_reading acts_nowRfc3339).bind
  intro now _
  apply Task.Keeps.bind (φ := fun _ => True)
  · apply keeps_schedule
    intro u value db _ hquery
    cases hquery
    exact ⟨.update h rfl, rfl, trivial⟩
  · exact fun _ _ => keeps_getById _

theorem keeps_updateSchedule (jobId : Uuid) (req : UpdateScheduleRequest) :
    Task.Keeps (protocol cron) (fun _ => True) selected (ScheduleService.updateSchedule cron jobId req) := by
  apply (keeps_getScheduleByJobId jobId).bind
  intro schedule h
  apply (keeps_applyCron h req).bind
  intro schedule h
  apply (keeps_applyEnabled h req).bind
  exact fun schedule h => keeps_update h

theorem keeps_toggleSchedule (jobId : Uuid) :
    Task.Keeps (protocol cron) (fun _ => True) selected (ScheduleService.toggleSchedule cron jobId) := by
  apply (keeps_getScheduleByJobId jobId).bind
  intro schedule h
  have htoggled : Consistent cron { schedule with enabled := !schedule.enabled } := h
  apply (keeps_restart htoggled).bind
  exact fun schedule h => keeps_update h

end

/-! ### The pool -/

inductive Call where
  | tick
  | updateSchedule (jobId : Uuid) (req : UpdateScheduleRequest)
  | toggleSchedule (jobId : Uuid)

def Call.task (runner : SchedulerRunner) : Call → Async Unit
  | .tick => runner.tick
  | .updateSchedule jobId req => do let _ ← ScheduleService.updateSchedule runner.cron jobId req
  | .toggleSchedule jobId => do let _ ← ScheduleService.toggleSchedule runner.cron jobId

/-- Anything else may happen to the rest of the state. -/
def elsewhere (change w : World) : World :=
  { change with db := { change.db with jobSchedules := w.db.jobSchedules } }

def system (runner : SchedulerRunner) : System Event World (List JobSchedule) Call World where
  next := select
  spawn call w := some (w, ⟨[], (call.task runner).detached .returned⟩)
  env := elsewhere

/-- A tick stores a next run only while the schedule has the expression the tick selected it with. -/
def Good (c : Config Event World (List JobSchedule)) (i : Nat) (ev : Event) : Prop :=
  ∀ id text selected, ev = .sql (.schedule (.markTriggered id text)) → c.tags[i]? = some selected →
    ∀ schedule ∈ selected, schedule.id = id →
      ∀ row ∈ c.world.db.jobSchedules, row.id = id → row.cronExpression = schedule.cronExpression

/-- What an action does to consistent rows. -/
theorem Acts.consistent {c : Config Event World (List JobSchedule)} {i : Nat} {selected : List JobSchedule}
    {ev : Event} {w : World} (h : Acts cron selected ev c.world w) (hgood : Good c i ev)
    (htag : c.tags[i]? = some selected) (hrows : ∀ row ∈ c.world.db.jobSchedules, Consistent cron row) :
    ∀ row ∈ w.db.jobSchedules, Consistent cron row := by
  cases h with
  | aside _ hsame =>
      rw [hsame]
      exact hrows
  | select => exact hrows
  | @update schedule _ _ hconsistent hwritten =>
      rw [hwritten]
      intro row hrow
      obtain ⟨old, hold, rfl⟩ := Rows.mem_modify.mp hrow
      split
      · exact hconsistent
      · exact hrows old hold
  | @mark schedule text _ _ stamp hselected hoccurs hstamp hwritten =>
      rw [hwritten]
      intro row hrow
      obtain ⟨old, hold, rfl⟩ := Rows.mem_modify.mp hrow
      split
      · rename_i hid
        have hsame := hgood schedule.id text selected rfl htag schedule hselected rfl old hold hid
        intro next hnext
        rw [(hstamp old).2] at hnext
        cases hnext
        rw [(hstamp old).1, hsame]
        exact hoccurs
      · exact hrows old hold

theorem obeys_thread (runner : SchedulerRunner) (call : Call) (w : World) :
    (protocol runner.cron).Obeys (fun _ _ _ => True) ((call.task runner).detached .returned) [] w := by
  have hreturn {α : Type} {p : Async α} (h : Task.Keeps (protocol runner.cron) (fun _ => True) [] p) :
      Task.Obeys (protocol runner.cron) (fun _ _ _ => True) (fun _ _ _ => True)
        (do let _ ← p) [] w :=
    (h.bind (ψ := fun _ => True) fun _ _ => .pure trivial).obeys.mono (fun _ _ _ _ => trivial)
      fun _ _ _ _ => trivial
  have htask : Task.Obeys (protocol runner.cron) (fun _ _ _ => True) (fun _ _ _ => True)
      (call.task runner) [] w := by
    cases call with
    | tick => exact obeys_tick runner w
    | updateSchedule jobId req => exact hreturn (keeps_updateSchedule jobId req)
    | toggleSchedule jobId => exact hreturn (keeps_toggleSchedule jobId)
  exact htask.detached (fun _ _ _ _ _ _ _ => .aside trivial rfl) fun _ _ _ _ _ _ _ => .aside trivial rfl

theorem sound_consistent (runner : SchedulerRunner) :
    Sound (system runner) (protocol runner.cron) Good fun w _ _ =>
      ∀ row ∈ w.db.jobSchedules, Consistent runner.cron row where
  next := rfl
  knows h _ := h
  run h htag hgood hacts := ⟨hacts.consistent hgood htag h, trivial⟩
  spawn h hspawn := by
    cases hspawn
    exact ⟨h, trivial, obeys_thread runner _ _⟩
  env _ h := ⟨h, trivial⟩

/-- In every run in which no tick overtakes an edit of the expression, every stored next run is an
occurrence of the stored expression. -/
theorem next_run_occurs (runner : SchedulerRunner) {w : World} {c : Config Event World (List JobSchedule)}
    (hinit : ∀ row ∈ w.db.jobSchedules, Consistent runner.cron row)
    (hrun : (system runner).Run Good ⟨w, [], []⟩ c) :
    ∀ row ∈ c.world.db.jobSchedules, Consistent runner.cron row :=
  ((sound_consistent runner).invariant hrun ⟨hinit, fun _ hth => absurd hth List.not_mem_nil⟩).1

/-! ### A lost edit -/

/-- `Good` as a test. -/
def check (c : Config Event World (List JobSchedule)) (i : Nat) (ev : Event) : Bool :=
  match ev, c.tags[i]? with
  | .sql (.schedule (.markTriggered id _)), some selected =>
      selected.all fun schedule => schedule.id != id ||
        c.world.db.jobSchedules.all fun row => row.id != id || row.cronExpression == schedule.cronExpression
  | _, _ => true

theorem good_of_check {c : Config Event World (List JobSchedule)} {i : Nat} {ev : Event}
    (h : check c i ev = true) : Good c i ev := by
  intro id text selected hev htag schedule hselected hid row hrow hrowid
  subst hev
  simp only [check, htag, List.all_eq_true, Bool.or_eq_true, bne_iff_ne, beq_iff_eq] at h
  rcases h schedule hselected with hne | hrows
  · exact absurd hid hne
  · exact (hrows row hrow).resolve_left (not_not_intro hrowid)

def fourth : DateTime := SchedulerRunner.january 4 (by decide) (by decide)

/-- The day before the first. -/
def eve : DateTime :=
  { epoch with date := ⟨2025, 12, 31, Nat.le_of_ble_eq_true rfl, Nat.le_of_ble_eq_true rfl, Nat.le_refl 12,
      Nat.le_of_ble_eq_true rfl, Nat.le_refl 31⟩ }

def firstAndThird : String := "0 0 0 1,3 1 * 2026"

def onFourth : String := "0 0 0 4 1 * 2026"

/-- The cron crate on two expressions, on the eve of the first day and on the second. -/
def Cron.pair : Cron where
  Schedule := Bool
  fromStr cronExpression :=
    if cronExpression = firstAndThird then .ok true
    else if cronExpression = onFourth then .ok false
    else .error "unknown"
  next both now :=
    if now = SchedulerRunner.second then some (if both then SchedulerRunner.third else fourth)
    else if now = eve then some (if both then SchedulerRunner.first else fourth)
    else none

def pairRunner : SchedulerRunner := ⟨⟨1, 3⟩, Cron.pair⟩

def pairSchedule : JobSchedule := { SchedulerRunner.sampleSchedule with cronExpression := firstAndThird }

/-- The second day. -/
def pairWorld : World :=
  { SchedulerRunner.sampleStart with
    db := { SchedulerRunner.sampleStart.db with jobSchedules := [pairSchedule] } }

theorem consistent_pairWorld : ∀ row ∈ pairWorld.db.jobSchedules, Consistent pairRunner.cron row := by
  intro row hrow text htext
  cases List.mem_singleton.mp hrow
  cases htext
  exact ⟨eve, by decide⟩

theorem due_pairWorld :
    (pairWorld.db.jobSchedules.filter (ScheduleRepository.isDue pairWorld.now)).insertionSort
      ScheduleRepository.RunsBefore = [pairSchedule] := by
  have hdue : ScheduleRepository.isDue SchedulerRunner.second pairSchedule = true :=
    (ScheduleRepository.isDue_iff (t := SchedulerRunner.first) rfl rfl _).mpr (.inr ⟨rfl, .inr ⟨rfl, by decide⟩⟩)
  rw [show pairWorld.db.jobSchedules = [pairSchedule] from rfl,
    show pairWorld.now = SchedulerRunner.second from rfl, List.filter_cons_of_pos hdue]
  rfl

/-- A tick that has selected these schedules. -/
def selecting (rows : List JobSchedule) : Config Event World (List JobSchedule) where
  world := pairWorld
  threads := [⟨rows, Task.detached .returned (rows.forM pairRunner.trigger)⟩]
  trace := [.sql (.schedule (.getDue rows))]

theorem run_selecting {good : Config Event World (List JobSchedule) → Nat → Event → Prop}
    (hgood : ∀ c i rows, good c i (.sql (.schedule (.getDue rows)))) :
    (system pairRunner).Run good ⟨pairWorld, [], []⟩ (selecting [pairSchedule]) := by
  have hquery : pairWorld.query (fun now db => .ok ((db.jobSchedules.filter
      (ScheduleRepository.isDue now)).insertionSort ScheduleRepository.RunsBefore, db)) =
        .ok ([pairSchedule], pairWorld.db) :=
    congrArg (fun rows => Except.ok (rows, pairWorld.db)) due_pairWorld
  have hstep : (system pairRunner).Moves good
      ⟨pairWorld, [⟨[], pairRunner.tick.detached .returned⟩], []⟩ _ :=
    .run 0 rfl rfl (hgood _ _ _)
  dsimp only at hstep
  rw [hquery] at hstep
  have hspawn : (system pairRunner).Run good ⟨pairWorld, [], []⟩
      ⟨pairWorld, [⟨[], pairRunner.tick.detached .returned⟩], []⟩ := .move .start (.spawn .tick rfl)
  exact .move hspawn hstep

/-- The rest of the tick, after the schedule is read by a toggle, which then writes it. -/
def toggled : List (Choice Call World) :=
  [.spawn (.toggleSchedule 1), .run 1] ++ List.replicate 16 (.run 0) ++ List.replicate 3 (.run 1)

/-- The rest of the tick, after an edit of the expression. -/
def edited : List (Choice Call World) :=
  .spawn (.updateSchedule 1 ⟨some onFourth, none⟩) :: List.replicate 5 (.run 1) ++
    List.replicate 16 (.run 0)

def columns (c : Config Event World (List JobSchedule)) : List (String × Option String) :=
  c.world.db.jobSchedules.map fun row => (row.cronExpression, row.nextRunAt)

theorem next_run_occurs_toggled : ∃ c, (system pairRunner).Run Good ⟨pairWorld, [], []⟩ c ∧
    columns c = [(firstAndThird, some (toRfc3339 SchedulerRunner.first))] ∧
      ∀ row ∈ c.world.db.jobSchedules, Consistent pairRunner.cron row := by
  have hexec : ((system pairRunner).exec check toggled (selecting [pairSchedule])).map columns =
      some [(firstAndThird, some (toRfc3339 SchedulerRunner.first))] := rfl
  obtain ⟨c, hc, hcolumns⟩ := Option.map_eq_some_iff.mp hexec
  have hrun : (system pairRunner).Run Good ⟨pairWorld, [], []⟩ c :=
    (run_selecting fun _ _ _ => good_of_check rfl).trans (System.run_of_exec (fun _ _ _ => good_of_check) hc)
  exact ⟨c, hrun, hcolumns, next_run_occurs pairRunner consistent_pairWorld hrun⟩

theorem not_occurs_third (now : DateTime) :
    SchedulerRunner.nextRun Cron.pair onFourth now ≠ some (toRfc3339 SchedulerRunner.third) := by
  have hparse : Cron.pair.fromStr onFourth = .ok false := rfl
  have hne : toRfc3339 fourth ≠ toRfc3339 SchedulerRunner.third := by decide
  intro h
  simp only [SchedulerRunner.nextRun, hparse] at h
  obtain ⟨t, ht, htext⟩ := Option.map_eq_some_iff.mp h
  simp only [Cron.pair, Bool.false_eq_true, if_false] at ht
  split at ht
  · cases ht
    exact hne htext
  split at ht
  · cases ht
    exact hne htext
  · cases ht

/-- The tick stores the next run of the expression that the edit has replaced. -/
theorem next_run_lost : ¬ ∀ c, (system pairRunner).Reaches ⟨pairWorld, [], []⟩ c →
    ∀ row ∈ c.world.db.jobSchedules, Consistent pairRunner.cron row := by
  intro hconsistent
  have hexec : ((system pairRunner).exec (fun _ _ _ => true) edited (selecting [pairSchedule])).map columns =
      some [(onFourth, some (toRfc3339 SchedulerRunner.third))] := rfl
  obtain ⟨c, hc, hcolumns⟩ := Option.map_eq_some_iff.mp hexec
  have hmem : (onFourth, some (toRfc3339 SchedulerRunner.third)) ∈ columns c := by
    rw [hcolumns]
    exact List.mem_singleton_self _
  obtain ⟨row, hrow, hpair⟩ := List.mem_map.mp hmem
  obtain ⟨hcron, hnext⟩ := Prod.mk.inj hpair
  have hreaches := (run_selecting fun _ _ _ => trivial).trans (System.reaches_of_exec hc)
  obtain ⟨now, hoccurs⟩ := hconsistent c hreaches row hrow _ hnext
  rw [hcron] at hoccurs
  exact not_occurs_third now hoccurs

end ScheduleEdits

end Serverust
