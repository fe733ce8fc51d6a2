import Serverust.Proof.DueSchedules
import Serverust.Proof.Footprints

/-!
# Successive ticks

A tick enqueues an execution for a due schedule first, and then stores the schedule's next run. Where the
expression has no next occurrence nothing is stored, so the schedule stays due and every tick enqueues
for it again.
-/

namespace Serverust

open Calendar Resumption

namespace SchedulerRunner

variable (runner : SchedulerRunner)

/-- The schedules among these for which a pass of the loop adds to the queue. -/
def passes : List JobSchedule → World → List JobSchedule
  | [], _ => []
  | schedule :: rest, w =>
    match (runner.trigger schedule).run w with
    | some (_, u) =>
      if u.db.jobQueue = w.db.jobQueue then passes rest u else schedule :: passes rest u
    | none => []

/-- The schedules for which a tick enqueues an execution. -/
def enqueuedBy (w : World) : List JobSchedule :=
  runner.passes ((w.db.jobSchedules.filter (ScheduleRepository.isDue w.now)).insertionSort
    ScheduleRepository.RunsBefore) w

/-- The states a sequence of ticks passes through. Between two ticks time goes on, and others may change
anything but the schedules. -/
inductive Ticked (start : World) : World → Prop
  | start : Ticked start start
  | elsewhere {w u : World} (hticked : Ticked start w) (hidle : u.Idle)
      (hsame : u.db.jobSchedules = w.db.jobSchedules) : Ticked start u
  | tick {w u : World} {r : Except AppError Unit} (hticked : Ticked start w)
      (hrun : runner.tick.run w = some (r, u)) : Ticked start u

variable {runner} {schedule : JobSchedule} {w u : World} {r : Except AppError Unit}

/-! ### One pass -/

/-- What `mark_triggered` makes of a row. -/
def stamp (now : DateTime) (next : String) (row : JobSchedule) : JobSchedule :=
  { row with lastRunAt := some (toRfc3339 now), nextRunAt := some next, updatedAt := sqliteDatetime now }

/-- The schedules after a pass that enqueued an execution. -/
def marked (cron : Cron) (schedule : JobSchedule) (now : DateTime) (rows : List JobSchedule) :
    List JobSchedule :=
  match nextRun cron schedule.cronExpression now with
  | some next => Rows.modify JobSchedule.id schedule.id (stamp now next) rows
  | none => rows

/-- What a pass leaves as it is before it enqueues. -/
structure Untouched (w u : World) : Prop where
  schedules : u.db.jobSchedules = w.db.jobSchedules
  queue : u.db.jobQueue = w.db.jobQueue
  now : u.now = w.now
  idle : w.Idle → u.Idle

theorem untouched_run {α : Type} {p : Async α} {r : Except AppError α} (h : p.Acts Creating)
    (hrun : p.run w = some (r, u)) : Untouched w u := by
  refine h.run (fun _ => ⟨rfl, rfl, rfl, id⟩) (fun hab hbc => ?_) (fun s ev s' hact => ?_) hrun
  · exact ⟨hbc.schedules.trans hab.schedules, hbc.queue.trans hab.queue, hbc.now.trans hab.now,
      hbc.idle ∘ hab.idle⟩
  · obtain ⟨_, _, _, rfl⟩ := hact.same
    exact ⟨rfl, rfl, rfl, fun hidle => ⟨hidle.free, hidle.fault⟩⟩

theorem Untouched.trans {v : World} (huv : Untouched u v) (hwu : Untouched w u) : Untouched w v :=
  ⟨huv.schedules.trans hwu.schedules, huv.queue.trans hwu.queue, huv.now.trans hwu.now, huv.idle ∘ hwu.idle⟩

theorem run_markTriggered (hfault : w.fault = none) (id : Uuid) (next : String) :
    (ScheduleRepository.markTriggered id (toRfc3339 w.now) next).run w = some (.ok (), { w with
      db := { w.db with
        jobSchedules := Rows.modify JobSchedule.id id (stamp w.now next) w.db.jobSchedules } }) := by
  simp only [ScheduleRepository.markTriggered, Task.run_bind, run_sql hfault, Task.run_pure]
  rfl

theorem enqueue_run {qm : QueueManager} {item : QueueItem} {result : Except AppError Unit} (hidle : w.Idle)
    (hrun : (qm.enqueue item).run w = some (result, u)) :
    u.Idle ∧ u.now = w.now ∧ u.db.jobSchedules = w.db.jobSchedules ∧
      (u.db.jobQueue = w.db.jobQueue ∧ (∃ e, result = .error e) ∨
        u.db.jobQueue ≠ w.db.jobQueue ∧ result = .ok ()) := by
  rcases run_enqueue qm hidle item with ⟨e, herror⟩ | ⟨entry, _, _, _, _, hok⟩
  · rw [herror] at hrun
    cases hrun
    exact ⟨⟨rfl, hidle.fault⟩, rfl, rfl, .inl ⟨rfl, e, rfl⟩⟩
  · rw [hok] at hrun
    cases hrun
    refine ⟨⟨rfl, hidle.fault⟩, rfl, rfl, .inr ⟨fun heq => ?_, rfl⟩⟩
    exact absurd (congrArg List.length heq) (by simp)

/-- A pass either leaves the queue and the schedules, or adds to the queue and stores the next run. -/
theorem trigger_run (hidle : w.Idle) (hrun : (runner.trigger schedule).run w = some (r, u)) :
    r = .ok () ∧ u.Idle ∧ u.now = w.now ∧
      (u.db.jobQueue = w.db.jobQueue ∧ u.db.jobSchedules = w.db.jobSchedules ∨
        u.db.jobQueue ≠ w.db.jobQueue ∧
          u.db.jobSchedules = marked runner.cron schedule w.now w.db.jobSchedules) := by
  have hstop {v : World} (h : Untouched w v) (hend : some (.ok (), v) = some (r, u)) :
      r = .ok () ∧ u.Idle ∧ u.now = w.now ∧
        (u.db.jobQueue = w.db.jobQueue ∧ u.db.jobSchedules = w.db.jobSchedules ∨
          u.db.jobQueue ≠ w.db.jobQueue ∧
            u.db.jobSchedules = marked runner.cron schedule w.now w.db.jobSchedules) := by
    cases hend
    exact ⟨rfl, h.idle hidle, h.now, .inl ⟨h.queue, h.schedules⟩⟩
  obtain ⟨job, v, hjob, hrest⟩ := Task.run_attempt_bind hrun
  have hread := untouched_run ((acts_getJob _).mono fun _ _ _ => Reading.creating) hjob
  cases job with
  | error e =>
      exact hstop hread hrest
  | ok job =>
      dsimp only at hrest
      split at hrest
      · exact hstop hread hrest
      obtain ⟨execution, v', hcreate, hrest⟩ := Task.run_attempt_bind hrest
      have hcreated := (untouched_run (acts_createExecution _ _) hcreate).trans hread
      cases execution with
      | error e =>
          exact hstop hcreated hrest
      | ok execution =>
          obtain ⟨result, q, henqueue, hrest⟩ := Task.run_attempt_bind hrest
          have hafter : q.Idle ∧ q.now = w.now ∧ q.db.jobSchedules = w.db.jobSchedules ∧
              (q.db.jobQueue = w.db.jobQueue ∧ (∃ e, result = .error e) ∨
                q.db.jobQueue ≠ w.db.jobQueue ∧ result = .ok ()) := by
            rw [← hcreated.now, ← hcreated.schedules, ← hcreated.queue]
            exact enqueue_run (hcreated.idle hidle) henqueue
          obtain ⟨hqidle, hnow, hschedules, ⟨hqueue, e, rfl⟩ | ⟨hqueue, rfl⟩⟩ := hafter
          · cases hrest
            exact ⟨rfl, hqidle, hnow, .inl ⟨hqueue, hschedules⟩⟩
          · simp only [Task.run_bind, run_nowRfc3339, run_perform] at hrest
            unfold marked
            rw [← hnow, ← hschedules]
            cases hnext : nextRun runner.cron schedule.cronExpression q.now with
            | none =>
                rw [hnext] at hrest
                cases hrest
                exact ⟨rfl, hqidle, rfl, .inr ⟨hqueue, rfl⟩⟩
            | some next =>
                rw [hnext] at hrest
                simp only [Task.run_bind, Task.run_attempt, run_markTriggered hqidle.fault] at hrest
                cases hrest
                exact ⟨rfl, ⟨hqidle.free, hqidle.fault⟩, rfl, .inr ⟨hqueue, rfl⟩⟩

/-! ### All passes of a tick -/

/-- The same rows have this id. -/
def SameAt (id : Uuid) (rows rows' : List JobSchedule) : Prop := ∀ row, row.id = id → (row ∈ rows ↔ row ∈ rows')

theorem SameAt.trans {id : Uuid} {rows rows' rows'' : List JobSchedule} (h : SameAt id rows rows')
    (h' : SameAt id rows' rows'') : SameAt id rows rows'' := fun row hid => (h row hid).trans (h' row hid)

theorem mem_marked {cron : Cron} {now : DateTime} {next : String} {rows : List JobSchedule} {row : JobSchedule}
    (hnext : nextRun cron schedule.cronExpression now = some next) (hid : row.id = schedule.id) :
    row ∈ marked cron schedule now rows ↔ ∃ old ∈ rows, old.id = schedule.id ∧ stamp now next old = row := by
  simp only [marked, hnext, Rows.mem_modify]
  constructor
  · rintro ⟨old, hold, rfl⟩
    split at hid
    · exact ⟨old, hold, ‹_›, (if_pos ‹_›).symm⟩
    · exact absurd hid ‹_›
  · rintro ⟨old, hold, holdId, rfl⟩
    exact ⟨old, hold, if_pos holdId⟩

theorem SameAt.marked {cron : Cron} {now : DateTime} {rows rows' : List JobSchedule}
    (h : SameAt schedule.id rows rows') :
    SameAt schedule.id (marked cron schedule now rows) (marked cron schedule now rows') := by
  intro row hid
  cases hnext : nextRun cron schedule.cronExpression now with
  | none => simpa only [SchedulerRunner.marked, hnext] using h row hid
  | some next =>
      rw [mem_marked hnext hid, mem_marked hnext hid]
      constructor
      · rintro ⟨old, hold, holdId, rfl⟩
        exact ⟨old, (h old holdId).mp hold, holdId, rfl⟩
      · rintro ⟨old, hold, holdId, rfl⟩
        exact ⟨old, (h old holdId).mpr hold, holdId, rfl⟩

/-- A pass for another schedule leaves the rows with this id. -/
theorem sameAt_marked {cron : Cron} {now : DateTime} {id : Uuid} (hne : id ≠ schedule.id)
    (rows : List JobSchedule) : SameAt id (marked cron schedule now rows) rows := by
  intro row hid
  unfold marked
  split
  · rw [Rows.mem_modify]
    constructor
    · rintro ⟨old, hold, rfl⟩
      split at hid
      · exact absurd (hid.symm.trans ‹_›) hne
      · rwa [if_neg ‹_›]
    · exact fun hrow => ⟨row, hrow, if_neg fun heq => hne (hid.symm.trans heq)⟩
  · rfl

theorem passes_subset (schedules : List JobSchedule) (w : World) :
    ∀ s ∈ runner.passes schedules w, s ∈ schedules := by
  induction schedules generalizing w with
  | nil => exact List.forall_mem_nil _
  | cons first rest ih =>
      intro s hs
      unfold passes at hs
      split at hs
      · split at hs
        · exact List.mem_cons_of_mem first (ih _ s hs)
        · rcases List.mem_cons.mp hs with rfl | hrest
          · exact List.mem_cons_self
          · exact List.mem_cons_of_mem first (ih _ s hrest)
      · cases hs

/-- The passes of a tick leave the schedules they do not concern, and each that adds to the queue stores
the next run of its schedule. -/
theorem forM_run {schedules : List JobSchedule} (hidle : w.Idle)
    (hrun : (schedules.forM runner.trigger).run w = some (r, u)) :
    u.Idle ∧ u.now = w.now ∧
      ((∀ id, id ∉ schedules.map JobSchedule.id → SameAt id u.db.jobSchedules w.db.jobSchedules) ∧
      ((schedules.map JobSchedule.id).Nodup → ∀ s ∈ runner.passes schedules w,
        SameAt s.id u.db.jobSchedules (marked runner.cron s w.now w.db.jobSchedules))) := by
  induction schedules generalizing w with
  | nil =>
      cases hrun
      exact ⟨hidle, rfl, fun _ _ _ _ => Iff.rfl, fun _ => List.forall_mem_nil _⟩
  | cons first rest ih =>
      rcases Task.run_bind_some (f := fun _ => rest.forM runner.trigger) hrun with
        ⟨_, v, hfirst, hrest⟩ | ⟨e, hfirst, _⟩
      · obtain ⟨_, hvidle, hnow, hpass⟩ := trigger_run hidle hfirst
        obtain ⟨huidle, hunow, hframe, hset⟩ := ih hvidle hrest
        have hother : ∀ id, id ≠ first.id → SameAt id v.db.jobSchedules w.db.jobSchedules := by
          intro id hne
          rcases hpass with ⟨_, hsame⟩ | ⟨_, hmarked⟩
          · rw [hsame]
            exact fun _ _ => Iff.rfl
          · rw [hmarked]
            exact sameAt_marked hne _
        refine ⟨huidle, hunow.trans hnow, fun id hid => ?_, fun hnodup s hs => ?_⟩
        · simp only [List.map_cons, List.mem_cons, not_or] at hid
          exact (hframe id hid.2).trans (hother id hid.1)
        · obtain ⟨hfresh, hdistinct⟩ := List.nodup_cons.mp hnodup
          have hlate : s ∈ runner.passes rest v →
              SameAt s.id u.db.jobSchedules (marked runner.cron s w.now w.db.jobSchedules) := by
            intro hmem
            have hne : s.id ≠ first.id := fun heq =>
              hfresh (heq ▸ List.mem_map_of_mem (passes_subset rest v s hmem))
            rw [← hnow]
            exact (hset hdistinct s hmem).trans (hother s.id hne).marked
          simp only [passes, hfirst] at hs
          split at hs
          · exact hlate hs
          · rcases List.mem_cons.mp hs with rfl | hmem
            · rcases hpass with ⟨hsame, _⟩ | ⟨_, hmarked⟩
              · exact absurd hsame ‹_›
              · rw [← hmarked]
                exact hframe s.id hfresh
            · exact hlate hmem
      · exact absurd (trigger_run hidle hfirst).1 (by simp)

theorem tick_run (hidle : w.Idle) (hrun : runner.tick.run w = some (r, u)) :
    ((((w.db.jobSchedules.filter (ScheduleRepository.isDue w.now)).insertionSort
      ScheduleRepository.RunsBefore).forM runner.trigger).run w) = some (r, u) := by
  simpa only [tick, Task.run_bind, ScheduleRepository.run_getDueSchedules hidle.fault] using hrun

theorem forM_ids {schedules : List JobSchedule} (hidle : w.Idle)
    (hrun : (schedules.forM runner.trigger).run w = some (r, u)) :
    u.db.jobSchedules.map JobSchedule.id = w.db.jobSchedules.map JobSchedule.id := by
  induction schedules generalizing w with
  | nil =>
      cases hrun
      rfl
  | cons first rest ih =>
      rcases Task.run_bind_some (f := fun _ => rest.forM runner.trigger) hrun with
        ⟨_, v, hfirst, hrest⟩ | ⟨e, hfirst, _⟩
      · obtain ⟨_, hvidle, _, ⟨_, hsame⟩ | ⟨_, hmarked⟩⟩ := trigger_run hidle hfirst
        · rw [ih hvidle hrest, hsame]
        · rw [ih hvidle hrest, hmarked, marked]
          split
          · rename_i next _
            exact Rows.map_modify (f := stamp w.now next) (fun _ => rfl) _ _
          · rfl
      · exact absurd (trigger_run hidle hfirst).1 (by simp)

theorem Ticked.sound {start : World} (hticked : runner.Ticked start w) (hidle : start.Idle)
    (hids : Rows.Unique JobSchedule.id start.db.jobSchedules) :
    w.Idle ∧ Rows.Unique JobSchedule.id w.db.jobSchedules := by
  induction hticked with
  | start => exact ⟨hidle, hids⟩
  | elsewhere _ hidle' hsame ih => exact ⟨hidle', hsame ▸ ih.2⟩
  | tick _ hrun ih =>
      have hloop := tick_run ih.1 hrun
      refine ⟨(forM_run ih.1 hloop).1, ?_⟩
      rw [Rows.Unique, forM_ids ih.1 hloop]
      exact ih.2

theorem nodup_due {now : DateTime} {rows : List JobSchedule} (hids : Rows.Unique JobSchedule.id rows) :
    (((rows.filter (ScheduleRepository.isDue now)).insertionSort
      ScheduleRepository.RunsBefore).map JobSchedule.id).Nodup := by
  rw [((List.perm_insertionSort _ _).map _).nodup_iff]
  exact hids.sublist (List.filter_sublist.map _)

theorem isDue_of_lt {row : JobSchedule} {now t : DateTime} (hnext : row.nextRunAt = some (toRfc3339 t))
    (hlt : now < t) : ScheduleRepository.isDue now row = false := by
  have hlater : ¬toRfc3339 t ≤ sqliteDatetime now := by
    rw [toRfc3339_le_sqliteDatetime]
    exact fun hbefore => DateTime.not_le.mpr hlt (DateTime.lt_of_date_before hbefore).le
  simp only [ScheduleRepository.isDue, hnext, hlater, decide_false, Bool.and_false]

theorem nextRun_eq_some {cron : Cron} {cronExpression text : String} {now : DateTime} :
    nextRun cron cronExpression now = some text ↔
      ∃ parsed t, cron.fromStr cronExpression = .ok parsed ∧ cron.next parsed now = some t ∧
        text = toRfc3339 t := by
  unfold nextRun
  cases hparse : cron.fromStr cronExpression with
  | error e => simp
  | ok parsed => simp [eq_comm]

/-- After a tick that enqueued an execution for a schedule, the schedule is not due any more, and a tick
before its next occurrence enqueues nothing for it, exactly if its expression has a next occurrence. -/
theorem occurrence_runs_once_iff
    (hcron : ∀ schedule now t, runner.cron.next schedule now = some t → now < t)
    {start w' : World} (hidle : start.Idle) (hids : Rows.Unique JobSchedule.id start.db.jobSchedules)
    (hticked : runner.Ticked start w) (hrun : runner.tick.run w = some (r, w'))
    (henqueued : schedule ∈ runner.enqueuedBy w) :
    ((∀ row ∈ w'.db.jobSchedules, row.id = schedule.id → ScheduleRepository.isDue w.now row = false) ∧
      ∀ v : World, v.db.jobSchedules = w'.db.jobSchedules →
        (∀ parsed t, runner.cron.fromStr schedule.cronExpression = .ok parsed →
          runner.cron.next parsed w.now = some t → v.now < t) →
          ∀ s ∈ runner.enqueuedBy v, s.id ≠ schedule.id) ↔
      (nextRun runner.cron schedule.cronExpression w.now).isSome := by
  obtain ⟨hwidle, hwids⟩ := hticked.sound hidle hids
  obtain ⟨_, _, _, hset⟩ := forM_run hwidle (tick_run hwidle hrun)
  have hsame := hset (nodup_due hwids) schedule henqueued
  obtain ⟨hrow, hdue⟩ := ScheduleRepository.mem_dueSchedules.mp (passes_subset _ _ _ henqueued)
  cases hnext : nextRun runner.cron schedule.cronExpression w.now with
  | none =>
      have hmem : schedule ∈ w'.db.jobSchedules := by
        rw [hsame schedule rfl]
        simpa only [marked, hnext] using hrow
      simp only [Option.isSome_none, Bool.false_eq_true, iff_false, not_and_or]
      exact .inl fun hall => absurd hdue (by rw [hall schedule hmem rfl]; exact Bool.false_ne_true)
  | some next =>
      obtain ⟨parsed, t, hparsed, hoccurs, rfl⟩ := nextRun_eq_some.mp hnext
      have hstored : ∀ row ∈ w'.db.jobSchedules, row.id = schedule.id →
          row.nextRunAt = some (toRfc3339 t) := by
        intro row hrow hid
        obtain ⟨old, _, _, rfl⟩ := (mem_marked hnext hid).mp ((hsame row hid).mp hrow)
        rfl
      simp only [Option.isSome_some, iff_true]
      refine ⟨fun row hrow hid => isDue_of_lt (hstored row hrow hid) (hcron _ _ _ hoccurs), ?_⟩
      intro v hv hlater s hs hid
      obtain ⟨hsrow, hsdue⟩ := ScheduleRepository.mem_dueSchedules.mp (passes_subset _ _ _ hs)
      rw [hv] at hsrow
      have hnot := isDue_of_lt (hstored s hsrow hid) (hlater parsed t hparsed hoccurs)
      rw [hsdue] at hnot
      cases hnot

/-! ### Sample ticks -/

/-- The first instant of a day of January 2026. -/
def january (day : Nat) (hpos : 0 < day) (hle : day ≤ 31) : DateTime :=
  { epoch with date := { epoch.date with year := 2026, day, year_le := by decide, day_pos := hpos, day_le := hle } }

def first : DateTime := january 1 (by decide) (by decide)

def second : DateTime := january 2 (by decide) (by decide)

def third : DateTime := january 3 (by decide) (by decide)

/-- A cron crate whose expressions occur next, on the second day, at this instant. -/
def Cron.sample (next : Option DateTime) : Cron where
  Schedule := Unit
  fromStr _ := .ok ()
  next _ now := if now = second then next else none

def sampleRunner (next : Option DateTime) : SchedulerRunner := ⟨⟨1, 3⟩, Cron.sample next⟩

/-- A schedule of the sample job that was to run on the first day. -/
def sampleSchedule : JobSchedule :=
  ⟨7, 1, "0 0 0 1 1 * 2026", some (toRfc3339 first), none, true, "", ""⟩

/-- The second day. -/
def sampleStart : World :=
  { World.sample 0 [] with db := { (World.sample 0 []).db with jobSchedules := [sampleSchedule] }, now := second }

theorem due_sample {w : World} (hrows : w.db.jobSchedules = [sampleSchedule]) (hnow : w.now = second) :
    (w.db.jobSchedules.filter (ScheduleRepository.isDue w.now)).insertionSort ScheduleRepository.RunsBefore =
      [sampleSchedule] := by
  have hdue : ScheduleRepository.isDue second sampleSchedule = true :=
    (ScheduleRepository.isDue_iff (t := first) rfl rfl second).mpr (.inr ⟨rfl, .inr ⟨rfl, by decide⟩⟩)
  rw [hrows, hnow, List.filter_cons_of_pos hdue]
  rfl

theorem second_lt_third : second < third :=
  DateTime.lt_of_date_before (.inr ⟨rfl, .inr ⟨rfl, by decide⟩⟩)

theorem sample_later (parsed : Unit) (now t : DateTime)
    (h : (Cron.sample (some third)).next parsed now = some t) : now < t := by
  simp only [Cron.sample] at h
  split at h
  · cases h
    rw [‹now = second›]
    exact second_lt_third
  · cases h

theorem enqueuedBy_sample : (sampleRunner (some third)).enqueuedBy sampleStart = [sampleSchedule] := by
  rw [enqueuedBy, due_sample rfl rfl]
  rfl

theorem tick_sample : ∃ w', (sampleRunner (some third)).tick.run sampleStart = some (.ok (), w') := by
  have heval : ((sampleRunner (some third)).tick.run sampleStart).map Prod.fst = some (.ok ()) := by
    rw [tick, Task.run_bind, ScheduleRepository.run_getDueSchedules rfl, due_sample rfl rfl]
    rfl
  obtain ⟨⟨r, w'⟩, hrun, rfl⟩ := Option.map_eq_some_iff.mp heval
  exact ⟨w', hrun⟩

theorem occurrence_runs_once_third :
    ∃ w', (sampleRunner (some third)).tick.run sampleStart = some (.ok (), w') ∧
      (((∀ row ∈ w'.db.jobSchedules, row.id = sampleSchedule.id →
          ScheduleRepository.isDue sampleStart.now row = false) ∧
        ∀ v : World, v.db.jobSchedules = w'.db.jobSchedules →
          (∀ parsed t, (Cron.sample (some third)).fromStr sampleSchedule.cronExpression = .ok parsed →
            (Cron.sample (some third)).next parsed sampleStart.now = some t → v.now < t) →
            ∀ s ∈ (sampleRunner (some third)).enqueuedBy v, s.id ≠ sampleSchedule.id) ↔
        (nextRun (Cron.sample (some third)) sampleSchedule.cronExpression sampleStart.now).isSome) := by
  obtain ⟨w', hrun⟩ := tick_sample
  have hids : Rows.Unique JobSchedule.id sampleStart.db.jobSchedules := List.nodup_singleton _
  refine ⟨w', hrun, occurrence_runs_once_iff sample_later ⟨rfl, rfl⟩ hids .start hrun ?_⟩
  rw [enqueuedBy_sample]
  exact List.mem_singleton.mpr rfl

/-- An expression that has occurred for the last time: two ticks at the same instant enqueue an execution
each. -/
theorem last_occurrence_repeats :
    ∃ w', (sampleRunner none).tick.run sampleStart = some (.ok (), w') ∧
      (sampleRunner none).enqueuedBy sampleStart = [sampleSchedule] ∧
      (sampleRunner none).enqueuedBy w' = [sampleSchedule] := by
  have heval : ((sampleRunner none).tick.run sampleStart).map (fun r =>
      (r.1, r.2.db.jobSchedules, r.2.now, (sampleRunner none).passes [sampleSchedule] r.2)) =
        some (.ok (), [sampleSchedule], second, [sampleSchedule]) := by
    rw [tick, Task.run_bind, ScheduleRepository.run_getDueSchedules rfl, due_sample rfl rfl]
    rfl
  obtain ⟨⟨r, w'⟩, hrun, heq⟩ := Option.map_eq_some_iff.mp heval
  simp only [Prod.mk.injEq] at heq
  obtain ⟨rfl, hrows, hnow, hpasses⟩ := heq
  refine ⟨w', hrun, ?_, ?_⟩
  · rw [enqueuedBy, due_sample rfl rfl]
    rfl
  · rw [enqueuedBy, due_sample hrows hnow]
    exact hpasses

end SchedulerRunner

end Serverust
