import Serverust.Library.UniqueKeys
import Serverust.Proof.ScheduleEdits

/-!
# One schedule for each job

A creation looks for a schedule of its job, and inserts one if there is none. Between the two another
creation may insert one, and no constraint forbids the second. So a job has one schedule as long as no
creation inserts while another one for the job has found none and has yet to insert.
-/

namespace Serverust

namespace OneSchedule

open Calendar Resumption UniqueKeys

variable {cron : Cron}

/-! ### The rules -/

/-- What a creation has found: a job that has no schedule. -/
inductive Tag where
  | creating (found : Option Uuid)
  | deleting
deriving DecidableEq

def Tag.next : Tag → Event → Tag
  | .creating _, .sql (.schedule (.getByJob jobId none)) => .creating (some jobId)
  | .creating _, .sql (.schedule (.create _)) | .creating _, .failed _ | .creating _, .returned => .creating none
  | tag, _ => tag

/-- The job whose schedule the call is going to insert. -/
def Tag.intent : Tag → Intent Uuid Uuid
  | .creating (some jobId) => some (jobId, none)
  | _ => none

/-- What an action may do. -/
inductive Acts : Tag → Event → World → World → Prop
  | aside {tag : Tag} {ev : Event} {u v : World} (hev : ∀ schedule, ev ≠ .sql (.schedule (.create schedule)))
      (hintent : (tag.next ev).intent = tag.intent ∨ (tag.next ev).intent = none)
      (hrows : v.db.jobSchedules.Sublist u.db.jobSchedules) : Acts tag ev u v
  | find {found : Option Uuid} {jobId : Uuid} {u : World}
      (hnone : ∀ row ∈ u.db.jobSchedules, row.jobId ≠ jobId) :
      Acts (.creating found) (.sql (.schedule (.getByJob jobId none))) u u
  | insert {schedule : JobSchedule} {u v : World} (hnew : ∀ row ∈ u.db.jobSchedules, row.id ≠ schedule.id)
      (hrows : v.db.jobSchedules = u.db.jobSchedules ++ [schedule]) :
      Acts (.creating (some schedule.jobId)) (.sql (.schedule (.create schedule))) u v

def protocol : Protocol Event World Tag where
  next := Tag.next
  knows _ _ := True
  grows _ _ := True
  allows := Acts

instance : protocol.Lawful := ⟨fun _ => trivial, fun _ _ => trivial⟩

/-! ### What the tasks do -/

section

variable {α : Type} {tag : Tag} {w : World}

theorem keeps_quiet {act : World → α × World} (hsame : ∀ u, (act u).2.db = u.db) :
    Task.Keeps protocol (fun _ => True) tag (perform (fun _ => .quiet) act) := by
  intro w
  apply obeys_perform
  intro u _ _
  have hnext : tag.next .quiet = tag := by
    cases tag <;> rfl
  refine ⟨.aside (by simp) (.inl (by rw [hnext])) ?_, hnext, trivial, trivial⟩
  rw [hsame]

theorem keeps_nextRunNow (cronExpression : String) :
    Task.Keeps protocol (fun _ => True) tag (ScheduleService.nextRunNow cron cronExpression) := by
  unfold ScheduleService.nextRunNow
  apply (keeps_quiet (fun _ => rfl)).bind
  intro result _
  cases result with
  | ok next => exact .pure trivial
  | error e => exact .throw

/-- A call that has yet to find a job without a schedule, or never inserts. -/
def Tag.Idle (tag : Tag) : Prop := tag = .creating none ∨ tag = .deleting

theorem keeps_statement (htag : tag.Idle) {stmt : Db → α → ScheduleStmt}
    {statement : DateTime → Db → Except SqlError (α × Db)}
    (hstmt : ∀ db value, (∀ schedule, stmt db value ≠ .create schedule) ∧
      (tag = .deleting ∨ ∀ jobId row, stmt db value ≠ .getByJob jobId row))
    (hrows : ∀ now db value db', statement now db = .ok (value, db') →
      db'.jobSchedules.Sublist db.jobSchedules) :
    Task.Keeps protocol (fun _ => True) tag (sql (fun db value => .schedule (stmt db value)) statement) := by
  intro w
  apply obeys_sql
  · intro u value db _ _ hquery
    obtain ⟨hcreate, hfind⟩ := hstmt u.db value
    have hnext : tag.next (.sql (.schedule (stmt u.db value))) = tag := by
      rcases htag with rfl | rfl
      · unfold Tag.next
        split
        · rename_i heq
          simp only [Event.sql.injEq, Stmt.schedule.injEq] at heq
          exact absurd heq (hfind.resolve_left (by simp) _ _)
        · rfl
        · rfl
        · rfl
        · rfl
      · rfl
    refine ⟨.aside ?_ (.inl (by rw [hnext])) (hrows _ _ _ _ (query_ok hquery).2), hnext, trivial, trivial⟩
    intro schedule heq
    exact hcreate schedule (by simpa using heq)
  · intro u e _ _ _
    have hnext : tag.next (.failed e) = tag := by
      rcases htag with rfl | rfl <;> rfl
    exact ⟨.aside (by simp) (.inl (by rw [hnext])) (List.Sublist.refl _), hnext, trivial⟩

theorem keeps_getById (htag : tag.Idle) (id : Uuid) :
    Task.Keeps protocol (fun _ => True) tag (ScheduleRepository.getById id) := by
  unfold ScheduleRepository.getById Serverust.select
  apply Task.Keeps.bind (φ := fun _ => True)
  · apply keeps_statement htag
    · exact fun _ _ => ⟨by simp, .inr (by simp)⟩
    · intro now db value db' h
      cases h
      exact List.Sublist.refl _
  · intro row _
    cases row with
    | none => exact .throw
    | some schedule => exact .pure trivial

theorem keeps_deleteSchedule (jobId : Uuid) :
    Task.Keeps protocol (fun _ => True) .deleting (ScheduleService.deleteSchedule jobId) := by
  have hidle : Tag.Idle .deleting := .inr rfl
  unfold ScheduleService.deleteSchedule ScheduleService.getScheduleByJobId ScheduleRepository.getByJobId
    Serverust.select
  apply Task.Keeps.bind (φ := fun _ => True)
  · apply Task.Keeps.bind (φ := fun _ => True)
    · apply keeps_statement hidle
      · exact fun _ _ => ⟨by simp, .inl rfl⟩
      · intro now db value db' h
        cases h
        exact List.Sublist.refl _
    · intro row _
      cases row with
      | none => exact .throw
      | some schedule => exact .pure trivial
  · intro schedule _
    unfold ScheduleRepository.delete execute
    apply Task.Keeps.bind (φ := fun _ => True)
    · apply keeps_statement hidle
      · exact fun _ _ => ⟨by simp, .inl rfl⟩
      · intro now db value db' h
        cases h
        exact List.filter_sublist
    · intro affected _
      split
      · exact .throw
      · exact .pure trivial

theorem obeys_create (schedule : JobSchedule) :
    Task.Obeys protocol (fun _ _ _ => True) (fun _ _ _ => True) (ScheduleRepository.create schedule)
      (.creating (some schedule.jobId)) w := by
  unfold ScheduleRepository.create
  apply Task.obeys_bind.mpr
  apply obeys_sql
  · intro u value db _ _ hquery
    have hinsert := (query_ok hquery).2
    unfold ScheduleRepository.insertSchedule at hinsert
    split at hinsert
    · cases hinsert
    rename_i hnew
    split at hinsert
    · cases hinsert
    cases hinsert
    refine ⟨.insert (Rows.hits_eq_zero.mp (not_not.mp hnew)) rfl, ?_⟩
    exact (keeps_getById (.inl rfl) schedule.id).obeys.mono (fun _ _ _ _ => trivial) fun _ _ _ _ => trivial
  · exact fun u e _ _ _ => ⟨.aside (by simp) (.inr rfl) (List.Sublist.refl _), trivial⟩

theorem obeys_createSchedule (jobId : Uuid) (req : CreateScheduleRequest) :
    Task.Obeys protocol (fun _ _ _ => True) (fun _ _ _ => True)
      (ScheduleService.createSchedule cron jobId req) (.creating none) w := by
  unfold ScheduleService.createSchedule
  split
  · trivial
  unfold ScheduleRepository.getByJobId Serverust.select
  apply Task.obeys_bind.mpr
  apply obeys_sql
  · intro u row db _ _ hquery
    cases (query_ok hquery).2
    dsimp only
    split
    · rename_i schedule hrow
      rw [hrow]
      exact ⟨.aside (by simp) (.inl rfl) (List.Sublist.refl _), trivial⟩
    · rename_i hnone
      rw [hnone]
      refine ⟨.find (Rows.lookup_eq_none.mp hnone), ?_⟩
      apply (keeps_nextRunNow req.cronExpression).bind_obeys
      · intro nextRun _ _ _
        apply (keeps_quiet (fun _ => rfl)).bind_obeys
        · intro now _ _ _
          apply (keeps_quiet (fun _ => rfl)).bind_obeys
          · exact fun id _ _ _ => obeys_create (JobSchedule.new id jobId _ _ _)
          · exact fun _ _ _ => trivial
        · exact fun _ _ _ => trivial
      · exact fun _ _ _ => trivial
  · exact fun u e _ _ _ => ⟨.aside (by simp) (.inl rfl) (List.Sublist.refl _), trivial⟩

end

/-! ### The pool -/

inductive Call where
  | createSchedule (jobId : Uuid) (req : CreateScheduleRequest)
  | deleteSchedule (jobId : Uuid)

def Call.task (cron : Cron) : Call → Async Unit
  | .createSchedule jobId req => do let _ ← ScheduleService.createSchedule cron jobId req
  | .deleteSchedule jobId => ScheduleService.deleteSchedule jobId

def Call.tag : Call → Tag
  | .createSchedule .. => .creating none
  | .deleteSchedule _ => .deleting

/-- Anything else may happen to the rest of the state. -/
def system (cron : Cron) : System Event World Tag Call World where
  next := Tag.next
  spawn call w := some (w, ⟨call.tag, (call.task cron).detached .returned⟩)
  env := ScheduleEdits.elsewhere

/-- A creation inserts the schedule of a job only while no other creation has found the job without one. -/
def Good (c : Config Event World Tag) (i : Nat) (ev : Event) : Prop :=
  ∀ schedule, ev = .sql (.schedule (.create schedule)) →
    ∀ j, j ≠ i → c.tags[j]? ≠ some (.creating (some schedule.jobId))

/-- The ids and the jobs are distinct, and a job that a creation has found to have no schedule has none. -/
abbrev Kept (w : World) (tags : List Tag) : Prop :=
  Settled JobSchedule.id JobSchedule.jobId w.db.jobSchedules (tags.map Tag.intent)

theorem Tag.intent_eq_some {tag : Tag} {jobId : Uuid} {owner : Option Uuid}
    (h : tag.intent = some (jobId, owner)) : tag = .creating (some jobId) := by
  unfold Tag.intent at h
  split at h
  · cases h
    rfl
  · cases h

/-- What an action does to schedules that are settled. -/
theorem Kept.step {c : Config Event World Tag} {i : Nat} {tag : Tag} {ev : Event} {w : World}
    (h : Kept c.world c.tags) (htag : c.tags[i]? = some tag) (hgood : Good c i ev)
    (hacts : Acts tag ev c.world w) : Kept w (c.tags.set i (tag.next ev)) := by
  have hintent : (c.tags.map Tag.intent)[i]? = some tag.intent := by
    rw [List.getElem?_map, htag]
    rfl
  unfold Kept
  rw [List.map_set]
  cases hacts with
  | aside _ hnext hrows =>
      apply (h.sublist hrows).intend
      intro jobId owner heq
      rcases hnext with hsame | hnone
      · apply Free.sublist _ hrows
        exact h.free jobId owner (List.mem_of_getElem? (hintent.trans (congrArg some (hsame.symm.trans heq))))
      · rw [hnone] at heq
        cases heq
  | find hnone =>
      apply h.intend
      intro jobId owner heq row hrow hjob
      cases heq
      exact absurd hjob (hnone row hrow)
  | insert hnew hrows =>
      rw [hrows]
      apply h.insert hintent hnew
      intro j owner hj hother
      rw [List.getElem?_map] at hother
      obtain ⟨other, hget, heq⟩ := Option.map_eq_some_iff.mp hother
      exact absurd (hget.trans (congrArg some (Tag.intent_eq_some heq))) (hgood _ rfl j hj)

theorem obeys_thread (call : Call) (w : World) :
    protocol.Obeys (fun _ _ _ => True) ((call.task cron).detached .returned) call.tag w := by
  have htask : Task.Obeys protocol (fun _ _ _ => True) (fun _ _ _ => True) (call.task cron) call.tag w := by
    cases call with
    | createSchedule jobId req =>
        apply Task.obeys_bind.mpr
        exact (obeys_createSchedule jobId req).mono (fun _ _ _ _ => trivial) fun _ _ _ _ => trivial
    | deleteSchedule jobId =>
        exact (keeps_deleteSchedule jobId).obeys.mono (fun _ _ _ _ => trivial) fun _ _ _ _ => trivial
  have hreturn (tag : Tag) (u : World) : Acts tag .returned u u := by
    refine .aside (by simp) ?_ (List.Sublist.refl _)
    cases tag with
    | creating found => exact .inr rfl
    | deleting => exact .inl rfl
  exact htask.detached (fun _ _ _ _ _ _ _ => hreturn _ _) fun _ _ _ _ _ _ _ => hreturn _ _

theorem sound_kept (cron : Cron) : Sound (system cron) protocol Good fun w tags _ => Kept w tags where
  next := rfl
  knows _ _ := trivial
  run h htag hgood hacts := ⟨h.step htag hgood hacts, trivial⟩
  spawn {w ts _ call _ _} h hspawn := by
    cases hspawn
    refine ⟨?_, trivial, obeys_thread call w⟩
    show Settled _ _ _ ((ts ++ [call.tag]).map Tag.intent)
    rw [List.map_append]
    cases call with
    | createSchedule jobId req => exact h.start
    | deleteSchedule jobId => exact h.start
  env _ h := ⟨h, trivial⟩

/-- In every run in which no creation inserts while another has found the same job without a schedule, no
job has two schedules, and at no time does a tick select two schedules of one job. -/
theorem one_schedule (cron : Cron) {w : World} {c : Config Event World Tag}
    (hids : Rows.Unique JobSchedule.id w.db.jobSchedules)
    (hjobs : Rows.Unique JobSchedule.jobId w.db.jobSchedules) (hrun : (system cron).Run Good ⟨w, [], []⟩ c) :
    Rows.Unique JobSchedule.jobId c.world.db.jobSchedules ∧
      ∀ now, Rows.Unique JobSchedule.jobId ((c.world.db.jobSchedules.filter
        (ScheduleRepository.isDue now)).insertionSort ScheduleRepository.RunsBefore) := by
  have hstart : Kept w [] := ⟨hids, hjobs, fun _ _ h => absurd h List.not_mem_nil⟩
  have hkept := ((sound_kept cron).invariant hrun ⟨hstart, fun _ hth => absurd hth List.not_mem_nil⟩).1
  refine ⟨hkept.keys, ?_⟩
  intro now
  have hdue : Rows.Unique JobSchedule.jobId
      (c.world.db.jobSchedules.filter (ScheduleRepository.isDue now)) :=
    hkept.keys.sublist (List.filter_sublist.map _)
  exact (((List.perm_insertionSort _ _).map _).nodup_iff).mpr hdue

/-! ### Two creations at once -/

/-- `Good` as a test. -/
def check (c : Config Event World Tag) (i : Nat) (ev : Event) : Bool :=
  match ev with
  | .sql (.schedule (.create schedule)) =>
      (List.range c.tags.length).all fun j => j == i || c.tags[j]? != some (.creating (some schedule.jobId))
  | _ => true

theorem good_of_check {c : Config Event World Tag} {i : Nat} {ev : Event} (h : check c i ev = true) :
    Good c i ev := by
  rintro schedule rfl j hj hget
  have hlength : j < c.tags.length := (List.getElem?_eq_some_iff.mp hget).choose
  have hother := List.all_eq_true.mp h j (List.mem_range.mpr hlength)
  simp [hj, hget] at hother

/-- The sample job on the second day, without a schedule. -/
def unscheduled : World := { World.sample 0 [] with now := SchedulerRunner.second }

def sampleCron : Cron := SchedulerRunner.Cron.sample (some SchedulerRunner.third)

def create : Call := .createSchedule 1 ⟨"0 0 0 3 1 * 2026"⟩

/-- A creation, one that is refused, a deletion, and a creation. -/
def oneByOne : List (Choice Call World) :=
  .spawn create :: List.replicate 7 (.run 0) ++ .spawn create :: List.replicate 2 (.run 1) ++
    .spawn (.deleteSchedule 1) :: List.replicate 3 (.run 2) ++ .spawn create :: List.replicate 7 (.run 3)

/-- Both creations look for a schedule before either inserts one. -/
def atOnce : List (Choice Call World) :=
  [.spawn create, .spawn create, .run 0, .run 1] ++ List.replicate 4 (.run 0) ++ List.replicate 4 (.run 1)

theorem one_schedule_oneByOne : ∃ c, (system sampleCron).Run Good ⟨unscheduled, [], []⟩ c ∧
    c.world.db.jobSchedules.map JobSchedule.id = [1001] ∧
      (Rows.Unique JobSchedule.jobId c.world.db.jobSchedules ∧
        ∀ now, Rows.Unique JobSchedule.jobId ((c.world.db.jobSchedules.filter
          (ScheduleRepository.isDue now)).insertionSort ScheduleRepository.RunsBefore)) := by
  have hexec : ((system sampleCron).exec check oneByOne ⟨unscheduled, [], []⟩).map
      (fun c => c.world.db.jobSchedules.map JobSchedule.id) = some [1001] := rfl
  obtain ⟨c, hc, hrows⟩ := Option.map_eq_some_iff.mp hexec
  have hrun := System.run_of_exec (fun _ _ _ => good_of_check) hc
  have hnone (column : JobSchedule → Uuid) : Rows.Unique column unscheduled.db.jobSchedules := List.nodup_nil
  exact ⟨c, hrun, hrows, one_schedule sampleCron (hnone _) (hnone _) hrun⟩

/-- The job has two schedules, and a tick on the fourth day selects both. -/
theorem two_schedules : ¬ ∀ c, (system sampleCron).Reaches ⟨unscheduled, [], []⟩ c →
    Rows.Unique JobSchedule.jobId c.world.db.jobSchedules ∨
      ∀ now, Rows.Unique JobSchedule.jobId ((c.world.db.jobSchedules.filter
        (ScheduleRepository.isDue now)).insertionSort ScheduleRepository.RunsBefore) := by
  intro hunique
  have hexec : ((system sampleCron).exec (fun _ _ _ => true) atOnce ⟨unscheduled, [], []⟩).map
      (fun c => c.world.db.jobSchedules.map fun row => (row.jobId, row.enabled, row.nextRunAt)) =
        some (List.replicate 2 (1, true, some (toRfc3339 SchedulerRunner.third))) := rfl
  obtain ⟨c, hc, hrows⟩ := Option.map_eq_some_iff.mp hexec
  have hjobs : c.world.db.jobSchedules.map JobSchedule.jobId = [1, 1] := by
    have hmap := congrArg (List.map Prod.fst) hrows
    rwa [List.map_map] at hmap
  have hdue (row : JobSchedule) (hrow : row ∈ c.world.db.jobSchedules) :
      ScheduleRepository.isDue ScheduleEdits.fourth row = true := by
    have hmem := List.mem_map_of_mem (f := fun row => (row.jobId, row.enabled, row.nextRunAt)) hrow
    rw [hrows] at hmem
    have heq := List.eq_of_mem_replicate hmem
    simp only [Prod.mk.injEq] at heq
    obtain ⟨-, henabled, hnext⟩ := heq
    exact (ScheduleRepository.isDue_iff henabled hnext _).mpr (.inr ⟨rfl, .inr ⟨rfl, by decide⟩⟩)
  have htwice : ¬ Rows.Unique JobSchedule.jobId c.world.db.jobSchedules := by
    unfold Rows.Unique
    rw [hjobs]
    decide
  rcases hunique c (System.reaches_of_exec hc) with hstored | hselected
  · exact htwice hstored
  · have hall := List.filter_eq_self.mpr hdue
    have hfourth := hselected ScheduleEdits.fourth
    rw [hall] at hfourth
    exact htwice ((((List.perm_insertionSort _ _).map _).nodup_iff).mp hfourth)

end OneSchedule

end Serverust
