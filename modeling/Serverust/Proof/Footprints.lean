import Serverust.Proof.Background

/-!
# Footprints

What the actions of a function may change, stated once for each function. A footprint serves both a
function that runs alone, whose state it relates from start to end, and one that is interleaved.
-/

namespace Serverust

open Calendar Resumption

variable {α : Type} {R : World → Event → World → Prop}

/-! ### Kinds of actions -/

/-- A read of executions or jobs, or an action nobody else sees. -/
structure Reading (u : World) (ev : Event) (v : World) : Prop where
  event : ev.Background
  same : ∃ nextUuid, v = { u with nextUuid }

/-- Reads, and inserts of executions of stored jobs. -/
inductive Inserting (u : World) : Event → World → Prop
  | reading {ev : Event} {v : World} (h : Reading u ev v) : Inserting u ev v
  | insert (x : Execution) (hnew : ∀ y ∈ u.db.executions, y.id ≠ x.id) (hjob : ∃ job ∈ u.db.jobs, job.id = x.jobId) :
      Inserting u (.sql (.createExecution x))
        { u with db := { u.db with executions := u.db.executions ++ [x] } }

/-- Reads, inserts of executions of stored jobs, and writes of jobs. -/
inductive Creating (u : World) : Event → World → Prop
  | inserting {ev : Event} {v : World} (h : Inserting u ev v) : Creating u ev v
  | update (job : Job) : Creating u (.sql (.updateJob job))
      { u with db := { u.db with jobs := Rows.modify Job.id job.id job.over u.db.jobs } }

/-- Events of an enqueue. -/
def Event.Entering : Event → Prop
  | .quiet | .failed _ | .lock | .unlock | .push _ | .sql (.enqueue _) => True
  | _ => False

/-- Actions of an enqueue. -/
structure Queueing (u : World) (ev : Event) (v : World) : Prop where
  event : ev.Entering
  same : ∃ jobQueue memoryQueue locked nextUuid,
    v = { u with db := { u.db with jobQueue }, memoryQueue, locked, nextUuid }

/-- Events that deliver no item, queue no row again, and end no worker's turn. -/
def Event.Passing : Event → Prop
  | .dequeued (some _) | .sql (.requeue ..) | .released _ => False
  | _ => True

/-- Actions on the queue with such events. -/
structure Taking (u : World) (ev : Event) (v : World) : Prop where
  same : ∃ jobQueue memoryQueue locked spawned nextUuid,
    v = { u with db := { u.db with jobQueue }, memoryQueue, locked, spawned, nextUuid }
  passing : ev.Passing

namespace Inserting

variable {u v : World} {ev : Event}

theorem event (h : Inserting u ev v) : ev.Background ∨ ∃ x, ev = .sql (.createExecution x) := by
  cases h with
  | reading h => exact .inl h.event
  | insert x _ _ => exact .inr ⟨x, rfl⟩

theorem same (h : Inserting u ev v) :
    ∃ executions nextUuid, v = { u with db := { u.db with executions }, nextUuid } := by
  cases h with
  | reading h =>
      obtain ⟨nextUuid, rfl⟩ := h.same
      exact ⟨_, nextUuid, rfl⟩
  | insert x _ _ => exact ⟨_, u.nextUuid, rfl⟩

end Inserting

namespace Creating

variable {u v : World} {ev : Event}

theorem event (h : Creating u ev v) :
    ev.Background ∨ (∃ job, ev = .sql (.updateJob job)) ∨ ∃ x, ev = .sql (.createExecution x) := by
  cases h with
  | inserting h => exact h.event.imp_right .inr
  | update job => exact .inr (.inl ⟨job, rfl⟩)

theorem same (h : Creating u ev v) : ∃ jobs executions nextUuid,
    v = { u with db := { u.db with jobs := jobs, executions := executions }, nextUuid } := by
  cases h with
  | inserting h =>
      obtain ⟨executions, nextUuid, rfl⟩ := h.same
      exact ⟨_, executions, nextUuid, rfl⟩
  | update job => exact ⟨_, _, u.nextUuid, rfl⟩

end Creating

theorem Reading.inserting {u v : World} {ev : Event} (h : Reading u ev v) : Inserting u ev v := .reading h

theorem Reading.creating {u v : World} {ev : Event} (h : Reading u ev v) : Creating u ev v :=
  .inserting (.reading h)

/-! ### One action -/

theorem acts_sql {stmt : Db → α → Stmt} {statement : DateTime → Db → Except SqlError (α × Db)}
    {mapErr : SqlError → AppError}
    (hok : ∀ w value db, statement w.now w.db = .ok (value, db) →
      R w (.sql (stmt w.db value)) { w with db }) (herr : ∀ w e, R w (.failed e) w) :
    (sql stmt statement mapErr).Acts R := by
  refine .action fun w => ?_
  cases hquery : w.query statement with
  | ok r => exact hok w r.1 r.2 (query_ok hquery).2
  | error e => exact herr w e

theorem acts_select {stmt : α → Stmt} {read : Db → α} (hok : ∀ w, R w (.sql (stmt (read w.db))) w)
    (herr : ∀ w e, R w (.failed e) w) : (select stmt read).Acts R := by
  refine acts_sql (fun w value db h => ?_) herr
  cases h
  exact hok w

theorem acts_okOr (value : Option α) (e : AppError) : (okOr value e).Acts R := by
  cases value with
  | some a => exact .pure a
  | none => exact .throw e

theorem Reading.failed (w : World) (e : SqlError) : Reading w (.failed e) w := ⟨trivial, w.nextUuid, rfl⟩

theorem acts_nowRfc3339 : nowRfc3339.Acts Reading := .action fun w => ⟨trivial, w.nextUuid, rfl⟩

theorem acts_newV4 : newV4.Acts Reading := .action fun _ => ⟨trivial, _, rfl⟩

/-! ### Functions -/

theorem acts_getJob (id : Uuid) : (JobRepository.getById id).Acts Reading :=
  (acts_select (fun w => ⟨trivial, w.nextUuid, rfl⟩) Reading.failed).bind fun _ => acts_okOr _ _

theorem acts_getExecution (id : Uuid) : (ExecutionRepository.getById id).Acts Reading :=
  (acts_select (fun w => ⟨trivial, w.nextUuid, rfl⟩) Reading.failed).bind fun _ => acts_okOr _ _

theorem acts_updateJob (job : Job) : (JobRepository.update job).Acts Creating := by
  apply Task.Acts.bind (acts_sql ?_ fun w e => (Reading.failed w e).creating)
  · intro affected
    split
    · exact .throw _
    · exact (acts_getJob job.id).mono fun _ _ _ => Reading.creating
  · intro w value db h
    obtain ⟨-, rfl⟩ := JobRepository.writeJob_ok h
    exact .update job

theorem acts_create (execution : Execution) : (ExecutionRepository.create execution).Acts Inserting := by
  apply Task.Acts.bind (acts_sql ?_ fun w e => (Reading.failed w e).inserting)
  · exact fun _ => (acts_getExecution execution.id).mono fun _ _ _ => Reading.inserting
  · intro w value db h
    unfold ExecutionRepository.insertExecution at h
    split at h
    · cases h
    rename_i hnew
    split at h
    · cases h
    rename_i hjob
    cases h
    exact .insert execution (Rows.hits_eq_zero.mp (not_not.mp hnew)) (Rows.hits_ne_zero.mp hjob)

/-- The part of `create_execution` after its job is enabled. -/
theorem acts_insertNew (jobId : Uuid) (inputData : Option String) : Task.Acts Inserting (do
    let now ← nowRfc3339
    let id ← newV4
    ExecutionRepository.create (.new id jobId inputData now)) :=
  (acts_nowRfc3339.mono fun _ _ _ => Reading.inserting).bind fun _ =>
    (acts_newV4.mono fun _ _ _ => Reading.inserting).bind fun _ => acts_create _

theorem acts_createExecution (jobId : Uuid) (inputData : Option String) :
    (ExecutionService.createExecution jobId inputData).Acts Creating := by
  have hnow : nowRfc3339.Acts Creating := acts_nowRfc3339.mono fun _ _ _ => Reading.creating
  have hrest := (acts_insertNew jobId inputData).mono fun _ _ _ => Creating.inserting
  refine ((acts_getJob jobId).mono fun _ _ _ => Reading.creating).bind fun job => ?_
  split
  · exact hnow.bind fun _ => (acts_updateJob _).bind fun _ => hrest
  · exact hrest

theorem acts_withLock {done : Except AppError α → Event} {body : Async α}
    (hlock : ∀ u : World, R u .lock { u with locked := true })
    (hdone : ∀ (u : World) r, R u (done r) { u with locked := false }) (hbody : body.Acts R) :
    (withLock done body).Acts R := by
  have hacquire : lock.Acts R := fun w => ⟨hlock w, trivial⟩
  refine hacquire.bind fun _ => hbody.attempt.bind fun result => ?_
  have hrelease : (release (done result)).Acts R := .action fun w => hdone w result
  refine hrelease.bind fun _ => ?_
  cases result with
  | ok value => exact .pure value
  | error e => exact .throw e

theorem acts_pushIfRoom (qm : QueueManager) (item : QueueItem) : (qm.pushIfRoom item).Acts Queueing := by
  have hlen : queueLen.Acts Queueing := .action fun w => ⟨trivial, _, _, _, w.nextUuid, rfl⟩
  refine hlen.bind fun len => ?_
  split
  · exact .action fun w => ⟨trivial, _, _, _, w.nextUuid, rfl⟩
  · exact .pure ()

theorem acts_enqueue (qm : QueueManager) (item : QueueItem) : (qm.enqueue item).Acts Queueing := by
  have hid : newV4.Acts Queueing := .action fun w => ⟨trivial, _, _, _, w.nextUuid + 1, rfl⟩
  have hnow : nowRfc3339.Acts Queueing := .action fun w => ⟨trivial, _, _, _, w.nextUuid, rfl⟩
  refine acts_withLock (fun w => ⟨trivial, _, _, true, w.nextUuid, rfl⟩)
    (fun w _ => ⟨trivial, _, _, false, w.nextUuid, rfl⟩) (hid.bind fun id => hnow.bind fun now => ?_)
  have hinsert (entry : QueueEntry) : (QueueRepository.enqueue entry).Acts Queueing := by
    apply Task.Acts.bind (acts_sql ?_ fun w e => ⟨trivial, _, _, _, w.nextUuid, rfl⟩)
    · exact fun _ => .pure entry
    · intro w value db h
      cases (insertEntry_ok h).1
      exact ⟨trivial, _, _, _, w.nextUuid, rfl⟩
  exact (hinsert _).bind fun _ => acts_pushIfRoom qm item

/-! ### Operations of the queue, in parts -/

theorem Event.Background.passing {ev : Event} (h : ev.Background) : ev.Passing := by
  unfold Event.Passing
  split
  · exact h
  · exact h
  · exact h
  · trivial

theorem Event.Entering.passing {ev : Event} (h : ev.Entering) : ev.Passing := by
  unfold Event.Passing
  split
  · exact h
  · exact h
  · exact h
  · trivial

theorem Taking.of_reading {u v : World} {ev : Event} (h : Reading u ev v) : Taking u ev v := by
  obtain ⟨nextUuid, rfl⟩ := h.same
  exact ⟨⟨_, _, _, _, nextUuid, rfl⟩, h.event.passing⟩

theorem Taking.of_queueing {u v : World} {ev : Event} (h : Queueing u ev v) : Taking u ev v := by
  obtain ⟨_, _, _, nextUuid, rfl⟩ := h.same
  exact ⟨⟨_, _, _, _, nextUuid, rfl⟩, h.event.passing⟩

theorem acts_taking {event : World → Event} {act : World → α × World}
    (hsame : ∀ u, ∃ memoryQueue locked spawned, (act u).2 = { u with memoryQueue, locked, spawned })
    (hpassing : ∀ u, (event u).Passing) : (perform event act).Acts Taking := by
  refine .action fun u => ⟨?_, hpassing u⟩
  obtain ⟨memoryQueue, locked, spawned, heq⟩ := hsame u
  exact ⟨_, memoryQueue, locked, spawned, u.nextUuid, heq⟩

theorem acts_entry {stmt : Db → α → Stmt} {statement : DateTime → Db → Except SqlError (α × Db)}
    {mapErr : SqlError → AppError} (hpassing : ∀ db value, (Event.sql (stmt db value)).Passing)
    (hkeep : ∀ now db value db', statement now db = .ok (value, db') → ∃ rows, db' = { db with jobQueue := rows }) :
    (sql stmt statement mapErr).Acts Taking := by
  apply acts_sql
  · intro w value db h
    obtain ⟨rows, rfl⟩ := hkeep _ _ _ _ h
    exact ⟨⟨rows, _, _, _, w.nextUuid, rfl⟩, hpassing w.db value⟩
  · exact fun w e => .of_reading (.failed w e)

theorem acts_updateEntry (entry : QueueEntry) : (QueueRepository.update entry).Acts Taking := by
  apply (acts_entry (fun _ _ => by trivial) ?_).bind fun _ => .pure _
  intro now db value db' heq
  cases heq
  exact ⟨_, rfl⟩

theorem acts_getByExecution (executionId : Uuid) : (QueueRepository.getByExecution executionId).Acts Taking :=
  acts_select (fun w => ⟨⟨_, _, _, _, w.nextUuid, rfl⟩, by trivial⟩) fun w e => .of_reading (.failed w e)

theorem acts_markEntry (mark : QueueEntry → String → QueueEntry) (executionId : Uuid) :
    (QueueManager.markEntry mark executionId).Acts Taking := by
  apply (acts_getByExecution executionId).bind
  rintro (_ | entry)
  · exact .pure _
  · exact (acts_nowRfc3339.mono fun _ _ _ => Taking.of_reading).bind fun now =>
      (acts_updateEntry _).bind fun _ => .pure _

theorem acts_markFailedWithRetry (qm : QueueManager) (executionId : Uuid) (retryCount : Int) (maxRetries : Option Int) :
    (qm.markFailedWithRetry executionId retryCount maxRetries).Acts Taking := by
  have hdead : (QueueManager.moveToDeadLetter executionId >>= fun _ => pure false).Acts Taking :=
    (acts_markEntry _ executionId).bind fun _ => .pure _
  have hspawn (task : RequeueTask) : (spawnRequeue task).Acts Taking :=
    acts_taking (fun u => ⟨u.memoryQueue, u.locked, _, rfl⟩) fun _ => trivial
  unfold QueueManager.markFailedWithRetry
  dsimp only
  split
  · apply (acts_getByExecution executionId).bind
    rintro (_ | entry)
    · exact hdead
    · exact (hspawn _).bind fun _ => .pure _
  · exact hdead

theorem acts_fetchItem (executionId : Uuid) (priority : Job → Int) :
    (QueueManager.fetchItem executionId priority).Acts Taking := by
  refine Task.Acts.mono ?_ fun _ _ _ => Taking.of_reading
  apply (acts_getExecution executionId).attempt.bind
  rintro (_ | x)
  · exact .pure _
  · apply (acts_getJob x.jobId).attempt.bind
    rintro (_ | job) <;> exact .pure _

theorem acts_dequeueOverflow : QueueManager.dequeueOverflow.Acts Taking := by
  have htake : QueueRepository.dequeueAtomic.Acts Taking := by
    apply acts_entry fun _ _ => by trivial
    intro now db value db' heq
    cases heq
    exact ⟨_, rfl⟩
  apply htake.bind
  rintro (_ | entry)
  · exact .pure _
  · apply (acts_fetchItem _ _).bind
    rintro (_ | item)
    · exact (acts_nowRfc3339.mono fun _ _ _ => Taking.of_reading).bind fun now =>
        (acts_updateEntry _).bind fun _ => .pure _
    · exact .pure _

/-- What a dequeue does while it holds the mutex. -/
theorem acts_take {f : Option QueueItem → Async (Option QueueItem)}
    (hsome : ∀ item, f (some item) = do
      QueueManager.markEntry .markProcessing item.executionId
      return some item)
    (hnone : f none = QueueManager.dequeueOverflow) : (queuePop >>= f).Acts Taking := by
  have hpop : queuePop.Acts Taking := acts_taking (fun u => ⟨_, _, u.spawned, rfl⟩) fun _ => trivial
  apply hpop.bind
  intro item
  cases item with
  | none =>
      rw [hnone]
      exact acts_dequeueOverflow
  | some item =>
      rw [hsome]
      exact (acts_markEntry _ _).bind fun _ => .pure _

end Serverust
