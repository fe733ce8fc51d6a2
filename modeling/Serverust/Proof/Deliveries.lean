import Serverust.Library.Advance
import Serverust.Library.Pool
import Serverust.Model.Api
import Serverust.Proof.Drain
import Serverust.Proof.Footprints

/-!
# Where the items of the queue come from

Four callers queue executions, and five paths deliver them. Each of them builds its item from rows it
has read, so every task is tagged with what it was asked for and with all it has done; its log is the
evidence for the rows that it queues and the items that it pushes or returns.
-/

namespace Serverust

namespace Deliveries

open Calendar Resumption

/-! ### Tags -/

/-- What a task was asked for: an execution, perhaps at some priority; to queue an execution again; or
anything else. -/
inductive Origin where
  | request (priority : Option Int)
  | requeue (executionId : Uuid)
  | other

/-- The priority of an execution that a task creates for this job. -/
def Origin.priority (job : Job) : Origin → Int
  | .request priority => priority.getD 0
  | _ => job.priority

/-- What a task was asked for, and its events, the last one first. -/
structure Tag where
  origin : Origin
  log : List Event

def Tag.next (t : Tag) (ev : Event) : Tag := { t with log := ev :: t.log }

/-- A tag of the same task, at that time or later. -/
structure Tag.Later (t t' : Tag) : Prop where
  origin : t'.origin = t.origin
  log : ∀ ev ∈ t.log, ev ∈ t'.log

instance : Preorder Tag where
  le := Tag.Later
  le_refl _ := ⟨rfl, fun _ h => h⟩
  le_trans _ _ _ h h' := ⟨h'.origin.trans h.origin, fun ev hev => h'.log ev (h.log ev hev)⟩

/-- The rows of the queue that an event has read. -/
def entriesOf : Event → List QueueEntry
  | .sql (.getByExecution _ row) | .sql (.dequeueAtomic row) => row.toList
  | .sql (.getAllQueued rows) => rows
  | _ => []

namespace Tag

variable (t : Tag)

def ReadEntry (entry : QueueEntry) : Prop := ∃ ev ∈ t.log, entry ∈ entriesOf ev

def ReadExecution (x : Execution) : Prop := ∃ id, .sql (.getExecution id (some x)) ∈ t.log

def ReadJob (job : Job) : Prop := ∃ id, .sql (.getJob id (some job)) ∈ t.log

def Created (x : Execution) : Prop := .sql (.createExecution x) ∈ t.log

def Popped (item : QueueItem) : Prop := .pop (some item) ∈ t.log

/-- The item of an execution that the task has created. -/
def Makes (item : QueueItem) : Prop := ∃ made x job, t.Created made ∧ t.ReadExecution x ∧ x.id = made.id ∧
  t.ReadJob job ∧ (job.id = made.jobId ∨ job.id = x.jobId) ∧ item = .new x job (t.origin.priority job)

/-- The rows of an execution and its job. -/
structure Finds (executionId : Uuid) (x : Execution) (job : Job) : Prop where
  execution : t.ReadExecution x
  executionId : x.id = executionId
  readJob : t.ReadJob job
  jobId : job.id = x.jobId

/-- The item of a row of the queue. -/
def Rebuilds (item : QueueItem) : Prop := ∃ entry x job, t.ReadEntry entry ∧ t.Finds entry.executionId x job ∧
  item = .new x job entry.priority

/-- The item of an execution that is queued again. -/
def Repeats (item : QueueItem) : Prop := ∃ executionId x job, t.origin = .requeue executionId ∧
  t.Finds executionId x job ∧ item = .new x job job.priority

/-- An item that the task may push. -/
def Pushes (item : QueueItem) : Prop := t.Makes item ∨ t.Rebuilds item ∨ t.Repeats item

variable {t} {t' : Tag} {entry : QueueEntry} {x : Execution} {job : Job} {item : QueueItem} {executionId : Uuid}

theorem ReadEntry.mono (h : t.ReadEntry entry) (hle : t ≤ t') : t'.ReadEntry entry := by
  obtain ⟨ev, hev, hentry⟩ := h
  exact ⟨ev, hle.log ev hev, hentry⟩

theorem ReadExecution.mono (h : t.ReadExecution x) (hle : t ≤ t') : t'.ReadExecution x := by
  obtain ⟨id, hev⟩ := h
  exact ⟨id, hle.log _ hev⟩

theorem ReadJob.mono (h : t.ReadJob job) (hle : t ≤ t') : t'.ReadJob job := by
  obtain ⟨id, hev⟩ := h
  exact ⟨id, hle.log _ hev⟩

theorem Created.mono (h : t.Created x) (hle : t ≤ t') : t'.Created x := hle.log _ h

theorem Popped.mono (h : t.Popped item) (hle : t ≤ t') : t'.Popped item := hle.log _ h

theorem Finds.mono (h : t.Finds executionId x job) (hle : t ≤ t') : t'.Finds executionId x job :=
  ⟨h.execution.mono hle, h.executionId, h.readJob.mono hle, h.jobId⟩

theorem Makes.mono (h : t.Makes item) (hle : t ≤ t') : t'.Makes item := by
  obtain ⟨made, x, job, hmade, hx, hid, hjob, hof, rfl⟩ := h
  refine ⟨made, x, job, hmade.mono hle, hx.mono hle, hid, hjob.mono hle, hof, ?_⟩
  rw [hle.origin]

theorem Rebuilds.mono (h : t.Rebuilds item) (hle : t ≤ t') : t'.Rebuilds item := by
  obtain ⟨entry, x, job, hentry, hfinds, rfl⟩ := h
  exact ⟨entry, x, job, hentry.mono hle, hfinds.mono hle, rfl⟩

theorem Repeats.mono (h : t.Repeats item) (hle : t ≤ t') : t'.Repeats item := by
  obtain ⟨executionId, x, job, horigin, hfinds, rfl⟩ := h
  exact ⟨executionId, x, job, hle.origin.trans horigin, hfinds.mono hle, rfl⟩

theorem Pushes.mono (h : t.Pushes item) (hle : t ≤ t') : t'.Pushes item := by
  rcases h with h | h | h
  · exact .inl (h.mono hle)
  · exact .inr (.inl (h.mono hle))
  · exact .inr (.inr (h.mono hle))

theorem le_next (t : Tag) (ev : Event) : t ≤ t.next ev := ⟨rfl, fun _ h => List.mem_cons_of_mem ev h⟩

end Tag

/-! ### The rules -/

/-- What the item of an execution takes from its row, and what no write changes. -/
def identity (x : Execution) : Uuid × Uuid × Option String := (x.id, x.jobId, x.inputData)

/-- Nothing is added to what is queued, and no row of the executions or jobs changes in what matters. -/
structure Fades (u v : World) : Prop where
  jobs : v.db.jobs = u.db.jobs
  executions : v.db.executions.map identity = u.db.executions.map identity
  entries : ∀ row ∈ v.db.jobQueue, ∃ old ∈ u.db.jobQueue, old.ticket = row.ticket
  items : ∀ item ∈ v.memoryQueue.items, item ∈ u.memoryQueue.items
  spawned : ∀ task ∈ v.spawned, task ∈ u.spawned

/-- The rows and items that an event reports are stored. -/
structure Reads (u : World) (ev : Event) : Prop where
  entry : ∀ entry ∈ entriesOf ev, ∃ old ∈ u.db.jobQueue, old.ticket = entry.ticket
  execution : ∀ id x, ev = .sql (.getExecution id (some x)) → x ∈ u.db.executions
  job : ∀ id job, ev = .sql (.getJob id (some job)) → job ∈ u.db.jobs
  pop : ∀ item, ev = .pop (some item) → item ∈ u.memoryQueue.items

/-- Events that add something, or deliver it. -/
def Adds : Event → Prop
  | .sql (.createExecution _) | .sql (.updateJob _) | .sql (.enqueue _) | .push _ | .dequeued (some _)
  | .spawned _ => True
  | _ => False

/-- What an action may do. -/
inductive Acts (t : Tag) : Event → World → World → Prop
  | aside {ev : Event} {u v : World} (hreads : Reads u ev) (hadds : ¬ Adds ev) (hfades : Fades u v) : Acts t ev u v
  | create {u : World} (x : Execution) (hnew : ∀ y ∈ u.db.executions, y.id ≠ x.id) :
      Acts t (.sql (.createExecution x)) u
        { u with db := { u.db with executions := u.db.executions ++ [x] } }
  | enable {u : World} (read : Job) (now : String) (hread : t.ReadJob read) :
      Acts t (.sql (.updateJob { read with enabled := true, updatedAt := now })) u
        { u with db := { u.db with
          jobs := Rows.modify Job.id read.id (Job.over { read with enabled := true, updatedAt := now }) u.db.jobs } }
  | enqueue {u : World} (entry : QueueEntry) (item : QueueItem) (hitem : t.Makes item)
      (hticket : entry.ticket = item.ticket) (hjob : entry.jobId = item.jobId) :
      Acts t (.sql (.enqueue entry)) u { u with db := u.db.setQueue (u.db.jobQueue ++ [entry]) }
  | push {u : World} (item : QueueItem) (hitem : t.Pushes item) :
      Acts t (.push item) u { u with memoryQueue := u.memoryQueue.push item }
  | deliver {u v : World} (item : QueueItem) (hitem : t.Popped item ∨ t.Rebuilds item) (hfades : Fades u v) :
      Acts t (.dequeued (some item)) u v
  | spawn {u : World} (task : RequeueTask) (entry : QueueEntry) (hread : t.ReadEntry entry)
      (heq : entry.executionId = task.executionId) :
      Acts t (.spawned task) u { u with spawned := u.spawned ++ [task] }

def protocol : Protocol Event World Tag where
  next := Tag.next
  knows _ _ := True
  grows _ _ := True
  allows := Acts

instance : protocol.Lawful := ⟨fun _ => trivial, fun _ _ => trivial⟩

/-- What every program here obeys. -/
abbrev Advances {α : Type} (ψ : α → Tag → Prop) (t : Tag) (p : Async α) : Prop := Task.Advances protocol ψ t p

/-- An action that is allowed whatever the task has done. -/
def Free (u : World) (ev : Event) (v : World) : Prop := ∀ t, Acts t ev u v

theorem Fades.refl (u : World) : Fades u u :=
  ⟨rfl, rfl, fun row hrow => ⟨row, hrow, rfl⟩, fun _ h => h, fun _ h => h⟩

section

variable {α : Type} {t : Tag} {ψ : α → Tag → Prop}

/-- Nothing that the rules look at is read. -/
theorem reads_of_none {u : World} {ev : Event} (hentries : entriesOf ev = [])
    (hexecution : ∀ id x, ev ≠ .sql (.getExecution id (some x))) (hjob : ∀ id job, ev ≠ .sql (.getJob id (some job)))
    (hpop : ∀ item, ev ≠ .pop (some item)) : Reads u ev where
  entry := by simp [hentries]
  execution id x h := absurd h (hexecution id x)
  job id job h := absurd h (hjob id job)
  pop item h := absurd h (hpop item)

theorem tolerates : Tolerates (.free Free) () := by
  intro u v ev _ hback htrue hsame _
  have hfades : Fades u v := by
    refine ⟨hsame.jobs, by rw [hsame.executions], ?_, ?_, ?_⟩
    · exact hsame.jobQueue ▸ fun row hrow => ⟨row, hrow, rfl⟩
    · exact hsame.memoryQueue ▸ fun _ h => h
    · exact hsame.spawned ▸ fun _ h => h
  refine ⟨fun t => .aside ?_ ?_ hfades, rfl, trivial⟩
  · unfold Event.Background at hback
    split at hback
    · exact reads_of_none rfl (by simp) (by simp) (by simp)
    · exact reads_of_none rfl (by simp) (by simp) (by simp)
    · exact reads_of_none rfl (by simp) (by simp) (by simp)
    · rename_i id row
      refine ⟨by simp [entriesOf], ?_, by simp, by simp⟩
      rintro _ x ⟨⟩
      exact Rows.mem_of_lookup (Eq.symm htrue)
    · rename_i id row
      refine ⟨by simp [entriesOf], by simp, ?_, by simp⟩
      rintro _ job ⟨⟩
      exact Rows.mem_of_lookup (Eq.symm htrue)
    · exact reads_of_none rfl (by simp) (by simp) (by simp)
    · exact hback.elim
  · unfold Event.Background at hback
    split at hback
    all_goals simp_all [Adds]

theorem toleratesDags : ToleratesDags (.free Free) () := by
  intro u v stmt _ hsame _
  refine ⟨fun t => .aside (reads_of_none rfl (by simp) (by simp) (by simp)) (by simp [Adds]) ?_, rfl, trivial⟩
  refine ⟨hsame.jobs, by rw [hsame.executions], ?_, ?_, ?_⟩
  · exact hsame.jobQueue ▸ fun row hrow => ⟨row, hrow, rfl⟩
  · exact hsame.memoryQueue ▸ fun _ h => h
  · exact hsame.spawned ▸ fun _ h => h

/-- A program whose actions are allowed whatever the task has done. -/
theorem advances_free {φ : α → Prop} {p : Async α} (h : Task.Keeps (.free Free) φ () p) :
    Advances (fun a _ => φ a) t p :=
  .of_free h fun t _ ev _ hfree => ⟨hfree t, t.le_next ev⟩

/-- Events that neither read nor add anything. -/
def Plain : Event → Prop
  | .quiet | .failed _ | .lock | .unlock | .dequeued none | .pop none | .drained _ | .removed _ | .executed _
  | .released _ | .returned | .sql .other | .sql (.updateEntry _) | .sql (.removeByExecution _)
  | .sql (.requeue ..) | .sql .resetProcessing | .sql (.updateExecution _) | .sql (.dag _)
  | .sql (.schedule _) => True
  | _ => False

theorem Acts.plain {u v : World} {ev : Event} (hplain : Plain ev) (hfades : Fades u v) : Acts t ev u v := by
  refine .aside ⟨?_, ?_, ?_, ?_⟩ ?_ hfades
  · unfold Plain at hplain
    split at hplain
    all_goals first | exact hplain.elim | exact List.forall_mem_nil _
  · rintro id x rfl
    exact hplain.elim
  · rintro id job rfl
    exact hplain.elim
  · rintro item rfl
    exact hplain.elim
  · intro hadds
    unfold Adds at hadds
    split at hadds
    all_goals first | exact hplain | exact hadds

/-! ### Statements -/

theorem Fades.of_db {u : World} {db : Db} (hjobs : db.jobs = u.db.jobs)
    (hexecutions : db.executions.map identity = u.db.executions.map identity)
    (hentries : ∀ row ∈ db.jobQueue, ∃ old ∈ u.db.jobQueue, old.ticket = row.ticket) :
    Fades u { u with db } :=
  ⟨hjobs, hexecutions, hentries, fun _ h => h, fun _ h => h⟩

theorem Fades.of_locked (u : World) (locked : Bool) : Fades u { u with locked } :=
  ⟨rfl, rfl, fun row hrow => ⟨row, hrow, rfl⟩, fun _ h => h, fun _ h => h⟩

/-- Rows that are rewritten keep their execution and priority. -/
theorem ticket_of_modify {κ : Type} [DecidableEq κ] {column : QueueEntry → κ} {value : κ} {f : QueueEntry → QueueEntry}
    (hf : ∀ row, (f row).ticket = row.ticket) {rows : List QueueEntry} {row : QueueEntry}
    (hrow : row ∈ Rows.modify column value f rows) : ∃ old ∈ rows, old.ticket = row.ticket := by
  obtain ⟨old, hold, rfl⟩ := Rows.mem_modify.mp hrow
  refine ⟨old, hold, ?_⟩
  split
  · exact (hf old).symm
  · rfl

theorem advances_sql {stmt : Db → α → Stmt} {statement : DateTime → Db → Except SqlError (α × Db)}
    {mapErr : SqlError → AppError}
    (hok : ∀ u value db, statement u.now u.db = .ok (value, db) →
      Acts t (.sql (stmt u.db value)) u { u with db } ∧ ψ value (t.next (.sql (stmt u.db value)))) :
    Advances ψ t (sql stmt statement mapErr) := by
  intro s
  apply obeys_sql
  · intro u value db _ _ hquery
    obtain ⟨hacts, hψ⟩ := hok u value db (query_ok hquery).2
    exact ⟨hacts, t.le_next _, hψ⟩
  · exact fun u e _ _ _ => ⟨.plain trivial (.refl u), t.le_next _⟩

theorem advances_select {stmt : α → Stmt} {read : Db → α}
    (hok : ∀ u, Acts t (.sql (stmt (read u.db))) u u ∧ ψ (read u.db) (t.next (.sql (stmt (read u.db))))) :
    Advances ψ t (select stmt read) := by
  apply advances_sql
  intro u value db h
  cases h
  exact hok u

theorem advances_write {stmt : Db → α → Stmt} {statement : DateTime → Db → Except SqlError (α × Db)}
    {mapErr : SqlError → AppError} (hplain : ∀ db value, Plain (.sql (stmt db value)))
    (hfades : ∀ (u : World) value db, statement u.now u.db = .ok (value, db) → Fades u { u with db }) :
    Advances (fun _ _ => True) t (sql stmt statement mapErr) := by
  apply advances_sql
  intro u value db h
  exact ⟨.plain (hplain _ _) (hfades u value db h), trivial⟩

theorem advances_perform {event : World → Event} {act : World → α × World} (hplain : ∀ u, Plain (event u))
    (hfades : ∀ u, Fades u (act u).2) : Advances (fun _ _ => True) t (perform event act) := by
  intro s
  apply obeys_perform
  exact fun u _ _ => ⟨.plain (hplain u) (hfades u), t.le_next _, trivial⟩

theorem advances_okOr {value : Option α} {e : AppError} (h : ∀ a, value = some a → ψ a t) :
    Advances ψ t (okOr value e) := by
  cases value with
  | some a => exact .pure (h a rfl)
  | none => exact .throw

theorem advances_newV4 : Advances (fun _ _ => True) t newV4 := advances_free (keeps_newV4 tolerates)

theorem advances_nowRfc3339 : Advances (fun _ _ => True) t nowRfc3339 := advances_free (keeps_nowRfc3339 tolerates)

theorem advances_getExecution (id : Uuid) :
    Advances (fun x t' => t'.ReadExecution x ∧ x.id = id) t (ExecutionRepository.getById id) := by
  apply (advances_select (ψ := fun row t' => ∀ x, row = some x → t'.ReadExecution x ∧ x.id = id) ?_).bind
  · exact fun row t' _ hrow => advances_okOr hrow
  · intro u
    refine ⟨.aside ⟨by simp [entriesOf], ?_, by simp, by simp⟩ (by simp [Adds]) (.refl u), ?_⟩
    · intro _ x h
      simp only [Event.sql.injEq, Stmt.getExecution.injEq] at h
      exact Rows.mem_of_lookup h.2
    · intro x hx
      exact ⟨⟨id, hx ▸ List.mem_cons_self⟩, Rows.column_of_lookup hx⟩

theorem advances_getJob (id : Uuid) :
    Advances (fun job t' => t'.ReadJob job ∧ job.id = id) t (JobRepository.getById id) := by
  apply (advances_select (ψ := fun row t' => ∀ job, row = some job → t'.ReadJob job ∧ job.id = id) ?_).bind
  · exact fun row t' _ hrow => advances_okOr hrow
  · intro u
    refine ⟨.aside ⟨by simp [entriesOf], by simp, ?_, by simp⟩ (by simp [Adds]) (.refl u), ?_⟩
    · intro _ job h
      simp only [Event.sql.injEq, Stmt.getJob.injEq] at h
      exact Rows.mem_of_lookup h.2
    · intro job hjob
      exact ⟨⟨id, hjob ▸ List.mem_cons_self⟩, Rows.column_of_lookup hjob⟩

theorem advances_getByExecution (executionId : Uuid) :
    Advances (fun row t' => ∀ entry, row = some entry → t'.ReadEntry entry ∧ entry.executionId = executionId) t
      (QueueRepository.getByExecution executionId) := by
  apply advances_select
  intro u
  refine ⟨.aside ⟨fun entry hentry => ?_, by simp, by simp, by simp⟩ (by simp [Adds]) (.refl u), ?_⟩
  · exact ⟨entry, Rows.mem_of_lookup (Option.mem_toList.mp hentry), rfl⟩
  · intro entry hentry
    exact ⟨⟨_, List.mem_cons_self, Option.mem_toList.mpr hentry⟩, Rows.column_of_lookup hentry⟩

theorem advances_getAllQueued :
    Advances (fun rows t' => ∀ entry ∈ rows, t'.ReadEntry entry) t QueueRepository.getAllQueued := by
  apply advances_select
  intro u
  refine ⟨.aside ⟨fun entry hentry => ?_, by simp, by simp, by simp⟩ (by simp [Adds]) (.refl u), ?_⟩
  · exact ⟨entry, (mem_queuedInOrder.mp hentry).1, rfl⟩
  · exact fun entry hentry => ⟨_, List.mem_cons_self, hentry⟩

/-- The row a dequeue takes is stored, and all rows keep their execution and priority. -/
theorem takeFirst_tickets (now : DateTime) (rows : List QueueEntry) :
    (∀ entry, (QueueRepository.takeFirst now rows).1 = some entry →
      entry ∈ (QueueRepository.takeFirst now rows).2) ∧
    ∀ row ∈ (QueueRepository.takeFirst now rows).2, ∃ old ∈ rows, old.ticket = row.ticket := by
  unfold QueueRepository.takeFirst
  split
  · exact ⟨nofun, fun row hrow => ⟨row, hrow, rfl⟩⟩
  · refine ⟨fun entry hentry => Rows.mem_of_lookup hentry, fun row hrow => ticket_of_modify (fun _ => ?_) hrow⟩
    rfl

theorem advances_dequeueAtomic :
    Advances (fun row t' => ∀ entry, row = some entry → t'.ReadEntry entry) t QueueRepository.dequeueAtomic := by
  apply advances_sql
  intro u row db h
  obtain ⟨hread, hticket⟩ := takeFirst_tickets u.now u.db.jobQueue
  cases h
  refine ⟨.aside ⟨fun entry hentry => ?_, by simp, by simp, by simp⟩ (by simp [Adds]) ?_, ?_⟩
  · exact hticket entry (hread entry (Option.mem_toList.mp hentry))
  · exact .of_db rfl rfl hticket
  · exact fun entry hentry => ⟨_, List.mem_cons_self, Option.mem_toList.mpr hentry⟩

/-- A write of the table of the queue that keeps the executions and priorities of its rows. -/
theorem advances_writeQueue {stmt : Db → Stmt} {affected : Db → Nat} {rows : List QueueEntry → List QueueEntry}
    (hplain : ∀ db, Plain (.sql (stmt db)))
    (hrows : ∀ old, ∀ row ∈ rows old, ∃ before ∈ old, before.ticket = row.ticket) :
    Advances (fun _ _ => True) t
      (execute stmt fun db => (affected db, { db with jobQueue := rows db.jobQueue })) := by
  apply advances_write
  · exact fun db _ => hplain db
  · intro u value db h
    cases h
    exact .of_db rfl rfl (hrows u.db.jobQueue)

theorem advances_updateEntry (entry : QueueEntry) :
    Advances (fun _ _ => True) t (QueueRepository.update entry) := by
  apply (advances_writeQueue (fun _ => by trivial) fun _ _ hrow => ticket_of_modify (fun _ => ?_) hrow).bind
  · exact fun _ _ _ _ => .pure trivial
  · rfl

theorem advances_requeue (id : Uuid) : Advances (fun _ _ => True) t (QueueRepository.requeue id) := by
  apply (advances_writeQueue (fun _ => by trivial) fun _ _ hrow => ticket_of_modify (fun _ => ?_) hrow).bind
  · exact fun _ _ _ _ => .pure trivial
  · rfl

theorem advances_resetProcessing : Advances (fun _ _ => True) t QueueRepository.resetProcessingToQueued := by
  apply advances_writeQueue (fun _ => by trivial)
  refine fun _ _ hrow => ticket_of_modify (fun _ => ?_) hrow
  rfl

theorem advances_removeByExecution (executionId : Uuid) :
    Advances (fun _ _ => True) t (QueueRepository.removeByExecution executionId) := by
  apply (advances_writeQueue (fun _ => by trivial) fun _ row hrow => ?_).bind
  · exact fun _ _ _ _ => .pure trivial
  · exact ⟨row, (Rows.mem_remove.mp hrow).1, rfl⟩

theorem advances_updateExecution (x : Execution) :
    Advances (fun _ _ => True) t (ExecutionRepository.update x) := by
  have hwrite : Advances (fun _ _ => True) t (execute (fun _ => .updateExecution x) fun db =>
      (Rows.hits Execution.id x.id db.executions, writeExecution x db)) := by
    apply advances_write
    · exact fun _ _ => trivial
    · intro u value db h
      cases h
      have hover : ∀ row, identity (x.over row) = identity row := fun _ => rfl
      exact .of_db rfl (Rows.map_modify hover _ _) fun row hrow => ⟨row, hrow, rfl⟩
  apply hwrite.bind
  intro affected t' _ _
  split
  · exact .throw
  · exact (advances_getExecution x.id).mono fun _ _ _ _ => trivial

/-! ### Executions -/

/-- Enabling a job writes a row that the task has read. -/
theorem advances_enable {read : Job} (hread : t.ReadJob read) (now : String) :
    Advances (fun _ _ => True) t (JobRepository.update { read with enabled := true, updatedAt := now }) := by
  refine Task.Advances.bind (ψ := fun _ _ => True) (advances_sql ?_) fun affected t' _ _ => ?_
  · intro u value db h
    obtain ⟨-, rfl⟩ := JobRepository.writeJob_ok h
    exact ⟨.enable read now hread, trivial⟩
  · split
    · exact .throw
    · exact (advances_getJob read.id).mono fun _ _ _ _ => trivial

theorem advances_create (x : Execution) : Advances (fun read t' => t'.Created x ∧ t'.ReadExecution read ∧
    read.id = x.id) t (ExecutionRepository.create x) := by
  refine Task.Advances.bind (ψ := fun _ t' => t'.Created x) (advances_sql ?_) fun _ t' _ hcreated => ?_
  · intro u value db h
    unfold ExecutionRepository.insertExecution at h
    split at h
    · cases h
    rename_i hnew
    split at h
    · cases h
    cases h
    exact ⟨.create x (Rows.hits_eq_zero.mp (not_not.mp hnew)), List.mem_cons_self⟩
  · exact (advances_getExecution x.id).mono fun read t'' hle hread => ⟨hcreated.mono hle, hread⟩

/-- The execution that a call returns is one it has created for this job. -/
def Creates (jobId : Uuid) (x : Execution) (t : Tag) : Prop :=
  t.ReadExecution x ∧ ∃ made, t.Created made ∧ x.id = made.id ∧ made.jobId = jobId

theorem Creates.mono {jobId : Uuid} {x : Execution} {t' : Tag} (h : Creates jobId x t) (hle : t ≤ t') :
    Creates jobId x t' := by
  obtain ⟨hread, made, hmade, hid, hjob⟩ := h
  exact ⟨hread.mono hle, made, hmade.mono hle, hid, hjob⟩

theorem advances_insertNew (jobId : Uuid) (inputData : Option String) (retryCount : Int) :
    Advances (Creates jobId) t (do
      let now ← nowRfc3339
      let id ← newV4
      ExecutionRepository.create { Execution.new id jobId inputData now with retryCount := retryCount }) := by
  apply advances_nowRfc3339.bind
  intro now t₁ _ _
  apply advances_newV4.bind
  intro id t₂ _ _
  apply (advances_create _).mono
  intro x t₃ _ h
  exact ⟨h.2.1, _, h.1, h.2.2, rfl⟩

theorem advances_createExecution (jobId : Uuid) (inputData : Option String) :
    Advances (Creates jobId) t (ExecutionService.createExecution jobId inputData) := by
  apply (advances_getJob jobId).bind
  intro job t₁ _ hjob
  split
  · apply advances_nowRfc3339.bind
    intro now t₂ hle _
    apply (advances_enable (hjob.1.mono hle) now).bind
    exact fun _ t₃ _ _ => advances_insertNew jobId inputData 0
  · exact advances_insertNew jobId inputData 0

theorem advances_retryExecution (fromStr : String → Option JsonText.Value) (id : Uuid) :
    Advances (fun x t' => ∃ jobId, Creates jobId x t') t (ExecutionService.retryExecution fromStr id) := by
  apply (advances_getExecution id).bind
  intro execution t₁ _ _
  have hretry : Advances (fun x t' => ∃ jobId, Creates jobId x t') t₁ (do
      let job ← JobRepository.getById execution.jobId
      if job.maxRetries ≤ execution.retryCount then
        Task.throw (.badRequest
          ("Execution has reached maximum retry count (" ++ toString job.maxRetries ++ ")"))
      else
        let inputData := (execution.inputData.bind fromStr).map jsonText
        let now ← nowRfc3339
        let newId ← newV4
        ExecutionRepository.create
          { Execution.new newId execution.jobId inputData now with retryCount := execution.retryCount + 1 }) := by
    apply (advances_getJob execution.jobId).bind
    intro job t₂ _ _
    split
    · exact .throw
    · exact (advances_insertNew execution.jobId _ _).mono fun x t₃ _ h => ⟨_, h⟩
  split
  · exact hretry
  · exact hretry
  · exact hretry
  · exact .throw

theorem advances_cancelExecution (id : Uuid) :
    Advances (fun _ _ => True) t (ExecutionService.cancelExecution id) := by
  apply (advances_getExecution id).bind
  intro execution t₁ _ _
  have hcancel : Advances (fun _ _ => True) t₁ (do
      let now ← nowRfc3339
      ExecutionRepository.update (execution.markCancelled now)) :=
    advances_nowRfc3339.bind fun now t₂ _ _ => advances_updateExecution _
  split
  · exact hcancel
  · exact hcancel
  · exact hcancel
  · exact .throw

/-! ### The queue -/

theorem advances_withLock {done : Except AppError α → Event} {body : Async α}
    (hbody : ∀ t', t ≤ t' → Advances ψ t' body) (hfail : ∀ e, Plain (done (.error e)))
    (hdone : ∀ a t' u, ψ a t' → Acts t' (done (.ok a)) u { u with locked := false }) :
    Advances (fun _ _ => True) t (withLock done body) := by
  have hlock : Advances (fun _ _ => True) t lock := by
    intro s u _ _ _
    exact ⟨.plain trivial (.of_locked u true), t.le_next _, trivial⟩
  apply hlock.bind
  intro _ t₁ hle _
  apply (hbody t₁ hle).attempt.bind
  intro result t₂ _ hresult
  have hrelease : Advances (fun _ _ => True) t₂ (release (done result)) := by
    intro s
    apply obeys_perform
    intro u _ _
    refine ⟨?_, t₂.le_next _, trivial⟩
    cases result with
    | ok value => exact hdone value t₂ u (hresult value rfl)
    | error e => exact .plain (hfail e) (.of_locked u false)
  apply hrelease.bind
  intro _ t₃ _ _
  cases result with
  | ok value => exact .pure trivial
  | error e => exact .throw

theorem advances_pushIfRoom (qm : QueueManager) {item : QueueItem} (hitem : t.Pushes item) :
    Advances (fun _ _ => True) t (qm.pushIfRoom item) := by
  apply (advances_free (keeps_queueLen tolerates)).bind
  intro len t₁ hle _
  split
  · intro s
    apply obeys_perform
    exact fun u _ _ => ⟨.push item (hitem.mono hle), t₁.le_next _, trivial⟩
  · exact .pure trivial

/-- A section that ends with the release of the mutex. -/
theorem advances_locked {body : Async α} (hbody : ∀ t', t ≤ t' → Advances (fun _ _ => True) t' body) :
    Advances (fun _ _ => True) t (withLock (fun _ => .unlock) body) :=
  advances_withLock hbody (fun _ => trivial) fun _ _ u _ => .plain trivial (.of_locked u false)

/-- A caller queues the item of an execution that it has created. -/
theorem advances_enqueue (qm : QueueManager) {item : QueueItem} (hitem : t.Makes item) :
    Advances (fun _ _ => True) t (qm.enqueue item) := by
  apply advances_locked
  intro t₁ h₁
  apply advances_newV4.bind
  intro id t₂ h₂ _
  apply advances_nowRfc3339.bind
  intro now t₃ h₃ _
  have hmakes : t₃.Makes item := hitem.mono (h₁.trans (h₂.trans h₃))
  have hinsert : Advances (fun _ _ => True) t₃
      (QueueRepository.enqueue (.new id item.executionId item.jobId item.priority now)) := by
    refine Task.Advances.bind (ψ := fun _ _ => True) (advances_sql ?_) fun _ _ _ _ => .pure trivial
    intro u value db h
    cases (insertEntry_ok h).1
    exact ⟨.enqueue _ item hmakes rfl rfl, trivial⟩
  apply hinsert.bind
  intro _ t₄ h₄ _
  exact advances_pushIfRoom qm (.inl (hmakes.mono h₄))

theorem advances_fetchItem (executionId : Uuid) (priority : Job → Int) :
    Advances (fun r t' => ∀ item, r = some item → ∃ x job, t'.Finds executionId x job ∧
      item = .new x job (priority job)) t (QueueManager.fetchItem executionId priority) := by
  apply (advances_getExecution executionId).attempt.bind
  rintro (_ | x) t₁ _ hx
  · exact .pure nofun
  · obtain ⟨hread, hid⟩ := hx x rfl
    apply (advances_getJob x.jobId).attempt.bind
    rintro (_ | job) t₂ hle hjob
    · exact .pure nofun
    · obtain ⟨hreadJob, hjobId⟩ := hjob job rfl
      apply Task.Advances.pure
      rintro _ ⟨⟩
      exact ⟨x, job, ⟨hread.mono hle, hid, hreadJob, hjobId⟩, rfl⟩

theorem advances_reconstructItem {entry : QueueEntry} (hentry : t.ReadEntry entry) :
    Advances (fun r t' => ∀ item, r = some item → t'.Rebuilds item) t (QueueManager.reconstructItem entry) := by
  apply (advances_fetchItem entry.executionId fun _ => entry.priority).mono
  intro r t' hle h item hitem
  obtain ⟨x, job, hfinds, heq⟩ := h item hitem
  exact ⟨entry, x, job, hentry.mono hle, hfinds, heq⟩

theorem advances_markEntry (mark : QueueEntry → String → QueueEntry) (executionId : Uuid) :
    Advances (fun _ _ => True) t (QueueManager.markEntry mark executionId) := by
  apply (advances_getByExecution executionId).bind
  rintro (_ | entry) t₁ _ _
  · exact .pure trivial
  · apply advances_nowRfc3339.bind
    intro now t₂ _ _
    exact (advances_updateEntry _).bind fun _ _ _ _ => .pure trivial

/-- An item that a dequeue may return. -/
def Delivers (r : Option QueueItem) (t : Tag) : Prop := ∀ item, r = some item → t.Popped item ∨ t.Rebuilds item

theorem advances_dequeueOverflow : Advances Delivers t QueueManager.dequeueOverflow := by
  apply advances_dequeueAtomic.bind
  rintro (_ | entry) t₁ _ hentry
  · exact .pure nofun
  · apply (advances_reconstructItem (hentry entry rfl)).bind
    rintro (_ | item) t₂ _ hitem
    · apply advances_nowRfc3339.bind
      intro now t₃ _ _
      exact (advances_updateEntry _).bind fun _ _ _ _ => .pure nofun
    · apply Task.Advances.pure
      rintro _ ⟨⟩
      exact .inr (hitem item rfl)

theorem advances_queuePop : Advances (fun r t' => ∀ item, r = some item → t'.Popped item) t queuePop := by
  intro s
  apply obeys_perform
  intro u _ _
  refine ⟨.aside ⟨by simp [entriesOf], by simp, by simp, ?_⟩ (by simp [Adds]) ⟨rfl, rfl, ?_, ?_, ?_⟩,
    t.le_next _, ?_⟩
  · intro item h
    simp only [Event.pop.injEq, MaxHeap.pop_fst] at h
    exact List.mem_of_mem_head? h
  · exact fun row hrow => ⟨row, hrow, rfl⟩
  · exact fun item hitem => List.mem_of_mem_tail (by simpa only [MaxHeap.items_pop] using hitem)
  · exact fun _ h => h
  · exact fun item hitem => hitem ▸ List.mem_cons_self

theorem advances_dequeue : Advances (fun _ _ => True) t QueueManager.dequeue := by
  apply advances_withLock (ψ := Delivers)
  · intro t₁ _
    apply advances_queuePop.bind
    rintro (_ | item) t₂ _ hpop
    · exact advances_dequeueOverflow
    · apply (advances_markEntry .markProcessing item.executionId).bind
      intro _ t₃ hle _
      apply Task.Advances.pure
      rintro _ ⟨⟩
      exact .inl ((hpop item rfl).mono hle)
  · exact fun _ => trivial
  · intro r t' u hdelivers
    cases r with
    | none => exact .plain trivial (.of_locked u false)
    | some item => exact .deliver item (hdelivers item rfl) (.of_locked u false)

theorem advances_remove (executionId : Uuid) : Advances (fun _ _ => True) t (QueueManager.remove executionId) := by
  have hdrain (t : Tag) : Advances (fun _ _ => True) t (queueDrainOther executionId) := by
    apply advances_perform (fun _ => by trivial)
    intro u
    refine ⟨rfl, rfl, fun row hrow => ⟨row, hrow, rfl⟩, fun item hitem => ?_, fun _ h => h⟩
    exact (List.mem_filter.mp (MaxHeap.mem_ofList.mp hitem)).1
  apply advances_withLock (ψ := fun _ _ => True)
  · exact fun t₁ _ => (hdrain t₁).bind fun _ t₂ _ _ => advances_removeByExecution executionId
  · exact fun _ => trivial
  · exact fun _ _ u _ => .plain trivial (.of_locked u false)

theorem advances_markFailedWithRetry (qm : QueueManager) (executionId : Uuid) (retryCount : Int)
    (maxRetries : Option Int) :
    Advances (fun _ _ => True) t (qm.markFailedWithRetry executionId retryCount maxRetries) := by
  have hdead (t : Tag) : Advances (fun _ _ => True) t (do
      QueueManager.moveToDeadLetter executionId
      return false) :=
    (advances_markEntry _ executionId).bind fun _ _ _ _ => .pure trivial
  unfold QueueManager.markFailedWithRetry
  dsimp only
  split
  · apply (advances_getByExecution executionId).bind
    rintro (_ | entry) t₁ _ hentry
    · exact hdead t₁
    · obtain ⟨hread, heq⟩ := hentry entry rfl
      refine Task.Advances.bind (ψ := fun _ _ => True) ?_ fun _ _ _ _ => .pure trivial
      intro s
      apply obeys_perform
      exact fun u _ _ => ⟨.spawn _ entry hread heq, t₁.le_next _, trivial⟩
  · exact hdead t

theorem advances_requeueTask (qm : QueueManager) (task : RequeueTask)
    (horigin : t.origin = .requeue task.executionId) : Advances (fun _ _ => True) t (qm.requeueTask task) := by
  apply (advances_requeue task.entryId).attempt.bind
  rintro (_ | _) t₁ h₁ _
  · exact .pure trivial
  · apply (advances_fetchItem task.executionId Job.priority).bind
    rintro (_ | item) t₂ h₂ hitem
    · exact .pure trivial
    · obtain ⟨x, job, hfinds, rfl⟩ := hitem item rfl
      apply advances_locked
      intro t₃ h₃
      have hle := h₁.trans (h₂.trans h₃)
      exact advances_pushIfRoom qm (.inr (.inr ⟨_, x, job, hle.origin.trans horigin, hfinds.mono h₃, rfl⟩))

theorem advances_retryDeadLetter (qm : QueueManager) (executionId : Uuid) :
    Advances (fun _ _ => True) t (qm.retryDeadLetter executionId) := by
  apply (advances_getByExecution executionId).bind
  rintro (_ | entry) t₁ _ hentry
  · exact .pure trivial
  · dsimp only
    split
    · exact .throw
    · apply (advances_requeue entry.id).bind
      intro _ t₂ h₂ _
      apply (advances_reconstructItem ((hentry entry rfl).1.mono h₂)).bind
      rintro (_ | item) t₃ _ hitem
      · exact .pure trivial
      · apply advances_locked
        exact fun t₄ h₄ => advances_pushIfRoom qm (.inr (.inl ((hitem item rfl).mono h₄)))

theorem advances_loadEntries (qm : QueueManager) {entries : List QueueEntry}
    (hentries : ∀ entry ∈ entries, t.ReadEntry entry) :
    Advances (fun _ _ => True) t (qm.loadEntries entries) := by
  induction entries generalizing t with
  | nil => exact .pure trivial
  | cons entry rest ih =>
      apply (advances_free (keeps_queueLen tolerates)).bind
      intro len t₁ h₁ _
      split
      · exact .pure trivial
      · apply (advances_reconstructItem ((hentries entry List.mem_cons_self).mono h₁)).bind
        have hrest (t₂ : Tag) (hle : t ≤ t₂) : ∀ entry ∈ rest, t₂.ReadEntry entry :=
          fun other hother => (hentries other (List.mem_cons_of_mem entry hother)).mono hle
        rintro (_ | item) t₂ h₂ hitem
        · exact ih (hrest t₂ (h₁.trans h₂))
        · refine Task.Advances.bind (ψ := fun _ _ => True) ?_ fun _ t₃ h₃ _ => ?_
          · intro s
            apply obeys_perform
            exact fun u _ _ => ⟨.push item (.inr (.inl (hitem item rfl))), t₂.le_next _, trivial⟩
          · exact ih (hrest t₃ (h₁.trans (h₂.trans h₃)))

theorem advances_recover (qm : QueueManager) : Advances (fun _ _ => True) t qm.recover := by
  apply advances_resetProcessing.bind
  intro _ t₁ _ _
  apply advances_getAllQueued.bind
  intro entries t₂ _ hentries
  apply advances_locked
  intro t₃ h₃
  apply (advances_loadEntries qm fun entry hentry => (hentries entry hentry).mono h₃).bind
  exact fun _ _ _ _ => .pure trivial

end

end Deliveries

end Serverust
