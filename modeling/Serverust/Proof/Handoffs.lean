import Serverust.Library.Mutex
import Serverust.Proof.Background
import Serverust.Proof.Drain

/-!
# Handing an execution over

An execution that waits is in the heap and has a queued row, a task that re-queues it has written the row and
has still to push the item, and a worker that dequeued it marks the row at last. A tag follows what a task has
of one execution, and every action is a move of that execution between the stores and the tasks.
-/

namespace Serverust

namespace Handoffs

open Calendar Resumption

/-! ### Where an execution is -/

/-- The status of an execution's row, its items in the heap, and the tasks that sleep to re-queue it. -/
structure Stock where
  status : Option QueueStatus
  heaped : Nat
  armed : Nat

def stock (e : Uuid) (w : World) : Stock where
  status := (Rows.lookup QueueEntry.executionId e w.db.jobQueue).map QueueEntry.status
  heaped := w.memoryQueue.items.countP fun item => item.executionId = e
  armed := w.spawned.countP fun task => task.executionId = e

/-- The row with this id belongs to this execution. -/
def Names (w : World) (id executionId : Uuid) : Prop :=
  ∃ row ∈ w.db.jobQueue, row.id = id ∧ row.executionId = executionId

/-- The constraints of `job_queue`, and that every sleeping task names a row of its execution. -/
structure WellFormed (w : World) : Prop where
  id : Rows.Unique QueueEntry.id w.db.jobQueue
  executionId : Rows.Unique QueueEntry.executionId w.db.jobQueue
  tasks : ∀ task ∈ w.spawned, Names w task.entryId task.executionId

/-- What a task has of the execution: a retry that is still to write the row, a row that is written where the
push comes later, the item out of the heap while the row is still queued, the row that is taken, or the
execution itself. The others have nothing: outside the mutex, inside, and inside with an empty heap. -/
inductive Phase where
  | clear
  | inside
  | drained
  | retrying
  | fired
  | pushing
  | popped
  | taken
  | working
deriving DecidableEq, Repr

namespace Phase

def locks : Phase → Bool
  | .inside | .drained | .pushing | .popped | .taken => true
  | _ => false

/-- An item that is not in the heap, and whose row is queued. -/
def floating : Phase → Nat
  | .fired | .pushing | .popped => 1
  | _ => 0

/-- A row that was taken for a dequeue that has not returned. -/
def taking : Phase → Nat
  | .taken => 1
  | _ => 0

/-- A task that has the execution, or will queue it again. -/
def busy : Phase → Nat
  | .retrying | .working => 1
  | _ => 0

def next (e : Uuid) : Phase → Event → Phase
  | .clear, .lock => .inside
  | .clear, .sql (.requeue _ (some row)) => if row.executionId = e then .fired else .clear
  | .retrying, .sql (.requeue ..) => .fired
  | .retrying, .failed _ => .clear
  | .fired, .lock => .pushing
  | .fired, .returned => .clear
  | .inside, .sql (.enqueue entry) => if entry.executionId = e then .pushing else .inside
  | .inside, .pop none => .drained
  | .inside, .pop (some item) => if item.executionId = e then .popped else .inside
  | .drained, .sql (.dequeueAtomic none) => .inside
  | .drained, .sql (.dequeueAtomic (some row)) => if row.executionId = e then .taken else .inside
  | .pushing, .push _ => .inside
  | .popped, .sql (.updateEntry _) => .taken
  | .taken, .sql (.updateEntry _) => .inside
  | .taken, .dequeued (some _) => .working
  | .working, .sql (.updateEntry _) => .clear
  | .working, .spawned _ => .clear
  | .working, .failed _ => .clear
  | .inside, .dequeued _ => .clear
  | .inside, .unlock => .clear
  | .drained, .unlock => .clear
  | .pushing, .unlock => .clear
  | .popped, .unlock => .clear
  | .taken, .unlock => .clear
  | phase, _ => phase

end Phase

/-- A task that has slept for an execution. -/
def wakes (e x : Uuid) : Phase := if x = e then .retrying else .clear

/-- The row of an execution is written, and its item is to be pushed: outside the mutex, and inside. -/
def fires (e x : Uuid) : Phase := if x = e then .fired else .clear

def pushes (e x : Uuid) : Phase := if x = e then .pushing else .inside

/-- The decisions to queue the execution: its enqueue, and an `UPDATE` that queues its row again. -/
def decides (e : Uuid) : Event → Bool
  | .sql (.enqueue entry) => entry.executionId = e
  | .sql (.requeue _ (some row)) => row.executionId = e
  | _ => false

/-- A dequeue returns the execution. -/
def delivers (e : Uuid) : Event → Bool
  | .dequeued (some item) => item.executionId = e
  | _ => false

/-! ### The rules -/

/-- What an action of a task in this phase does with the execution. -/
inductive Moves (e : Uuid) (u v : World) : Phase → Event → Prop
  | ease {phase : Phase} {ev : Event} (hdecides : decides e ev = false) (hdelivers : delivers e ev = false)
      (hfloating : (phase.next e ev).floating ≤ phase.floating) (htaking : (phase.next e ev).taking ≤ phase.taking)
      (hbusy : (phase.next e ev).busy ≤ phase.busy) (h : stock e v = stock e u) : Moves e u v phase ev
  | insert {entry : QueueEntry} (hentry : entry.executionId = e) (hfree : (stock e u).status = none)
      (h : stock e v = { stock e u with status := some .queued }) : Moves e u v .inside (.sql (.enqueue entry))
  | requeue {phase : Phase} {id : Uuid} {row : QueueEntry} (hphase : phase = .retrying ∨ phase = .clear)
      (hrow : row.executionId = e) (hold : (stock e u).status = some row.status)
      (h : stock e v = { stock e u with status := some .queued }) : Moves e u v phase (.sql (.requeue id (some row)))
  | push {item : QueueItem} (h : stock e v = { stock e u with heaped := (stock e u).heaped + 1 }) :
      Moves e u v .pushing (.push item)
  | pop {item : QueueItem} (hitem : item.executionId = e)
      (h : stock e u = { stock e v with heaped := (stock e v).heaped + 1 }) : Moves e u v .inside (.pop (some item))
  | mark {entry : QueueEntry} (h : stock e v = { stock e u with status := some .processing }) :
      Moves e u v .popped (.sql (.updateEntry entry))
  | take {row : QueueEntry} (hrow : row.executionId = e) (hold : (stock e u).status = some .queued)
      (hheap : (stock e u).heaped = 0) (h : stock e v = { stock e u with status := some .processing }) :
      Moves e u v .drained (.sql (.dequeueAtomic (some row)))
  | deliver {item : QueueItem} (h : stock e v = stock e u) : Moves e u v .taken (.dequeued (some item))
  | settle {phase : Phase} {entry : QueueEntry} {status : QueueStatus} (hphase : phase = .taken ∨ phase = .working)
      (hstatus : status ≠ .queued) (h : stock e v = { stock e u with status := some status }) :
      Moves e u v phase (.sql (.updateEntry entry))
  | arm {task : RequeueTask} (h : stock e v = { stock e u with armed := (stock e u).armed + 1 }) :
      Moves e u v .working (.spawned task)

structure Allowed (e : Uuid) (phase : Phase) (ev : Event) (u v : World) : Prop where
  names : ∀ id x, Names u id x → Names v id x
  wellFormed : WellFormed u → WellFormed v
  mutex : v.locked.toNat + phase.locks.toNat = u.locked.toNat + (phase.next e ev).locks.toNat
  empties : ev = .pop none → (stock e v).heaped = 0
  moves : Moves e u v phase ev

def protocol (e : Uuid) : Protocol Event World Phase where
  next := Phase.next e
  knows phase w := WellFormed w ∧ (phase.locks = true → w.locked = true) ∧
    (phase = .drained → (stock e w).heaped = 0) ∧
    (phase.floating + phase.taking + phase.busy ≠ 0 → (stock e w).status ≠ none)
  grows u v := ∀ id x, Names u id x → Names v id x
  allows := Allowed e

instance (e : Uuid) : (protocol e).Lawful :=
  ⟨fun _ _ _ h => h, fun hab hbc id x h => hbc id x (hab id x h)⟩

section

variable {α : Type} {e x id : Uuid} {phase : Phase} {u v w : World} {ev : Event}

theorem Names.unique (hwf : WellFormed w) (h : Names w id x) {row : QueueEntry} (hrow : row ∈ w.db.jobQueue) :
    row.id = id ↔ row.executionId = x := by
  obtain ⟨named, hnamed, hid, hx⟩ := h
  constructor
  · rintro rfl
    rw [hwf.id.eq_of_column hrow hnamed hid.symm, hx]
  · rintro rfl
    rw [hwf.executionId.eq_of_column hrow hnamed hx.symm, hid]

theorem status_of_names (hwf : WellFormed w) (h : Names w id e) :
    ∃ row ∈ w.db.jobQueue, row.id = id ∧ Rows.lookup QueueEntry.executionId e w.db.jobQueue = some row := by
  obtain ⟨row, hrow, hid, he⟩ := h
  exact ⟨row, hrow, hid, hwf.executionId.lookup hrow he⟩

/-- An action that leaves the queue. -/
structure Beside (u v : World) : Prop where
  jobQueue : v.db.jobQueue = u.db.jobQueue
  memoryQueue : v.memoryQueue = u.memoryQueue
  spawned : v.spawned = u.spawned

theorem Beside.stock (h : Beside u v) : stock e v = stock e u := by
  simp only [Handoffs.stock, h.jobQueue, h.memoryQueue, h.spawned]

theorem Beside.names (h : Beside u v) (hnames : Names u id x) : Names v id x := by
  unfold Names
  rw [h.jobQueue]
  exact hnames

theorem Beside.wellFormed (h : Beside u v) (hwf : WellFormed u) : WellFormed v := by
  refine ⟨h.jobQueue ▸ hwf.id, h.jobQueue ▸ hwf.executionId, fun task htask => h.names ?_⟩
  exact hwf.tasks task (h.spawned ▸ htask)

/-- An action that rewrites the row with this id. -/
structure Rewrites (u v : World) (id : Uuid) (f : QueueEntry → QueueEntry) : Prop where
  jobQueue : v.db.jobQueue = Rows.modify QueueEntry.id id f u.db.jobQueue
  memoryQueue : v.memoryQueue = u.memoryQueue
  spawned : v.spawned = u.spawned
  id : ∀ row, (f row).id = row.id
  executionId : ∀ row, (f row).executionId = row.executionId

namespace Rewrites

variable {f : QueueEntry → QueueEntry} (h : Rewrites u v id f)

include h

theorem names {id' : Uuid} (hnames : Names u id' x) : Names v id' x := by
  obtain ⟨row, hrow, hid, hx⟩ := hnames
  unfold Names
  rw [h.jobQueue]
  by_cases heq : row.id = id
  · exact ⟨f row, Rows.mem_modify_of_eq hrow heq, (h.id row).trans hid, (h.executionId row).trans hx⟩
  · exact ⟨row, Rows.mem_modify_of_ne hrow heq, hid, hx⟩

theorem wellFormed (hwf : WellFormed u) : WellFormed v := by
  refine ⟨?_, ?_, fun task htask => h.names (hwf.tasks task (h.spawned ▸ htask))⟩
  · rw [h.jobQueue]
    exact hwf.id.modify h.id _
  · rw [h.jobQueue]
    exact hwf.executionId.modify h.executionId _

/-- The row of another execution is rewritten. -/
theorem stock_of_ne (hwf : WellFormed u) (hnames : Names u id x) (hne : x ≠ e) : stock e v = stock e u := by
  have hstatus : (stock e v).status = (stock e u).status := by
    simp only [stock, h.jobQueue, Rows.lookup_modify_column h.executionId, Option.map_map]
    cases hrow : Rows.lookup QueueEntry.executionId e u.db.jobQueue with
    | none => rfl
    | some row =>
        have hother : row.id ≠ id := by
          intro hid
          have hx := (hnames.unique hwf (Rows.mem_of_lookup hrow)).mp hid
          exact hne (hx.symm.trans (Rows.column_of_lookup hrow))
        simp only [Option.map_some, Function.comp_apply, if_neg hother]
  simp only [stock, h.memoryQueue, h.spawned, Stock.mk.injEq, and_true]
  exact hstatus

/-- The row of the execution is rewritten. -/
theorem stock_of_eq (hwf : WellFormed u) (hnames : Names u id e) {status : QueueStatus}
    (hf : ∀ row, (f row).status = status) : stock e v = { stock e u with status := some status } := by
  obtain ⟨row, hrow, hid, hlookup⟩ := status_of_names hwf hnames
  simp only [stock, h.jobQueue, Rows.lookup_modify_column h.executionId, hlookup, h.memoryQueue, h.spawned,
    Option.map_some, if_pos hid, hf]

end Rewrites

/-! ### Statements -/

/-- Events that leave every task where it is and queue nothing. -/
def Plain : Event → Prop
  | .quiet | .sql (.getByExecution ..) | .sql (.getExecution ..) | .sql (.getJob ..) | .sql (.nameExists ..)
  | .sql .other => True
  | _ => False

theorem next_of_plain (h : Plain ev) : phase.next e ev = phase := by
  unfold Phase.next
  split <;> first | rfl | exact h.elim

/-- An action that leaves the queue, and takes its task nowhere else than to give something up. -/
theorem Allowed.of_beside (hbeside : Beside u v) (hpop : ev ≠ .pop none)
    (hmutex : v.locked.toNat + phase.locks.toNat = u.locked.toNat + (phase.next e ev).locks.toNat)
    (hdecides : decides e ev = false) (hdelivers : delivers e ev = false)
    (hfloating : (phase.next e ev).floating ≤ phase.floating) (htaking : (phase.next e ev).taking ≤ phase.taking)
    (hbusy : (phase.next e ev).busy ≤ phase.busy) : Allowed e phase ev u v :=
  ⟨fun _ _ => hbeside.names, hbeside.wellFormed, hmutex, fun h => absurd h hpop,
    .ease hdecides hdelivers hfloating htaking hbusy hbeside.stock⟩

theorem Allowed.of_plain (hplain : Plain ev) (hbeside : Beside u v) (hlocked : v.locked = u.locked) :
    Allowed e phase ev u v := by
  have hnext : phase.next e ev = phase := next_of_plain hplain
  refine .of_beside hbeside ?_ (by rw [hlocked, hnext]) ?_ ?_ (by rw [hnext]) (by rw [hnext]) (by rw [hnext])
  · rintro rfl
    exact hplain
  · unfold decides
    split <;> first | rfl | exact hplain.elim
  · unfold delivers
    split <;> first | rfl | exact hplain.elim

/-- A statement that fails may end what its task was about to do. -/
theorem Allowed.failed (err : SqlError) : Allowed e phase (.failed err) u u := by
  refine .of_beside ⟨rfl, rfl, rfl⟩ nofun ?_ rfl rfl ?_ ?_ ?_
  all_goals cases phase <;> simp [Phase.next, Phase.locks, Phase.floating, Phase.taking, Phase.busy]

theorem tolerates (hretrying : phase ≠ .retrying) (hworking : phase ≠ .working) : Tolerates (protocol e) phase := by
  intro u v ev _ hback _ hsame _
  have hbeside : Beside u v := ⟨hsame.jobQueue, hsame.memoryQueue, hsame.spawned⟩
  by_cases hplain : Plain ev
  · exact ⟨.of_plain hplain hbeside hsame.locked, next_of_plain hplain, fun _ _ => hbeside.names⟩
  · obtain ⟨err, rfl⟩ : ∃ err, ev = .failed err := by
      unfold Event.Background at hback
      split at hback
      all_goals first | exact ⟨_, rfl⟩ | exact absurd trivial hplain | exact hback.elim
    have hnext : phase.next e (.failed err) = phase := by
      cases phase <;> first | rfl | exact absurd rfl hretrying | exact absurd rfl hworking
    refine ⟨.of_beside hbeside nofun (by rw [hsame.locked, hnext]) rfl rfl ?_ ?_ ?_, hnext, fun _ _ => hbeside.names⟩
    all_goals rw [hnext]

theorem obeys_getByExecution {executionId : Uuid} {ok : Option QueueEntry → Phase → World → Prop}
    {err : AppError → Phase → World → Prop}
    (hok : ∀ u, (protocol e).knows phase u →
      ok (Rows.lookup QueueEntry.executionId executionId u.db.jobQueue) phase u)
    (herr : ∀ a u failure, err a (phase.next e (.failed failure)) u) :
    Task.Obeys (protocol e) ok err (QueueRepository.getByExecution executionId) phase w := by
  unfold QueueRepository.getByExecution select
  apply obeys_sql
  · intro u row db _ hknows hquery
    cases (query_ok hquery).2
    have hplain : Plain (.sql (.getByExecution executionId
        (Rows.lookup QueueEntry.executionId executionId u.db.jobQueue))) := trivial
    refine ⟨.of_plain hplain ⟨rfl, rfl, rfl⟩ rfl, ?_⟩
    rw [show (protocol e).next phase _ = phase from next_of_plain hplain]
    exact hok u hknows
  · exact fun u failure _ _ _ => ⟨.failed failure, herr _ u failure⟩

/-- What a write of the row of an execution with this status means for a task. -/
inductive Turns (e : Uuid) : Uuid → QueueStatus → Phase → Phase → Prop
  | other {x : Uuid} {status : QueueStatus} {phase : Phase} (hne : x ≠ e) (hphase : phase = .clear ∨ phase = .inside) :
      Turns e x status phase phase
  | mark : Turns e e .processing .popped .taken
  | failed : Turns e e .failed .taken .inside
  | settle {status : QueueStatus} (hstatus : status ≠ .queued) : Turns e e status .working .clear

/-- What an update of an entry makes of its row. -/
def written (entry row : QueueEntry) : QueueEntry :=
  { row with status := entry.status, startedAt := entry.startedAt, completedAt := entry.completedAt }

theorem obeys_update {entry : QueueEntry} {status : QueueStatus} {phase' : Phase} (hx : entry.executionId = x)
    (hstatus : entry.status = status) (hturn : Turns e x status phase phase') (hnames : Names w entry.id x) :
    Task.Obeys (protocol e) (fun _ p _ => p = phase') (fun _ p _ => ∃ failure, p = phase.next e (.failed failure))
      (QueueRepository.update entry) phase w := by
  apply Task.obeys_bind.mpr
  apply obeys_sql
  · intro u affected db hgrows hknows hquery
    cases (query_ok hquery).2
    have hrewrites : Rewrites u { u with db := { u.db with
        jobQueue := Rows.modify QueueEntry.id entry.id (written entry) u.db.jobQueue } } entry.id (written entry) :=
      ⟨rfl, rfl, rfl, fun _ => rfl, fun _ => rfl⟩
    have hself (hnames : Names u entry.id e) :=
      hrewrites.stock_of_eq (e := e) hknows.1 hnames fun _ => show entry.status = status from hstatus
    have hnow := hgrows _ _ hnames
    cases hturn with
    | other hne hphase =>
        have hkept := hrewrites.stock_of_ne (e := e) hknows.1 hnow hne
        rcases hphase with rfl | rfl
        · exact ⟨⟨fun _ _ => hrewrites.names, hrewrites.wellFormed, rfl, nofun, .ease rfl rfl le_rfl le_rfl le_rfl hkept⟩, rfl⟩
        · exact ⟨⟨fun _ _ => hrewrites.names, hrewrites.wellFormed, rfl, nofun, .ease rfl rfl le_rfl le_rfl le_rfl hkept⟩, rfl⟩
    | mark => exact ⟨⟨fun _ _ => hrewrites.names, hrewrites.wellFormed, rfl, nofun, .mark (hself hnow)⟩, rfl⟩
    | failed =>
        have hqueued : QueueStatus.failed ≠ .queued := nofun
        exact ⟨⟨fun _ _ => hrewrites.names, hrewrites.wellFormed, rfl, nofun, .settle (.inl rfl) hqueued (hself hnow)⟩, rfl⟩
    | settle hqueued =>
        exact ⟨⟨fun _ _ => hrewrites.names, hrewrites.wellFormed, rfl, nofun, .settle (.inr rfl) hqueued (hself hnow)⟩, rfl⟩
  · exact fun u failure _ _ _ => ⟨.failed failure, failure, rfl⟩

theorem obeys_now {ok : String → Phase → World → Prop} {err : AppError → Phase → World → Prop}
    (hok : ∀ now u, (protocol e).grows w u → ok now phase u) : Task.Obeys (protocol e) ok err nowRfc3339 phase w := by
  apply obeys_perform
  intro u hgrows _
  have hplain : Plain .quiet := trivial
  refine ⟨.of_plain hplain ⟨rfl, rfl, rfl⟩ rfl, ?_⟩
  rw [show (protocol e).next phase _ = phase from next_of_plain hplain]
  exact hok _ u hgrows

theorem obeys_markEntry {mark : QueueEntry → String → QueueEntry} {status : QueueStatus} {phase' : Phase}
    (hmark : Marks mark status) (hturn : Turns e x status phase phase') :
    Task.Obeys (protocol e) (fun _ p _ => p = phase') (fun _ p _ => ∃ failure, p = phase.next e (.failed failure))
      (QueueManager.markEntry mark x) phase w := by
  apply Task.obeys_bind.mpr
  apply obeys_getByExecution
  · intro u hknows
    cases hrow : Rows.lookup QueueEntry.executionId x u.db.jobQueue with
    | none =>
        -- The execution that the task has taken has a row.
        have hmissing : (stock x u).status = none := by simp only [stock, hrow, Option.map_none]
        cases hturn with
        | other hne hphase => rfl
        | mark => exact absurd hmissing (hknows.2.2.2 (by intro h; cases h))
        | failed => exact absurd hmissing (hknows.2.2.2 (by intro h; cases h))
        | settle hqueued => exact absurd hmissing (hknows.2.2.2 (by intro h; cases h))
    | some entry =>
        have hnames : Names u entry.id x := ⟨entry, Rows.mem_of_lookup hrow, rfl, Rows.column_of_lookup hrow⟩
        apply Task.obeys_bind.mpr
        apply obeys_now
        intro now v hgrows
        apply Task.obeys_bind.mpr
        have hid := hmark.id entry now
        apply (obeys_update ((hmark.executionId entry now).trans (Rows.column_of_lookup hrow)) (hmark.status entry now)
          hturn (hid ▸ hgrows _ _ hnames)).mono
        · exact fun _ _ _ hp => hp
        · exact fun _ _ _ hp => hp
  · exact fun _ _ failure => ⟨failure, rfl⟩

/-- A task that queues the row of an execution again. -/
theorem obeys_requeue (hphase : phase = .clear ∨ phase = .retrying ∧ x = e) (hnames : Names w id x) :
    Task.Obeys (protocol e) (fun _ p _ => p = fires e x) (fun _ p _ => p = .clear)
      (QueueRepository.requeue id) phase w := by
  apply Task.obeys_bind.mpr
  apply obeys_sql
  · intro u affected db hgrows hknows hquery
    cases (query_ok hquery).2
    have hnow := hgrows _ _ hnames
    obtain ⟨row, hrow, hid, hx⟩ := hnow
    beta_reduce
    rw [hknows.1.id.lookup hrow hid]
    have hrewrites : Rewrites u { u with db := { u.db with
        jobQueue := Rows.modify QueueEntry.id id (fun row => { row with
          status := .queued, startedAt := none, completedAt := none }) u.db.jobQueue } } id _ :=
      ⟨rfl, rfl, rfl, fun _ => rfl, fun _ => rfl⟩
    by_cases he : x = e
    · have hself := hrewrites.stock_of_eq (e := e) hknows.1 ⟨row, hrow, hid, hx.trans he⟩ fun _ => rfl
      have hold : (stock e u).status = some row.status := by
        simp only [stock, hknows.1.executionId.lookup hrow (hx.trans he), Option.map_some]
      have hnext : phase.next e (.sql (.requeue id (some row))) = .fired := by
        rcases hphase with rfl | ⟨rfl, _⟩
        · exact if_pos (hx.trans he)
        · rfl
      refine ⟨⟨fun _ _ => hrewrites.names, hrewrites.wellFormed, ?_, (by intro h; cases h), ?_⟩, ?_⟩
      · rw [hnext]
        rcases hphase with rfl | ⟨rfl, _⟩ <;> rfl
      · exact .requeue (hphase.symm.imp_left And.left) (hx.trans he) hold hself
      · rw [fires, if_pos he]
        exact hnext
    · obtain rfl : phase = .clear := hphase.resolve_right fun h => he h.2
      have hkept := hrewrites.stock_of_ne (e := e) hknows.1 ⟨row, hrow, hid, hx⟩ he
      have hnext : Phase.next e .clear (.sql (.requeue id (some row))) = .clear := if_neg (hx ▸ he)
      refine ⟨⟨fun _ _ => hrewrites.names, hrewrites.wellFormed, ?_, (by intro h; cases h), ?_⟩, ?_⟩
      · rw [hnext]
      · have hdecides : decides e (.sql (.requeue id (some row))) = false := decide_eq_false (hx ▸ he)
        exact .ease hdecides rfl (by rw [hnext]) (by rw [hnext]) (by rw [hnext]) hkept
      · rw [fires, if_neg he]
        exact hnext
  · intro u failure _ _ _
    refine ⟨.failed failure, ?_⟩
    rcases hphase with rfl | ⟨rfl, _⟩ <;> rfl

/-! ### The mutex -/

/-- What a task may have when it gives the mutex back with this event. -/
inductive Leaves (e : Uuid) : Phase → Event → Prop
  | unlock {phase : Phase} (hlocks : phase.locks = true) : Leaves e phase .unlock
  | nothing {item : Option QueueItem} (hitem : ∀ i, item = some i → i.executionId ≠ e) :
      Leaves e .inside (.dequeued item)
  | deliver {item : QueueItem} (hitem : item.executionId = e) : Leaves e .taken (.dequeued (some item))

theorem Leaves.allowed (h : Leaves e phase ev) (hlocked : u.locked = true) :
    Allowed e phase ev u { u with locked := false } := by
  cases h with
  | unlock hlocks =>
      refine .of_beside ⟨rfl, rfl, rfl⟩ nofun ?_ rfl rfl ?_ ?_ ?_
      · rw [hlocked]
        cases phase <;> first | rfl | cases hlocks
      all_goals cases phase <;> simp [Phase.next, Phase.floating, Phase.taking, Phase.busy]
  | @nothing item hitem =>
      refine .of_beside ⟨rfl, rfl, rfl⟩ nofun ?_ rfl ?_ le_rfl le_rfl le_rfl
      · rw [hlocked]
        rfl
      · cases item with
        | none => rfl
        | some item => exact decide_eq_false (hitem item rfl)
  | deliver hitem =>
      refine ⟨fun _ _ hnames => hnames, fun hwf => ⟨hwf.id, hwf.executionId, hwf.tasks⟩, ?_, nofun, .deliver rfl⟩
      rw [hlocked]
      rfl

theorem Leaves.locks (h : Leaves e phase ev) : phase.locks = true := by
  cases h with
  | unlock hlocks => exact hlocks
  | nothing => rfl
  | deliver => rfl

theorem obeys_release {f : Unit → Async α} {ok : α → Phase → World → Prop} {err : AppError → Phase → World → Prop}
    (hleaves : Leaves e phase ev) (hf : ∀ s, Task.Obeys (protocol e) ok err (f ()) (phase.next e ev) s) :
    Task.Obeys (protocol e) ok err (release ev >>= f) phase w := by
  apply Task.obeys_bind.mpr
  apply obeys_perform
  intro u _ hknows
  exact ⟨hleaves.allowed (hknows.2.1 hleaves.locks), hf _⟩

theorem obeys_lock (hphase : phase = .clear ∨ phase = .fired) :
    Task.Obeys (protocol e) (fun _ p _ => p = phase.next e .lock) (fun _ _ _ => False) lock phase w := by
  intro u _ _ henabled
  have hfree : u.locked = false := by simpa using henabled
  refine ⟨.of_beside ⟨rfl, rfl, rfl⟩ nofun ?_ rfl rfl ?_ ?_ ?_, rfl⟩
  · rw [hfree]
    rcases hphase with rfl | rfl <;> rfl
  all_goals rcases hphase with rfl | rfl <;> exact le_rfl

/-- A program that holds the mutex while its body runs, from a phase outside. -/
theorem obeys_withLock {done : Except AppError α → Event} {body : Async α} {ok : α → Phase → World → Prop}
    {err : AppError → Phase → World → Prop} (hphase : phase = .clear ∨ phase = .fired)
    (h : ∀ s, Task.Obeys (protocol e)
      (fun a p _ => Leaves e p (done (.ok a)) ∧ ∀ s, ok a (p.next e (done (.ok a))) s)
      (fun a p _ => Leaves e p (done (.error a)) ∧ ∀ s, err a (p.next e (done (.error a))) s) body (phase.next e .lock) s) :
    Task.Obeys (protocol e) ok err (withLock done body) phase w := by
  apply Task.obeys_bind.mpr
  apply (obeys_lock hphase).mono
  · rintro _ _ s rfl
    apply Task.obeys_bind.mpr
    apply Task.obeys_attempt.mpr
    apply (h s).mono
    · exact fun _ _ _ hleaves => obeys_release hleaves.1 hleaves.2
    · exact fun _ _ _ hleaves => obeys_release hleaves.1 hleaves.2
  · exact fun _ _ _ => False.elim

/-! ### The heap -/

/-- An item that its task was to push. -/
theorem obeys_push {item : QueueItem} : Task.Obeys (protocol e) (fun _ p _ => p = .inside) (fun _ _ _ => False)
    (queuePush item) (pushes e item.executionId) w := by
  apply obeys_perform
  intro u _ _
  have hheaped : (u.memoryQueue.push item).items.countP (fun i => i.executionId = e) =
      (stock e u).heaped + if item.executionId = e then 1 else 0 := by
    simp only [MaxHeap.countP_push, decide_eq_true_eq, stock]
  by_cases he : item.executionId = e
  · rw [if_pos he] at hheaped
    rw [pushes, if_pos he]
    refine ⟨⟨fun _ _ h => h, fun hwf => ⟨hwf.id, hwf.executionId, hwf.tasks⟩, rfl, (by intro h; cases h), .push ?_⟩, rfl⟩
    rw [← hheaped]
    rfl
  · rw [if_neg he, Nat.add_zero] at hheaped
    rw [pushes, if_neg he]
    refine ⟨⟨fun _ _ h => h, fun hwf => ⟨hwf.id, hwf.executionId, hwf.tasks⟩, rfl, (by intro h; cases h), ?_⟩, rfl⟩
    refine .ease rfl rfl le_rfl le_rfl le_rfl ?_
    rw [show (stock e u) = { stock e u with heaped := (stock e u).heaped } from rfl, ← hheaped]
    rfl

theorem obeys_pushIfRoom (qm : QueueManager) {item : QueueItem} :
    Task.Obeys (protocol e) (fun _ p _ => p.locks = true ∧ p.next e .unlock = .clear) (fun _ _ _ => False)
      (qm.pushIfRoom item) (pushes e item.executionId) w := by
  have hstays : (pushes e item.executionId).locks = true ∧ (pushes e item.executionId).next e .unlock = .clear := by
    unfold pushes
    split <;> exact ⟨rfl, rfl⟩
  apply Task.obeys_bind.mpr
  apply obeys_perform
  intro u _ _
  have hplain : Plain .quiet := trivial
  refine ⟨.of_plain hplain ⟨rfl, rfl, rfl⟩ rfl, ?_⟩
  rw [show (protocol e).next _ _ = pushes e item.executionId from next_of_plain hplain]
  split
  · apply obeys_push.mono
    · rintro _ _ _ rfl
      exact ⟨rfl, rfl⟩
    · exact fun _ _ _ => False.elim
  · exact hstays

/-- A task that has written the row pushes the item. -/
theorem obeys_handOver (qm : QueueManager) {item : QueueItem} :
    Task.Obeys (protocol e) (fun _ p _ => p = .clear) (fun _ p _ => p = .clear)
      (withLock (fun _ => .unlock) (qm.pushIfRoom item)) (fires e item.executionId) w := by
  apply obeys_withLock
  · unfold fires
    split
    · exact .inr rfl
    · exact .inl rfl
  · intro s
    have hlock : (fires e item.executionId).next e .lock = pushes e item.executionId := by
      unfold fires pushes
      split <;> rfl
    rw [hlock]
    apply (obeys_pushIfRoom qm).mono
    · exact fun _ _ _ h => ⟨.unlock h.1, fun _ => h.2⟩
    · exact fun _ _ _ => False.elim

theorem obeys_insert {entry : QueueEntry} (hqueued : entry.status = .queued) :
    Task.Obeys (protocol e) (fun _ p _ => p = pushes e entry.executionId) (fun _ p _ => p = .inside)
      (QueueRepository.enqueue entry) .inside w := by
  apply Task.obeys_bind.mpr
  apply obeys_sql
  · intro u value db _ _ hquery
    obtain ⟨heq, hid, hfree, _⟩ := insertEntry_ok (query_ok hquery).2
    cases heq
    have hnames : ∀ id x, Names u id x → Names { u with db := u.db.setQueue (u.db.jobQueue ++ [entry]) } id x := by
      rintro id x ⟨row, hrow, hnamed⟩
      exact ⟨row, List.mem_append_left _ hrow, hnamed⟩
    have hwf (hwf : WellFormed u) : WellFormed { u with db := u.db.setQueue (u.db.jobQueue ++ [entry]) } :=
      ⟨hwf.id.append hid, hwf.executionId.append hfree, fun task htask => hnames _ _ (hwf.tasks task htask)⟩
    have hlookup : Rows.lookup QueueEntry.executionId e (u.db.jobQueue ++ [entry]) =
        (Rows.lookup QueueEntry.executionId e u.db.jobQueue).or (if entry.executionId = e then some entry else none) := by
      simp only [Rows.lookup, List.find?_append, List.find?_cons, List.find?_nil]
      split <;> simp_all
    by_cases he : entry.executionId = e
    · have hnone : Rows.lookup QueueEntry.executionId e u.db.jobQueue = none :=
        Rows.lookup_eq_none.mpr (he ▸ Rows.hits_eq_zero.mp hfree)
      have hnext : Phase.next e .inside (.sql (.enqueue entry)) = .pushing := if_pos he
      rw [hnone, if_pos he] at hlookup
      refine ⟨⟨hnames, hwf, by rw [hnext]; rfl, (by intro h; cases h), .insert he ?_ ?_⟩, ?_⟩
      · simp only [stock, hnone, Option.map_none]
      · simp only [stock, Db.setQueue_jobQueue, hlookup, Option.none_or, Option.map_some, hqueued]
      · rw [pushes, if_pos he]
        exact hnext
    · have hnext : Phase.next e .inside (.sql (.enqueue entry)) = .inside := if_neg he
      rw [if_neg he] at hlookup
      have hdecides : decides e (.sql (.enqueue entry)) = false := decide_eq_false he
      refine ⟨⟨hnames, hwf, by rw [hnext], (by intro h; cases h), .ease hdecides rfl ?_ ?_ ?_ ?_⟩, ?_⟩
      · rw [hnext]
      · rw [hnext]
      · rw [hnext]
      · simp only [stock, Db.setQueue_jobQueue, hlookup, Option.or_none]
      · rw [pushes, if_neg he]
        exact hnext
  · exact fun u failure _ _ _ => ⟨.failed failure, rfl⟩

theorem obeys_enqueue (qm : QueueManager) (item : QueueItem) :
    Task.Obeys (protocol e) (fun _ p _ => p = .clear) (fun _ p _ => p = .clear) (qm.enqueue item) .clear w := by
  have hinside : Tolerates (protocol e) .inside := by apply tolerates <;> decide
  apply obeys_withLock (.inl rfl)
  intro s
  apply (keeps_newV4 hinside).bind_obeys
  · intro id s₁ _ _
    apply (keeps_nowRfc3339 hinside).bind_obeys
    · intro now s₂ _ _
      apply Task.obeys_bind.mpr
      apply (obeys_insert rfl).mono
      · rintro _ _ _ rfl
        apply (obeys_pushIfRoom qm).mono
        · exact fun _ _ _ h => ⟨.unlock h.1, fun _ => h.2⟩
        · exact fun _ _ _ => False.elim
      · rintro _ _ _ rfl
        exact ⟨.unlock rfl, fun _ => rfl⟩
    · exact fun _ _ _ => ⟨.unlock rfl, fun _ => rfl⟩
  · exact fun _ _ _ => ⟨.unlock rfl, fun _ => rfl⟩

/-! ### Tasks that queue an execution again -/

theorem fires_cases (e x : Uuid) : fires e x = .clear ∨ fires e x = .fired := by
  unfold fires
  split
  · exact .inr rfl
  · exact .inl rfl

theorem tolerates_fires (e x : Uuid) : Tolerates (protocol e) (fires e x) := by
  rcases fires_cases e x with h | h
  · rw [h]
    apply tolerates <;> decide
  · rw [h]
    apply tolerates <;> decide

/-- The item of a row that is written, if it can be read, is pushed. -/
theorem obeys_fetched (qm : QueueManager) (priority : Job → Int) {f : Option QueueItem → Async Unit}
    (hsome : ∀ item, f (some item) = withLock (fun _ => .unlock) (qm.pushIfRoom item)) (hnone : f none = pure ()) :
    Task.Obeys (protocol e) (fun _ p _ => p = .clear ∨ p = .fired) (fun _ p _ => p = .clear ∨ p = .fired)
      (QueueManager.fetchItem x priority >>= f) (fires e x) w := by
  apply (keeps_fetchItem (tolerates_fires e x) x priority).bind_obeys
  · intro item s _ hitem
    cases item with
    | none =>
        rw [hnone]
        exact fires_cases e x
    | some item =>
        rw [hsome, ← hitem item rfl]
        apply (obeys_handOver qm).mono
        · exact fun _ _ _ => .inl
        · exact fun _ _ _ => .inl
  · exact fun _ _ _ => fires_cases e x

theorem obeys_requeueTask (qm : QueueManager) (task : RequeueTask) (hnames : Names w task.entryId task.executionId) :
    Task.Obeys (protocol e) (fun _ p _ => p = .clear ∨ p = .fired) (fun _ p _ => p = .clear ∨ p = .fired)
      (qm.requeueTask task) (wakes e task.executionId) w := by
  have hwakes : wakes e task.executionId = .clear ∨ wakes e task.executionId = .retrying ∧ task.executionId = e := by
    unfold wakes
    split
    · exact .inr ⟨rfl, ‹_›⟩
    · exact .inl rfl
  apply Task.obeys_bind.mpr
  apply Task.obeys_attempt.mpr
  apply (obeys_requeue hwakes hnames).mono
  · rintro _ _ s rfl
    exact obeys_fetched qm Job.priority (fun _ => rfl) rfl
  · rintro _ _ _ rfl
    exact .inl rfl

theorem obeys_retryDeadLetter (qm : QueueManager) (executionId : Uuid) :
    Task.Obeys (protocol e) (fun _ p _ => p = .clear ∨ p = .fired) (fun _ p _ => p = .clear ∨ p = .fired)
      (qm.retryDeadLetter executionId) .clear w := by
  apply Task.obeys_bind.mpr
  apply obeys_getByExecution
  · intro u _
    cases hrow : Rows.lookup QueueEntry.executionId executionId u.db.jobQueue with
    | none => exact .inl rfl
    | some entry =>
        have hnames : Names u entry.id entry.executionId := ⟨entry, Rows.mem_of_lookup hrow, rfl, rfl⟩
        dsimp only
        split
        · exact .inl rfl
        · apply Task.obeys_bind.mpr
          apply (obeys_requeue (.inl rfl) hnames).mono
          · rintro _ _ s rfl
            exact obeys_fetched qm (fun _ => entry.priority) (fun _ => rfl) rfl
          · exact fun _ _ _ => .inl
  · exact fun _ _ _ => .inl rfl

/-! ### A dequeue -/

/-- The item of an execution is out of the heap, and its row is taken. -/
def pops (e x : Uuid) : Phase := if x = e then .popped else .inside

def takes (e x : Uuid) : Phase := if x = e then .taken else .inside

/-- What a worker has after a dequeue. -/
def got (e : Uuid) : Option QueueItem → Phase
  | some item => if item.executionId = e then .working else .clear
  | none => .clear

/-- What a dequeue has when it returns an item, and when it fails. -/
def Returns (e : Uuid) (item : Option QueueItem) (phase : Phase) : Prop :=
  Leaves e phase (.dequeued item) ∧ phase.next e (.dequeued item) = got e item

def Stops (e : Uuid) (phase : Phase) : Prop := Leaves e phase .unlock ∧ phase.next e .unlock = .clear

theorem returns_none : Returns e none .inside := ⟨.nothing nofun, rfl⟩

theorem returns_takes (item : QueueItem) : Returns e (some item) (takes e item.executionId) := by
  unfold takes
  split
  · exact ⟨.deliver ‹_›, (if_pos ‹_›).symm⟩
  · refine ⟨.nothing ?_, (if_neg ‹_›).symm⟩
    rintro _ ⟨⟩
    assumption

theorem Stops.failed (h : Stops e phase) (failure : SqlError) : Stops e (phase.next e (.failed failure)) := by
  have hlocks := h.1.locks
  cases phase <;> first | exact h | cases hlocks

theorem stops_pops (e x : Uuid) : Stops e (pops e x) := by
  unfold pops
  split <;> exact ⟨.unlock rfl, rfl⟩

theorem stops_takes (e x : Uuid) : Stops e (takes e x) := by
  unfold takes
  split <;> exact ⟨.unlock rfl, rfl⟩

theorem turns_mark (e x : Uuid) : Turns e x .processing (pops e x) (takes e x) := by
  unfold pops takes
  split
  · subst x
    exact .mark
  · exact .other ‹_› (.inr rfl)

theorem turns_failed (e x : Uuid) : Turns e x .failed (takes e x) .inside := by
  unfold takes
  split
  · subst x
    exact .failed
  · exact .other ‹_› (.inr rfl)

theorem tolerates_takes (e x : Uuid) : Tolerates (protocol e) (takes e x) := by
  unfold takes
  split
  · apply tolerates <;> decide
  · apply tolerates <;> decide

theorem obeys_dequeueAtomic : Task.Obeys (protocol e) (fun row p s => match row with
    | some entry => p = takes e entry.executionId ∧ Names s entry.id entry.executionId
    | none => p = .inside) (fun _ p _ => p = .drained) QueueRepository.dequeueAtomic .drained w := by
  apply obeys_sql
  · intro u row db _ hknows hquery
    obtain ⟨hwf, _, hheap, _⟩ := hknows
    have hread : row = (QueueRepository.takeFirst u.now u.db.jobQueue).1 ∧
        db = { u.db with jobQueue := (QueueRepository.takeFirst u.now u.db.jobQueue).2 } := by
      cases (query_ok hquery).2
      exact ⟨rfl, rfl⟩
    obtain htake | ⟨first, hfirst, f, hqueued, hf, _, htake⟩ := takeFirst_cases hwf.id u.now
    · rw [htake] at hread
      obtain ⟨rfl, rfl⟩ := hread
      exact ⟨.of_beside ⟨rfl, rfl, rfl⟩ nofun rfl rfl rfl le_rfl le_rfl le_rfl, rfl⟩
    · rw [htake] at hread
      obtain ⟨rfl, rfl⟩ := hread
      have hrewrites : Rewrites u { u with db := { u.db with
          jobQueue := Rows.modify QueueEntry.id first.id f u.db.jobQueue } } first.id f :=
        ⟨rfl, rfl, rfl, hf.id, hf.executionId⟩
      have hnames : Names u first.id first.executionId := ⟨first, hfirst, rfl, rfl⟩
      refine ⟨?_, ?_, ?_⟩
      · by_cases he : (f first).executionId = e
        · have hid : first.executionId = e := (hf.executionId first).symm.trans he
          have hnext : Phase.next e .drained (.sql (.dequeueAtomic (some (f first)))) = .taken := if_pos he
          refine ⟨fun _ _ => hrewrites.names, hrewrites.wellFormed, by rw [hnext]; rfl, nofun, ?_⟩
          refine .take he ?_ (hheap rfl) (hrewrites.stock_of_eq hwf (hid ▸ hnames) hf.status)
          simp only [stock, hwf.executionId.lookup hfirst hid, Option.map_some, hqueued]
        · have hid : first.executionId ≠ e := fun h => he ((hf.executionId first).trans h)
          have hnext : Phase.next e .drained (.sql (.dequeueAtomic (some (f first)))) = .inside := if_neg he
          refine ⟨fun _ _ => hrewrites.names, hrewrites.wellFormed, by rw [hnext]; rfl, nofun, ?_⟩
          have hkept := hrewrites.stock_of_ne hwf hnames hid
          exact .ease rfl rfl (by rw [hnext]; rfl) (by rw [hnext]; rfl) (by rw [hnext]; rfl) hkept
      · rfl
      · rw [hf.id, hf.executionId]
        exact hrewrites.names hnames
  · exact fun u failure _ _ _ => ⟨.failed failure, rfl⟩

theorem obeys_dequeueOverflow : Task.Obeys (protocol e) (fun item p _ => Returns e item p) (fun _ p _ => Stops e p)
    QueueManager.dequeueOverflow .drained w := by
  apply Task.obeys_bind.mpr
  apply obeys_dequeueAtomic.mono
  · rintro (_ | entry) p s hrow
    · obtain rfl := hrow
      exact returns_none
    · obtain ⟨rfl, hnames⟩ := hrow
      apply (keeps_fetchItem (tolerates_takes e entry.executionId) entry.executionId fun _ => entry.priority).bind_obeys
      · intro item u hgrows hitem
        cases item with
        | some item =>
            have hreturns : Returns e (some item) (takes e item.executionId) := returns_takes item
            rw [hitem item rfl] at hreturns
            exact hreturns
        | none =>
            apply (keeps_nowRfc3339 (tolerates_takes e entry.executionId)).bind_obeys
            · intro now v hgrows' _
              have hnow := hgrows' _ _ (hgrows _ _ hnames)
              apply Task.obeys_bind.mpr
              have hsame : (entry.markFailed now).executionId = entry.executionId := rfl
              apply (obeys_update hsame rfl (turns_failed e entry.executionId) hnow).mono
              · rintro _ _ _ rfl
                exact returns_none
              · rintro _ _ _ ⟨failure, rfl⟩
                exact (stops_takes e entry.executionId).failed failure
            · exact fun _ _ _ => stops_takes e entry.executionId
      · exact fun _ _ _ => stops_takes e entry.executionId
  · rintro _ _ _ rfl
    exact ⟨.unlock rfl, rfl⟩

theorem obeys_queuePop : Task.Obeys (protocol e) (fun item p _ => match item with
    | some item => p = pops e item.executionId
    | none => p = .drained) (fun _ _ _ => False) queuePop .inside w := by
  apply obeys_perform
  intro u _ _
  have hlocal (heap : MemoryQueue) (hwf : WellFormed u) : WellFormed { u with memoryQueue := heap } :=
    ⟨hwf.id, hwf.executionId, hwf.tasks⟩
  cases hitems : u.memoryQueue.items with
  | nil =>
      rw [MaxHeap.pop_of_nil hitems]
      refine ⟨⟨fun _ _ h => h, hlocal _, rfl, fun _ => rfl, .ease rfl rfl le_rfl le_rfl le_rfl ?_⟩, rfl⟩
      simp only [stock, hitems, MaxHeap.items_empty]
  | cons item rest =>
      obtain ⟨sorted, hpop⟩ := MaxHeap.pop_of_cons hitems
      rw [hpop]
      refine ⟨?_, rfl⟩
      by_cases he : item.executionId = e
      · have hnext : Phase.next e .inside (.pop (some item)) = .popped := if_pos he
        refine ⟨fun _ _ h => h, hlocal _, by rw [hnext]; rfl, (by intro h; cases h), .pop he ?_⟩
        simp only [stock, hitems, List.countP_cons, he, decide_true, if_true]
      · have hnext : Phase.next e .inside (.pop (some item)) = .inside := if_neg he
        refine ⟨fun _ _ h => h, hlocal _, by rw [hnext], (by intro h; cases h), ?_⟩
        refine .ease rfl rfl (by rw [hnext]) (by rw [hnext]) (by rw [hnext]) ?_
        simp only [stock, hitems, List.countP_cons, he, decide_false, Bool.false_eq_true, if_false, Nat.add_zero]

/-- What a dequeue does while it holds the mutex. -/
theorem obeys_take {f : Option QueueItem → Async (Option QueueItem)}
    (hsome : ∀ item, f (some item) = do
      QueueManager.markEntry .markProcessing item.executionId
      return some item)
    (hnone : f none = QueueManager.dequeueOverflow) :
    Task.Obeys (protocol e) (fun item p _ => Returns e item p) (fun _ p _ => Stops e p) (queuePop >>= f) .inside w := by
  apply Task.obeys_bind.mpr
  apply obeys_queuePop.mono
  · rintro (_ | item) p u hpop
    · obtain rfl := hpop
      rw [hnone]
      exact obeys_dequeueOverflow
    · obtain rfl := hpop
      rw [hsome]
      apply Task.obeys_bind.mpr
      apply (obeys_markEntry marks_processing (turns_mark e item.executionId)).mono
      · rintro _ _ _ rfl
        exact returns_takes item
      · rintro _ _ _ ⟨failure, rfl⟩
        exact (stops_pops e item.executionId).failed failure
  · exact fun _ _ _ => False.elim

theorem obeys_dequeue : Task.Obeys (protocol e) (fun item p _ => p = got e item) (fun _ p _ => p = .clear)
    QueueManager.dequeue .clear w := by
  apply obeys_withLock (.inl rfl)
  intro s
  apply (obeys_take (fun _ => rfl) rfl).mono
  · exact fun _ _ _ h => ⟨h.1, fun _ => h.2⟩
  · exact fun _ _ _ h => ⟨h.1, fun _ => h.2⟩

/-! ### The end of an execution -/

/-- What a worker that dequeued an execution has. -/
def holds (e x : Uuid) : Phase := if x = e then .working else .clear

theorem obeys_settle {mark : QueueEntry → String → QueueEntry} {status : QueueStatus} (hmark : Marks mark status)
    (hqueued : status ≠ .queued) :
    Task.Obeys (protocol e) (fun _ p _ => p = .clear) (fun _ p _ => p = .clear) (QueueManager.markEntry mark x)
      (holds e x) w := by
  have hturn : Turns e x status (holds e x) .clear := by
    unfold holds
    split
    · subst x
      exact .settle hqueued
    · exact .other ‹_› (.inl rfl)
  apply (obeys_markEntry hmark hturn).mono
  · exact fun _ _ _ h => h
  · rintro _ _ _ ⟨failure, rfl⟩
    unfold holds
    split <;> rfl

theorem obeys_arm {task : RequeueTask} (hnames : Names w task.entryId task.executionId) :
    Task.Obeys (protocol e) (fun _ p _ => p = .clear) (fun _ _ _ => False) (spawnRequeue task)
      (holds e task.executionId) w := by
  apply obeys_perform
  intro u hgrows _
  have hwf (hwf : WellFormed u) : WellFormed { u with spawned := u.spawned ++ [task] } := by
    refine ⟨hwf.id, hwf.executionId, fun other hother => ?_⟩
    rcases List.mem_append.mp hother with hold | hlast
    · exact hwf.tasks other hold
    · rw [List.mem_singleton.mp hlast]
      exact hgrows _ _ hnames
  unfold holds
  split
  · refine ⟨⟨fun _ _ h => h, hwf, rfl, nofun, .arm ?_⟩, rfl⟩
    simp only [stock, List.countP_append, List.countP_singleton, *, decide_true, if_true]
  · refine ⟨⟨fun _ _ h => h, hwf, rfl, nofun, .ease rfl rfl le_rfl le_rfl le_rfl ?_⟩, rfl⟩
    simp only [stock, List.countP_append, List.countP_singleton, *, decide_false, Bool.false_eq_true, if_false,
      Nat.add_zero]

theorem obeys_markFailedWithRetry (qm : QueueManager) (retryCount : Int) (maxRetries : Option Int) :
    Task.Obeys (protocol e) (fun _ p _ => p = .clear) (fun _ p _ => p = .clear)
      (qm.markFailedWithRetry x retryCount maxRetries) (holds e x) w := by
  have hdead {s : World} : Task.Obeys (protocol e) (fun _ p _ => p = .clear) (fun _ p _ => p = .clear)
      (do
        QueueManager.moveToDeadLetter x
        return false) (holds e x) s :=
    Task.obeys_bind.mpr (obeys_settle marks_deadLetter nofun)
  unfold QueueManager.markFailedWithRetry
  dsimp only
  split
  · apply Task.obeys_bind.mpr
    apply obeys_getByExecution
    · intro u _
      cases hrow : Rows.lookup QueueEntry.executionId x u.db.jobQueue with
      | none => exact hdead
      | some entry =>
          apply Task.obeys_bind.mpr
          apply (obeys_arm ⟨entry, Rows.mem_of_lookup hrow, rfl, Rows.column_of_lookup hrow⟩).mono
          · exact fun _ _ _ h => h
          · exact fun _ _ _ => False.elim
    · intro _ _ failure
      unfold holds
      split <;> rfl
  · exact hdead

end

end Handoffs

end Serverust
