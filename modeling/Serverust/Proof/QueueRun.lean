import Serverust.Library.StableSort
import Serverust.Proof.JobRows
import Serverust.Proof.Sequential

/-!
# Queue operations running alone

Each operation of the queue manager, run alone from a coherent state with no failing statement, as what
it does to the two stores: the rows of `job_queue` and the items of the heap.
-/

namespace Serverust

open Resumption

/-! ### Coherent states -/

/-- The foreign keys that rebuilding an item relies on. -/
structure Db.Linked (db : Db) : Prop where
  entry : ∀ row ∈ db.jobQueue, ∃ exec ∈ db.executions, exec.id = row.executionId
  execution : ∀ exec ∈ db.executions, ∃ job ∈ db.jobs, job.id = exec.jobId

/-- The row that stands behind an item of the heap. -/
structure QueueEntry.Backs (row : QueueEntry) (item : QueueItem) : Prop where
  execution : row.executionId = item.executionId
  queued : row.status = .queued
  priority : row.priority = item.priority

/-- The mutex is free and no statement fails. -/
structure World.Idle (w : World) : Prop where
  free : w.locked = false
  fault : w.fault = none

/-- The two stores agree: the heap holds distinct executions, each with a queued row. -/
structure Coherent (db : Db) (heap : List QueueItem) : Prop where
  uniqueId : Rows.Unique QueueEntry.id db.jobQueue
  uniqueExecution : Rows.Unique QueueEntry.executionId db.jobQueue
  linked : db.Linked
  distinct : (heap.map QueueItem.executionId).Nodup
  backed : ∀ item ∈ heap, ∃ row ∈ db.jobQueue, row.Backs item

/-- The status of an entry that has still to be worked on. -/
def QueueStatus.active : QueueStatus → Bool
  | .queued | .processing => true
  | _ => false

/-- The execution's entry is queued or processing. -/
def Active (e : Uuid) (db : Db) : Prop :=
  ∃ row ∈ db.jobQueue, row.executionId = e ∧ (row.status = .processing ∨ row.status = .queued)

theorem QueueStatus.active_iff {status : QueueStatus} :
    status.active = true ↔ status = .processing ∨ status = .queued := by
  cases status <;> decide

/-- A rewriting of a row that sets its status and at most its times. -/
structure Restamps (f : QueueEntry → QueueEntry) (status : QueueStatus) : Prop where
  id : ∀ row, (f row).id = row.id
  executionId : ∀ row, (f row).executionId = row.executionId
  priority : ∀ row, (f row).priority = row.priority
  queuedAt : ∀ row, (f row).queuedAt = row.queuedAt
  status : ∀ row, (f row).status = status

def Db.setQueue (db : Db) (rows : List QueueEntry) : Db := { db with jobQueue := rows }

@[simp] theorem Db.setQueue_jobQueue (db : Db) (rows : List QueueEntry) :
    (db.setQueue rows).jobQueue = rows := rfl

/-- Rewrite the row with this id. -/
def restamp (f : QueueEntry → QueueEntry) (id : Uuid) (db : Db) : Db :=
  db.setQueue (Rows.modify QueueEntry.id id f db.jobQueue)

variable {w : World} {db : Db} {heap : List QueueItem} {f : QueueEntry → QueueEntry}
  {status : QueueStatus} {row : QueueEntry}

namespace Db.Linked

theorem setQueue (h : db.Linked) {rows : List QueueEntry}
    (hrows : ∀ row ∈ rows, ∃ old ∈ db.jobQueue, old.executionId = row.executionId) :
    (db.setQueue rows).Linked where
  entry row hrow := by
    obtain ⟨old, hold, heq⟩ := hrows row hrow
    exact heq ▸ h.entry old hold
  execution := h.execution

end Db.Linked

namespace Restamps

/-- Every row of the rewritten table has the execution of a row of the old one. -/
theorem source (hf : Restamps f status) {id : Uuid} {rows : List QueueEntry}
    (hrow : row ∈ Rows.modify QueueEntry.id id f rows) :
    ∃ old ∈ rows, old.executionId = row.executionId := by
  obtain ⟨old, hold, rfl⟩ := Rows.mem_modify.mp hrow
  refine ⟨old, hold, ?_⟩
  split
  · exact (hf.executionId old).symm
  · rfl

end Restamps

namespace Coherent

theorem sublist (h : Coherent db heap) {rest : List QueueItem} (hrest : rest.Sublist heap) :
    Coherent db rest where
  uniqueId := h.uniqueId
  uniqueExecution := h.uniqueExecution
  linked := h.linked
  distinct := h.distinct.sublist (hrest.map _)
  backed item hitem := h.backed item (hrest.subset hitem)

/-- Rewriting a row that backs no item of the heap. -/
theorem restamp (h : Coherent db heap) (hf : Restamps f status) (hrow : row ∈ db.jobQueue)
    (hfree : ∀ item ∈ heap, item.executionId ≠ row.executionId) :
    Coherent (restamp f row.id db) heap where
  uniqueId := h.uniqueId.modify hf.id row.id
  uniqueExecution := h.uniqueExecution.modify hf.executionId row.id
  linked := h.linked.setQueue fun _ => hf.source
  distinct := h.distinct
  backed item hitem := by
    obtain ⟨other, hother, hbacks⟩ := h.backed item hitem
    refine ⟨other, Rows.mem_modify_of_ne hother fun hid => ?_, hbacks⟩
    exact hfree item hitem (hbacks.execution ▸ congrArg _ (h.uniqueId.eq_of_column hother hrow hid))

theorem push (h : Coherent db heap) {item : QueueItem} {items : List QueueItem}
    (hperm : items.Perm (item :: heap)) (hnew : ∀ other ∈ heap, other.executionId ≠ item.executionId)
    (hrow : row ∈ db.jobQueue) (hbacks : row.Backs item) : Coherent db items where
  uniqueId := h.uniqueId
  uniqueExecution := h.uniqueExecution
  linked := h.linked
  distinct := by
    rw [(hperm.map _).nodup_iff, List.map_cons, List.nodup_cons]
    refine ⟨fun hmem => ?_, h.distinct⟩
    obtain ⟨other, hother, heq⟩ := List.mem_map.mp hmem
    exact hnew other hother heq
  backed other hother := by
    rcases List.mem_cons.mp (hperm.subset hother) with rfl | hold
    · exact ⟨row, hrow, hbacks⟩
    · exact h.backed other hold

/-- The row behind an item is the row of its execution. -/
theorem backs_of_executionId (h : Coherent db heap) {item : QueueItem} (hitem : item ∈ heap)
    (hrow : row ∈ db.jobQueue) (heq : row.executionId = item.executionId) : row.Backs item := by
  obtain ⟨other, hother, hbacks⟩ := h.backed item hitem
  rwa [h.uniqueExecution.eq_of_column hrow hother (heq.trans hbacks.execution.symm)]

end Coherent

/-! ### Statements -/

section Statements

variable (hfault : w.fault = none)

include hfault

theorem run_getByExecution (executionId : Uuid) : (QueueRepository.getByExecution executionId).run w =
    some (.ok (Rows.lookup QueueEntry.executionId executionId w.db.jobQueue), w) :=
  run_select hfault

theorem run_update (entry : QueueEntry) : ∃ f, Restamps f entry.status ∧
    (QueueRepository.update entry).run w =
      some (.ok entry, { w with db := restamp f entry.id w.db }) := by
  refine ⟨fun row => { row with status := entry.status, startedAt := entry.startedAt,
                                completedAt := entry.completedAt }, ?_, ?_⟩
  · exact ⟨fun _ => rfl, fun _ => rfl, fun _ => rfl, fun _ => rfl, fun _ => rfl⟩
  · simp only [QueueRepository.update, Task.run_bind, run_execute hfault, Task.run_pure]
    rfl

theorem run_requeue (id : Uuid) : ∃ f, Restamps f .queued ∧
    (QueueRepository.requeue id).run w = some (.ok (), { w with db := restamp f id w.db }) := by
  refine ⟨fun row => { row with status := .queued, startedAt := none, completedAt := none }, ?_, ?_⟩
  · exact ⟨fun _ => rfl, fun _ => rfl, fun _ => rfl, fun _ => rfl, fun _ => rfl⟩
  · simp only [QueueRepository.requeue, Task.run_bind, run_execute hfault, Task.run_pure]
    rfl

theorem run_removeByExecution (executionId : Uuid) :
    (QueueRepository.removeByExecution executionId).run w = some (.ok (), { w with
      db := w.db.setQueue (Rows.remove QueueEntry.executionId executionId w.db.jobQueue) }) := by
  simp only [QueueRepository.removeByExecution, Task.run_bind, run_execute hfault, Task.run_pure]
  rfl

theorem run_getExecution {exec : Execution} (hexec : exec ∈ w.db.executions) :
    ∃ found ∈ w.db.executions, found.id = exec.id ∧
      (ExecutionRepository.getById exec.id).run w = some (.ok found, w) := by
  obtain ⟨found, hfound⟩ := Rows.lookup_isSome hexec (rfl : exec.id = exec.id)
  refine ⟨found, Rows.mem_of_lookup hfound, Rows.column_of_lookup hfound, ?_⟩
  simp only [ExecutionRepository.getById, Task.run_bind, run_select hfault, hfound, run_okOr_some]

theorem run_getJob {job : Job} (hjob : job ∈ w.db.jobs) :
    ∃ found ∈ w.db.jobs, found.id = job.id ∧
      (JobRepository.getById job.id).run w = some (.ok found, w) := by
  obtain ⟨found, hfound⟩ := Rows.lookup_isSome hjob (rfl : job.id = job.id)
  refine ⟨found, Rows.mem_of_lookup hfound, Rows.column_of_lookup hfound, ?_⟩
  simp only [JobRepository.getById, Task.run_bind, run_select hfault, hfound, run_okOr_some]

/-- With its execution and job stored, the item of a queued row can be rebuilt. -/
theorem run_reconstructItem (hlinked : w.db.Linked) (hrow : row ∈ w.db.jobQueue) (entry : QueueEntry)
    (hexecution : entry.executionId = row.executionId) :
    ∃ item : QueueItem, item.executionId = row.executionId ∧ item.priority = entry.priority ∧
      (QueueManager.reconstructItem entry).run w = some (.ok (some item), w) := by
  obtain ⟨exec, hexec, hid⟩ := hlinked.entry row hrow
  obtain ⟨found, hfound, hfoundId, hget⟩ := run_getExecution hfault hexec
  obtain ⟨job, hjob, hjobId⟩ := hlinked.execution found hfound
  obtain ⟨foundJob, _, _, hgetJob⟩ := run_getJob hfault hjob
  rw [hjobId] at hgetJob
  rw [hid, ← hexecution] at hget
  refine ⟨.new found foundJob entry.priority, hfoundId.trans hid, rfl, ?_⟩
  simp only [QueueManager.reconstructItem, QueueManager.fetchItem, Task.run_bind, Task.run_attempt,
    hget, hgetJob, Option.map_some, Task.run_pure]

end Statements

/-! ### Marking an entry -/

/-- A `mark_*` method of an entry. -/
structure Marks (mark : QueueEntry → String → QueueEntry) (status : QueueStatus) : Prop where
  id : ∀ row now, (mark row now).id = row.id
  executionId : ∀ row now, (mark row now).executionId = row.executionId
  status : ∀ row now, (mark row now).status = status

theorem marks_processing : Marks .markProcessing .processing :=
  ⟨fun _ _ => rfl, fun _ _ => rfl, fun _ _ => rfl⟩

theorem marks_completed : Marks .markCompleted .completed :=
  ⟨fun _ _ => rfl, fun _ _ => rfl, fun _ _ => rfl⟩

theorem marks_failed : Marks .markFailed .failed :=
  ⟨fun _ _ => rfl, fun _ _ => rfl, fun _ _ => rfl⟩

theorem marks_deadLetter : Marks .markDeadLetter .deadLetter :=
  ⟨fun _ _ => rfl, fun _ _ => rfl, fun _ _ => rfl⟩

theorem run_markEntry (hfault : w.fault = none) {mark : QueueEntry → String → QueueEntry}
    (hmark : Marks mark status) {executionId : Uuid}
    (hlookup : Rows.lookup QueueEntry.executionId executionId w.db.jobQueue = some row) :
    ∃ f, Restamps f status ∧ (QueueManager.markEntry mark executionId).run w =
      some (.ok (), { w with db := restamp f row.id w.db }) := by
  obtain ⟨f, hf, hrun⟩ := run_update hfault (mark row (toRfc3339 w.now))
  refine ⟨f, hmark.status row _ ▸ hf, ?_⟩
  rw [hmark.id] at hrun
  simp only [QueueManager.markEntry, Task.run_bind, run_getByExecution hfault, hlookup,
    run_nowRfc3339, hrun, Task.run_pure]

theorem run_markEntry_none (hfault : w.fault = none) (mark : QueueEntry → String → QueueEntry)
    {executionId : Uuid}
    (hlookup : Rows.lookup QueueEntry.executionId executionId w.db.jobQueue = none) :
    (QueueManager.markEntry mark executionId).run w = some (.ok (), w) := by
  simp only [QueueManager.markEntry, Task.run_bind, run_getByExecution hfault, hlookup, Task.run_pure]

/-! ### Dequeue -/

/-- What a dequeue returns, and what it does to the two stores. -/
inductive Dequeues (db : Db) (heap : List QueueItem) : Option QueueItem → Db → List QueueItem → Prop
  | fromHeap {item : QueueItem} {rest : List QueueItem} {row : QueueEntry}
      {f : QueueEntry → QueueEntry} (hheap : heap = item :: rest) (hrow : row ∈ db.jobQueue)
      (hbacks : row.Backs item) (hf : Restamps f .processing) :
      Dequeues db heap (some item) (restamp f row.id db) rest
  | fromTable {item : QueueItem} {row : QueueEntry} {rest : List QueueEntry}
      {f : QueueEntry → QueueEntry} (hheap : heap = [])
      (horder : QueueRepository.queuedInOrder db.jobQueue = row :: rest)
      (hbacks : row.Backs item) (hf : Restamps f .processing) :
      Dequeues db heap (some item) (restamp f row.id db) []
  | nothing (hheap : heap = []) (hnone : QueueRepository.queuedInOrder db.jobQueue = []) :
      Dequeues db heap none db []

theorem mem_queuedInOrder {rows : List QueueEntry} :
    row ∈ QueueRepository.queuedInOrder rows ↔ row ∈ rows ∧ row.status = .queued := by
  simp only [QueueRepository.queuedInOrder, (List.perm_insertionSort _ _).mem_iff, List.mem_filter,
    decide_eq_true_eq]

theorem run_dequeueAtomic_none (hfault : w.fault = none)
    (hnone : QueueRepository.queuedInOrder w.db.jobQueue = []) :
    QueueRepository.dequeueAtomic.run w = some (.ok none, w) := by
  rw [QueueRepository.dequeueAtomic, run_sql hfault]
  simp only [QueueRepository.takeFirst, hnone, List.head?_nil]

theorem run_dequeueAtomic (hfault : w.fault = none)
    (hunique : Rows.Unique QueueEntry.id w.db.jobQueue) {rest : List QueueEntry}
    (horder : QueueRepository.queuedInOrder w.db.jobQueue = row :: rest) :
    ∃ f, Restamps f .processing ∧ QueueRepository.dequeueAtomic.run w =
      some (.ok (some (f row)), { w with db := restamp f row.id w.db }) := by
  have hrow : row ∈ w.db.jobQueue :=
    (mem_queuedInOrder.mp (horder ▸ List.mem_cons_self : row ∈ QueueRepository.queuedInOrder _)).1
  have hf : Restamps (fun row => { row with
      status := .processing, startedAt := some (sqliteDatetime w.now) }) .processing :=
    ⟨fun _ => rfl, fun _ => rfl, fun _ => rfl, fun _ => rfl, fun _ => rfl⟩
  refine ⟨_, hf, ?_⟩
  rw [QueueRepository.dequeueAtomic, run_sql hfault]
  simp only [QueueRepository.takeFirst, horder, List.head?_cons, hunique.lookup_modify hrow hf.id]
  rfl

theorem run_dequeueOverflow (hfault : w.fault = none) (h : Coherent w.db [])
    (hempty : w.memoryQueue.items = []) :
    ∃ r db, QueueManager.dequeueOverflow.run w = some (.ok r, { w with db }) ∧
      Dequeues w.db w.memoryQueue.items r db [] := by
  cases horder : QueueRepository.queuedInOrder w.db.jobQueue with
  | nil =>
      refine ⟨none, w.db, ?_, .nothing hempty horder⟩
      simp only [QueueManager.dequeueOverflow, Task.run_bind, run_dequeueAtomic_none hfault horder,
        Task.run_pure]
  | cons row rest =>
      obtain ⟨f, hf, htake⟩ := run_dequeueAtomic hfault h.uniqueId horder
      obtain ⟨hrow, hqueued⟩ :=
        mem_queuedInOrder.mp (horder ▸ List.mem_cons_self : row ∈ QueueRepository.queuedInOrder _)
      obtain ⟨item, hitem, hpriority, hbuild⟩ :=
        run_reconstructItem (w := { w with db := restamp f row.id w.db }) hfault
          (h.linked.setQueue fun _ => hf.source) (Rows.mem_modify_of_eq hrow rfl) (f row) rfl
      have hbacks : row.Backs item :=
        ⟨(hf.executionId row).symm.trans hitem.symm, hqueued,
          (hf.priority row).symm.trans hpriority.symm⟩
      refine ⟨some item, _, ?_, .fromTable hempty horder hbacks hf⟩
      simp only [QueueManager.dequeueOverflow, Task.run_bind, htake, hbuild, Task.run_pure]

theorem run_dequeue (hidle : w.Idle) (h : Coherent w.db w.memoryQueue.items) :
    ∃ r db heap, QueueManager.dequeue.run w =
        some (.ok r, { w with db, memoryQueue := heap, locked := false }) ∧
      Dequeues w.db w.memoryQueue.items r db heap.items := by
  cases hitems : w.memoryQueue.items with
  | nil =>
      obtain ⟨r, db, hrun, hspec⟩ := run_dequeueOverflow
        (w := { w with locked := true, memoryQueue := .empty }) hidle.fault (h.sublist (List.nil_sublist _)) rfl
      refine ⟨r, db, .empty, ?_, hspec⟩
      refine run_withLock (u := { w with db, memoryQueue := .empty, locked := true }) hidle.free ?_
      simp only [Task.run_bind, run_queuePop, MaxHeap.pop_of_nil hitems, hrun]
  | cons item rest =>
      obtain ⟨sorted, hpop⟩ := MaxHeap.pop_of_cons hitems
      obtain ⟨row, hrow, hbacks⟩ := h.backed item (hitems ▸ List.mem_cons_self)
      obtain ⟨f, hf, hmark⟩ := run_markEntry
        (w := { w with locked := true, memoryQueue := ⟨rest, sorted⟩ }) hidle.fault marks_processing
        (h.uniqueExecution.lookup hrow hbacks.execution)
      refine ⟨some item, _, ⟨rest, sorted⟩, ?_, .fromHeap rfl hrow hbacks hf⟩
      refine run_withLock (u := { w with
        db := restamp f row.id w.db, memoryQueue := ⟨rest, sorted⟩, locked := true }) hidle.free ?_
      simp only [Task.run_bind, run_queuePop, hpop, hmark, Task.run_pure]

namespace Dequeues

variable {r : Option QueueItem} {db' : Db} {heap' : List QueueItem}

theorem coherent (hspec : Dequeues db heap r db' heap') (h : Coherent db heap) : Coherent db' heap' := by
  cases hspec with
  | @fromHeap item rest row f hheap hrow hbacks hf =>
      subst hheap
      refine (h.sublist (List.sublist_cons_self item heap')).restamp hf hrow fun other hother heq => ?_
      have hnodup := h.distinct
      rw [List.map_cons, List.nodup_cons] at hnodup
      exact hnodup.1 (List.mem_map.mpr ⟨other, hother, heq.trans hbacks.execution⟩)
  | fromTable hheap horder hbacks hf =>
      subst hheap
      exact h.restamp hf (mem_queuedInOrder.mp (horder ▸ List.mem_cons_self)).1 fun _ hitem => by cases hitem
  | nothing hheap hnone =>
      subst hheap
      exact h

end Dequeues

/-! ### Enqueue -/

theorem insertEntry_ok {entry : QueueEntry} {r : Unit × Db}
    (h : QueueRepository.insertEntry entry db = .ok r) :
    r = ((), db.setQueue (db.jobQueue ++ [entry])) ∧
      Rows.hits QueueEntry.id entry.id db.jobQueue = 0 ∧
      Rows.hits QueueEntry.executionId entry.executionId db.jobQueue = 0 ∧
      ∃ exec ∈ db.executions, exec.id = entry.executionId := by
  unfold QueueRepository.insertEntry at h
  split at h
  · cases h
  rename_i hid
  split at h
  · cases h
  rename_i hexecution
  split at h
  · cases h
  rename_i hstored
  split at h
  · cases h
  cases h
  exact ⟨rfl, not_not.mp hid, not_not.mp hexecution, Rows.hits_ne_zero.mp hstored⟩

/-- The heap after an item is pushed if there is room. -/
def pushed (qm : QueueManager) (heap : MemoryQueue) (item : QueueItem) : MemoryQueue :=
  if heap.len < qm.maxMemorySize then heap.push item else heap

theorem run_pushIfRoom (qm : QueueManager) (item : QueueItem) : (qm.pushIfRoom item).run w =
    some (.ok (), { w with memoryQueue := pushed qm w.memoryQueue item }) := by
  simp only [QueueManager.pushIfRoom, Task.run_bind, run_queueLen, pushed]
  split
  · simp only [run_queuePush]
  · simp only [Task.run_pure]

/-- The row that enqueueing an item writes. -/
def entryOf (item : QueueItem) (w : World) : QueueEntry :=
  .new w.nextUuid item.executionId item.jobId item.priority (toRfc3339 w.now)

theorem run_enqueue_ok (qm : QueueManager) (hidle : w.Idle) (item : QueueItem)
    (hinsert : QueueRepository.insertEntry (entryOf item w) w.db =
      .ok ((), w.db.setQueue (w.db.jobQueue ++ [entryOf item w]))) :
    (qm.enqueue item).run w = some (.ok (), { w with
      db := w.db.setQueue (w.db.jobQueue ++ [entryOf item w])
      memoryQueue := pushed qm w.memoryQueue item
      nextUuid := w.nextUuid + 1
      locked := false }) := by
  have hsql : (sql (fun _ _ => .enqueue (entryOf item w)) fun _ =>
      QueueRepository.insertEntry (entryOf item w)).run
        { w with locked := true, nextUuid := w.nextUuid + 1 } = _ :=
    run_sql (w := { w with locked := true, nextUuid := w.nextUuid + 1 }) hidle.fault
  simp only [hinsert] at hsql
  apply run_withLock (u := { w with
    db := w.db.setQueue (w.db.jobQueue ++ [entryOf item w])
    memoryQueue := pushed qm w.memoryQueue item
    locked := true
    nextUuid := w.nextUuid + 1 }) hidle.free
  simp only [Task.run_bind, run_newV4, run_nowRfc3339, QueueRepository.enqueue]
  rw [show QueueEntry.new w.nextUuid item.executionId item.jobId item.priority (toRfc3339 w.now) =
    entryOf item w from rfl, hsql]
  simp only [Task.run_pure, run_pushIfRoom]

/-- An enqueue fails and adds nothing, or adds its row. -/
theorem run_enqueue_cases (qm : QueueManager) (hidle : w.Idle) (item : QueueItem) :
    (∃ e, (qm.enqueue item).run w =
      some (.error e, { w with nextUuid := w.nextUuid + 1, locked := false })) ∨
    QueueRepository.insertEntry (entryOf item w) w.db =
      .ok ((), w.db.setQueue (w.db.jobQueue ++ [entryOf item w])) := by
  cases hinsert : QueueRepository.insertEntry (entryOf item w) w.db with
  | error e =>
      have hsql : (sql (fun _ _ => .enqueue (entryOf item w)) fun _ =>
          QueueRepository.insertEntry (entryOf item w)).run
            { w with locked := true, nextUuid := w.nextUuid + 1 } = _ :=
        run_sql (w := { w with locked := true, nextUuid := w.nextUuid + 1 }) hidle.fault
      simp only [hinsert] at hsql
      refine .inl ⟨databaseError e, run_withLock
        (u := { w with locked := true, nextUuid := w.nextUuid + 1 }) hidle.free ?_⟩
      simp only [Task.run_bind, run_newV4, run_nowRfc3339, QueueRepository.enqueue]
      rw [show QueueEntry.new w.nextUuid item.executionId item.jobId item.priority (toRfc3339 w.now) =
        entryOf item w from rfl, hsql]
  | ok r =>
      obtain ⟨rfl, _⟩ := insertEntry_ok hinsert
      exact .inr rfl

theorem run_enqueue (qm : QueueManager) (hidle : w.Idle) (item : QueueItem) :
    (∃ e, (qm.enqueue item).run w =
      some (.error e, { w with nextUuid := w.nextUuid + 1, locked := false })) ∨
    ∃ entry : QueueEntry, entry.executionId = item.executionId ∧ entry.priority = item.priority ∧
      entry.status = .queued ∧
      QueueRepository.insertEntry entry w.db = .ok ((), w.db.setQueue (w.db.jobQueue ++ [entry])) ∧
      (qm.enqueue item).run w = some (.ok (), { w with
        db := w.db.setQueue (w.db.jobQueue ++ [entry])
        memoryQueue := pushed qm w.memoryQueue item
        nextUuid := w.nextUuid + 1
        locked := false }) := by
  rcases run_enqueue_cases qm hidle item with herror | hinsert
  · exact .inl herror
  · exact .inr ⟨entryOf item w, rfl, rfl, rfl, hinsert, run_enqueue_ok qm hidle item hinsert⟩

/-! ### Remove and retry -/

theorem run_remove (hidle : w.Idle) (executionId : Uuid) :
    (QueueManager.remove executionId).run w = some (.ok (), { w with
      db := w.db.setQueue (Rows.remove QueueEntry.executionId executionId w.db.jobQueue)
      memoryQueue := .ofList (w.memoryQueue.items.filter fun i => i.executionId != executionId)
      locked := false }) := by
  refine run_withLock (u := { w with
    db := w.db.setQueue (Rows.remove QueueEntry.executionId executionId w.db.jobQueue)
    memoryQueue := .ofList (w.memoryQueue.items.filter fun i => i.executionId != executionId)
    locked := true }) hidle.free ?_
  simp only [Task.run_bind, run_queueDrainOther]
  exact run_removeByExecution (w := { w with
    memoryQueue := .ofList (w.memoryQueue.items.filter fun i => i.executionId != executionId)
    locked := true }) hidle.fault executionId

/-- A dead letter is queued again; any other entry is refused, and an unknown execution ignored. -/
theorem run_retryDeadLetter (qm : QueueManager) (hidle : w.Idle) (hlinked : w.db.Linked)
    (executionId : Uuid) :
    (∃ r, (qm.retryDeadLetter executionId).run w = some (r, w)) ∨
    ∃ row ∈ w.db.jobQueue, ∃ f item, row.executionId = executionId ∧ row.status = .deadLetter ∧
      Restamps f .queued ∧ (f row).Backs item ∧
      (qm.retryDeadLetter executionId).run w = some (.ok (), { w with
        db := restamp f row.id w.db
        memoryQueue := pushed qm w.memoryQueue item
        locked := false }) := by
  cases hlookup : Rows.lookup QueueEntry.executionId executionId w.db.jobQueue with
  | none =>
      refine .inl ⟨.ok (), ?_⟩
      simp only [QueueManager.retryDeadLetter, Task.run_bind, run_getByExecution hidle.fault, hlookup,
        Task.run_pure]
  | some row =>
      by_cases hdead : row.status = .deadLetter
      · have hrow := Rows.mem_of_lookup hlookup
        obtain ⟨f, hf, hrequeue⟩ := run_requeue hidle.fault row.id
        obtain ⟨item, hitem, hpriority, hbuild⟩ :=
          run_reconstructItem (w := { w with db := restamp f row.id w.db }) hidle.fault
            (hlinked.setQueue fun _ => hf.source) (Rows.mem_modify_of_eq hrow rfl) row
            (hf.executionId row).symm
        refine .inr ⟨row, hrow, f, item, Rows.column_of_lookup hlookup, hdead, hf,
          ⟨hitem.symm, hf.status row, (hf.priority row).trans hpriority.symm⟩, ?_⟩
        simp only [QueueManager.retryDeadLetter, Task.run_bind, run_getByExecution hidle.fault, hlookup,
          hdead, ne_eq, not_true_eq_false, ↓reduceIte, hrequeue, hbuild]
        exact run_withLock (w := { w with db := restamp f row.id w.db }) hidle.free
          (run_pushIfRoom qm item)
      · refine .inl ⟨.error (.validation "Entry is not in dead letter queue"), ?_⟩
        simp only [QueueManager.retryDeadLetter, Task.run_bind, run_getByExecution hidle.fault, hlookup,
          ne_eq, hdead, not_false_eq_true, ↓reduceIte, Task.run_throw]

end Serverust
