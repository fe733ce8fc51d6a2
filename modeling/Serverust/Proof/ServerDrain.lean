import Serverust.Proof.Drain
import Serverust.Proof.ServerRuns

/-!
# Draining the queue of a server

The two stores of the queue can disagree: the heap may hold an execution twice, or one that is deleted. Even so
every queued row can be rebuilt into an item, and dequeuing until nothing is left delivers every execution that is
queued.
-/

namespace Serverust

open Calendar Resumption

/-- The executions that a row of the queue waits for. -/
def waiting (db : Db) : List Uuid :=
  (db.jobQueue.filter fun row => row.status = .queued).map QueueEntry.executionId

theorem mem_waiting {db : Db} {e : Uuid} :
    e ∈ waiting db ↔ ∃ row ∈ db.jobQueue, row.status = .queued ∧ row.executionId = e := by
  simp only [waiting, List.mem_map, List.mem_filter, decide_eq_true_eq, and_assoc]

/-- Every row of the queue can be rebuilt, whatever the heap holds. -/
structure Db.Rebuildable (db : Db) : Prop where
  id : Rows.Unique QueueEntry.id db.jobQueue
  execution : Rows.Unique QueueEntry.executionId db.jobQueue
  linked : db.Linked

theorem Db.Consistent.rebuildable {cron : Cron} {db : Db} (h : db.Consistent cron) : db.Rebuildable where
  id := h.keyed.entries
  execution := h.keyed.entryExecutions
  linked := {
    entry := fun row hrow => h.referenced.entryExecution row hrow _ rfl
    execution := fun x hx => h.referenced.executionJob x hx _ rfl }

namespace Db.Rebuildable

variable {db : Db} {f : QueueEntry → QueueEntry} {status : QueueStatus} {row : QueueEntry}

theorem restamp (h : db.Rebuildable) (hf : Restamps f status) (id : Uuid) : (restamp f id db).Rebuildable where
  id := h.id.modify hf.id id
  execution := h.execution.modify hf.executionId id
  linked := h.linked.setQueue fun _ => hf.source

/-- A row that is no longer queued takes its execution, and no other, from those that wait. -/
theorem waiting_restamp (h : db.Rebuildable) (hf : Restamps f status) (hstatus : status ≠ .queued)
    (hrow : row ∈ db.jobQueue) :
    waiting (Serverust.restamp f row.id db) = (waiting db).filter fun e => e ≠ row.executionId := by
  have hsame : ∀ other ∈ db.jobQueue, other.id = row.id ↔ other.executionId = row.executionId := by
    intro other hother
    constructor
    · exact fun hid => h.id.eq_of_column hother hrow hid ▸ rfl
    · exact fun heq => h.execution.eq_of_column hother hrow heq ▸ rfl
  rw [waiting, Serverust.restamp, Db.setQueue_jobQueue,
    Rows.filter_modify fun other => by simp only [hf.status, hstatus, decide_false]]
  rw [waiting, List.filter_map, List.filter_filter]
  congr 1
  apply List.filter_congr
  intro other hother
  simp only [Function.comp_apply, ne_eq, hsame other hother, Bool.and_comm]

end Db.Rebuildable

/-! ### One dequeue -/

/-- What a dequeue does to the two stores, whether or not they agree. -/
inductive Takes (db : Db) (heap : List QueueItem) : Option QueueItem → Db → List QueueItem → Prop
  | fromHeap {item : QueueItem} {rest : List QueueItem} {db' : Db} (hheap : heap = item :: rest)
      (hwaiting : waiting db' = (waiting db).filter fun e => e ≠ item.executionId) :
      Takes db heap (some item) db' rest
  | fromTable {item : QueueItem} {db' : Db} (hheap : heap = []) (hmem : item.executionId ∈ waiting db)
      (hwaiting : waiting db' = (waiting db).filter fun e => e ≠ item.executionId) :
      Takes db heap (some item) db' []
  | nothing (hheap : heap = []) (hnone : waiting db = []) : Takes db heap none db []

namespace Takes

variable {db db' : Db} {heap heap' : List QueueItem} {item : QueueItem}

theorem eq_nil (h : Takes db heap none db' heap') : heap = [] ∧ waiting db = [] := by
  cases h with
  | nothing hheap hnone => exact ⟨hheap, hnone⟩

theorem waiting_eq (h : Takes db heap (some item) db' heap') :
    waiting db' = (waiting db).filter fun e => e ≠ item.executionId := by
  cases h with
  | fromHeap _ hwaiting => exact hwaiting
  | fromTable _ _ hwaiting => exact hwaiting

theorem source (h : Takes db heap (some item) db' heap') : item ∈ heap ∨ item.executionId ∈ waiting db := by
  cases h with
  | fromHeap hheap _ => exact .inl (hheap ▸ List.mem_cons_self)
  | fromTable _ hmem _ => exact .inr hmem

theorem subset {r : Option QueueItem} (h : Takes db heap r db' heap') : heap' ⊆ heap := by
  cases h with
  | fromHeap hheap _ => exact hheap ▸ List.subset_cons_self _ _
  | fromTable => exact List.nil_subset _
  | nothing => exact List.nil_subset _

theorem length_lt (h : Takes db heap (some item) db' heap') :
    heap'.length + (waiting db').length < heap.length + (waiting db).length := by
  have hwaiting := h.waiting_eq
  cases h with
  | fromHeap hheap _ =>
      have hle := List.length_filter_le (fun e => decide (e ≠ item.executionId)) (waiting db)
      rw [hheap, hwaiting, List.length_cons]
      omega
  | fromTable hheap hmem _ =>
      have hlt : ((waiting db).filter fun e => e ≠ item.executionId).length < (waiting db).length := by
        refine List.length_filter_lt_length_iff_exists.mpr ⟨_, hmem, ?_⟩
        simp only [ne_eq, not_true_eq_false, decide_false, Bool.false_eq_true, not_false_eq_true]
      rw [hheap, hwaiting]
      exact Nat.add_lt_add_left hlt _

end Takes

variable {w : World}

theorem run_dequeueOverflow_any (hfault : w.fault = none) (h : w.db.Rebuildable) :
    ∃ r db, QueueManager.dequeueOverflow.run w = some (.ok r, { w with db }) ∧ db.Rebuildable ∧
      Takes w.db [] r db [] := by
  cases horder : QueueRepository.queuedInOrder w.db.jobQueue with
  | nil =>
      have hnone : waiting w.db = [] := by
        refine List.eq_nil_iff_forall_not_mem.mpr fun e he => ?_
        obtain ⟨row, hrow, hqueued, _⟩ := mem_waiting.mp he
        have hmem := mem_queuedInOrder.mpr ⟨hrow, hqueued⟩
        rw [horder] at hmem
        cases hmem
      refine ⟨none, w.db, ?_, h, .nothing rfl hnone⟩
      simp only [QueueManager.dequeueOverflow, Task.run_bind, run_dequeueAtomic_none hfault horder, Task.run_pure]
  | cons row rest =>
      obtain ⟨f, hf, htake⟩ := run_dequeueAtomic hfault h.id horder
      obtain ⟨hrow, hqueued⟩ :=
        mem_queuedInOrder.mp (horder ▸ List.mem_cons_self : row ∈ QueueRepository.queuedInOrder _)
      have hrest := h.restamp hf row.id
      obtain ⟨item, hitem, _, hbuild⟩ := run_reconstructItem (w := { w with db := restamp f row.id w.db }) hfault
        hrest.linked (Rows.mem_modify_of_eq hrow rfl) (f row) rfl
      have hid : item.executionId = row.executionId := hitem.trans (hf.executionId row)
      have hmem : item.executionId ∈ waiting w.db := mem_waiting.mpr ⟨row, hrow, hqueued, hid.symm⟩
      have hwaiting := h.waiting_restamp hf (by decide) hrow
      rw [← hid] at hwaiting
      refine ⟨some item, _, ?_, hrest, .fromTable rfl hmem hwaiting⟩
      simp only [QueueManager.dequeueOverflow, Task.run_bind, htake, hbuild, Task.run_pure]

theorem run_dequeue_any (hidle : w.Idle) (h : w.db.Rebuildable) :
    ∃ r db heap, QueueManager.dequeue.run w = some (.ok r, { w with db, memoryQueue := heap, locked := false }) ∧
      db.Rebuildable ∧ Takes w.db w.memoryQueue.items r db heap.items := by
  cases hitems : w.memoryQueue.items with
  | nil =>
      obtain ⟨r, db, hrun, hdb, htakes⟩ := run_dequeueOverflow_any
        (w := { w with locked := true, memoryQueue := .empty }) hidle.fault h
      refine ⟨r, db, .empty, ?_, hdb, htakes⟩
      refine run_withLock (u := { w with db, memoryQueue := .empty, locked := true }) hidle.free ?_
      simp only [Task.run_bind, run_queuePop, MaxHeap.pop_of_nil hitems, hrun]
  | cons item rest =>
      obtain ⟨sorted, hpop⟩ := MaxHeap.pop_of_cons hitems
      set u : World := { w with locked := true, memoryQueue := ⟨rest, sorted⟩ } with hu
      -- the item may have no row
      obtain ⟨db, hmark, hdb, hwaiting⟩ : ∃ db, (QueueManager.markEntry .markProcessing item.executionId).run u =
          some (.ok (), { u with db }) ∧ db.Rebuildable ∧
            waiting db = (waiting w.db).filter fun e => e ≠ item.executionId := by
        cases hlookup : Rows.lookup QueueEntry.executionId item.executionId w.db.jobQueue with
        | none =>
            refine ⟨w.db, run_markEntry_none (w := u) hidle.fault _ hlookup, h, ?_⟩
            refine (List.filter_eq_self.mpr fun e he => decide_eq_true ?_).symm
            rintro rfl
            obtain ⟨row, hrow, _, hid⟩ := mem_waiting.mp he
            exact Rows.lookup_eq_none.mp hlookup row hrow hid
        | some row =>
            obtain ⟨f, hf, hrun⟩ := run_markEntry (w := u) hidle.fault marks_processing hlookup
            refine ⟨_, hrun, h.restamp hf row.id, ?_⟩
            rw [← Rows.column_of_lookup hlookup]
            exact h.waiting_restamp hf (by decide) (Rows.mem_of_lookup hlookup)
      refine ⟨some item, db, ⟨rest, sorted⟩, ?_, hdb, .fromHeap rfl hwaiting⟩
      refine run_withLock (u := { u with db }) hidle.free ?_
      simp only [Task.run_bind, run_queuePop, hpop]
      rw [← hu, hmark]
      rfl

/-! ### Repeated dequeues -/

/-- How often a dequeue can still return an item. -/
def pending (w : World) : Nat := w.memoryQueue.len + (waiting w.db).length

/-- Draining ends, delivers every execution that waits, and returns nothing but items of the heap and executions
that wait. -/
theorem drain_any (clock : Nat → DateTime) {n : Nat} {w : World} (hidle : w.Idle) (h : w.db.Rebuildable)
    (hn : pending w ≤ n) :
    ∃ items, drain clock (n + 1) w = some items ∧ items.length ≤ pending w ∧
      (∀ e ∈ waiting w.db, e ∈ items.map QueueItem.executionId) ∧
      ∀ item ∈ items, item ∈ w.memoryQueue.items ∨ item.executionId ∈ waiting w.db := by
  generalize hpending : pending w = m at hn ⊢
  induction m using Nat.strong_induction_on generalizing w n with
  | _ m ih =>
      obtain ⟨r, db, heap, hrun, hdb, htakes⟩ :=
        run_dequeue_any (w := { w with now := clock n }) ⟨hidle.free, hidle.fault⟩ h
      cases r with
      | none =>
          obtain ⟨_, hnone⟩ := htakes.eq_nil
          refine ⟨[], by simp only [drain, hrun], Nat.zero_le _, ?_, List.forall_mem_nil _⟩
          rw [hnone]
          exact List.forall_mem_nil _
      | some item =>
          have hless : heap.items.length + (waiting db).length < m := hpending ▸ htakes.length_lt
          obtain ⟨k, rfl⟩ : ∃ k, n = k + 1 := ⟨n - 1, by omega⟩
          obtain ⟨items, hdrain, hlength, hdelivered, hfrom⟩ :=
            ih (heap.items.length + (waiting db).length) hless (n := k)
              (w := { w with now := clock (k + 1), db, memoryQueue := heap, locked := false })
              ⟨rfl, hidle.fault⟩ hdb rfl (by omega)
          refine ⟨item :: items, ?_, ?_, fun e he => ?_, ?_⟩
          · rw [drain]
            simp only [hrun, hdrain, Option.map_some]
          · rw [List.length_cons]
            omega
          · rw [List.map_cons, List.mem_cons]
            by_cases heq : e = item.executionId
            · exact .inl heq
            · refine .inr (hdelivered e ?_)
              rw [htakes.waiting_eq]
              exact List.mem_filter.mpr ⟨he, decide_eq_true heq⟩
          · intro other hother
            rcases List.mem_cons.mp hother with rfl | hrest
            · exact htakes.source
            · refine (hfrom other hrest).imp (fun hmem => htakes.subset hmem) fun hmem => ?_
              rw [htakes.waiting_eq] at hmem
              exact (List.mem_filter.mp hmem).1

namespace Server

variable {server : Server} {c : Config Event World Unit}

/-- No execution is stuck in the queue: from any configuration of any life in which the mutex is free and no
statement fails, dequeuing until nothing is left ends, and delivers every execution whose row is queued. -/
theorem drains (hstart : server.Starts w) (hrun : server.Reached w c) (hidle : c.world.Idle)
    (clock : Nat → DateTime) :
    ∃ items, drain clock (c.world.memoryQueue.len + c.world.db.jobQueue.length + 1) c.world = some items ∧
      (∀ row ∈ c.world.db.jobQueue, row.status = .queued → row.executionId ∈ items.map QueueItem.executionId) ∧
      ∀ item ∈ items, item ∈ c.world.memoryQueue.items ∨
        ∃ row ∈ c.world.db.jobQueue, row.status = .queued ∧ row.executionId = item.executionId := by
  have hle : pending c.world ≤ c.world.memoryQueue.len + c.world.db.jobQueue.length := by
    apply Nat.add_le_add_left
    rw [waiting, List.length_map]
    exact List.length_filter_le _ _
  obtain ⟨items, hdrain, _, hdelivered, hfrom⟩ := drain_any clock hidle (hrun.holds hstart).inv.1.rebuildable hle
  refine ⟨items, hdrain, ?_, fun item hitem => (hfrom item hitem).imp_right mem_waiting.mp⟩
  exact fun row hrow hqueued => hdelivered _ (mem_waiting.mpr ⟨row, hrow, hqueued, rfl⟩)

/-- Of two queued executions the one in the heap is deleted, and its item stays there. -/
theorem drains_sample : ∃ c, sample.Reached (.sample 0 []) c ∧
    (c.world.memoryQueue.items.map QueueItem.executionId = [1000] ∧
      c.world.db.jobQueue.map QueueEntry.executionId = [1002]) ∧
    ∃ items, drain (fun _ => epoch) (c.world.memoryQueue.len + c.world.db.jobQueue.length + 1) c.world =
      some items ∧ 1002 ∈ items.map QueueItem.executionId := by
  have hexec : (sample.system.exec (fun _ _ _ => true)
      ([execute, execute, .spawn (.request (.deleteExecution 1000))] ++ List.replicate 13 (.run 0) ++
        List.replicate 12 (.run 1) ++ List.replicate 2 (.run 2)) (initial (.sample 0 []))).map
          (fun c => (c.world.memoryQueue.items.map QueueItem.executionId,
            c.world.db.jobQueue.map QueueEntry.executionId,
            c.world.db.jobQueue.map QueueEntry.status, c.world.locked, c.world.fault)) =
        some ([1000], [1002], [.queued], false, none) := by decide +kernel
  obtain ⟨c, hrun, heq⟩ := reached_sample hexec
  simp only [Prod.mk.injEq] at heq
  obtain ⟨hheap, hids, hstatus, hfree, hfault⟩ := heq
  obtain ⟨items, hdrain, hdelivered, _⟩ := drains starts_sample hrun ⟨hfree, hfault⟩ fun _ => epoch
  refine ⟨c, hrun, ⟨hheap, hids⟩, items, hdrain, ?_⟩
  have hmem : 1002 ∈ c.world.db.jobQueue.map QueueEntry.executionId := by
    rw [hids]
    exact List.mem_singleton.mpr rfl
  obtain ⟨row, hrow, hid⟩ := List.mem_map.mp hmem
  have hrowStatus : row.status ∈ c.world.db.jobQueue.map QueueEntry.status := List.mem_map_of_mem hrow
  rw [hstatus, List.mem_singleton] at hrowStatus
  exact hid ▸ hdelivered row hrow hrowStatus

end Server

end Serverust
