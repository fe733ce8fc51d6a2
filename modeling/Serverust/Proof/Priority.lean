import Serverust.Proof.Session

/-!
# Which execution is dequeued

The heap is served before the overflow. So a dequeue returns the highest priority of the heap while the
heap has items, and the highest priority of all queued rows once it has none.
-/

namespace Serverust

open Calendar Resumption

/-- Enqueues and dequeues, with anything other tasks do. -/
def Op.queues : Op → Bool
  | .enqueue _ | .dequeue | .elsewhere => true
  | _ => false

theorem QueueItem.priority_le_of_key_le {a b : QueueItem} (h : a.key ≤ b.key) :
    a.priority ≤ b.priority := by
  rcases Prod.Lex.toLex_le_toLex.mp h with hlt | ⟨heq, _⟩
  · exact hlt.le
  · exact heq.le

theorem QueueEntry.Precedes.priority_le {a b : QueueEntry} (h : a.Precedes b) :
    b.priority ≤ a.priority := by
  rcases h with hlt | ⟨heq, _⟩
  · exact hlt.le
  · exact heq.ge

/-- The first row in the order of the table has the highest priority of all queued rows. -/
theorem priority_le_first {rows rest : List QueueEntry} {row other : QueueEntry}
    (horder : QueueRepository.queuedInOrder rows = row :: rest) (hother : other ∈ rows)
    (hqueued : other.status = .queued) : other.priority ≤ row.priority := by
  have hsorted := horder ▸ pairwise_queuedInOrder rows
  have hmem := horder ▸ mem_queuedInOrder.mpr ⟨hother, hqueued⟩
  rcases List.mem_cons.mp hmem with rfl | hrest
  · exact le_rfl
  · exact (List.rel_of_pairwise_cons hsorted hrest).priority_le

namespace Session

variable {qm : QueueManager} {allowed : Op → Prop}

/-- While the heap has items, the dequeued execution has the highest priority of those in the heap; once
it has none, the highest priority of all queued executions. -/
theorem dequeue_highest {s : Session} (h : Reached qm allowed s) {item : QueueItem} {w : World}
    (hrun : QueueManager.dequeue.run s.world = some (.ok (some item), w)) :
    ∃ row ∈ s.world.db.jobQueue, row.executionId = item.executionId ∧ row.status = .queued ∧
      ∀ other ∈ s.world.db.jobQueue, other.status = .queued →
        (s.world.memoryQueue.items = [] ∨
          other.executionId ∈ s.world.memoryQueue.items.map QueueItem.executionId) →
        other.priority ≤ row.priority := by
  have hcoherent := h.sound.coherent
  obtain ⟨r, db, heap, hrun', hspec⟩ := run_dequeue h.sound.idle hcoherent
  rw [hrun] at hrun'
  cases hrun'
  generalize heap.items = left at hspec
  cases hspec with
  | @fromHeap item rest row f hheap hrow hbacks hf =>
      refine ⟨row, hrow, hbacks.execution, hbacks.queued, fun other hother _ hin => ?_⟩
      rcases hin with hnil | hin
      · rw [hheap] at hnil
        cases hnil
      · obtain ⟨i, hi, heq⟩ := List.mem_map.mp hin
        rw [(hcoherent.backs_of_executionId hi hother heq.symm).priority, hbacks.priority]
        exact QueueItem.priority_le_of_key_le (MaxHeap.key_le_of_mem hheap hi)
  | @fromTable item row rest f hheap horder hbacks hf =>
      have hrow := (mem_queuedInOrder.mp (horder ▸ List.mem_cons_self : row ∈ _)).1
      exact ⟨row, hrow, hbacks.execution, hbacks.queued, fun other hother hqueued _ =>
        priority_le_first horder hother hqueued⟩

theorem dequeue_highest_overflowing :
    ∃ row ∈ overflowing.world.db.jobQueue, row.executionId = 7 ∧ row.status = .queued ∧
      ∀ other ∈ overflowing.world.db.jobQueue, other.status = .queued →
        (overflowing.world.memoryQueue.items = [] ∨
          other.executionId ∈ overflowing.world.memoryQueue.items.map QueueItem.executionId) →
        other.priority ≤ row.priority := by
  have hrun : QueueManager.dequeue.run overflowing.world =
    some (.ok (some (.sample 7 1)), overflowing.world.after QueueManager.dequeue) := rfl
  exact dequeue_highest (reached_overflowing (fun _ => True) fun _ => trivial) hrun

/-- An execution of low priority in the heap is dequeued before one of high priority in the overflow. -/
theorem dequeue_skips_overflow :
    ¬ ∀ (qm : QueueManager) (s : Session), Reached qm (fun op => op.queues = true) s →
      ∀ (item : QueueItem) (w : World),
        QueueManager.dequeue.run s.world = some (.ok (some item), w) →
        ∀ row ∈ s.world.db.jobQueue, row.status = .queued → row.priority ≤ item.priority := by
  intro h
  have hall := h ⟨1, 3⟩ overflowing (reached_overflowing _ fun _ => rfl) (.sample 7 1)
    (overflowing.world.after QueueManager.dequeue) rfl
  exact absurd hall (by decide)

end Session

end Serverust
