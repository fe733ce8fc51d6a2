import Serverust.Proof.Priority

/-!
# Removing from the heap

`remove` drains the heap in any order and pushes back what it keeps. Execution ids tell the items apart, so
the heap pops the rest in the order it had.
-/

namespace Serverust

open Calendar Resumption

namespace PopOrder

section

variable {w w' : World} {e : Uuid} {r : Except AppError Unit}

/-- What `remove` does to the two stores: the row stays if its statement fails. -/
theorem run_remove_cases (hrun : (QueueManager.remove e).run w = some (r, w')) :
    w'.memoryQueue = .ofList (w.memoryQueue.items.filter fun i => i.executionId != e) ∧
      (w'.db.jobQueue = w.db.jobQueue ∨ w'.db.jobQueue = Rows.remove QueueEntry.executionId e w.db.jobQueue) := by
  obtain ⟨u, hbody, rfl⟩ := run_of_withLock hrun
  simp only [Task.run_bind, run_queueDrainOther, QueueRepository.removeByExecution, execute, sql,
    Task.run_action] at hbody
  cases hfault : w.fault with
  | none =>
      simp only [World.query, hfault] at hbody
      cases hbody
      exact ⟨rfl, .inr rfl⟩
  | some text =>
      simp only [World.query, hfault] at hbody
      cases hbody
      exact ⟨rfl, .inl rfl⟩

theorem key_injective {items : List QueueItem} (hdistinct : (items.map QueueItem.executionId).Nodup) :
    ∀ x ∈ items, ∀ y ∈ items, x.key = y.key → x = y := by
  intro x hx y hy hkey
  have hid : x.executionId = y.executionId := congrArg (fun k => (ofLex k).2) hkey
  exact List.inj_on_of_nodup_map hdistinct hx hy hid

/-- After `remove`, the heap pops what it popped before without the item of the execution, by priority, in
whatever order the drain yielded the items, and the rows of other executions are as they were. -/
theorem removed_from_pops (hdistinct : (w.memoryQueue.items.map QueueItem.executionId).Nodup)
    (hrun : (QueueManager.remove e).run w = some (r, w')) :
    w'.memoryQueue.popAll = w.memoryQueue.popAll.filter (fun i => i.executionId != e) ∧
    (w'.memoryQueue.popAll.Pairwise fun i j => j.priority ≤ i.priority) ∧
    (∀ drained popped : List QueueItem, drained.Perm w.memoryQueue.items →
      MaxHeap.Pops QueueItem.key (drained.filter fun i => i.executionId != e) popped →
      popped = w'.memoryQueue.popAll) ∧
    w'.db.jobQueue.filter (fun row => row.executionId ≠ e) =
      w.db.jobQueue.filter fun row => row.executionId ≠ e := by
  obtain ⟨hheap, hrows⟩ := run_remove_cases hrun
  have hperm : w'.memoryQueue.items.Perm (w.memoryQueue.items.filter fun i => i.executionId != e) := by
    rw [hheap]
    exact MaxHeap.ofList_perm _
  have hkeys := key_injective hdistinct
  have hafter := MaxHeap.Pops.popAll w'.memoryQueue
  refine ⟨?_, ?_, ?_, ?_⟩
  · refine hafter.unique ((MaxHeap.Pops.popAll w.memoryQueue).filter _) hperm fun x hx y hy => ?_
    exact hkeys x (List.mem_of_mem_filter (hperm.mem_iff.mp hx)) y (List.mem_of_mem_filter (hperm.mem_iff.mp hy))
  · exact hafter.sorted.imp QueueItem.priority_le_of_key_le
  · intro drained popped hdrained hpops
    refine hpops.unique hafter ((hdrained.filter _).trans hperm.symm) fun x hx y hy => ?_
    exact hkeys x (hdrained.mem_iff.mp (List.mem_of_mem_filter hx)) y
      (hdrained.mem_iff.mp (List.mem_of_mem_filter hy))
  · rcases hrows with hsame | hremoved
    · rw [hsame]
    · rw [hremoved, Rows.remove, List.filter_filter]
      simp only [Bool.and_self]

end

/-- Three queued executions, two of the same priority. -/
def crowded : World :=
  { World.sample 3 [7, 8, 9] with memoryQueue := .ofList [.sample 7 1, .sample 8 3, .sample 9 3] }

theorem removed_from_pops_sample : ∃ w', (QueueManager.remove 8).run crowded = some (.ok (), w') ∧
    w'.memoryQueue.popAll = crowded.memoryQueue.popAll.filter (fun i => i.executionId != 8) ∧
    crowded.memoryQueue.popAll.map QueueItem.executionId = [9, 8, 7] :=
  ⟨_, rfl, (removed_from_pops (by decide) rfl).1, by rw [MaxHeap.popAll_eq]; decide⟩

end PopOrder

end Serverust
