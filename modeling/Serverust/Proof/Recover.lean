import Serverust.Proof.Priority

/-!
# Recovery after a restart

`recover` makes every interrupted row queued again and loads the first rows of the table's order into
the heap. The heap then holds the highest priorities and the overflow the rest, so a drain returns every
queued execution once, in non-increasing priority.
-/

namespace Serverust

open Calendar Resumption

variable {w : World} {qm : QueueManager}

/-! ### Loading the heap -/

/-- Loading stops when the heap is full. -/
theorem run_loadEntries (qm : QueueManager) (hfault : w.fault = none) (hlinked : w.db.Linked)
    (entries : List QueueEntry) (hentries : ∀ entry ∈ entries, entry ∈ w.db.jobQueue) :
    ∃ heap : MemoryQueue, (qm.loadEntries entries).run w = some (.ok (), { w with memoryQueue := heap }) ∧
      (heap.items.map QueueItem.ticket).Perm
        ((entries.take (qm.maxMemorySize - w.memoryQueue.len)).map QueueEntry.ticket ++
          w.memoryQueue.items.map QueueItem.ticket) := by
  induction entries generalizing w with
  | nil =>
      refine ⟨w.memoryQueue, rfl, ?_⟩
      simp only [List.take_nil, List.map_nil, List.nil_append, List.Perm.refl]
  | cons entry rest ih =>
      by_cases hfull : qm.maxMemorySize ≤ w.memoryQueue.len
      · refine ⟨w.memoryQueue, ?_, ?_⟩
        · simp only [QueueManager.loadEntries, Task.run_bind, run_queueLen, hfull, ↓reduceIte, Task.run_pure]
        · rw [Nat.sub_eq_zero_of_le hfull, List.take_zero, List.map_nil, List.nil_append]
      · obtain ⟨item, hexecution, hpriority, hbuild⟩ := run_reconstructItem hfault hlinked
          (hentries entry List.mem_cons_self) entry rfl
        have hticket : item.ticket = entry.ticket := by
          rw [QueueItem.ticket, QueueEntry.ticket, hexecution, hpriority]
        obtain ⟨heap, hrun, hperm⟩ := ih (w := { w with memoryQueue := w.memoryQueue.push item })
          hfault hlinked fun other hother => hentries other (List.mem_cons_of_mem _ hother)
        refine ⟨heap, ?_, hperm.trans ?_⟩
        · simp only [QueueManager.loadEntries, Task.run_bind, run_queueLen, hfull, ↓reduceIte, hbuild,
            run_queuePush, hrun]
        · obtain ⟨room, hroom⟩ : ∃ room, qm.maxMemorySize - w.memoryQueue.len = room + 1 :=
            ⟨qm.maxMemorySize - w.memoryQueue.len - 1, by omega⟩
          have hless : qm.maxMemorySize - (w.memoryQueue.push item).len = room := by
            rw [MaxHeap.len_push]
            omega
          simp only [hless, hroom, List.take_succ_cons, List.map_cons, List.cons_append]
          refine (((w.memoryQueue.push_perm item).map QueueItem.ticket).append_left _).trans ?_
          rw [List.map_cons, hticket]
          exact List.perm_middle

/-! ### The state after recovery -/

/-- The rows after interrupted ones are queued again. -/
def resetRows (rows : List QueueEntry) : List QueueEntry :=
  Rows.modify QueueEntry.status .processing
    (fun row => { row with status := .queued, startedAt := none }) rows

theorem run_resetProcessingToQueued (hfault : w.fault = none) :
    ∃ n, QueueRepository.resetProcessingToQueued.run w =
      some (.ok n, { w with db := w.db.setQueue (resetRows w.db.jobQueue) }) :=
  ⟨_, run_execute hfault⟩

theorem run_getAllQueued (hfault : w.fault = none) : QueueRepository.getAllQueued.run w =
    some (.ok (QueueRepository.queuedInOrder w.db.jobQueue), w) :=
  run_select hfault

theorem run_recover (qm : QueueManager) (hidle : w.Idle) (hlinked : w.db.Linked)
    (hempty : w.memoryQueue.items = []) :
    ∃ heap : MemoryQueue, qm.recover.run w =
        some (.ok (QueueRepository.queuedInOrder (resetRows w.db.jobQueue)).length,
          { w with db := w.db.setQueue (resetRows w.db.jobQueue), memoryQueue := heap, locked := false }) ∧
      (heap.items.map QueueItem.ticket).Perm
        (((QueueRepository.queuedInOrder (resetRows w.db.jobQueue)).take qm.maxMemorySize).map
          QueueEntry.ticket) := by
  have hreset : (w.db.setQueue (resetRows w.db.jobQueue)).Linked :=
    hlinked.setQueue fun row hrow => by
      obtain ⟨old, hold, rfl⟩ := Rows.mem_modify.mp hrow
      exact ⟨old, hold, by split <;> rfl⟩
  obtain ⟨heap, hload, hperm⟩ := run_loadEntries qm
    (w := { w with db := w.db.setQueue (resetRows w.db.jobQueue), locked := true }) hidle.fault hreset
    (QueueRepository.queuedInOrder (resetRows w.db.jobQueue)) fun entry hentry => (mem_queuedInOrder.mp hentry).1
  refine ⟨heap, ?_, ?_⟩
  · have hbody : (do
        qm.loadEntries (QueueRepository.queuedInOrder (resetRows w.db.jobQueue))
        return (QueueRepository.queuedInOrder (resetRows w.db.jobQueue)).length : Async Nat).run
          { w with db := w.db.setQueue (resetRows w.db.jobQueue), locked := true } =
        some (.ok (QueueRepository.queuedInOrder (resetRows w.db.jobQueue)).length, { w with
          db := w.db.setQueue (resetRows w.db.jobQueue), memoryQueue := heap, locked := true }) := by
      simp only [Task.run_bind, hload, Task.run_pure]
    obtain ⟨n, hresetRun⟩ := run_resetProcessingToQueued hidle.fault
    have hqueued := run_getAllQueued (w := { w with db := w.db.setQueue (resetRows w.db.jobQueue) })
      hidle.fault
    simp only [QueueManager.recover, Task.run_bind, hresetRun, hqueued]
    exact run_withLock (w := { w with db := w.db.setQueue (resetRows w.db.jobQueue) }) hidle.free hbody
  · have hlen : w.memoryQueue.len = 0 := by rw [MaxHeap.len, hempty, List.length_nil]
    simpa only [hlen, hempty, List.map_nil, List.append_nil, Nat.sub_zero] using hperm

/-! ### What the drain then returns -/

section Loaded

variable {db : Db} {heap : MemoryQueue} {capacity : Nat}

private theorem perm_executions
    (hperm : (heap.items.map QueueItem.ticket).Perm
      (((QueueRepository.queuedInOrder db.jobQueue).take capacity).map QueueEntry.ticket)) :
    (heap.items.map QueueItem.executionId).Perm
      (((QueueRepository.queuedInOrder db.jobQueue).take capacity).map QueueEntry.executionId) := by
  have hfst := hperm.map Prod.fst
  rw [List.map_map, List.map_map] at hfst
  exact hfst

/-- A heap loaded with the first queued rows is coherent with the table. -/
theorem Coherent.loaded (h : Coherent db [])
    (hperm : (heap.items.map QueueItem.ticket).Perm
      (((QueueRepository.queuedInOrder db.jobQueue).take capacity).map QueueEntry.ticket)) :
    Coherent db heap.items where
  uniqueId := h.uniqueId
  uniqueExecution := h.uniqueExecution
  linked := h.linked
  distinct := (perm_executions hperm).nodup_iff.mpr
    (h.nodup_queued.sublist ((List.take_sublist _ _).map _))
  backed item hitem := by
    obtain ⟨row, hrow, hticket⟩ := List.mem_map.mp (hperm.subset (List.mem_map_of_mem hitem))
    obtain ⟨hmem, hqueued⟩ := mem_queuedInOrder.mp (List.mem_of_mem_take hrow)
    exact ⟨row, hmem, congrArg Prod.fst hticket, hqueued, congrArg Prod.snd hticket⟩

theorem Coherent.overflow_loaded (h : Coherent db [])
    (hperm : (heap.items.map QueueItem.ticket).Perm
      (((QueueRepository.queuedInOrder db.jobQueue).take capacity).map QueueEntry.ticket)) :
    overflow db.jobQueue heap.items = (QueueRepository.queuedInOrder db.jobQueue).drop capacity := by
  have hmem : ∀ id, id ∈ heap.items.map QueueItem.executionId ↔
      id ∈ ((QueueRepository.queuedInOrder db.jobQueue).take capacity).map QueueEntry.executionId :=
    fun id => (perm_executions hperm).mem_iff
  have hnodup := h.nodup_queued
  rw [← List.take_append_drop capacity (QueueRepository.queuedInOrder db.jobQueue), List.map_append,
    List.nodup_append] at hnodup
  have htaken : ((QueueRepository.queuedInOrder db.jobQueue).take capacity).filter
      (fun row => row.executionId ∉ heap.items.map QueueItem.executionId) = [] :=
    List.filter_eq_nil_iff.mpr fun row hrow => by
      simpa only [decide_eq_true_eq, not_not] using (hmem _).mpr (List.mem_map_of_mem hrow)
  have hleft : ((QueueRepository.queuedInOrder db.jobQueue).drop capacity).filter
      (fun row => row.executionId ∉ heap.items.map QueueItem.executionId) =
        (QueueRepository.queuedInOrder db.jobQueue).drop capacity :=
    List.filter_eq_self.mpr fun row hrow => by
      rw [decide_eq_true_eq, hmem]
      exact fun hin => hnodup.2.2 _ hin _ (List.mem_map_of_mem hrow) rfl
  rw [overflow]
  conv_lhs => rw [← List.take_append_drop capacity (QueueRepository.queuedInOrder db.jobQueue)]
  rw [List.filter_append, htaken, hleft, List.nil_append]

/-- The backlog of a loaded heap never rises in priority. -/
theorem Coherent.backlog_sorted (h : Coherent db [])
    (hperm : (heap.items.map QueueItem.ticket).Perm
      (((QueueRepository.queuedInOrder db.jobQueue).take capacity).map QueueEntry.ticket)) :
    (backlog db heap.items).Pairwise fun a b => b.2 ≤ a.2 := by
  have hsorted : (QueueRepository.queuedInOrder db.jobQueue).Pairwise fun a b => b.priority ≤ a.priority :=
    (List.pairwise_insertionSort QueueEntry.Precedes _).imp QueueEntry.Precedes.priority_le
  rw [backlog, h.overflow_loaded hperm, List.pairwise_append]
  refine ⟨?_, ?_, ?_⟩
  · exact List.pairwise_map.mpr (heap.sorted.imp QueueItem.priority_le_of_key_le)
  · exact List.pairwise_map.mpr (hsorted.sublist (List.drop_sublist _ _))
  · intro a ha b hb
    rw [← List.take_append_drop capacity (QueueRepository.queuedInOrder db.jobQueue),
      List.pairwise_append] at hsorted
    obtain ⟨first, hfirst, rfl⟩ := List.mem_map.mp (hperm.subset ha)
    obtain ⟨later, hlater, rfl⟩ := List.mem_map.mp hb
    exact hsorted.2.2 first hfirst later hlater

end Loaded

/-- How `recover` leaves one row. -/
structure Recovers (old new : QueueEntry) : Prop where
  id : new.id = old.id
  executionId : new.executionId = old.executionId
  priority : new.priority = old.priority
  queuedAt : new.queuedAt = old.queuedAt
  queued : old.status = .processing ∨ old.status = .queued → new.status = .queued
  unchanged : old.status ≠ .processing → new = old

theorem recovers_resetRows (rows : List QueueEntry) : List.Forall₂ Recovers rows (resetRows rows) := by
  refine List.forall₂_map_right_iff.mpr (List.forall₂_same.mpr fun row _ => ?_)
  by_cases hprocessing : row.status = .processing
  · simp only [hprocessing, ↓reduceIte]
    exact ⟨rfl, rfl, rfl, rfl, fun _ => rfl, fun h => absurd hprocessing h⟩
  · simp only [hprocessing, ↓reduceIte]
    exact ⟨rfl, rfl, rfl, rfl, fun h => h.resolve_left hprocessing, fun _ => rfl⟩

theorem queued_resetRows {rows : List QueueEntry} {executionId : Uuid} :
    (∃ row ∈ resetRows rows, row.executionId = executionId ∧ row.status = .queued) ↔
      ∃ row ∈ rows, row.executionId = executionId ∧
        (row.status = .processing ∨ row.status = .queued) := by
  constructor
  · rintro ⟨row, hrow, heq, hqueued⟩
    obtain ⟨old, hold, rfl⟩ := Rows.mem_modify.mp hrow
    by_cases hprocessing : old.status = .processing
    · rw [if_pos hprocessing] at heq
      exact ⟨old, hold, heq, .inl hprocessing⟩
    · rw [if_neg hprocessing] at heq hqueued
      exact ⟨old, hold, heq, .inr hqueued⟩
  · rintro ⟨row, hrow, heq, hprocessing | hqueued⟩
    · exact ⟨_, Rows.mem_modify_of_eq hrow hprocessing, heq, rfl⟩
    · refine ⟨row, Rows.mem_modify_of_ne hrow fun h => ?_, heq, hqueued⟩
      rw [hqueued] at h
      cases h

section Recovered

variable {db : Db}

/-- The state recovery leaves. -/
def recovered (db : Db) (heap : MemoryQueue) (now : DateTime) (nextUuid : Uuid) : World :=
  { World.start db now nextUuid with db := db.setQueue (resetRows db.jobQueue), memoryQueue := heap, locked := false }

theorem coherent_resetRows (hlinked : db.Linked) (hid : Rows.Unique QueueEntry.id db.jobQueue)
    (hexecution : Rows.Unique QueueEntry.executionId db.jobQueue) :
    Coherent (db.setQueue (resetRows db.jobQueue)) [] := by
  refine ⟨?_, ?_, hlinked.setQueue fun row hrow => ?_, List.nodup_nil, fun _ h => by cases h⟩
  · refine hid.modify (fun row => ?_) _
    rfl
  · refine hexecution.modify (fun row => ?_) _
    rfl
  · obtain ⟨old, hold, rfl⟩ := Rows.mem_modify.mp hrow
    exact ⟨old, hold, by split <;> rfl⟩

theorem drain_recovered (hempty : Coherent (db.setQueue (resetRows db.jobQueue)) []) {heap : MemoryQueue}
    {capacity : Nat} (hperm : (heap.items.map QueueItem.ticket).Perm
      (((QueueRepository.queuedInOrder (resetRows db.jobQueue)).take capacity).map QueueEntry.ticket))
    (now : DateTime) (nextUuid : Uuid) (clock : Nat → DateTime) :
    ∃ turns items, drain clock turns (recovered db heap now nextUuid) = some items ∧
      (items.map QueueItem.executionId).Nodup ∧
      (∀ executionId, executionId ∈ items.map QueueItem.executionId ↔
        ∃ row ∈ db.jobQueue, row.executionId = executionId ∧
          (row.status = .processing ∨ row.status = .queued)) ∧
      items.Pairwise fun a b => b.priority ≤ a.priority := by
  have hcoherent := hempty.loaded hperm
  obtain ⟨items, hdrain, htickets⟩ :=
    drain_backlog clock (w := recovered db heap now nextUuid) ⟨rfl, rfl⟩ hcoherent
  have hsorted := hempty.backlog_sorted hperm
  obtain ⟨hnodup, hmem⟩ := drained_executions hcoherent htickets
  refine ⟨_, items, hdrain, hnodup, fun executionId => (hmem executionId).trans queued_resetRows, ?_⟩
  change items.map QueueItem.ticket = backlog (db.setQueue (resetRows db.jobQueue)) heap.items at htickets
  rw [← htickets] at hsorted
  exact List.pairwise_map.mp hsorted

end Recovered

/-- Recovery queues every interrupted row again, loads the first rows of the table's order as far as the
heap has room, and leaves a queue that drains in non-increasing priority. -/
theorem recover_drains (qm : QueueManager) {db : Db} (hlinked : db.Linked)
    (hid : Rows.Unique QueueEntry.id db.jobQueue)
    (hexecution : Rows.Unique QueueEntry.executionId db.jobQueue) (now : DateTime) (nextUuid : Uuid)
    (clock : Nat → DateTime) :
    ∃ n w, qm.recover.run (.start db now nextUuid) = some (.ok n, w) ∧
      List.Forall₂ Recovers db.jobQueue w.db.jobQueue ∧
      (w.memoryQueue.items.map QueueItem.ticket).Perm
        (((QueueRepository.queuedInOrder w.db.jobQueue).take qm.maxMemorySize).map QueueEntry.ticket) ∧
      ∃ turns items, drain clock turns w = some items ∧
        (items.map QueueItem.executionId).Nodup ∧
        (∀ executionId, executionId ∈ items.map QueueItem.executionId ↔
          ∃ row ∈ db.jobQueue, row.executionId = executionId ∧
            (row.status = .processing ∨ row.status = .queued)) ∧
        items.Pairwise fun a b => b.priority ≤ a.priority := by
  obtain ⟨heap, hrun, hperm⟩ := run_recover qm (w := .start db now nextUuid) ⟨rfl, rfl⟩ hlinked rfl
  have hempty := coherent_resetRows hlinked hid hexecution
  exact ⟨_, recovered db heap now nextUuid, hrun, recovers_resetRows db.jobQueue, hperm,
    drain_recovered hempty hperm now nextUuid clock⟩

/-- A table with an interrupted and a queued row. -/
def interrupted : Db := { (World.sample 0 [7, 8]).db with
  jobQueue := [{ QueueEntry.new 20 7 1 1 "" with status := .processing }, .new 21 8 1 9 ""] }

theorem interrupted_linked : interrupted.Linked where
  entry row hrow := by
    rcases List.mem_pair.mp hrow with rfl | rfl
    · exact ⟨.new 7 1 none "", by simp [interrupted, World.sample, World.start], rfl⟩
    · exact ⟨.new 8 1 none "", by simp [interrupted, World.sample, World.start], rfl⟩
  execution := (World.sample_linked 0 [7, 8]).execution

theorem recover_drains_interrupted :
    ∃ n w, (⟨1, 3⟩ : QueueManager).recover.run (.start interrupted epoch 1000) = some (.ok n, w) ∧
      List.Forall₂ Recovers interrupted.jobQueue w.db.jobQueue ∧
      (w.memoryQueue.items.map QueueItem.ticket).Perm
        (((QueueRepository.queuedInOrder w.db.jobQueue).take 1).map QueueEntry.ticket) ∧
      ∃ turns items, drain (fun _ => epoch) turns w = some items ∧
        (items.map QueueItem.executionId).Nodup ∧
        (∀ executionId, executionId ∈ items.map QueueItem.executionId ↔
          ∃ row ∈ interrupted.jobQueue, row.executionId = executionId ∧
            (row.status = .processing ∨ row.status = .queued)) ∧
        items.Pairwise fun a b => b.priority ≤ a.priority :=
  recover_drains ⟨1, 3⟩ interrupted_linked (by unfold Rows.Unique; decide) (by unfold Rows.Unique; decide)
    epoch 1000 fun _ => epoch

end Serverust
