import Serverust.Proof.Drain

/-!
# One operation at a time

A session runs the queue operations one after another and keeps which executions its workers hold and
which it ever enqueued. Callers enqueue an execution once and mark it once after they dequeued it. In
every state such a session reaches the two stores are coherent, so draining the queue returns exactly
the queued executions.
-/

namespace Serverust

open Calendar Resumption

/-- An operation of a session; `elsewhere` is anything other tasks do to the rest of the state. -/
inductive Op where
  | enqueue (item : QueueItem)
  | dequeue
  | remove (executionId : Uuid)
  | retryDeadLetter (executionId : Uuid)
  | markCompleted (executionId : Uuid)
  | markFailed (executionId : Uuid)
  | moveToDeadLetter (executionId : Uuid)
  | elsewhere

structure Session where
  world : World
  held : List Uuid
  enqueued : List Uuid

namespace Session

variable {qm : QueueManager}

/-- One operation, with what its caller keeps to: an execution is enqueued successfully at most once, and
is marked only while it is held. -/
inductive Step (qm : QueueManager) : Op → Session → Session → Prop
  | enqueued {s : Session} {item : QueueItem} {w : World} (hnew : item.executionId ∉ s.enqueued)
      (hrun : (qm.enqueue item).run s.world = some (.ok (), w)) :
      Step qm (.enqueue item) s
        { s with world := w, enqueued := item.executionId :: s.enqueued }
  | refused {s : Session} {item : QueueItem} {e : AppError} {w : World}
      (hrun : (qm.enqueue item).run s.world = some (.error e, w)) :
      Step qm (.enqueue item) s { s with world := w }
  | dequeued {s : Session} {item : QueueItem} {w : World}
      (hrun : QueueManager.dequeue.run s.world = some (.ok (some item), w)) :
      Step qm .dequeue s { s with world := w, held := item.executionId :: s.held }
  | idle {s : Session} {w : World} (hrun : QueueManager.dequeue.run s.world = some (.ok none, w)) :
      Step qm .dequeue s { s with world := w }
  | remove {s : Session} {executionId : Uuid} {r : Except AppError Unit} {w : World}
      (hrun : (QueueManager.remove executionId).run s.world = some (r, w)) :
      Step qm (.remove executionId) s { s with world := w }
  | retryDeadLetter {s : Session} {executionId : Uuid} {r : Except AppError Unit} {w : World}
      (hrun : (qm.retryDeadLetter executionId).run s.world = some (r, w)) :
      Step qm (.retryDeadLetter executionId) s { s with world := w }
  | markCompleted {s : Session} {executionId : Uuid} {r : Except AppError Unit} {w : World}
      (hheld : executionId ∈ s.held)
      (hrun : (QueueManager.markCompleted executionId).run s.world = some (r, w)) :
      Step qm (.markCompleted executionId) s { s with world := w, held := s.held.erase executionId }
  | markFailed {s : Session} {executionId : Uuid} {r : Except AppError Unit} {w : World}
      (hheld : executionId ∈ s.held)
      (hrun : (QueueManager.markFailed executionId).run s.world = some (r, w)) :
      Step qm (.markFailed executionId) s { s with world := w, held := s.held.erase executionId }
  | moveToDeadLetter {s : Session} {executionId : Uuid} {r : Except AppError Unit} {w : World}
      (hheld : executionId ∈ s.held)
      (hrun : (QueueManager.moveToDeadLetter executionId).run s.world = some (r, w)) :
      Step qm (.moveToDeadLetter executionId) s
        { s with world := w, held := s.held.erase executionId }
  | elsewhere {s : Session} {w : World} (hrows : w.db.jobQueue = s.world.db.jobQueue)
      (hheap : w.memoryQueue = s.world.memoryQueue) (hidle : w.Idle) (hlinked : w.db.Linked) :
      Step qm .elsewhere s { s with world := w }

/-- The sessions reached from an empty queue by operations of the allowed kinds. -/
inductive Reached (qm : QueueManager) (allowed : Op → Prop) : Session → Prop
  | start {w : World} (hrows : w.db.jobQueue = []) (hheap : w.memoryQueue = .empty) (hidle : w.Idle)
      (hlinked : w.db.Linked) : Reached qm allowed ⟨w, [], []⟩
  | step {s s' : Session} {op : Op} (hreached : Reached qm allowed s) (hop : allowed op)
      (hstep : Step qm op s s') : Reached qm allowed s'

/-! ### The invariant -/

structure Sound (qm : QueueManager) (s : Session) : Prop where
  idle : s.world.Idle
  coherent : Coherent s.world.db s.world.memoryQueue.items
  room : s.world.memoryQueue.len ≤ qm.maxMemorySize
  processing : ∀ row ∈ s.world.db.jobQueue, row.executionId ∈ s.held → row.status = .processing
  distinct : s.held.Nodup
  known : ∀ row ∈ s.world.db.jobQueue, row.executionId ∈ s.enqueued
  heldKnown : ∀ executionId ∈ s.held, executionId ∈ s.enqueued

theorem len_pushed {heap : MemoryQueue} (h : heap.len ≤ qm.maxMemorySize) (item : QueueItem) :
    (pushed qm heap item).len ≤ qm.maxMemorySize := by
  unfold pushed
  split
  · rw [MaxHeap.len_push]
    omega
  · exact h

end Session

namespace Coherent

variable {qm : QueueManager} {db : Db} {heap : MemoryQueue} {row : QueueEntry} {item : QueueItem}

/-- Pushing the item of a queued row that no item of the heap stands for. -/
theorem pushed (h : Coherent db heap.items) (qm : QueueManager)
    (hnew : ∀ other ∈ heap.items, other.executionId ≠ item.executionId) (hrow : row ∈ db.jobQueue)
    (hbacks : row.Backs item) : Coherent db (pushed qm heap item).items := by
  unfold Serverust.pushed
  split
  · exact h.push (heap.push_perm item) hnew hrow hbacks
  · exact h

/-- Adding a queued row for a new execution. -/
theorem insert (h : Coherent db heap.items) {r : Unit × Db}
    (hinsert : QueueRepository.insertEntry row db = .ok r) :
    Coherent (db.setQueue (db.jobQueue ++ [row])) heap.items := by
  obtain ⟨_, hid, hexecution, hexec⟩ := insertEntry_ok hinsert
  refine ⟨h.uniqueId.append hid, h.uniqueExecution.append hexecution, ⟨fun other hother => ?_,
    h.linked.execution⟩, h.distinct, fun item hitem => ?_⟩
  · rcases List.mem_append.mp hother with hold | hlast
    · exact h.linked.entry other hold
    · exact (List.mem_singleton.mp hlast) ▸ hexec
  · obtain ⟨other, hother, hbacks⟩ := h.backed item hitem
    exact ⟨other, List.mem_append_left _ hother, hbacks⟩

theorem remove (h : Coherent db heap.items) (executionId : Uuid) :
    Coherent (db.setQueue (Rows.remove QueueEntry.executionId executionId db.jobQueue))
      (MaxHeap.ofList (heap.items.filter fun i => i.executionId != executionId) : MemoryQueue).items where
  uniqueId := h.uniqueId.remove executionId
  uniqueExecution := h.uniqueExecution.remove executionId
  linked := h.linked.setQueue fun row hrow => ⟨row, (Rows.mem_remove.mp hrow).1, rfl⟩
  distinct := by
    rw [((MaxHeap.ofList_perm _).map _).nodup_iff]
    exact h.distinct.sublist (List.filter_sublist.map _)
  backed item hitem := by
    obtain ⟨hitem, hne⟩ := List.mem_filter.mp (MaxHeap.mem_ofList.mp hitem)
    obtain ⟨row, hrow, hbacks⟩ := h.backed item hitem
    exact ⟨row, Rows.mem_remove.mpr ⟨hrow, hbacks.execution ▸ bne_iff_ne.mp hne⟩, hbacks⟩

end Coherent

/-- What a dequeue leaves in the heap was there before. -/
theorem Dequeues.sublist {db db' : Db} {heap heap' : List QueueItem} {r : Option QueueItem}
    (hspec : Dequeues db heap r db' heap') : heap'.Sublist heap := by
  cases hspec with
  | fromHeap hheap =>
      subst hheap
      exact List.sublist_cons_self _ _
  | fromTable => exact List.nil_sublist _
  | nothing => exact List.nil_sublist _

theorem Dequeues.taken {db db' : Db} {heap heap' : List QueueItem} {item : QueueItem}
    (hspec : Dequeues db heap (some item) db' heap') :
    ∃ row ∈ db.jobQueue, ∃ f, row.Backs item ∧ Restamps f .processing ∧ db' = restamp f row.id db := by
  cases hspec with
  | fromHeap hheap hrow hbacks hf => exact ⟨_, hrow, _, hbacks, hf, rfl⟩
  | fromTable hheap horder hbacks hf =>
      exact ⟨_, (mem_queuedInOrder.mp (horder ▸ List.mem_cons_self)).1, _, hbacks, hf, rfl⟩

theorem Dequeues.db_eq_of_none {db db' : Db} {heap heap' : List QueueItem}
    (hspec : Dequeues db heap none db' heap') : db' = db := by
  cases hspec
  rfl

namespace Session.Sound

variable {qm : QueueManager} {s : Session} {w : World} {executionId : Uuid}

theorem start (hrows : w.db.jobQueue = []) (hheap : w.memoryQueue = .empty) (hidle : w.Idle)
    (hlinked : w.db.Linked) : Sound qm ⟨w, [], []⟩ where
  idle := hidle
  coherent := by
    refine ⟨?_, ?_, hlinked, ?_, ?_⟩
    · simp only [Rows.Unique, hrows, List.map_nil, List.nodup_nil]
    · simp only [Rows.Unique, hrows, List.map_nil, List.nodup_nil]
    · simp only [hheap, MaxHeap.items_empty, List.map_nil, List.nodup_nil]
    · simp only [hheap, MaxHeap.items_empty, List.not_mem_nil, false_implies, implies_true]
  room := by simp only [hheap, MaxHeap.len_empty, Nat.zero_le]
  processing := by simp only [hrows, List.not_mem_nil, false_implies, implies_true]
  distinct := List.nodup_nil
  known := by simp only [hrows, List.not_mem_nil, false_implies, implies_true]
  heldKnown := by simp only [List.not_mem_nil, false_implies, implies_true]

theorem enqueued (h : Sound qm s) {item : QueueItem} (hnew : item.executionId ∉ s.enqueued)
    (hrun : (qm.enqueue item).run s.world = some (.ok (), w)) :
    Sound qm { s with world := w, enqueued := item.executionId :: s.enqueued } := by
  rcases run_enqueue qm h.idle item with ⟨e, hrun'⟩ | ⟨entry, hexecution, hpriority, hstatus, hinsert, hrun'⟩
  · rw [hrun] at hrun'
    cases hrun'
  · rw [hrun] at hrun'
    cases hrun'
    have hnotHeld : item.executionId ∉ s.held := fun hheld => hnew (h.heldKnown _ hheld)
    refine ⟨⟨rfl, h.idle.fault⟩, ?_, len_pushed h.room item, fun row hrow hheld => ?_, h.distinct,
      fun row hrow => ?_, fun id hid => List.mem_cons_of_mem _ (h.heldKnown id hid)⟩
    · refine (h.coherent.insert hinsert).pushed qm (fun other hother heq => ?_)
        (List.mem_append_right _ (List.mem_singleton.mpr rfl)) ⟨hexecution, hstatus, hpriority⟩
      obtain ⟨row, hrow, hbacks⟩ := h.coherent.backed other hother
      exact hnew (heq ▸ hbacks.execution ▸ h.known row hrow)
    · rcases List.mem_append.mp hrow with hold | hlast
      · exact h.processing row hold hheld
      · rw [List.mem_singleton.mp hlast, hexecution] at hheld
        exact absurd hheld hnotHeld
    · rcases List.mem_append.mp hrow with hold | hlast
      · exact List.mem_cons_of_mem _ (h.known row hold)
      · rw [List.mem_singleton.mp hlast, hexecution]
        exact List.mem_cons_self

theorem refused (h : Sound qm s) {item : QueueItem} {e : AppError}
    (hrun : (qm.enqueue item).run s.world = some (.error e, w)) :
    Sound qm { s with world := w } := by
  rcases run_enqueue qm h.idle item with ⟨e, hrun'⟩ | ⟨entry, _, _, _, _, hrun'⟩
  · rw [hrun] at hrun'
    cases hrun'
    exact ⟨⟨rfl, h.idle.fault⟩, h.coherent, h.room, h.processing, h.distinct, h.known, h.heldKnown⟩
  · rw [hrun] at hrun'
    cases hrun'

theorem dequeued (h : Sound qm s) {item : QueueItem}
    (hrun : QueueManager.dequeue.run s.world = some (.ok (some item), w)) :
    Sound qm { s with world := w, held := item.executionId :: s.held } := by
  obtain ⟨r, db, heap, hrun', hspec⟩ := run_dequeue h.idle h.coherent
  rw [hrun] at hrun'
  cases hrun'
  obtain ⟨row, hrow, f, hbacks, hf, rfl⟩ := hspec.taken
  have hnotHeld : item.executionId ∉ s.held := fun hheld => by
    have := h.processing row hrow (hbacks.execution ▸ hheld)
    rw [hbacks.queued] at this
    cases this
  refine ⟨⟨rfl, h.idle.fault⟩, hspec.coherent h.coherent, hspec.sublist.length_le.trans h.room, ?_,
    List.nodup_cons.mpr ⟨hnotHeld, h.distinct⟩, fun other hother => ?_, fun id hid => ?_⟩
  · intro other hother hheld
    obtain ⟨old, hold, rfl⟩ := Rows.mem_modify.mp hother
    by_cases hid : old.id = row.id
    · rw [if_pos hid, hf.status]
    · rw [if_neg hid] at hheld ⊢
      rcases List.mem_cons.mp hheld with heq | hheld
      · exact absurd (congrArg _
          (h.coherent.uniqueExecution.eq_of_column hold hrow (heq.trans hbacks.execution.symm))) hid
      · exact h.processing old hold hheld
  · obtain ⟨old, hold, heq⟩ := hf.source hother
    exact heq ▸ h.known old hold
  · rcases List.mem_cons.mp hid with rfl | hid
    · exact hbacks.execution ▸ h.known row hrow
    · exact h.heldKnown id hid

theorem dequeuedNone (h : Sound qm s) (hrun : QueueManager.dequeue.run s.world = some (.ok none, w)) :
    Sound qm { s with world := w } := by
  obtain ⟨r, db, heap, hrun', hspec⟩ := run_dequeue h.idle h.coherent
  rw [hrun] at hrun'
  cases hrun'
  have hcoherent := hspec.coherent h.coherent
  have hroom := hspec.sublist.length_le.trans h.room
  obtain rfl := hspec.db_eq_of_none
  exact ⟨⟨rfl, h.idle.fault⟩, hcoherent, hroom, h.processing, h.distinct, h.known, h.heldKnown⟩

theorem removed (h : Sound qm s) {r : Except AppError Unit}
    (hrun : (QueueManager.remove executionId).run s.world = some (r, w)) :
    Sound qm { s with world := w } := by
  rw [run_remove h.idle] at hrun
  cases hrun
  refine ⟨⟨rfl, h.idle.fault⟩, h.coherent.remove executionId, ?_, fun row hrow => ?_, h.distinct,
    fun row hrow => ?_, h.heldKnown⟩
  · have hlen : (MaxHeap.ofList (s.world.memoryQueue.items.filter fun i =>
        i.executionId != executionId) : MemoryQueue).len = _ := (MaxHeap.ofList_perm _).length_eq
    exact (hlen.trans_le (List.length_filter_le _ _)).trans h.room
  · exact h.processing row (Rows.mem_remove.mp hrow).1
  · exact h.known row (Rows.mem_remove.mp hrow).1

theorem retried (h : Sound qm s) {r : Except AppError Unit}
    (hrun : (qm.retryDeadLetter executionId).run s.world = some (r, w)) :
    Sound qm { s with world := w } := by
  rcases run_retryDeadLetter qm h.idle h.coherent.linked executionId with
    ⟨r', hrun'⟩ | ⟨row, hrow, f, item, hexecution, hdead, hf, hbacks, hrun'⟩
  · rw [hrun] at hrun'
    cases hrun'
    exact h
  · rw [hrun] at hrun'
    cases hrun'
    have hfree : ∀ other ∈ s.world.memoryQueue.items, other.executionId ≠ row.executionId :=
      fun other hother heq => by
        have hqueued := (h.coherent.backs_of_executionId hother hrow heq.symm).queued
        rw [hdead] at hqueued
        cases hqueued
    refine ⟨⟨rfl, h.idle.fault⟩, ?_, len_pushed h.room item, fun other hother hheld => ?_, h.distinct,
      fun other hother => ?_, h.heldKnown⟩
    · refine (h.coherent.restamp hf hrow hfree).pushed qm (fun other hother => ?_)
        (Rows.mem_modify_of_eq hrow rfl) hbacks
      rw [← hbacks.execution, hf.executionId]
      exact hfree other hother
    · obtain ⟨old, hold, rfl⟩ := Rows.mem_modify.mp hother
      by_cases hid : old.id = row.id
      · rw [if_pos hid, hf.executionId, h.coherent.uniqueId.eq_of_column hold hrow hid] at hheld
        have hprocessing := h.processing row hrow hheld
        rw [hdead] at hprocessing
        cases hprocessing
      · rw [if_neg hid] at hheld ⊢
        exact h.processing old hold hheld
    · obtain ⟨old, hold, heq⟩ := hf.source hother
      exact heq ▸ h.known old hold

theorem marked (h : Sound qm s) {mark : QueueEntry → String → QueueEntry} {status : QueueStatus}
    (hmark : Marks mark status) (hheld : executionId ∈ s.held) {r : Except AppError Unit}
    (hrun : (QueueManager.markEntry mark executionId).run s.world = some (r, w)) :
    Sound qm { s with world := w, held := s.held.erase executionId } := by
  have hheldKnown : ∀ id ∈ s.held.erase executionId, id ∈ s.enqueued :=
    fun id hid => h.heldKnown id (List.mem_of_mem_erase hid)
  cases hlookup : Rows.lookup QueueEntry.executionId executionId s.world.db.jobQueue with
  | none =>
      rw [run_markEntry_none h.idle.fault mark hlookup] at hrun
      cases hrun
      exact ⟨h.idle, h.coherent, h.room, fun row hrow hid => h.processing row hrow (List.mem_of_mem_erase hid),
        h.distinct.erase _, h.known, hheldKnown⟩
  | some row =>
      obtain ⟨f, hf, hrun'⟩ := run_markEntry h.idle.fault hmark hlookup
      rw [hrun] at hrun'
      cases hrun'
      have hrow := Rows.mem_of_lookup hlookup
      have hexecution : row.executionId = executionId := Rows.column_of_lookup hlookup
      refine ⟨⟨h.idle.free, h.idle.fault⟩, h.coherent.restamp hf hrow fun item hitem heq => ?_, h.room,
        fun other hother hid => ?_, h.distinct.erase _, fun other hother => ?_, hheldKnown⟩
      · have hqueued := (h.coherent.backs_of_executionId hitem hrow heq.symm).queued
        rw [h.processing row hrow (hexecution ▸ hheld)] at hqueued
        cases hqueued
      · obtain ⟨old, hold, rfl⟩ := Rows.mem_modify.mp hother
        by_cases hsame : old.id = row.id
        · rw [if_pos hsame, hf.executionId, h.coherent.uniqueId.eq_of_column hold hrow hsame,
            hexecution] at hid
          exact absurd hid (h.distinct.not_mem_erase)
        · rw [if_neg hsame] at hid ⊢
          exact h.processing old hold (List.mem_of_mem_erase hid)
      · obtain ⟨old, hold, heq⟩ := hf.source hother
        exact heq ▸ h.known old hold

theorem elsewhere (h : Sound qm s) (hrows : w.db.jobQueue = s.world.db.jobQueue)
    (hheap : w.memoryQueue = s.world.memoryQueue) (hidle : w.Idle) (hlinked : w.db.Linked) :
    Sound qm { s with world := w } := by
  refine ⟨hidle, ⟨?_, ?_, hlinked, ?_, ?_⟩, ?_, ?_, h.distinct, ?_, h.heldKnown⟩
  · exact hrows ▸ h.coherent.uniqueId
  · exact hrows ▸ h.coherent.uniqueExecution
  · exact hheap ▸ h.coherent.distinct
  · exact hheap ▸ hrows ▸ h.coherent.backed
  · exact hheap ▸ h.room
  · exact hrows ▸ h.processing
  · exact hrows ▸ h.known

end Session.Sound

namespace Session

variable {qm : QueueManager}

theorem Step.sound {op : Op} {s s' : Session} (hstep : Step qm op s s') (h : s.Sound qm) :
    s'.Sound qm := by
  cases hstep with
  | enqueued hnew hrun => exact h.enqueued hnew hrun
  | refused hrun => exact h.refused hrun
  | dequeued hrun => exact h.dequeued hrun
  | idle hrun => exact h.dequeuedNone hrun
  | remove hrun => exact h.removed hrun
  | retryDeadLetter hrun => exact h.retried hrun
  | markCompleted hheld hrun => exact h.marked marks_completed hheld hrun
  | markFailed hheld hrun => exact h.marked marks_failed hheld hrun
  | moveToDeadLetter hheld hrun => exact h.marked marks_deadLetter hheld hrun
  | elsewhere hrows hheap hidle hlinked => exact h.elsewhere hrows hheap hidle hlinked

theorem Reached.sound {allowed : Op → Prop} {s : Session} (h : Reached qm allowed s) : s.Sound qm := by
  induction h with
  | start hrows hheap hidle hlinked => exact .start hrows hheap hidle hlinked
  | step _ _ hstep ih => exact hstep.sound ih

/-- Draining the queue from any reached state returns every queued execution once and nothing else, and
the heap is never over its capacity. -/
theorem drain_complete (qm : QueueManager) {s : Session} (h : Reached qm (fun _ => True) s)
    (clock : Nat → DateTime) :
    s.world.memoryQueue.len ≤ qm.maxMemorySize ∧
      ∃ turns items, drain clock turns s.world = some items ∧
        (items.map QueueItem.executionId).Nodup ∧
        ∀ executionId, executionId ∈ items.map QueueItem.executionId ↔
          ∃ row ∈ s.world.db.jobQueue, row.executionId = executionId ∧ row.status = .queued := by
  have hsound := h.sound
  obtain ⟨items, hdrain, htickets⟩ := drain_backlog clock hsound.idle hsound.coherent
  exact ⟨hsound.room, _, items, hdrain, drained_executions hsound.coherent htickets⟩

end Session

/-! ### Small databases -/

/-- The state after a program that runs alone. -/
def World.after {α : Type} (w : World) (p : Async α) : World :=
  match p.run w with
  | some (_, w') => w'
  | none => w

theorem World.sample_linked (maxRetries : Int) (executions : List Uuid) :
    (World.sample maxRetries executions).db.Linked where
  entry row hrow := by cases hrow
  execution exec hexec := by
    obtain ⟨id, _, rfl⟩ := List.mem_map.mp hexec
    exact ⟨.sample maxRetries, List.mem_singleton.mpr rfl, rfl⟩

namespace Session

/-- Two executions, of low and of high priority, queued where the heap has room for one. -/
def overflowing : Session where
  world := ((World.sample 0 [7, 8]).after (QueueManager.enqueue ⟨1, 3⟩ (.sample 7 1))).after
    (QueueManager.enqueue ⟨1, 3⟩ (.sample 8 9))
  held := []
  enqueued := [8, 7]

theorem reached_overflowing (allowed : Op → Prop) (hallowed : ∀ item, allowed (.enqueue item)) :
    Reached ⟨1, 3⟩ allowed overflowing := by
  have hstart : Reached ⟨1, 3⟩ allowed ⟨World.sample 0 [7, 8], [], []⟩ :=
    .start rfl rfl ⟨rfl, rfl⟩ (World.sample_linked 0 [7, 8])
  have hfirst := hstart.step (hallowed (.sample 7 1)) (.enqueued (w := (World.sample 0 [7, 8]).after
    (QueueManager.enqueue ⟨1, 3⟩ (.sample 7 1))) (by decide) rfl)
  exact hfirst.step (hallowed (.sample 8 9)) (.enqueued (w := overflowing.world) (by decide) rfl)

theorem drain_complete_overflowing :
    overflowing.world.memoryQueue.len ≤ 1 ∧
      ∃ turns items, drain (fun _ => epoch) turns overflowing.world = some items ∧
        (items.map QueueItem.executionId).Nodup ∧
        ∀ executionId, executionId ∈ items.map QueueItem.executionId ↔
          ∃ row ∈ overflowing.world.db.jobQueue, row.executionId = executionId ∧ row.status = .queued :=
  drain_complete ⟨1, 3⟩ (reached_overflowing _ fun _ => trivial) fun _ => epoch

end Session

end Serverust
