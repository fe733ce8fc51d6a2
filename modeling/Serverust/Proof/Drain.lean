import Serverust.Proof.QueueRun

/-!
# Draining the queue

From a coherent state, dequeuing until nothing is left returns first the heap, by priority, and then
the overflow, in the order of the table. The backlog says so in advance: it is the list of what the
dequeues will return, and each dequeue returns its head and leaves its tail.
-/

namespace Serverust

open Calendar Resumption

instance : Std.Total QueueEntry.Precedes where
  total a b := by
    rcases lt_trichotomy a.priority b.priority with hlt | heq | hgt
    · exact .inr (.inl hlt)
    · rcases le_total a.queuedAt b.queuedAt with hle | hle
      · exact .inl (.inr ⟨heq, hle⟩)
      · exact .inr (.inr ⟨heq.symm, hle⟩)
    · exact .inl (.inl hgt)

instance : IsTrans QueueEntry QueueEntry.Precedes where
  trans a b c hab hbc := by
    rcases hab with hab | ⟨hab, hab'⟩
    · rcases hbc with hbc | ⟨hbc, _⟩
      · exact .inl (hbc.trans hab)
      · exact .inl (hbc ▸ hab)
    · rcases hbc with hbc | ⟨hbc, hbc'⟩
      · exact .inl (hab ▸ hbc)
      · exact .inr ⟨hab.trans hbc, hab'.trans hbc'⟩

theorem pairwise_queuedInOrder (rows : List QueueEntry) :
    (QueueRepository.queuedInOrder rows).Pairwise QueueEntry.Precedes :=
  List.pairwise_insertionSort _ _

theorem takeFirst_cases {rows : List QueueEntry} (hunique : Rows.Unique QueueEntry.id rows) (now : DateTime) :
    QueueRepository.takeFirst now rows = (none, rows) ∨ ∃ first ∈ rows, ∃ f, first.status = .queued ∧
      Restamps f .processing ∧ (∀ row ∈ rows, row.status = .queued → first.Precedes row) ∧
      QueueRepository.takeFirst now rows = (some (f first), Rows.modify QueueEntry.id first.id f rows) := by
  unfold QueueRepository.takeFirst
  cases horder : QueueRepository.queuedInOrder rows with
  | nil => exact .inl rfl
  | cons first rest =>
      obtain ⟨hmem, hqueued⟩ := mem_queuedInOrder.mp (horder ▸ List.mem_cons_self)
      have hf : Restamps (fun row => { row with
          status := .processing, startedAt := some (sqliteDatetime now) }) .processing :=
        ⟨fun _ => rfl, fun _ => rfl, fun _ => rfl, fun _ => rfl, fun _ => rfl⟩
      refine .inr ⟨first, hmem, _, hqueued, hf, ?_, ?_⟩
      · intro row hrow hstatus
        have hlisted := horder ▸ mem_queuedInOrder.mpr ⟨hrow, hstatus⟩
        rcases List.mem_cons.mp hlisted with rfl | hrest
        · exact .inr ⟨rfl, le_rfl⟩
        · exact List.rel_of_pairwise_cons (horder ▸ pairwise_queuedInOrder rows) hrest
      · simp only [List.head?_cons, hunique.lookup_modify hmem hf.id]

/-- The execution and the priority of an item. -/
def QueueItem.ticket (item : QueueItem) : Uuid × Int := (item.executionId, item.priority)

def QueueEntry.ticket (row : QueueEntry) : Uuid × Int := (row.executionId, row.priority)

theorem QueueEntry.Backs.ticket {row : QueueEntry} {item : QueueItem} (h : row.Backs item) :
    row.ticket = item.ticket := by
  rw [QueueEntry.ticket, QueueItem.ticket, h.execution, h.priority]

/-- The queued rows whose execution is not in the heap, in the order of the table. -/
def overflow (rows : List QueueEntry) (heap : List QueueItem) : List QueueEntry :=
  (QueueRepository.queuedInOrder rows).filter fun row =>
    row.executionId ∉ heap.map QueueItem.executionId

/-- What dequeuing until nothing is left returns. -/
def backlog (db : Db) (heap : List QueueItem) : List (Uuid × Int) :=
  heap.map QueueItem.ticket ++ (overflow db.jobQueue heap).map QueueEntry.ticket

variable {db db' : Db} {heap heap' : List QueueItem} {r : Option QueueItem}

theorem overflow_nil (rows : List QueueEntry) : overflow rows [] = QueueRepository.queuedInOrder rows := by
  simp only [overflow, List.map_nil, List.not_mem_nil, not_false_eq_true, decide_true, List.filter_true]

theorem queuedInOrder_restamp {f : QueueEntry → QueueEntry} {status : QueueStatus}
    (hf : Restamps f status) (hstatus : status ≠ .queued) (id : Uuid) (rows : List QueueEntry) :
    QueueRepository.queuedInOrder (Rows.modify QueueEntry.id id f rows) =
      (QueueRepository.queuedInOrder rows).filter fun row => row.id ≠ id := by
  rw [QueueRepository.queuedInOrder, QueueRepository.queuedInOrder, StableSort.filter_insertionSort,
    Rows.filter_modify (fun row => by simp only [hf.status, hstatus, decide_false]), List.filter_filter]
  simp only [Bool.and_comm]

theorem Coherent.nodup_queued (h : Coherent db heap) :
    ((QueueRepository.queuedInOrder db.jobQueue).map QueueEntry.executionId).Nodup := by
  have hperm := (List.perm_insertionSort QueueEntry.Precedes
    (db.jobQueue.filter fun row => row.status = .queued)).map QueueEntry.executionId
  exact hperm.nodup_iff.mpr (h.uniqueExecution.sublist (List.filter_sublist.map _))

theorem Coherent.distinct_queued (h : Coherent db heap) :
    (QueueRepository.queuedInOrder db.jobQueue).Pairwise fun a b => a.id ≠ b.id := by
  have hperm := (List.perm_insertionSort QueueEntry.Precedes
    (db.jobQueue.filter fun row => row.status = .queued)).map QueueEntry.id
  exact List.pairwise_map.mp (hperm.nodup_iff.mpr (h.uniqueId.sublist (List.filter_sublist.map _)))

namespace Dequeues

theorem eq_backlog_of_none (hspec : Dequeues db heap none db' heap') : backlog db heap = [] := by
  cases hspec with
  | nothing hheap hnone =>
      subst hheap
      simp only [backlog, overflow_nil, hnone, List.map_nil, List.append_nil]

/-- One dequeue takes the head of the backlog. -/
theorem backlog_eq {item : QueueItem} (hspec : Dequeues db heap (some item) db' heap')
    (h : Coherent db heap) : backlog db heap = item.ticket :: backlog db' heap' := by
  cases hspec with
  | @fromHeap item rest row f hheap hrow hbacks hf =>
      subst hheap
      simp only [backlog, List.map_cons, List.cons_append, List.cons.injEq, true_and,
        List.append_cancel_left_eq, restamp, Db.setQueue_jobQueue, overflow,
        queuedInOrder_restamp hf (by decide), List.filter_filter]
      congr 1
      refine List.filter_congr fun other hother => ?_
      have hother := (mem_queuedInOrder.mp hother).1
      have hiff : other.id = row.id ↔ other.executionId = item.executionId :=
        ⟨fun hid => h.uniqueId.eq_of_column hother hrow hid ▸ hbacks.execution,
          fun heq => by rw [h.uniqueExecution.eq_of_column hother hrow (heq.trans hbacks.execution.symm)]⟩
      simp only [List.mem_cons, not_or, ne_eq, hiff, Bool.decide_and]
      exact Bool.and_comm _ _
  | @fromTable item row rest f hheap horder hbacks hf =>
      subst hheap
      have hdistinct := h.distinct_queued
      rw [horder, List.pairwise_cons] at hdistinct
      have hrest : rest.filter (fun other => other.id ≠ row.id) = rest :=
        List.filter_eq_self.mpr fun other hother => by
          simpa only [ne_eq, decide_eq_true_eq] using (hdistinct.1 other hother).symm
      simp only [backlog, List.map_nil, List.nil_append, overflow_nil, restamp,
        Db.setQueue_jobQueue, queuedInOrder_restamp hf (by decide), horder]
      rw [List.filter_cons_of_neg (by simp only [ne_eq, not_true_eq_false, decide_false,
        Bool.false_eq_true, not_false_eq_true]), hrest, List.map_cons, hbacks.ticket]

end Dequeues

/-! ### Repeated dequeues -/

/-- Dequeue until nothing is returned, each time at another instant. -/
def drain (clock : Nat → DateTime) : Nat → World → Option (List QueueItem)
  | 0, _ => none
  | turns + 1, w =>
    match QueueManager.dequeue.run { w with now := clock turns } with
    | some (.ok (some item), w') => (drain clock turns w').map (item :: ·)
    | some (.ok none, _) => some []
    | _ => none

/-- Draining returns the backlog. -/
theorem drain_backlog (clock : Nat → DateTime) {w : World} (hidle : w.Idle)
    (h : Coherent w.db w.memoryQueue.items) :
    ∃ items, drain clock ((backlog w.db w.memoryQueue.items).length + 1) w = some items ∧
      items.map QueueItem.ticket = backlog w.db w.memoryQueue.items := by
  generalize hn : (backlog w.db w.memoryQueue.items).length = n
  induction n generalizing w with
  | zero =>
      obtain ⟨r, db, heap, hrun, hspec⟩ :=
        run_dequeue (w := { w with now := clock 0 }) ⟨hidle.free, hidle.fault⟩ h
      cases r with
      | none =>
          refine ⟨[], ?_, hspec.eq_backlog_of_none.symm⟩
          simp only [drain, hrun]
      | some item =>
          have hbacklog := hspec.backlog_eq h
          simp only [List.length_eq_zero_iff] at hn
          rw [hn] at hbacklog
          cases hbacklog
  | succ n ih =>
      obtain ⟨r, db, heap, hrun, hspec⟩ :=
        run_dequeue (w := { w with now := clock (n + 1) }) ⟨hidle.free, hidle.fault⟩ h
      cases r with
      | none =>
          have hbacklog := hspec.eq_backlog_of_none
          simp only at hbacklog
          rw [hbacklog] at hn
          cases hn
      | some item =>
          have hbacklog := hspec.backlog_eq h
          simp only at hbacklog
          rw [hbacklog, List.length_cons, Nat.succ_inj] at hn
          obtain ⟨items, hdrain, hitems⟩ := ih
            (w := { w with now := clock (n + 1), db, memoryQueue := heap, locked := false })
            ⟨rfl, hidle.fault⟩ (hspec.coherent h) hn
          refine ⟨item :: items, ?_, ?_⟩
          · rw [drain]
            simp only [hrun, hdrain, Option.map_some]
          · rw [List.map_cons, hitems, hbacklog]

private theorem perm_filter_of_nodup {rows : List QueueEntry} {heap : List QueueItem}
    (hrows : (rows.map QueueEntry.executionId).Nodup)
    (hheap : (heap.map QueueItem.executionId).Nodup)
    (hsub : ∀ item ∈ heap, item.executionId ∈ rows.map QueueEntry.executionId) :
    (heap.map QueueItem.executionId ++ (rows.filter fun row =>
      row.executionId ∉ heap.map QueueItem.executionId).map QueueEntry.executionId).Perm
        (rows.map QueueEntry.executionId) := by
  refine (List.perm_ext_iff_of_nodup ?_ hrows).mpr fun id => ?_
  · refine List.nodup_append.mpr ⟨hheap, hrows.sublist (List.filter_sublist.map _), ?_⟩
    rintro a ha b hb rfl
    obtain ⟨row, hrow, rfl⟩ := List.mem_map.mp hb
    exact of_decide_eq_true (List.mem_filter.mp hrow).2 ha
  · rw [List.mem_append]
    constructor
    · rintro (h | h)
      · obtain ⟨item, hitem, rfl⟩ := List.mem_map.mp h
        exact hsub item hitem
      · exact (List.filter_sublist.map _).subset h
    · intro h
      obtain ⟨row, hrow, rfl⟩ := List.mem_map.mp h
      by_cases hmem : row.executionId ∈ heap.map QueueItem.executionId
      · exact .inl hmem
      · exact .inr (List.mem_map_of_mem (List.mem_filter.mpr ⟨hrow, by simpa only [decide_eq_true_eq]⟩))

/-- In a coherent state the backlog has every queued execution once. -/
theorem Coherent.backlog_perm (h : Coherent db heap) :
    ((backlog db heap).map Prod.fst).Perm
      ((db.jobQueue.filter fun row => row.status = .queued).map QueueEntry.executionId) := by
  have hsorted := (List.perm_insertionSort QueueEntry.Precedes
    (db.jobQueue.filter fun row => row.status = .queued)).map QueueEntry.executionId
  refine (List.Perm.of_eq ?_).trans
    ((perm_filter_of_nodup h.nodup_queued h.distinct fun item hitem => ?_).trans hsorted)
  · simp only [backlog, overflow, List.map_append, List.map_map]
    rfl
  · obtain ⟨row, hrow, hbacks⟩ := h.backed item hitem
    exact hbacks.execution ▸ List.mem_map_of_mem (mem_queuedInOrder.mpr ⟨hrow, hbacks.queued⟩)

theorem drained_executions (h : Coherent db heap) {items : List QueueItem}
    (htickets : items.map QueueItem.ticket = backlog db heap) :
    (items.map QueueItem.executionId).Nodup ∧
      ∀ executionId, executionId ∈ items.map QueueItem.executionId ↔
        ∃ row ∈ db.jobQueue, row.executionId = executionId ∧ row.status = .queued := by
  have hids : items.map QueueItem.executionId = (backlog db heap).map Prod.fst := by
    rw [← htickets, List.map_map]
    rfl
  have hperm := h.backlog_perm
  rw [← hids] at hperm
  refine ⟨?_, fun executionId => ?_⟩
  · exact hperm.nodup_iff.mpr (h.uniqueExecution.sublist (List.filter_sublist.map _))
  · rw [hperm.mem_iff]
    simp only [List.mem_map, List.mem_filter, decide_eq_true_eq]
    exact ⟨fun ⟨row, ⟨hrow, hqueued⟩, heq⟩ => ⟨row, hrow, heq, hqueued⟩,
      fun ⟨row, hrow, heq, hqueued⟩ => ⟨row, ⟨hrow, hqueued⟩, heq⟩⟩

end Serverust
