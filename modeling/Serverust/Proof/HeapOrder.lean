import Serverust.Proof.Priority

/-!
# The order of the heap and the order of the table

While the heap never overflows, every queued row has its item in the heap, so the heap decides what each
dequeue returns: the highest priority, and of those the greatest execution id. The queries on the table
take the oldest instead. The two sequences are the same exactly when the oldest is the greatest each time.
-/

namespace Serverust

open Calendar Resumption

namespace HeapOrder

/-! ### A queue that is only the table -/

/-- A call; an enqueue comes with the row it inserts. -/
inductive Call where
  | enqueue (entry : QueueEntry)
  | dequeue

/-- `impl Ord for QueueItem`, on the rows. -/
def rank (row : QueueEntry) : ℤ ×ₗ ℕ := toLex (row.priority, row.executionId)

/-- The greatest by `impl Ord for QueueItem`. -/
def byExecution (waiting : List QueueEntry) : Option QueueEntry :=
  (waiting.insertionSort fun a b => rank b ≤ rank a).head?

/-- The first by `ORDER BY priority DESC, queued_at ASC`. -/
def byAge (waiting : List QueueEntry) : Option QueueEntry := (QueueRepository.queuedInOrder waiting).head?

def take (first : Option QueueEntry) (waiting : List QueueEntry) : List QueueEntry :=
  match first with
  | none => waiting
  | some first => waiting.filter fun row => row.id ≠ first.id

/-- What the dequeues return if each takes the row that `pick` selects. -/
def replay (pick : List QueueEntry → Option QueueEntry) : List Call → List QueueEntry → List (Option Uuid)
  | [], _ => []
  | .enqueue entry :: calls, waiting => replay pick calls (waiting ++ [entry])
  | .dequeue :: calls, waiting =>
    (pick waiting).map QueueEntry.executionId :: replay pick calls (take (pick waiting) waiting)

/-- At each dequeue the oldest of the highest priority has the greatest execution id among these. -/
def Agrees : List Call → List QueueEntry → Prop
  | [], _ => True
  | .enqueue entry :: calls, waiting => Agrees calls (waiting ++ [entry])
  | .dequeue :: calls, waiting =>
    (∀ first, byAge waiting = some first → ∀ row ∈ waiting, row.priority = first.priority →
      row.executionId ≤ first.executionId) ∧ Agrees calls (take (byExecution waiting) waiting)

section

variable {waiting : List QueueEntry} {first row : QueueEntry}

instance : Std.Total fun a b : QueueEntry => rank b ≤ rank a := ⟨fun a b => le_total (rank b) (rank a)⟩

instance : IsTrans QueueEntry fun a b => rank b ≤ rank a := ⟨fun _ _ _ hab hbc => hbc.trans hab⟩

theorem byExecution_eq_none : byExecution waiting = none ↔ waiting = [] := by
  rw [byExecution, List.head?_eq_none_iff]
  constructor
  · intro hnil
    apply List.eq_nil_of_length_eq_zero
    rw [← (List.perm_insertionSort (fun a b => rank b ≤ rank a) waiting).length_eq, hnil]
    rfl
  · rintro rfl
    rfl

theorem greatest_of_byExecution (h : byExecution waiting = some first) :
    first ∈ waiting ∧ ∀ row ∈ waiting, rank row ≤ rank first := by
  obtain ⟨rest, hsort⟩ := List.head?_eq_some_iff.mp h
  have hperm := List.perm_insertionSort (fun a b => rank b ≤ rank a) waiting
  have hsorted := List.pairwise_insertionSort (fun a b => rank b ≤ rank a) waiting
  rw [hsort] at hperm hsorted
  refine ⟨hperm.mem_iff.mp List.mem_cons_self, ?_⟩
  intro row hrow
  rcases List.mem_cons.mp (hperm.mem_iff.mpr hrow) with rfl | hrest
  · exact le_rfl
  · exact List.rel_of_pairwise_cons hsorted hrest

/-- With distinct executions, the row whose rank no other exceeds is the one selected. -/
theorem byExecution_eq (hunique : Rows.Unique QueueEntry.executionId waiting) (hrow : row ∈ waiting)
    (hgreatest : ∀ other ∈ waiting, rank other ≤ rank row) : byExecution waiting = some row := by
  cases hpick : byExecution waiting with
  | none =>
      rw [byExecution_eq_none.mp hpick] at hrow
      cases hrow
  | some first =>
      obtain ⟨hfirst, hmax⟩ := greatest_of_byExecution hpick
      have heq : rank first = rank row := le_antisymm (hgreatest first hfirst) (hmax row hrow)
      have hexecution : first.executionId = row.executionId := congrArg (fun k => (ofLex k).2) heq
      rw [hunique.eq_of_column hfirst hrow hexecution]

end

section

variable {waiting : List QueueEntry} {first best row : QueueEntry}

theorem rank_le_iff {a b : QueueEntry} :
    rank a ≤ rank b ↔ a.priority < b.priority ∨ a.priority = b.priority ∧ a.executionId ≤ b.executionId :=
  Prod.Lex.toLex_le_toLex

theorem first_of_byAge (h : byAge waiting = some first) :
    first ∈ waiting ∧ ∀ row ∈ waiting, row.status = .queued → row.priority ≤ first.priority := by
  obtain ⟨rest, horder⟩ := List.head?_eq_some_iff.mp h
  refine ⟨(mem_queuedInOrder.mp (horder ▸ List.mem_cons_self)).1, ?_⟩
  exact fun row hrow hqueued => priority_le_first horder hrow hqueued

theorem byAge_isSome (hqueued : ∀ row ∈ waiting, row.status = .queued) (hrow : row ∈ waiting) :
    ∃ first, byAge waiting = some first := by
  cases horder : QueueRepository.queuedInOrder waiting with
  | nil =>
      have hmem := mem_queuedInOrder.mpr ⟨hrow, hqueued row hrow⟩
      rw [horder] at hmem
      cases hmem
  | cons first rest => exact ⟨first, by rw [byAge, horder]; rfl⟩

/-- The two selections agree exactly if the oldest of the highest priority has the greatest execution id. -/
theorem same_selection_iff (hqueued : ∀ row ∈ waiting, row.status = .queued)
    (hunique : Rows.Unique QueueEntry.executionId waiting) :
    (∀ first, byAge waiting = some first → ∀ row ∈ waiting, row.priority = first.priority →
        row.executionId ≤ first.executionId) ↔
      (byExecution waiting).map QueueEntry.executionId = (byAge waiting).map QueueEntry.executionId := by
  cases hpick : byExecution waiting with
  | none =>
      rw [byExecution_eq_none.mp hpick]
      exact ⟨fun _ => rfl, fun _ _ h => nomatch h⟩
  | some best =>
      obtain ⟨hbest, hmax⟩ := greatest_of_byExecution hpick
      obtain ⟨first, hfirst⟩ := byAge_isSome hqueued hbest
      obtain ⟨hmem, hhighest⟩ := first_of_byAge hfirst
      rw [hfirst, Option.map_some, Option.map_some, Option.some.injEq]
      constructor
      · intro hgreatest
        have hle := hhighest best hbest (hqueued best hbest)
        rcases rank_le_iff.mp (hmax first hmem) with hlt | ⟨heq, hid⟩
        · omega
        · exact le_antisymm (hgreatest first rfl best hbest heq.symm) hid
      · rintro hid _ ⟨⟩ row hrow heq
        rw [hunique.eq_of_column hmem hbest hid.symm] at heq ⊢
        rcases rank_le_iff.mp (hmax row hrow) with hlt | ⟨_, hle⟩
        · omega
        · exact hle

theorem selection_eq (hqueued : ∀ row ∈ waiting, row.status = .queued)
    (hunique : Rows.Unique QueueEntry.executionId waiting)
    (h : (byExecution waiting).map QueueEntry.executionId = (byAge waiting).map QueueEntry.executionId) :
    byAge waiting = byExecution waiting := by
  cases hpick : byExecution waiting with
  | none =>
      rw [byExecution_eq_none.mp hpick]
      rfl
  | some best =>
      obtain ⟨hbest, _⟩ := greatest_of_byExecution hpick
      obtain ⟨first, hfirst⟩ := byAge_isSome hqueued hbest
      rw [hpick, hfirst, Option.map_some, Option.map_some, Option.some.injEq] at h
      rw [hfirst, hunique.eq_of_column (first_of_byAge hfirst).1 hbest h.symm]

end

/-! ### The queue manager -/

/-- Calls one after another, with what each dequeue returns. An enqueue finds room in the heap, or fails
and adds nothing; between calls anything may happen to the rest of the state. -/
inductive Runs (qm : QueueManager) : World → List Call → List (Option Uuid) → World → Prop
  | nil {w : World} : Runs qm w [] [] w
  | enqueue {w u v : World} {item : QueueItem} {calls : List Call} {outs : List (Option Uuid)}
      (hroom : w.memoryQueue.len < qm.maxMemorySize) (hrun : (qm.enqueue item).run w = some (.ok (), u))
      (hrest : Runs qm u calls outs v) : Runs qm w (.enqueue (entryOf item w) :: calls) outs v
  | refused {w u v : World} {item : QueueItem} {e : AppError} {calls : List Call} {outs : List (Option Uuid)}
      (hrun : (qm.enqueue item).run w = some (.error e, u)) (hrest : Runs qm u calls outs v) :
      Runs qm w calls outs v
  | dequeue {w u v : World} {r : Option QueueItem} {calls : List Call} {outs : List (Option Uuid)}
      (hrun : QueueManager.dequeue.run w = some (.ok r, u)) (hrest : Runs qm u calls outs v) :
      Runs qm w (.dequeue :: calls) (r.map QueueItem.executionId :: outs) v
  | elsewhere {w u v : World} {calls : List Call} {outs : List (Option Uuid)}
      (hrows : u.db.jobQueue = w.db.jobQueue) (hheap : u.memoryQueue = w.memoryQueue) (hidle : u.Idle)
      (hlinked : u.db.Linked) (hrest : Runs qm u calls outs v) : Runs qm w calls outs v

/-- The rows that wait. -/
def waiting (db : Db) : List QueueEntry := db.jobQueue.filter fun row => row.status = .queued

/-- The two stores agree, and every queued row has its item in the heap. -/
structure Covered (w : World) : Prop where
  idle : w.Idle
  coherent : Coherent w.db w.memoryQueue.items
  covered : ∀ row ∈ waiting w.db, ∃ item ∈ w.memoryQueue.items, row.Backs item

section

variable {qm : QueueManager} {w u : World} {item : QueueItem} {row : QueueEntry}

theorem mem_waiting {db : Db} : row ∈ waiting db ↔ row ∈ db.jobQueue ∧ row.status = .queued := by
  simp only [waiting, List.mem_filter, decide_eq_true_eq]

theorem rank_of_backs (h : row.Backs item) : rank row = item.key := by
  rw [rank, h.priority, h.execution]
  rfl

theorem Covered.empty (hidle : w.Idle) (hlinked : w.db.Linked) (hrows : w.db.jobQueue = [])
    (hheap : w.memoryQueue = .empty) : Covered w where
  idle := hidle
  coherent := by
    have hsound : Session.Sound ⟨0, 0⟩ ⟨w, [], []⟩ := .start hrows hheap hidle hlinked
    exact hsound.coherent
  covered := by
    rw [waiting, hrows]
    exact nofun

theorem Covered.enqueue (h : Covered w) (hroom : w.memoryQueue.len < qm.maxMemorySize)
    (hrun : (qm.enqueue item).run w = some (.ok (), u)) :
    Covered u ∧ waiting u.db = waiting w.db ++ [entryOf item w] := by
  rcases run_enqueue_cases qm h.idle item with ⟨e, hrun'⟩ | hinsert
  · rw [hrun] at hrun'
    cases hrun'
  · have hrun' := run_enqueue_ok qm h.idle item hinsert
    rw [hrun] at hrun'
    cases hrun'
    obtain ⟨_, _, hnew, _⟩ := insertEntry_ok hinsert
    have hbacks : (entryOf item w).Backs item := ⟨rfl, rfl, rfl⟩
    have hwaiting : waiting (w.db.setQueue (w.db.jobQueue ++ [entryOf item w])) =
        waiting w.db ++ [entryOf item w] := List.filter_append ..
    have hpushed : (pushed qm w.memoryQueue item).items.Perm (item :: w.memoryQueue.items) := by
      rw [pushed, if_pos hroom]
      exact w.memoryQueue.push_perm item
    refine ⟨⟨⟨rfl, h.idle.fault⟩, ?_, ?_⟩, hwaiting⟩
    · apply (h.coherent.insert hinsert).pushed qm ?_ (List.mem_append_right _ (List.mem_singleton.mpr rfl)) hbacks
      intro other hother heq
      obtain ⟨row, hrow, hbacks'⟩ := h.coherent.backed other hother
      exact Rows.hits_eq_zero.mp hnew row hrow (hbacks'.execution.trans heq)
    · intro row hrow
      rw [hwaiting] at hrow
      rcases List.mem_append.mp hrow with hold | hlast
      · obtain ⟨other, hother, hbacks'⟩ := h.covered row hold
        exact ⟨other, hpushed.mem_iff.mpr (List.mem_cons_of_mem item hother), hbacks'⟩
      · rw [List.mem_singleton.mp hlast]
        exact ⟨item, hpushed.mem_iff.mpr List.mem_cons_self, hbacks⟩

theorem Covered.refused (h : Covered w) {e : AppError} (hrun : (qm.enqueue item).run w = some (.error e, u)) :
    Covered u ∧ waiting u.db = waiting w.db := by
  rcases run_enqueue_cases qm h.idle item with ⟨e, hrun'⟩ | hinsert
  · rw [hrun] at hrun'
    cases hrun'
    exact ⟨⟨⟨rfl, h.idle.fault⟩, h.coherent, h.covered⟩, rfl⟩
  · rw [run_enqueue_ok qm h.idle item hinsert] at hrun
    cases hrun

theorem Covered.elsewhere (h : Covered w) (hrows : u.db.jobQueue = w.db.jobQueue)
    (hheap : u.memoryQueue = w.memoryQueue) (hidle : u.Idle) (hlinked : u.db.Linked) :
    Covered u ∧ waiting u.db = waiting w.db := by
  have hwaiting : waiting u.db = waiting w.db := by rw [waiting, hrows, waiting]
  refine ⟨⟨hidle, ⟨?_, ?_, hlinked, ?_, ?_⟩, ?_⟩, hwaiting⟩
  · exact hrows ▸ h.coherent.uniqueId
  · exact hrows ▸ h.coherent.uniqueExecution
  · exact hheap ▸ h.coherent.distinct
  · exact hheap ▸ hrows ▸ h.coherent.backed
  · rw [hwaiting, hheap]
    exact h.covered

/-- A dequeue returns the greatest of the waiting rows and takes it. -/
theorem Covered.dequeue (h : Covered w) {r : Option QueueItem}
    (hrun : QueueManager.dequeue.run w = some (.ok r, u)) :
    Covered u ∧ r.map QueueItem.executionId = (byExecution (waiting w.db)).map QueueEntry.executionId ∧
      waiting u.db = take (byExecution (waiting w.db)) (waiting w.db) := by
  obtain ⟨r', db, heap, hrun', hspec⟩ := run_dequeue h.idle h.coherent
  rw [hrun] at hrun'
  cases hrun'
  have hcoherent := hspec.coherent h.coherent
  have hnone (hheap : w.memoryQueue.items = []) : waiting w.db = [] := by
    apply List.eq_nil_iff_forall_not_mem.mpr
    intro row hrow
    obtain ⟨item, hitem, _⟩ := h.covered row hrow
    rw [hheap] at hitem
    cases hitem
  generalize hleft : heap.items = left at hspec
  cases hspec with
  | @fromHeap item rest row f hheap hrow hbacks hf =>
      have hwaits : row ∈ waiting w.db := mem_waiting.mpr ⟨hrow, hbacks.queued⟩
      have hpick : byExecution (waiting w.db) = some row := by
        apply byExecution_eq (h.coherent.uniqueExecution.sublist (List.filter_sublist.map _)) hwaits
        intro other hother
        obtain ⟨i, hi, hbacks'⟩ := h.covered other hother
        rw [rank_of_backs hbacks, rank_of_backs hbacks']
        exact MaxHeap.key_le_of_mem hheap hi
      have hleave : waiting (restamp f row.id w.db) = (waiting w.db).filter fun other => other.id ≠ row.id := by
        rw [waiting, restamp, Db.setQueue_jobQueue,
          Rows.filter_modify (fun row => by simp only [hf.status, reduceCtorEq, decide_false]), waiting, List.filter_filter]
        simp only [Bool.and_comm]
      refine ⟨⟨⟨rfl, h.idle.fault⟩, hcoherent, ?_⟩, ?_, ?_⟩
      · intro other hother
        rw [hleave] at hother
        obtain ⟨hother, hne⟩ := List.mem_filter.mp hother
        obtain ⟨i, hi, hbacks'⟩ := h.covered other hother
        refine ⟨i, ?_, hbacks'⟩
        rw [hleft]
        rw [hheap] at hi
        rcases List.mem_cons.mp hi with rfl | hi
        · have heq := h.coherent.uniqueExecution.eq_of_column (mem_waiting.mp hother).1 hrow
            (hbacks'.execution.trans hbacks.execution.symm)
          rw [heq] at hne
          simp at hne
        · exact hi
      · rw [hpick, Option.map_some, Option.map_some, hbacks.execution]
      · rw [hpick]
        exact hleave
  | @fromTable item row rest f hheap horder hbacks hf =>
      have hwaits := mem_waiting.mpr (mem_queuedInOrder.mp (horder ▸ List.mem_cons_self))
      rw [hnone hheap] at hwaits
      cases hwaits
  | nothing hheap _ =>
      have hpick : byExecution (waiting w.db) = none := byExecution_eq_none.mpr (hnone hheap)
      refine ⟨⟨⟨rfl, h.idle.fault⟩, hcoherent, ?_⟩, ?_, ?_⟩
      · rw [hnone hheap]
        exact List.forall_mem_nil _
      · rw [hpick]
        rfl
      · rw [hpick]
        rfl

theorem Covered.unique (h : Covered w) : Rows.Unique QueueEntry.executionId (waiting w.db) :=
  h.coherent.uniqueExecution.sublist (List.filter_sublist.map _)

end

/-- What the dequeues return is the order of `QueueItem`: priority, and then execution id. It is the
order of the table's queries exactly if these agree at each dequeue. -/
theorem dequeues_in_heap_order {qm : QueueManager} {w w' : World} {calls : List Call} {outs : List (Option Uuid)}
    (h : Covered w) (hruns : Runs qm w calls outs w') :
    outs = replay byExecution calls (waiting w.db) ∧
      (outs = replay byAge calls (waiting w.db) ↔ Agrees calls (waiting w.db)) := by
  induction hruns with
  | nil => exact ⟨rfl, fun _ => trivial, fun _ => rfl⟩
  | enqueue hroom hrun _ ih =>
      obtain ⟨hu, hwaiting⟩ := h.enqueue hroom hrun
      rw [replay, replay, Agrees, ← hwaiting]
      exact ih hu
  | refused hrun _ ih =>
      obtain ⟨hu, hwaiting⟩ := h.refused hrun
      rw [← hwaiting]
      exact ih hu
  | elsewhere hrows hheap hidle hlinked _ ih =>
      obtain ⟨hu, hwaiting⟩ := h.elsewhere hrows hheap hidle hlinked
      rw [← hwaiting]
      exact ih hu
  | @dequeue w u v r calls outs hrun _ ih =>
      obtain ⟨hu, hout, hwaiting⟩ := h.dequeue hrun
      obtain ⟨hsame, hiff⟩ := ih hu
      have hqueued : ∀ row ∈ waiting w.db, row.status = .queued := fun row hrow => (mem_waiting.mp hrow).2
      have hselect := same_selection_iff hqueued h.unique
      rw [hwaiting] at hsame hiff
      rw [replay, replay, Agrees, hout, List.cons.injEq, List.cons.injEq, hselect]
      refine ⟨⟨rfl, hsame⟩, ?_⟩
      constructor
      · rintro ⟨hfirst, hrest⟩
        rw [selection_eq hqueued h.unique hfirst] at hrest
        exact ⟨hfirst, hiff.mp hrest⟩
      · rintro ⟨hfirst, hrest⟩
        rw [selection_eq hqueued h.unique hfirst]
        exact ⟨rfl, hiff.mpr hrest⟩

/-! ### Two executions of one priority -/

/-- The row that a call inserts. -/
def Call.entry : Call → Option QueueEntry
  | .enqueue entry => some entry
  | .dequeue => none

def manager : QueueManager := ⟨8, 3⟩

def unused : World := .sample 0 [7, 8]

def afterFirst : World := unused.after (manager.enqueue (.sample 7 1))

/-- One hour later. -/
def later : World := { afterFirst with now := { epoch with hour := 1, hour_lt := by decide } }

def afterSecond : World := later.after (manager.enqueue (.sample 8 1))

/-- Execution 7 is enqueued, then execution 8, and both are dequeued. -/
def sampleCalls : List Call :=
  [.enqueue (entryOf (.sample 7 1) unused), .enqueue (entryOf (.sample 8 1) later), .dequeue, .dequeue]

theorem covered_unused : Covered unused := .empty ⟨rfl, rfl⟩ (World.sample_linked 0 [7, 8]) rfl rfl

theorem linked_afterFirst : afterFirst.db.Linked where
  entry := by
    intro row hrow
    rw [show afterFirst.db.jobQueue = [entryOf (.sample 7 1) unused] from rfl] at hrow
    rw [List.mem_singleton.mp hrow]
    exact ⟨_, List.mem_cons_self, rfl⟩
  execution := (World.sample_linked 0 [7, 8]).execution

theorem runs_sample : ∃ w', Runs manager unused sampleCalls [some 8, some 7] w' :=
  ⟨_, .enqueue (u := afterFirst) (by decide) rfl (.elsewhere (u := later) rfl rfl ⟨rfl, rfl⟩ linked_afterFirst
    (.enqueue (u := afterSecond) (by decide) rfl (.dequeue (r := some (.sample 8 1)) rfl
      (.dequeue (r := some (.sample 7 1)) rfl .nil))))⟩

/-- The younger of the two is dequeued first. -/
theorem dequeues_in_heap_order_sample :
    [some 8, some 7] = replay byExecution sampleCalls (waiting unused.db) ∧
      ([some 8, some 7] = replay byAge sampleCalls (waiting unused.db) ↔ Agrees sampleCalls (waiting unused.db)) := by
  obtain ⟨w', hruns⟩ := runs_sample
  exact dequeues_in_heap_order covered_unused hruns

/-- The order of the table would take the older one. -/
theorem heap_is_not_oldest_first : ¬ ∀ (qm : QueueManager) (w w' : World) (calls : List Call)
    (outs : List (Option Uuid)), Covered w → Runs qm w calls outs w' →
    ((waiting w.db ++ calls.filterMap Call.entry).map QueueEntry.queuedAt).Nodup →
      outs = replay byAge calls (waiting w.db) := by
  intro hclaim
  obtain ⟨w', hruns⟩ := runs_sample
  have hsame := hclaim manager unused w' sampleCalls _ covered_unused hruns (by decide)
  exact absurd hsame (by decide)

end HeapOrder

end Serverust
