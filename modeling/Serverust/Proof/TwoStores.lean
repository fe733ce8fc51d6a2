import Serverust.Model.Api
import Serverust.Proof.Footprints
import Serverust.Proof.Session

/-!
# The heap and the table, one request at a time

An execution that is deleted takes its row out of `job_queue` by a cascade, and the heap is not told. In
every state that requests reach one after another, the heap agrees with the table and the queue status
counts the overflow, as long as no request deletes an execution whose item the heap holds.
-/

namespace Serverust

open Calendar Resumption

/-! ### Requests -/

inductive Request where
  | executeJob (jobId : Uuid) (req : Option ExecuteJobRequest)
  | cancelExecution (id : Uuid)
  | deleteExecution (id : Uuid)
  | bulkDeleteExecutions (ids : List Uuid)
  | deleteJob (id : Uuid)
  | dequeue

namespace Request

/-- The handler, without its answer. -/
def task (qm : QueueManager) : Request → Async Unit
  | .executeJob jobId req => do
    let _ ← Api.executeJob qm jobId req
  | .cancelExecution id => do
    let _ ← Api.cancelExecution id
  | .deleteExecution id => Api.deleteExecution id
  | .bulkDeleteExecutions ids => do
    let _ ← Api.bulkDeleteExecutions ids
  | .deleteJob id => Api.deleteJob id
  | .dequeue => do
    let _ ← QueueManager.dequeue

/-- The request takes the queue row of this execution out of the table without telling the heap. -/
def Deletes (db : Db) (executionId : Uuid) : Request → Prop
  | .deleteExecution id => executionId = id
  | .bulkDeleteExecutions ids => executionId ∈ ids
  | .deleteJob id => (∃ x ∈ db.executions, x.id = executionId ∧ x.jobId = id) ∨
      ∃ row ∈ db.jobQueue, row.executionId = executionId ∧ row.jobId = id
  | _ => False

/-- No deleted execution is in the heap. -/
def Spares (w : World) (r : Request) : Prop :=
  ∀ item ∈ w.memoryQueue.items, ¬ r.Deletes w.db item.executionId

end Request

/-- The states that requests reach one after another from a process that starts on a stored queue. Time
passes between them, and a request may meet any condition on the state it finds. -/
inductive Served (qm : QueueManager) (good : World → Request → Prop) : World → Prop
  | start {w : World} (hidle : w.Idle) (hdb : Coherent w.db []) (hheap : w.memoryQueue = .empty) :
      Served qm good w
  | later {w : World} (h : Served qm good w) (now : DateTime) (nextUuid : Uuid) :
      Served qm good { w with now, nextUuid }
  | request {w w' : World} {result : Except AppError Unit} (r : Request) (h : Served qm good w)
      (hgood : good w r) (hrun : (r.task qm).run w = some (result, w')) : Served qm good w'

/-! ### What the two stores agree on -/

/-- The queued rows whose execution is not in the heap. -/
def Db.overflowCount (db : Db) (heap : List QueueItem) : Nat :=
  db.jobQueue.countP fun row =>
    row.status = .queued && row.executionId ∉ heap.map QueueItem.executionId

/-- Every item of the heap has a queued row, and the queue status reports the overflow. -/
structure World.Agrees (w : World) : Prop where
  queued : ∀ item ∈ w.memoryQueue.items,
    ∃ row ∈ w.db.jobQueue, row.executionId = item.executionId ∧ row.status = .queued
  overflow : ∃ response, Api.getQueueStatus.run w = some (.ok response, w) ∧
    response.overflowSize = w.db.overflowCount w.memoryQueue.items

/-- The invariant: no request is running, and the stores are coherent. -/
structure World.Settled (w : World) : Prop where
  idle : w.Idle
  coherent : Coherent w.db w.memoryQueue.items

variable {qm : QueueManager} {w : World} {db db' : Db} {heap : List QueueItem}

/-- In a coherent state the queued rows are those of the heap and the overflow. -/
theorem Coherent.hits_queued (h : Coherent db heap) :
    Rows.hits QueueEntry.status .queued db.jobQueue = heap.length + db.overflowCount heap := by
  have hlength := h.backlog_perm.length_eq
  have hoverflow : (overflow db.jobQueue heap).length = db.overflowCount heap := by
    have hperm := (List.perm_insertionSort QueueEntry.Precedes
      (db.jobQueue.filter fun row => row.status = .queued)).filter fun row =>
        row.executionId ∉ heap.map QueueItem.executionId
    rw [overflow, QueueRepository.queuedInOrder, hperm.length_eq, List.filter_filter,
      ← List.countP_eq_length_filter]
    apply List.countP_congr
    intro row _
    simp only [Bool.and_comm]
  simp only [backlog, List.map_append, List.map_map, List.length_append, List.length_map,
    ← List.countP_eq_length_filter] at hlength
  rw [Rows.hits, ← hlength, hoverflow]

theorem run_countLastHour (hfault : w.fault = none) (status : QueueStatus) :
    (QueueRepository.countLastHour status).run w = some (.ok (w.db.jobQueue.countP fun row =>
      row.status = status && QueueRepository.isRecent w.now row), w) :=
  run_sql hfault

theorem returns_getQueueStatus (hidle : w.Idle) : Task.Returns (fun response w' => w' = w ∧
    response.overflowSize = (Rows.hits QueueEntry.status .queued w.db.jobQueue : Int) - w.memoryQueue.len)
      Api.getQueueStatus w := by
  have hlen : (withLock (fun _ => .unlock) queueLen).run w = some (.ok w.memoryQueue.len, w) := by
    rw [run_withLock hidle.free (u := { w with locked := true }) run_queueLen, ← hidle.free]
  apply Task.Returns.after hlen
  apply Task.Returns.after (run_select hidle.fault)
  apply Task.Returns.after (run_select hidle.fault)
  apply Task.Returns.after (run_countLastHour hidle.fault .completed)
  apply Task.Returns.after (run_countLastHour hidle.fault .failed)
  apply Task.Returns.after (run_select hidle.fault)
  apply Task.Returns.after (run_select hidle.fault)
  exact .of_run rfl ⟨rfl, rfl⟩

/-! ### What a request changes -/

/-- An action on other tables than `job_queue`, which keeps the foreign keys. -/
structure Aside (u v : World) : Prop where
  jobQueue : v.db.jobQueue = u.db.jobQueue
  memoryQueue : v.memoryQueue = u.memoryQueue
  locked : v.locked = u.locked
  fault : v.fault = u.fault
  linked : u.db.Linked → v.db.Linked

theorem exists_over {jobs : List Job} {id : Uuid} (h : ∃ job ∈ jobs, job.id = id) (update : Job) :
    ∃ job ∈ Rows.modify Job.id update.id update.over jobs, job.id = id := by
  obtain ⟨job, hjob, rfl⟩ := h
  by_cases heq : job.id = update.id
  · exact ⟨update.over job, Rows.mem_modify_of_eq hjob heq, rfl⟩
  · exact ⟨job, Rows.mem_modify_of_ne hjob heq, rfl⟩

theorem Reading.aside {u v : World} {ev : Event} (h : Reading u ev v) : Aside u v := by
  obtain ⟨nextUuid, rfl⟩ := h.same
  exact ⟨rfl, rfl, rfl, rfl, fun hlinked => hlinked⟩

theorem Creating.aside {u v : World} {ev : Event} (h : Creating u ev v) : Aside u v := by
  cases h with
  | inserting h =>
      cases h with
      | reading h => exact h.aside
      | insert x hnew hjob =>
          refine ⟨rfl, rfl, rfl, rfl, fun hlinked => ⟨fun row hrow => ?_, fun exec hexec => ?_⟩⟩
          · obtain ⟨exec, hexec, heq⟩ := hlinked.entry row hrow
            exact ⟨exec, List.mem_append_left _ hexec, heq⟩
          · rcases List.mem_append.mp hexec with hold | hlast
            · exact hlinked.execution exec hold
            · exact (List.mem_singleton.mp hlast) ▸ hjob
  | update job =>
      refine ⟨rfl, rfl, rfl, rfl, fun hlinked => ⟨hlinked.entry, fun exec hexec => ?_⟩⟩
      exact exists_over (hlinked.execution exec hexec) job

theorem Db.Linked.modifyExecutions (h : db.Linked) {f : Execution → Execution}
    (hid : ∀ row, (f row).id = row.id) (hjob : ∀ row, (f row).jobId = row.jobId) (id : Uuid) :
    Db.Linked { db with executions := Rows.modify Execution.id id f db.executions } where
  entry row hrow := by
    obtain ⟨exec, hexec, heq⟩ := h.entry row hrow
    by_cases hhit : exec.id = id
    · exact ⟨f exec, Rows.mem_modify_of_eq hexec hhit, (hid exec).trans heq⟩
    · exact ⟨exec, Rows.mem_modify_of_ne hexec hhit, heq⟩
  execution exec hexec := by
    obtain ⟨old, hold, rfl⟩ := Rows.mem_modify.mp hexec
    split
    · exact (hjob old).symm ▸ h.execution old hold
    · exact h.execution old hold

theorem acts_cancelExecution (id : Uuid) :
    (ExecutionService.cancelExecution id).Acts fun u _ v => Aside u v := by
  have hget (id : Uuid) : (ExecutionRepository.getById id).Acts fun u _ v => Aside u v :=
    (acts_getExecution id).mono fun _ _ _ => Reading.aside
  have hcancel (execution : Execution) : Task.Acts (fun u _ v => Aside u v) (do
      let now ← nowRfc3339
      ExecutionRepository.update (execution.markCancelled now)) := by
    refine (acts_nowRfc3339.mono fun _ _ _ => Reading.aside).bind fun now => ?_
    apply Task.Acts.bind (acts_sql ?_ fun w e => (Reading.failed w e).aside)
    · intro affected
      split
      · exact .throw _
      · exact hget _
    · intro u value db h
      cases h
      refine ⟨rfl, rfl, rfl, rfl, fun hlinked => ?_⟩
      apply hlinked.modifyExecutions
      · exact fun _ => rfl
      · exact fun _ => rfl
  apply (hget id).bind
  intro execution
  split
  · exact hcancel execution
  · exact hcancel execution
  · exact hcancel execution
  · exact .throw _

/-! ### Deletions -/

namespace Coherent

theorem shrink (h : Coherent db heap) (hrows : db'.jobQueue.Sublist db.jobQueue) (hlinked : db'.Linked)
    (hkept : ∀ item ∈ heap, ∀ row ∈ db.jobQueue, row.executionId = item.executionId →
      row ∈ db'.jobQueue) : Coherent db' heap where
  uniqueId := h.uniqueId.sublist (hrows.map _)
  uniqueExecution := h.uniqueExecution.sublist (hrows.map _)
  linked := hlinked
  distinct := h.distinct
  backed item hitem := by
    obtain ⟨row, hrow, hbacks⟩ := h.backed item hitem
    exact ⟨row, hkept item hitem row hrow hbacks.execution, hbacks⟩

end Coherent

theorem Db.Linked.deleteRows (h : db.Linked) (gone : Uuid → Bool) :
    (ExecutionRepository.deleteRows gone db).Linked where
  entry row hrow := by
    obtain ⟨hrow, hkept⟩ := List.mem_filter.mp hrow
    obtain ⟨exec, hexec, heq⟩ := h.entry row hrow
    exact ⟨exec, List.mem_filter.mpr ⟨hexec, heq ▸ hkept⟩, heq⟩
  execution exec hexec := h.execution exec (List.mem_filter.mp hexec).1

theorem Coherent.deleteRows (h : Coherent db heap) {gone : Uuid → Bool}
    (hheap : ∀ item ∈ heap, gone item.executionId = false) :
    Coherent (ExecutionRepository.deleteRows gone db) heap := by
  refine h.shrink List.filter_sublist (h.linked.deleteRows gone) fun item hitem row hrow heq => ?_
  refine List.mem_filter.mpr ⟨hrow, ?_⟩
  rw [heq, hheap item hitem]
  rfl

theorem Db.Linked.deleteJob (h : db.Linked) (id : Uuid) : (JobRepository.deleteRows id db).Linked where
  entry row hrow := (h.deleteRows _).entry row (Rows.mem_remove.mp hrow).1
  execution exec hexec := by
    obtain ⟨hexec, hkept⟩ := List.mem_filter.mp hexec
    obtain ⟨job, hjob, heq⟩ := h.execution exec hexec
    refine JobRepository.exists_id_deselect.mpr ⟨job, Rows.mem_remove.mpr ⟨hjob, fun hid => ?_⟩, heq⟩
    simp only [Bool.not_eq_true', List.any_eq_false, Bool.and_eq_true, decide_eq_true_eq] at hkept
    exact hkept exec hexec ⟨rfl, heq.symm.trans hid⟩

theorem Coherent.deleteJob (h : Coherent db heap) {id : Uuid}
    (hheap : ∀ item ∈ heap, ¬ (Request.deleteJob id).Deletes db item.executionId) :
    Coherent (JobRepository.deleteRows id db) heap := by
  refine h.shrink (List.filter_sublist.trans List.filter_sublist) (h.linked.deleteJob id)
    fun item hitem row hrow heq => ?_
  obtain ⟨hexecution, hentry⟩ := not_or.mp (hheap item hitem)
  refine Rows.mem_remove.mpr ⟨List.mem_filter.mpr ⟨hrow, ?_⟩, fun hid => hentry ⟨row, hrow, heq, hid⟩⟩
  simp only [Bool.not_eq_true', List.any_eq_false, Bool.and_eq_true, decide_eq_true_eq]
  exact fun x hx hboth => hexecution ⟨x, hx, hboth.1.trans heq, hboth.2⟩

/-! ### Every request -/

namespace World.Settled

theorem heap_agrees (h : w.Settled) : w.Agrees where
  queued item hitem := by
    obtain ⟨row, hrow, hbacks⟩ := h.coherent.backed item hitem
    exact ⟨row, hrow, hbacks.execution, hbacks.queued⟩
  overflow := by
    obtain ⟨response, _, hrun, rfl, hsize⟩ := returns_getQueueStatus h.idle
    refine ⟨response, hrun, ?_⟩
    rw [hsize, h.coherent.hits_queued, MaxHeap.len]
    omega

theorem aside {u v : World} (h : u.Settled) (haside : Aside u v) : v.Settled where
  idle := ⟨haside.locked.trans h.idle.free, haside.fault.trans h.idle.fault⟩
  coherent := by
    have hcoherent := h.coherent
    rw [haside.memoryQueue]
    refine ⟨?_, ?_, haside.linked hcoherent.linked, hcoherent.distinct, ?_⟩
    · exact haside.jobQueue ▸ hcoherent.uniqueId
    · exact haside.jobQueue ▸ hcoherent.uniqueExecution
    · exact haside.jobQueue ▸ hcoherent.backed

/-- A new execution is in neither store, so its item may be pushed. -/
theorem preserves_enqueue (qm : QueueManager) (item : QueueItem) :
    (qm.enqueue item).Preserves Settled := by
  intro u r u' h hrun
  rcases run_enqueue qm h.idle item with
    ⟨e, hrun'⟩ | ⟨entry, hexecution, hpriority, hstatus, hinsert, hrun'⟩
  · rw [hrun] at hrun'
    cases hrun'
    exact ⟨⟨rfl, h.idle.fault⟩, h.coherent⟩
  · rw [hrun] at hrun'
    cases hrun'
    refine ⟨⟨rfl, h.idle.fault⟩, (h.coherent.insert hinsert).pushed qm (fun other hother heq => ?_)
      (List.mem_append_right _ (List.mem_singleton.mpr rfl)) ⟨hexecution, hstatus, hpriority⟩⟩
    obtain ⟨row, hrow, hbacks⟩ := h.coherent.backed other hother
    exact Rows.hits_eq_zero.mp (insertEntry_ok hinsert).2.2.1 row hrow
      (hbacks.execution.trans (heq.trans hexecution.symm))

theorem preserves_remove (executionId : Uuid) : (QueueManager.remove executionId).Preserves Settled := by
  intro u r u' h hrun
  rw [run_remove h.idle] at hrun
  cases hrun
  exact ⟨⟨rfl, h.idle.fault⟩, h.coherent.remove executionId⟩

theorem preserves_dequeue : QueueManager.dequeue.Preserves Settled := by
  intro u r u' h hrun
  obtain ⟨_, db, heap, hrun', hspec⟩ := run_dequeue h.idle h.coherent
  rw [hrun] at hrun'
  cases hrun'
  exact ⟨⟨rfl, h.idle.fault⟩, hspec.coherent h.coherent⟩

theorem preserves_executeJob (qm : QueueManager) (jobId : Uuid) (req : Option ExecuteJobRequest) :
    (Api.executeJob qm jobId req).Preserves Settled := by
  apply Task.Preserves.bind
  · exact .of_acts (acts_createExecution jobId _) fun _ _ _ hacts h => h.aside hacts.aside
  intro execution
  apply Task.Preserves.bind
  · exact .of_acts (acts_getJob jobId) fun _ _ _ hacts h => h.aside hacts.aside
  intro job
  apply Task.Preserves.bind
  · apply (preserves_enqueue qm _).attempt.bind
    intro r
    cases r with
    | ok value => exact .pure
    | error e => exact .throw
  · exact fun _ => .pure

theorem preserves_cancelExecution (id : Uuid) : (Api.cancelExecution id).Preserves Settled := by
  apply Task.Preserves.bind
  · exact .of_acts (acts_cancelExecution id) fun _ _ _ haside h => h.aside haside
  · exact fun _ => (preserves_remove id).attempt.bind fun _ => .pure

/-- A settled state whose heap holds none of these executions. -/
def Without (gone : Uuid → Bool) (u : World) : Prop :=
  u.Settled ∧ ∀ item ∈ u.memoryQueue.items, gone item.executionId = false

theorem preserves_deleteRows (gone : Uuid → Bool) (stmt : Db → Stmt) (affected : Db → Nat) :
    (execute stmt fun db => (affected db, ExecutionRepository.deleteRows gone db)).Preserves
      (Without gone) := by
  rintro u r u' ⟨h, hheap⟩ hrun
  rw [run_execute h.idle.fault] at hrun
  cases hrun
  exact ⟨⟨⟨h.idle.free, h.idle.fault⟩, h.coherent.deleteRows hheap⟩, hheap⟩

theorem preserves_deleteExecution (id : Uuid) :
    (Api.deleteExecution id).Preserves (Without fun e => e = id) := by
  apply Task.Preserves.bind
  · apply Task.Preserves.attempt
    have hacts : (ExecutionLogRepository.deleteByExecution id).Acts fun u _ v => Aside u v := by
      unfold ExecutionLogRepository.deleteByExecution execute
      apply acts_sql
      · intro u value db h
        cases h
        exact ⟨rfl, rfl, rfl, rfl, fun hlinked => ⟨hlinked.entry, hlinked.execution⟩⟩
      · exact fun u e => (Reading.failed u e).aside
    refine .of_acts hacts fun u _ v haside h => ⟨h.1.aside haside, ?_⟩
    rw [haside.memoryQueue]
    exact h.2
  · intro _
    apply (preserves_deleteRows _ _ _).bind
    intro affected
    split
    · exact .throw
    · exact .pure

theorem preserves_bulkDeleteExecutions (ids : List Uuid) :
    (Api.bulkDeleteExecutions ids).Preserves (Without fun e => e ∈ ids) := by
  unfold Api.bulkDeleteExecutions ExecutionService.deleteExecutions ExecutionRepository.deleteBulk
  split
  · exact .throw
  · exact (preserves_deleteRows _ _ _).bind fun _ => .pure

theorem deleteJob (h : w.Settled) {id : Uuid} (hspares : (Request.deleteJob id).Spares w)
    {result : Except AppError Unit} {w' : World} (hrun : (Api.deleteJob id).run w = some (result, w')) :
    w'.Settled := by
  have hdeleted : World.Settled { w with db := JobRepository.deleteRows id w.db } :=
    ⟨⟨h.idle.free, h.idle.fault⟩, h.coherent.deleteJob hspares⟩
  simp only [Api.deleteJob, JobService.deleteJob, JobRepository.delete, Task.run_bind,
    run_execute h.idle.fault] at hrun
  split at hrun
  · cases hrun
    exact hdeleted
  · cases hrun
    exact hdeleted

/-- A request that spares the heap leaves a settled state. -/
theorem request (h : w.Settled) {r : Request} (hspares : r.Spares w) {result : Except AppError Unit}
    {w' : World} (hrun : (r.task qm).run w = some (result, w')) : w'.Settled := by
  cases r with
  | executeJob jobId req =>
      exact ((preserves_executeJob qm jobId req).bind fun _ => .pure) _ _ _ h hrun
  | cancelExecution id => exact ((preserves_cancelExecution id).bind fun _ => .pure) _ _ _ h hrun
  | deleteExecution id =>
      refine (preserves_deleteExecution id _ _ _ ⟨h, fun item hitem => ?_⟩ hrun).1
      exact decide_eq_false (hspares item hitem)
  | bulkDeleteExecutions ids =>
      have hstart : World.Settled.Without (fun e => e ∈ ids) w :=
        ⟨h, fun item hitem => decide_eq_false (hspares item hitem)⟩
      exact (((preserves_bulkDeleteExecutions ids).bind fun _ => .pure) _ _ _ hstart hrun).1
  | deleteJob id => exact h.deleteJob hspares hrun
  | dequeue => exact (preserves_dequeue.bind fun _ => .pure) _ _ _ h hrun

end World.Settled

namespace Served

theorem settled (h : Served qm (fun u r => r.Spares u) w) : w.Settled := by
  induction h with
  | start hidle hdb hheap => exact ⟨hidle, by rwa [hheap]⟩
  | later h now nextUuid ih => exact ⟨⟨ih.idle.free, ih.idle.fault⟩, ih.coherent⟩
  | request r h hspares hrun ih => exact ih.request hspares hrun

/-- While no request deletes an execution whose item the heap holds, the heap agrees with the table and
the queue status counts the overflow. -/
theorem agrees (h : Served qm (fun u r => r.Spares u) w) : w.Agrees := h.settled.heap_agrees

/-- One execution of a job is enqueued; another one exists. -/
def sample : World := (World.sample 0 [7]).after ((Request.executeJob 1 none).task ⟨1, 3⟩)

theorem served_sample {good : World → Request → Prop}
    (hgood : good (World.sample 0 [7]) (.executeJob 1 none)) : Served ⟨1, 3⟩ good sample := by
  have hcoherent : Coherent (World.sample 0 [7]).db [] :=
    ⟨List.nodup_nil, List.nodup_nil, World.sample_linked 0 [7], List.nodup_nil, nofun⟩
  have hrun : ((Request.executeJob 1 none).task ⟨1, 3⟩).run (World.sample 0 [7]) = some (.ok (), sample) := rfl
  exact .request _ (.start ⟨rfl, rfl⟩ hcoherent rfl) hgood hrun

/-- The other execution is deleted. -/
theorem agrees_other_deleted : (sample.after ((Request.deleteExecution 7).task ⟨1, 3⟩)).Agrees := by
  have hrun : ((Request.deleteExecution 7).task ⟨1, 3⟩).run sample =
    some (.ok (), sample.after ((Request.deleteExecution 7).task ⟨1, 3⟩)) := rfl
  refine agrees (.request _ (served_sample nofun) ?_ hrun)
  intro item hitem
  rcases List.mem_singleton.mp hitem with rfl
  show ¬ (1000 : Uuid) = 7
  decide

/-- The queued execution itself is deleted: its item stays in the heap without a row, and the overflow
that is reported is negative. -/
theorem item_outlives_row :
    ¬ ∀ (qm : QueueManager) (w : World), Served qm (fun _ _ => True) w → w.Agrees := by
  intro h
  have hrun : ((Request.deleteExecution 1000).task ⟨1, 3⟩).run sample =
    some (.ok (), sample.after ((Request.deleteExecution 1000).task ⟨1, 3⟩)) := rfl
  have hstart : Served ⟨1, 3⟩ (fun _ _ => True) sample := served_sample trivial
  have hserved := hstart.request _ trivial hrun
  obtain ⟨row, hrow, _⟩ := (h _ _ hserved).queued _ (List.mem_singleton.mpr rfl)
  cases hrow

end Served

end Serverust
