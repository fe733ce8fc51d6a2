import Serverust.Proof.Handlers

/-!
# All calls of the server

The mutex guards the heap, and every action keeps the stored data consistent and the heap within its bound. Every
call takes the mutex only to give it back.
-/

namespace Serverust

open Calendar Resumption

variable {α β : Type}

namespace Server

/-- The mutex and the heap. What is legal keeps the stored data consistent and the heap within its bound. -/
def monitor (cron : Cron) (maxMemorySize : Nat) : Monitor Event World MemoryQueue Unit where
  locked w := w.locked
  data w := w.memoryQueue
  record g _ := g
  fits _ _ := True
  inv w := w.db.Consistent cron ∧ w.memoryQueue.len ≤ maxMemorySize
  legal u _ v := Writes cron u.db v.db ∧ v.memoryQueue.len ≤ max u.memoryQueue.len maxMemorySize
  keeps := by
    rintro u ev v ⟨hdb, hlen⟩ ⟨hwrites, hlen'⟩
    exact ⟨hwrites.consistent hdb, by omega⟩

end Server

open Server (monitor)

variable {cron : Cron} {size : Nat} {held : Option (Unit × MemoryQueue)}

instance : Admits cron (monitor cron size) where
  consistent hinv := hinv.1
  leaves _ h := ⟨⟨.spares h.db, h.heap ▸ le_max_left _ _⟩, h.locked, h.heap, fun _ => rfl⟩

/-! ### One action -/

theorem guarded_change {stmt : Db → α → Stmt} {statement : DateTime → Db → Except SqlError (α × Db)}
    {mapErr : SqlError → AppError}
    (h : ∀ now db value db', statement now db = .ok (value, db') → Writes cron db db') :
    (sql stmt statement mapErr).Safe (monitor cron size) held fun _ => True := by
  apply Task.Safe.action
  intro u hinv
  cases hquery : u.query statement with
  | error e => exact ⟨Admits.leaves hinv (.refl u), fun _ _ => trivial⟩
  | ok r => exact ⟨⟨⟨h _ _ _ _ (query_ok hquery).2, le_max_left _ _⟩, rfl, rfl, fun _ => rfl⟩, fun _ _ => trivial⟩

theorem guarded_rewrite {stmt : Db → Stmt} {write : Db → Nat × Db} (h : ∀ db, Writes cron db (write db).2) :
    (execute stmt write).Safe (monitor cron size) held fun _ => True := by
  apply guarded_change
  intro now db value db' hok
  obtain rfl : (write db).2 = db' := congrArg Prod.snd (Except.ok.inj hok)
  exact h db

theorem guarded_spawnRequeue (task : RequeueTask) :
    (spawnRequeue task).Safe (monitor cron size) held fun _ => True := by
  apply Task.Safe.action
  intro u _
  exact ⟨⟨⟨.spares (.refl u.db), le_max_left _ _⟩, rfl, rfl, fun _ => rfl⟩, fun _ _ => trivial⟩

/-! ### The queue -/

namespace QueueRepository

theorem guarded_enqueue (entry : QueueEntry) (htimed : entry.Timed) :
    (enqueue entry).Safe (monitor cron size) held fun _ => True := by
  refine Task.Safe.bind (guarded_change fun now db _ _ hinsert => ?_) fun _ _ => .pure trivial
  exact .insertEntry htimed hinsert

theorem guarded_update (entry : QueueEntry) (htimed : entry.Timed) :
    (update entry).Safe (monitor cron size) held fun _ => True := by
  refine Task.Safe.bind (guarded_rewrite fun db => .entries ?_ fun h row hrow => ?_) fun _ _ => .pure trivial
  · exact Rows.sublist_modify fun _ => rfl
  · obtain ⟨old, hold, rfl⟩ := Rows.mem_modify.mp hrow
    split
    · exact { started := htimed.started, completed := htimed.completed }
    · exact h old hold

theorem guarded_removeByExecution (executionId : Uuid) :
    (removeByExecution executionId).Safe (monitor cron size) held fun _ => True := by
  refine Task.Safe.bind (guarded_rewrite fun db => .entries ?_ fun h row hrow => ?_) fun _ _ => .pure trivial
  · exact List.filter_sublist.map _
  · exact h row (Rows.mem_remove.mp hrow).1

/-- Entries that are queued again. -/
theorem writes_requeue {column : QueueEntry → β} [DecidableEq β] {value : β} {f : QueueEntry → QueueEntry} (db : Db)
    (hident : ∀ row, (f row).ident = row.ident) (hqueued : ∀ row, (f row).status = .queued) :
    Writes cron db { db with jobQueue := Rows.modify column value f db.jobQueue } := by
  refine .entries ?_ fun h row hrow => ?_
  · exact Rows.sublist_modify hident
  · obtain ⟨old, hold, rfl⟩ := Rows.mem_modify.mp hrow
    split
    · have hstatus := hqueued old
      exact {
        started := fun h => by rw [hstatus] at h; cases h
        completed := fun h => absurd hstatus h }
    · exact h old hold

theorem guarded_resetProcessingToQueued :
    resetProcessingToQueued.Safe (monitor cron size) held fun _ => True :=
  guarded_rewrite fun db => writes_requeue db (fun _ => rfl) fun _ => rfl

theorem guarded_requeue (id : Uuid) : (requeue id).Safe (monitor cron size) held fun _ => True :=
  Task.Safe.bind (guarded_rewrite fun db => writes_requeue db (fun _ => rfl) fun _ => rfl) fun _ _ => .pure trivial

theorem guarded_dequeueAtomic : dequeueAtomic.Safe (monitor cron size) held fun _ => True := by
  apply guarded_change
  intro now db row db' hok
  obtain rfl : { db with jobQueue := (takeFirst now db.jobQueue).2 } = db' :=
    congrArg Prod.snd (Except.ok.inj hok)
  unfold takeFirst
  split
  · exact .spares (.refl db)
  · refine .entries ?_ fun h row hrow => ?_
    · exact Rows.sublist_modify fun _ => rfl
    · obtain ⟨old, hold, rfl⟩ := Rows.mem_modify.mp hrow
      split
      · exact { started := fun _ => rfl, completed := fun _ hnot => absurd rfl hnot }
      · exact h old hold

theorem guarded_cleanupOld (hours : Int) : (cleanupOld hours).Safe (monitor cron size) held fun _ => True := by
  apply guarded_change
  rintro now db _ _ ⟨⟩
  refine .entries ?_ fun h row hrow => ?_
  · exact List.filter_sublist.map _
  · exact h row (List.mem_filter.mp hrow).1

end QueueRepository

/-! ### Executions and their logs -/

namespace ExecutionRepository

theorem guarded_create (x : Execution) (htimed : x.Timed) :
    (create x).Safe (monitor cron size) held fun _ => True := by
  refine Task.Safe.bind (guarded_change fun now db _ _ hinsert => ?_) fun _ _ => guarded_getById x.id
  exact .insertExecution htimed hinsert

theorem guarded_update (x : Execution) (htimed : x.Timed) :
    (update x).Safe (monitor cron size) held fun _ => True := by
  refine Task.Safe.bind (guarded_rewrite fun db => .executions ?_ fun h row hrow => ?_) fun affected _ => ?_
  · apply Rows.map_modify
    exact fun _ => rfl
  · obtain ⟨old, hold, rfl⟩ := Rows.mem_modify.mp hrow
    split
    · exact htimed
    · exact h old hold
  · split
    · exact .throw
    · exact guarded_getById x.id

end ExecutionRepository

/-! ### Jobs -/

namespace JobRepository

theorem guarded_create (job : Job) : (create job).Safe (monitor cron size) held fun _ => True := by
  refine Task.Safe.bind (guarded_change fun now db _ _ hinsert => ?_) fun _ _ => guarded_getById job.id
  exact .insertJob hinsert

end JobRepository

/-! ### DAGs -/

namespace DagRepository

theorem guarded_delete (id : Uuid) : (delete id).Safe (monitor cron size) held fun _ => True :=
  guarded_affected (guarded_rewrite fun db => .deleteDag db id)

end DagRepository

/-! ### Sections -/

/-- A section that the mutex makes: whatever it finds, it stays inside. -/
theorem guarded_withLock {done : Except AppError α → Event} {body : Async α} {φ : α → Prop}
    (hbody : ∀ k, body.Within (monitor cron size) (fun r _ => ∀ a, r = .ok a → φ a) k) :
    (withLock done body).Safe (monitor cron size) none φ := by
  have hlock : Prog.Safe (monitor cron size) (fun r k => r = .ok () ∧ ∃ q, k = some ((), q))
      (lock : Prog Event World (Except AppError Unit)) none := by
    apply Prog.Safe.acquire
    · exact fun _ => rfl
    · exact fun w _ _ => ⟨⟨.spares (.refl w.db), le_max_left _ _⟩, rfl⟩
    · exact fun w _ _ _ _ => .ret ⟨rfl, w.memoryQueue, rfl⟩
  refine Prog.Safe.bind hlock ?_
  rintro _ _ ⟨rfl, q, rfl⟩
  have hattempt : body.attempt.Within (monitor cron size)
      (fun r _ => ∃ result, r = .ok result ∧ ∀ a, result = .ok a → φ a) ((), q) :=
    .attempt ((hbody ((), q)).mono fun r _ hr => ⟨r, rfl, hr⟩)
  refine Prog.Safe.bind hattempt ?_
  rintro _ _ ⟨⟨_, q'⟩, rfl, result, rfl, hresult⟩
  have hrelease : Prog.Safe (monitor cron size) (fun r k => r = .ok () ∧ k = none)
      (release (done result) : Prog Event World (Except AppError Unit)) (some ((), q')) := by
    apply Prog.Safe.release
    · exact fun _ => rfl
    · exact fun w _ _ => ⟨⟨.spares (.refl w.db), le_max_left _ _⟩, rfl⟩
    · exact fun _ _ _ => trivial
    · exact fun _ _ _ => .ret ⟨rfl, rfl⟩
  refine Prog.Safe.bind hrelease ?_
  rintro _ _ ⟨rfl, rfl⟩
  cases result with
  | ok value => exact Task.Safe.pure (hresult value rfl)
  | error e => exact Task.Safe.throw

/-! ### Inside a section -/

section

variable {k : Unit × MemoryQueue} {φ : α → Prop} {ψ : β → Prop}

/-- An action on the heap that keeps it within its bound. -/
theorem within_perform {event : World → Event} {act : World → α × World}
    {post : Except AppError α → Unit × MemoryQueue → Prop}
    (h : ∀ w, w.memoryQueue = k.2 → w.memoryQueue.len ≤ size →
      (act w).2.db = w.db ∧ (act w).2.locked = w.locked ∧ (act w).2.memoryQueue.len ≤ size ∧
        post (.ok (act w).1) ((), (act w).2.memoryQueue)) :
    (perform event act).Within (monitor cron size) post k := by
  apply Task.Within.action
  rintro w ⟨_, hlen⟩ hdata
  obtain ⟨hdb, hlocked, hlen', hpost⟩ := h w hdata hlen
  refine ⟨⟨⟨?_, le_max_of_le_right hlen'⟩, hlocked⟩, hpost⟩
  change Writes cron w.db (act w).2.db
  rw [hdb]
  exact .spares (.refl w.db)

theorem within_queueLen :
    queueLen.Within (monitor cron size) (fun r k' => k' = k ∧ ∀ n, r = .ok n → n = k.2.len) k := by
  apply within_perform
  intro w hdata hlen
  refine ⟨rfl, rfl, hlen, Prod.ext rfl hdata, ?_⟩
  rintro _ ⟨⟩
  exact congrArg MaxHeap.len hdata

theorem within_queuePush (item : QueueItem) (hroom : k.2.len < size) :
    (queuePush item).Within (monitor cron size) (fun _ k' => k'.2 = k.2.push item) k := by
  apply within_perform
  intro w hdata _
  refine ⟨rfl, rfl, ?_, congrArg (MaxHeap.push · item) hdata⟩
  rw [hdata, MaxHeap.len_push]
  exact hroom

theorem within_queuePop :
    queuePop.Within (monitor cron size) (fun r _ => ∀ item, r = .ok item → True) k := by
  apply within_perform
  intro w _ hlen
  refine ⟨rfl, rfl, ?_, fun _ _ => trivial⟩
  have hpop : w.memoryQueue.pop.2.len = w.memoryQueue.len - 1 := by
    unfold MaxHeap.len
    rw [MaxHeap.items_pop, List.length_tail]
  dsimp only
  omega

theorem within_queueDrainOther (executionId : Uuid) :
    (queueDrainOther executionId).Within (monitor cron size) (fun r _ => ∀ u, r = .ok u → True) k := by
  apply within_perform
  intro w _ hlen
  refine ⟨rfl, rfl, ?_, fun _ _ => trivial⟩
  refine le_trans (le_of_eq (MaxHeap.ofList_perm _).length_eq) (le_trans ?_ hlen)
  exact List.length_filter_le _ _

theorem within_bind {p : Async α} {f : α → Async β}
    (h : p.Within (monitor cron size) (fun r _ => ∀ a, r = .ok a → φ a) k)
    (hf : ∀ a k', φ a → (f a).Within (monitor cron size) (fun r _ => ∀ b, r = .ok b → ψ b) k') :
    (p >>= f).Within (monitor cron size) (fun r _ => ∀ b, r = .ok b → ψ b) k :=
  h.bind (fun a k' ha => hf a k' (ha a rfl)) fun _ _ _ _ herr => by cases herr

theorem within_of_safe {p : Async α} (h : p.Safe (monitor cron size) (some k) φ) :
    p.Within (monitor cron size) (fun r _ => ∀ a, r = .ok a → φ a) k :=
  (Task.Within.of_safe h).mono fun _ _ hr => hr.2

end

/-! ### The queue -/

namespace QueueManager

theorem guarded_markEntry {mark : QueueEntry → String → QueueEntry} (htimed : ∀ entry now, (mark entry now).Timed)
    (executionId : Uuid) : (markEntry mark executionId).Safe (monitor cron size) held fun _ => True := by
  refine (QueueRepository.guarded_getByExecution executionId).bind ?_
  rintro (_ | entry) _
  · exact .pure trivial
  · refine guarded_nowRfc3339.bind fun now _ => ?_
    exact (QueueRepository.guarded_update _ (htimed entry now)).bind fun _ _ => .pure trivial

theorem timed_markProcessing (entry : QueueEntry) (now : String) : (entry.markProcessing now).Timed where
  started := fun _ => rfl
  completed := fun _ hnot => absurd rfl hnot

theorem timed_markCompleted (entry : QueueEntry) (now : String) : (entry.markCompleted now).Timed where
  started := fun h => by cases h
  completed := fun _ _ => rfl

theorem timed_markFailed (entry : QueueEntry) (now : String) : (entry.markFailed now).Timed where
  started := fun h => by cases h
  completed := fun _ _ => rfl

theorem timed_markDeadLetter (entry : QueueEntry) (now : String) : (entry.markDeadLetter now).Timed where
  started := fun h => by cases h
  completed := fun _ _ => rfl

theorem guarded_moveToDeadLetter (executionId : Uuid) :
    (moveToDeadLetter executionId).Safe (monitor cron size) held fun _ => True :=
  guarded_markEntry timed_markDeadLetter executionId

variable {qm : QueueManager} (hsize : qm.maxMemorySize = size)

include hsize

theorem within_pushIfRoom (item : QueueItem) (k : Unit × MemoryQueue) :
    (qm.pushIfRoom item).Within (monitor cron size) (fun r _ => ∀ u, r = .ok u → True) k := by
  refine within_queueLen.bind ?_ fun _ _ _ _ _ => trivial
  rintro n _ ⟨rfl, hn⟩
  obtain rfl := hn n rfl
  split
  · rename_i hroom
    exact (within_queuePush item (hsize ▸ hroom)).mono fun _ _ _ _ _ => trivial
  · exact .pure fun _ _ => trivial

theorem guarded_push (item : QueueItem) :
    (withLock (fun _ => .unlock) (qm.pushIfRoom item)).Safe (monitor cron size) none fun _ => True :=
  guarded_withLock (within_pushIfRoom hsize item)

theorem guarded_enqueue (item : QueueItem) : (qm.enqueue item).Safe (monitor cron size) none fun _ => True := by
  refine guarded_withLock fun k => ?_
  refine within_bind (within_of_safe guarded_newV4) fun id k _ => ?_
  refine within_bind (within_of_safe guarded_nowRfc3339) fun now k _ => ?_
  refine within_bind (within_of_safe (QueueRepository.guarded_enqueue _ ?_)) fun _ k _ =>
    within_pushIfRoom hsize item k
  exact ⟨fun h => (by cases h), fun hnot => absurd rfl hnot⟩

theorem guarded_requeueTask (task : RequeueTask) :
    (qm.requeueTask task).Safe (monitor cron size) none fun _ => True := by
  refine (QueueRepository.guarded_requeue task.entryId).attempt.bind ?_
  rintro (e | _) _
  · exact .pure trivial
  refine (guarded_fetchItem task.executionId Job.priority).bind ?_
  rintro (_ | item) _
  · exact .pure trivial
  · exact guarded_push hsize item

theorem guarded_retryDeadLetter (executionId : Uuid) :
    (qm.retryDeadLetter executionId).Safe (monitor cron size) none fun _ => True := by
  refine (QueueRepository.guarded_getByExecution executionId).bind ?_
  rintro (_ | entry) _
  · exact .pure trivial
  dsimp only
  split
  · exact .throw
  refine (QueueRepository.guarded_requeue entry.id).bind fun _ _ => ?_
  refine (guarded_reconstructItem entry).bind ?_
  rintro (_ | item) _
  · exact .pure trivial
  · exact guarded_push hsize item

theorem within_loadEntries (entries : List QueueEntry) (k : Unit × MemoryQueue) :
    (qm.loadEntries entries).Within (monitor cron size) (fun r _ => ∀ u, r = .ok u → True) k := by
  induction entries generalizing k with
  | nil => exact .pure fun _ _ => trivial
  | cons entry entries ih =>
      refine within_queueLen.bind ?_ fun _ _ _ _ _ => trivial
      rintro n _ ⟨rfl, hn⟩
      obtain rfl := hn n rfl
      split
      · exact .pure fun _ _ => trivial
      rename_i hroom
      -- the heap is as it was when the item is pushed
      refine (Task.Within.of_safe (guarded_reconstructItem entry)).bind ?_ fun _ _ _ _ _ => trivial
      rintro (_ | item) _ ⟨rfl, _⟩
      · exact ih _
      · refine (within_queuePush item ?_).bind (fun _ k' _ => ih k') fun _ _ _ _ _ => trivial
        omega

theorem guarded_recover : qm.recover.Safe (monitor cron size) none fun _ => True := by
  refine QueueRepository.guarded_resetProcessingToQueued.bind fun _ _ => ?_
  refine QueueRepository.guarded_getAllQueued.bind fun entries _ => ?_
  refine guarded_withLock fun k => ?_
  exact within_bind (within_loadEntries hsize entries k) fun _ _ _ => .pure fun _ _ => trivial

omit hsize

theorem within_dequeueOverflow (k : Unit × MemoryQueue) :
    dequeueOverflow.Within (monitor cron size) (fun r _ => ∀ item, r = .ok item → True) k := by
  apply within_of_safe
  refine QueueRepository.guarded_dequeueAtomic.bind ?_
  rintro (_ | entry) _
  · exact .pure trivial
  refine (guarded_reconstructItem entry).bind ?_
  rintro (_ | item) _
  · refine guarded_nowRfc3339.bind fun now _ => ?_
    exact (QueueRepository.guarded_update _ (timed_markFailed entry now)).bind fun _ _ => .pure trivial
  · exact .pure trivial

theorem guarded_dequeue : dequeue.Safe (monitor cron size) none fun _ => True := by
  refine guarded_withLock fun k => within_bind within_queuePop ?_
  rintro (_ | item) k _
  · exact within_dequeueOverflow k
  · exact within_bind (within_of_safe (guarded_markEntry timed_markProcessing item.executionId))
      fun _ _ _ => .pure fun _ _ => trivial

theorem guarded_remove (executionId : Uuid) : (remove executionId).Safe (monitor cron size) none fun _ => True := by
  refine guarded_withLock fun k => within_bind (within_queueDrainOther executionId) fun _ k _ => ?_
  exact within_of_safe (QueueRepository.guarded_removeByExecution executionId)

theorem guarded_markFailedWithRetry (qm : QueueManager) (executionId : Uuid) (retryCount : Int)
    (maxRetriesOverride : Option Int) :
    (qm.markFailedWithRetry executionId retryCount maxRetriesOverride).Safe (monitor cron size) held
      fun _ => True := by
  unfold markFailedWithRetry
  dsimp only
  split
  · refine (QueueRepository.guarded_getByExecution executionId).bind ?_
    rintro (_ | entry) _
    · exact (guarded_moveToDeadLetter executionId).bind fun _ _ => .pure trivial
    · exact (guarded_spawnRequeue _).bind fun _ _ => .pure trivial
  · exact (guarded_moveToDeadLetter executionId).bind fun _ _ => .pure trivial

end QueueManager

/-! ### Executions and jobs -/

namespace ExecutionService

theorem guarded_createExecution (jobId : Uuid) (inputData : Option String) :
    (createExecution jobId inputData).Safe (monitor cron size) held fun _ => True := by
  refine (JobRepository.guarded_getById jobId).bind fun job _ => ?_
  have hcreate : (do
      let now ← nowRfc3339
      let id ← newV4
      ExecutionRepository.create (.new id jobId inputData now) : Async Execution).Safe (monitor cron size) held
        fun _ => True := by
    refine guarded_nowRfc3339.bind fun now _ => guarded_newV4.bind fun id _ => ?_
    exact ExecutionRepository.guarded_create _ fun h => by cases h
  dsimp only
  split
  · refine guarded_nowRfc3339.bind fun now _ => ?_
    exact (JobRepository.guarded_update _).bind fun _ _ => hcreate
  · exact hcreate

theorem guarded_cancelExecution (id : Uuid) :
    (cancelExecution id).Safe (monitor cron size) held fun _ => True := by
  refine (ExecutionRepository.guarded_getById id).bind fun execution _ => ?_
  have hcancel : (do
      let now ← nowRfc3339
      ExecutionRepository.update (execution.markCancelled now) : Async Execution).Safe (monitor cron size) held
        fun _ => True :=
    guarded_nowRfc3339.bind fun now _ => ExecutionRepository.guarded_update _ fun _ => rfl
  split
  · exact hcancel
  · exact hcancel
  · exact hcancel
  · exact .throw

theorem guarded_retryExecution (fromStr : String → Option JsonText.Value) (id : Uuid) :
    (retryExecution fromStr id).Safe (monitor cron size) held fun _ => True := by
  refine (ExecutionRepository.guarded_getById id).bind fun execution _ => ?_
  have hretry : (do
      let job ← JobRepository.getById execution.jobId
      if job.maxRetries ≤ execution.retryCount then
        Task.throw (.badRequest
          ("Execution has reached maximum retry count (" ++ toString job.maxRetries ++ ")"))
      else
        let inputData := (execution.inputData.bind fromStr).map jsonText
        let now ← nowRfc3339
        let newId ← newV4
        ExecutionRepository.create { Execution.new newId execution.jobId inputData now with
          retryCount := execution.retryCount + 1 } : Async Execution).Safe (monitor cron size) held
            fun _ => True := by
    refine (JobRepository.guarded_getById execution.jobId).bind fun job _ => ?_
    dsimp only
    split
    · exact .throw
    refine guarded_nowRfc3339.bind fun now _ => guarded_newV4.bind fun newId _ => ?_
    exact ExecutionRepository.guarded_create _ fun h => by cases h
  dsimp only
  split
  · exact hretry
  · exact hretry
  · exact hretry
  · exact .throw

end ExecutionService

namespace JobService

theorem guarded_insertNew (req : CreateJobRequest) :
    (insertNew req).Safe (monitor cron size) held fun _ => True :=
  guarded_nowRfc3339.bind fun _ _ => guarded_newV4.bind fun _ _ => JobRepository.guarded_create _

theorem guarded_createJob (hash : FieldOrder) (req : CreateJobRequest) :
    (createJob hash req).Safe (monitor cron size) held fun _ => True := by
  unfold createJob
  split
  · exact .throw
  refine (JobRepository.guarded_nameExists req.name none).bind fun found _ => ?_
  split
  · exact .throw
  · exact guarded_insertNew req

theorem guarded_bulkCreateJobs (hash : FieldOrder) (requests : List CreateJobRequest) :
    (bulkCreateJobs hash requests).Safe (monitor cron size) held fun _ => True := by
  induction requests with
  | nil => exact .pure trivial
  | cons req requests ih =>
      refine (guarded_createJob hash req).attempt.bind ?_
      rintro (e | job) _
      · exact ih.bind fun _ _ => .pure trivial
      · exact ih.bind fun _ _ => .pure trivial

theorem guarded_cloneJob (id : Uuid) (newName : Option String) :
    (cloneJob id newName).Safe (monitor cron size) held fun _ => True := by
  refine (JobRepository.guarded_getById id).bind fun source _ => ?_
  refine (JobRepository.guarded_nameExists _ _).bind fun found _ => ?_
  split
  · exact .throw
  · exact guarded_insertNew _

end JobService

/-! ### DAG runs -/

namespace DagEngine

variable {engine : DagEngine} (hsize : engine.queueManager.maxMemorySize = size)

include hsize

theorem guarded_startNode (node : DagNodeExecution) :
    (engine.startNode node).Safe (monitor cron size) none fun _ => True := by
  refine (JobRepository.guarded_getById node.jobId).attempt.bind ?_
  rintro (e | job) _
  · exact guarded_failNode node
  refine (ExecutionService.guarded_createExecution node.jobId none).attempt.bind ?_
  rintro (e | execution) _
  · exact guarded_failNode node
  refine guarded_nowRfc3339.bind fun now _ => ?_
  refine (DagRepository.guarded_updateNodeExecution _ fun h => by cases h).bind fun _ _ => ?_
  exact guarded_logged (QueueManager.guarded_enqueue hsize _)

theorem guarded_advanceDagRun (dagRunId : Uuid) (edges : List DagEdge) (dag : Dag) :
    (engine.advanceDagRun dagRunId edges dag).Safe (monitor cron size) none fun _ => True := by
  refine (DagRepository.guarded_getNodeExecutionsByRunId dagRunId).bind fun nodes _ => ?_
  exact .forM fun node _ => guarded_startNode hsize node

theorem guarded_triggerDag (dagId : Uuid) (triggerType : String) :
    (engine.triggerDag dagId triggerType).Safe (monitor cron size) none fun _ => True := by
  refine (DagRepository.guarded_getById dagId).bind fun dag _ => ?_
  dsimp only
  split
  · exact .throw
  refine (DagRepository.guarded_getEdgesByDagId dagId).bind fun edges _ => ?_
  split
  · exact .throw
  split
  · exact .throw
  refine guarded_newV4.bind fun runId _ => ?_
  refine guarded_nowRfc3339.bind fun createdAt _ => guarded_nowRfc3339.bind fun startedAt _ => ?_
  refine (DagRepository.guarded_createRun _ fun h => by cases h).bind fun run _ => ?_
  refine Task.Safe.bind (.forM fun jobId _ => guarded_createNode run.id jobId) fun _ _ => ?_
  refine (DagRepository.guarded_getNodeExecutionsByRunId run.id).bind fun nodes _ => ?_
  refine Task.Safe.bind (.forM fun node _ => ?_) fun _ _ => ?_
  · exact (DagRepository.guarded_updateNodeExecution _ fun h => by cases h).bind fun _ _ => .pure trivial
  · exact (guarded_advanceDagRun hsize run.id edges dag).bind fun _ _ =>
      (DagRepository.guarded_getRunById run.id).trivial

theorem guarded_onExecutionComplete (executionId : Uuid) :
    (engine.onExecutionComplete executionId).Safe (monitor cron size) none fun _ => True := by
  refine (DagRepository.guarded_findNodeByExecutionId executionId).bind ?_
  rintro (_ | node) _
  · exact .pure trivial
  refine (ExecutionRepository.guarded_getById executionId).bind fun execution _ => ?_
  refine guarded_nowRfc3339.bind fun now _ => ?_
  refine (DagRepository.guarded_updateNodeExecution _ fun _ => rfl).bind fun _ _ => ?_
  refine (DagRepository.guarded_getRunById node.dagRunId).bind fun run htimed => ?_
  refine Task.Safe.bind (DagRepository.guarded_updateRun _ ?_) fun _ _ => ?_
  · exact htimed
  refine (DagRepository.guarded_getById run.dagId).bind fun dag _ => ?_
  refine (DagRepository.guarded_getEdgesByDagId run.dagId).bind fun edges _ => ?_
  split
  · exact guarded_stopRun run.id
  · exact (guarded_advanceDagRun hsize run.id edges dag).bind fun _ _ => guarded_finishRun run.id

end DagEngine

/-! ### Workers -/

namespace WorkerPool

theorem guarded_setExecutionRunning (execId : Uuid) (workerId : String) :
    (setExecutionRunning execId workerId).Safe (monitor cron size) held fun _ => True := by
  refine (ExecutionRepository.guarded_getById execId).bind fun execution _ => ?_
  refine guarded_nowRfc3339.bind fun now _ => ?_
  exact (ExecutionRepository.guarded_update _ fun h => by cases h).bind fun _ _ => .pure trivial

theorem guarded_finalizeExecution (execId : Uuid) (status : ExecutionStatus) (errorMsg output : Option String) :
    (finalizeExecution execId status errorMsg output).Safe (monitor cron size) held fun _ => True := by
  refine (ExecutionRepository.guarded_getById execId).bind fun execution _ => ?_
  refine guarded_nowRfc3339.bind fun now _ => ?_
  exact (ExecutionRepository.guarded_update _ fun _ => rfl).bind fun _ _ => .pure trivial

theorem guarded_writeOutcome (execId : Uuid) (result : ExecutionResult) :
    (writeOutcome execId result).Safe (monitor cron size) held fun _ => True := by
  have hfinish : (writeOutcome.finish execId result).Safe (monitor cron size) held fun _ => True :=
    guarded_logged (guarded_finalizeExecution execId _ _ _)
  refine (ExecutionRepository.guarded_getById execId).attempt.bind ?_
  rintro (e | current) _
  · exact hfinish
  dsimp only
  split
  · exact .pure trivial
  · exact hfinish

theorem guarded_updateQueueEntry (pool : WorkerPool) (execId : Uuid) (status : ExecutionStatus) :
    (pool.updateQueueEntry execId status).Safe (monitor cron size) held fun _ => True := by
  unfold updateQueueEntry
  split
  · exact guarded_logged (QueueManager.guarded_markEntry QueueManager.timed_markCompleted execId)
  · refine (guarded_retryCountOf execId).bind fun retryCount _ => ?_
    refine (guarded_maxRetriesOf execId).bind fun maxRetries _ => ?_
    exact guarded_logged (QueueManager.guarded_markFailedWithRetry _ execId retryCount maxRetries)

variable {pool : WorkerPool}
  (hsize : ∀ engine, pool.dagEngine = some engine → engine.queueManager.maxMemorySize = size)

include hsize

theorem guarded_dagCallback (execId : Uuid) :
    (pool.dagCallback execId).Safe (monitor cron size) none fun _ => True := by
  unfold dagCallback
  split
  · rename_i engine hengine
    exact guarded_logged (DagEngine.guarded_onExecutionComplete (hsize engine hengine) execId)
  · exact .pure trivial

theorem guarded_process (workerId : Nat) (execId : Uuid) (result : ExecutionResult) :
    (pool.process workerId execId result).Safe (monitor cron size) none fun _ => True := by
  refine (guarded_setExecutionRunning execId _).attempt.bind ?_
  rintro (e | _) _
  · exact guarded_logged (QueueManager.guarded_markEntry QueueManager.timed_markFailed execId)
  refine (guarded_executeItem execId result).bind fun _ _ => ?_
  refine (guarded_writeOutcome execId result).bind fun _ _ => ?_
  refine (guarded_updateQueueEntry pool execId _).bind fun _ _ => ?_
  refine (guarded_signal (.released execId)).bind fun _ _ => ?_
  refine (guarded_dagCallback hsize execId).bind fun _ _ => ?_
  exact guarded_log execId .system _

theorem guarded_pass (workerId : Nat) (result : QueueItem → ExecutionResult) :
    (pool.pass workerId result).Safe (monitor cron size) none fun _ => True := by
  refine QueueManager.guarded_dequeue.attempt.bind ?_
  rintro (e | _ | item) _
  · exact .pure trivial
  · exact .pure trivial
  · exact guarded_process hsize workerId item.executionId (result item)

end WorkerPool

/-! ### Schedules -/

namespace SchedulerRunner

variable {runner : SchedulerRunner} (hsize : runner.queueManager.maxMemorySize = size)

include hsize

theorem guarded_trigger (schedule : JobSchedule) :
    (runner.trigger schedule).Safe (monitor cron size) none fun _ => True := by
  refine (JobRepository.guarded_getById schedule.jobId).attempt.bind ?_
  rintro (e | job) _
  · exact .pure trivial
  dsimp only
  split
  · exact .pure trivial
  refine (ExecutionService.guarded_createExecution schedule.jobId none).attempt.bind ?_
  rintro (e | execution) _
  · exact .pure trivial
  refine (QueueManager.guarded_enqueue hsize _).attempt.bind ?_
  rintro (e | _) _
  · exact .pure trivial
  refine guarded_nowRfc3339.bind fun now _ => ?_
  refine Task.Safe.bind (guarded_clock _) fun next _ => ?_
  split
  · exact .pure trivial
  · exact guarded_logged (ScheduleRepository.guarded_markTriggered schedule.id now _)

theorem guarded_tick : runner.tick.Safe (monitor cron size) none fun _ => True :=
  ScheduleRepository.guarded_getDueSchedules.bind fun _ _ => .forM fun schedule _ => guarded_trigger hsize schedule

end SchedulerRunner

/-! ### Virtual environments -/

theorem guarded_retentionCycle (historyDays : Nat) :
    (retentionCycle historyDays).Safe (monitor cron size) held fun _ => True := by
  refine (ExecutionRepository.guarded_deleteOlderThanDays historyDays).attempt.bind fun _ _ => ?_
  refine ExecutionLogRepository.guarded_deleteOrphaned.attempt.bind fun _ _ => ?_
  exact guarded_logged (QueueRepository.guarded_cleanupOld _)

/-! ### Handlers -/

namespace Api

theorem guarded_executeJob {qm : QueueManager} (hsize : qm.maxMemorySize = size) (jobId : Uuid)
    (req : Option ExecuteJobRequest) : (executeJob qm jobId req).Safe (monitor cron size) none fun _ => True := by
  refine (ExecutionService.guarded_createExecution jobId _).bind fun execution _ => ?_
  refine (JobRepository.guarded_getById jobId).bind fun job _ => ?_
  exact (guarded_internal (QueueManager.guarded_enqueue hsize _)).bind fun _ _ => .pure trivial

theorem guarded_retryExecution {qm : QueueManager} (hsize : qm.maxMemorySize = size)
    (fromStr : String → Option JsonText.Value) (id : Uuid) :
    (retryExecution qm fromStr id).Safe (monitor cron size) none fun _ => True := by
  refine (ExecutionService.guarded_retryExecution fromStr id).bind fun execution _ => ?_
  refine (JobRepository.guarded_getById execution.jobId).bind fun job _ => ?_
  exact (guarded_internal (QueueManager.guarded_enqueue hsize _)).bind fun _ _ => .pure trivial

theorem guarded_cancelExecution (id : Uuid) :
    (cancelExecution id).Safe (monitor cron size) none fun _ => True := by
  refine (ExecutionService.guarded_cancelExecution id).bind fun execution _ => ?_
  exact (QueueManager.guarded_remove id).attempt.bind fun _ _ => .pure trivial

theorem guarded_bulkCreateJobs (hash : FieldOrder) (requests : List CreateJobRequest) :
    (bulkCreateJobs hash requests).Safe (monitor cron size) held fun _ => True := by
  unfold bulkCreateJobs
  split
  · exact .throw
  split
  · exact .throw
  · exact (JobService.guarded_bulkCreateJobs hash requests).bind fun _ _ => .pure trivial

theorem guarded_inMemorySize :
    (withLock (fun _ => .unlock) queueLen).Safe (monitor cron size) none fun _ => True :=
  guarded_withLock fun _ => within_queueLen.mono fun _ _ _ _ _ => trivial

theorem guarded_getQueueStatus : getQueueStatus.Safe (monitor cron size) none fun _ => True := by
  refine guarded_inMemorySize.bind fun inMemorySize _ => ?_
  refine Task.Safe.bind guarded_read fun _ _ => Task.Safe.bind guarded_read fun _ _ => ?_
  refine (QueueRepository.guarded_countLastHour .completed).bind fun _ _ => ?_
  refine (QueueRepository.guarded_countLastHour .failed).bind fun _ _ => ?_
  exact Task.Safe.bind guarded_read fun _ _ => Task.Safe.bind guarded_read fun _ _ => .pure trivial

end Api

/-! ### All that the server does -/

namespace Server

variable (server : Server)

theorem guarded_handle (req : Request) :
    (server.handle req).Safe (monitor server.cron server.queueManager.maxMemorySize) none fun _ => True := by
  cases req with
  | createJob req => exact guarded_ignore (JobService.guarded_createJob server.fields req)
  | bulkCreateJobs requests => exact guarded_ignore (Api.guarded_bulkCreateJobs server.fields requests)
  | cloneJob id newName => exact guarded_ignore (JobService.guarded_cloneJob id newName)
  | cancelExecution id => exact guarded_ignore (Api.guarded_cancelExecution id)
  | retryExecution id => exact guarded_ignore (Api.guarded_retryExecution rfl server.fromStr id)
  | executeJob id req => exact guarded_ignore (Api.guarded_executeJob rfl id req)
  | getQueueStatus => exact guarded_ignore Api.guarded_getQueueStatus
  | deleteDag id => exact DagRepository.guarded_delete id
  | triggerDag id =>
      have hsize : server.engine.queueManager.maxMemorySize = server.queueManager.maxMemorySize := rfl
      exact guarded_ignore (DagEngine.guarded_triggerDag hsize id "manual")
  | _ => exact guarded_beside server trivial rfl

theorem guarded_start (call : Call) {w w' : World} {p : Async Unit} (h : server.start w call = some (w', p)) :
    (∃ spawned, w' = { w with spawned }) ∧
      p.Safe (monitor server.cron server.queueManager.maxMemorySize) none fun _ => True := by
  cases call with
  | request req =>
      cases h
      exact ⟨⟨_, rfl⟩, guarded_handle server req⟩
  | pass workerId result =>
      cases h
      refine ⟨⟨_, rfl⟩, WorkerPool.guarded_pass ?_ workerId result⟩
      rintro _ ⟨⟩
      rfl
  | tick =>
      cases h
      have hsize : server.scheduler.queueManager.maxMemorySize = server.queueManager.maxMemorySize := rfl
      exact ⟨⟨_, rfl⟩, SchedulerRunner.guarded_tick hsize⟩
  | requeue index =>
      obtain ⟨task, _, heq⟩ := Option.map_eq_some_iff.mp h
      cases heq
      exact ⟨⟨_, rfl⟩, QueueManager.guarded_requeueTask rfl task⟩
  | retryDeadLetter executionId =>
      cases h
      exact ⟨⟨_, rfl⟩, QueueManager.guarded_retryDeadLetter rfl executionId⟩
  | retention =>
      cases h
      exact ⟨⟨_, rfl⟩, guarded_retentionCycle server.historyDays⟩
  | recover =>
      cases h
      exact ⟨⟨_, rfl⟩, guarded_ignore (QueueManager.guarded_recover rfl)⟩
  | recordMainVenv path pythonVersion =>
      cases h
      exact ⟨⟨_, rfl⟩, guarded_recordMainVenv path pythonVersion⟩

end Server

end Serverust
