import Serverust.Library.Pool
import Serverust.Proof.Background
import Serverust.Proof.Recover

/-!
# Stopping between two writes

A worker that has run an execution writes its status and then its queue entry, and a cancellation writes
the status and then removes the entry. No transaction joins the two writes. A process that stops between
them leaves a finished execution whose entry is still queued or processing, and recovery, which looks at
the entries alone, queues it again.

Any number of such sequences run here, interleaved with anything the rest of the system does to other
executions. A tag is torn from the first write to the second, and the invariant is that every finished
execution with an active entry has a torn tag.
-/

namespace Serverust

open Calendar Resumption

/-- After the run: write the outcome, then update the queue entry. -/
def WorkerPool.postRun (pool : WorkerPool) (execId : Uuid) (result : ExecutionResult) : Async Unit := do
  WorkerPool.writeOutcome execId result
  pool.updateQueueEntry execId result.outcome.1

/-- It is the part of a worker's turn between the run and the callback of the DAG engine. -/
theorem WorkerPool.process_eq (pool : WorkerPool) (workerId : Nat) (execId : Uuid) (result : ExecutionResult) :
    pool.process workerId execId result = (do
      match ← (WorkerPool.setExecutionRunning execId ("worker-" ++ toString workerId)).attempt with
      | .error _ =>
        let _ ← (QueueManager.markFailed execId).attempt
      | .ok _ =>
        WorkerPool.executeItem execId result
        pool.postRun execId result
        perform (fun _ => .released execId) fun w => ((), w)
        pool.dagCallback execId
        WorkerPool.log execId .system ("Execution completed: " ++ result.outcome.1.asStr)) := by
  unfold WorkerPool.process WorkerPool.postRun
  congr 1
  funext started
  cases started with
  | ok => simp only [Task.bind_assoc]
  | error e => rfl

namespace CrashSafety

/-- The execution a task is about, and whether the task has written its status but not yet its entry. -/
structure Tag where
  executionId : Uuid
  torn : Bool
deriving DecidableEq, Repr

/-- The status of an execution that is not to run again. -/
def finished : ExecutionStatus → Bool
  | .success | .cancelled => true
  | _ => false

def Tag.next (t : Tag) : Event → Tag
  | .sql (.updateExecution x) => { t with torn := finished x.status }
  | .sql (.getByExecution _ none) => { t with torn := false }
  | .sql (.updateEntry entry) => { t with torn := t.torn && entry.status.active }
  | .sql (.removeByExecution _) => { t with torn := false }
  | _ => t

/-- The tables of the queue, the executions and the jobs are as they were. -/
structure Still (db db' : Db) : Prop where
  jobs : db'.jobs = db.jobs
  executions : db'.executions = db.executions
  jobQueue : db'.jobQueue = db.jobQueue

/-- What a task may do to the tables. An entry is marked inactive only under the id that the row of the
task's execution has. -/
inductive Acts : Tag → Event → Db → Db → Prop
  | plain {t ev db db'} (hnext : t.next ev = t) (hstill : Still db db') : Acts t ev db db'
  | write {t x db} (hid : x.id = t.executionId) : Acts t (.sql (.updateExecution x)) db (writeExecution x db)
  | missing {t id db} (hnone : ∀ row ∈ db.jobQueue, row.executionId ≠ t.executionId) :
      Acts t (.sql (.getByExecution id none)) db db
  | mark {t entry f db} (hf : Restamps f entry.status) (hinactive : entry.status.active = false)
      (hentry : ∀ row ∈ db.jobQueue, row.executionId = t.executionId → row.id = entry.id) :
      Acts t (.sql (.updateEntry entry)) db (restamp f entry.id db)
  | remove {t db} : Acts t (.sql (.removeByExecution t.executionId)) db
      (db.setQueue (Rows.remove QueueEntry.executionId t.executionId db.jobQueue))

/-- The constraints of the schema. -/
structure Intact (db : Db) : Prop where
  linked : db.Linked
  uniqueId : Rows.Unique QueueEntry.id db.jobQueue
  uniqueExecution : Rows.Unique QueueEntry.executionId db.jobQueue

/-- Executions stay, and only a new one gets a new entry. -/
structure Grows (db db' : Db) : Prop where
  stored : ∀ x ∈ db.executions, ∃ x' ∈ db'.executions, x'.id = x.id
  rows : ∀ row ∈ db'.jobQueue, (∃ old ∈ db.jobQueue, old.executionId = row.executionId ∧ old.id = row.id) ∨
    ∀ x ∈ db.executions, x.id ≠ row.executionId

def protocol : Protocol Event World Tag where
  next := Tag.next
  knows _ u := Intact u.db
  grows u v := Grows u.db v.db
  allows t ev u v := Acts t ev u.db v.db

theorem Grows.refl (db : Db) : Grows db db where
  stored x hx := ⟨x, hx, rfl⟩
  rows row hrow := .inl ⟨row, hrow, rfl, rfl⟩

theorem Grows.trans {a b c : Db} (hab : Grows a b) (hbc : Grows b c) : Grows a c where
  stored x hx := by
    obtain ⟨y, hy, hyx⟩ := hab.stored x hx
    obtain ⟨z, hz, hzy⟩ := hbc.stored y hy
    exact ⟨z, hz, hzy.trans hyx⟩
  rows row hrow := by
    rcases hbc.rows row hrow with ⟨mid, hmid, hexecution, hid⟩ | hnew
    · rcases hab.rows mid hmid with ⟨old, hold, hexecution', hid'⟩ | hnew
      · exact .inl ⟨old, hold, hexecution'.trans hexecution, hid'.trans hid⟩
      · exact .inr fun x hx => hexecution ▸ hnew x hx
    · right
      intro x hx
      obtain ⟨y, hy, hyx⟩ := hab.stored x hx
      exact hyx ▸ hnew y hy

instance : protocol.Lawful := ⟨fun w => Grows.refl w.db, Grows.trans⟩

/-! ### What one action preserves -/

section

variable {db db' : Db} {t : Tag} {ev : Event}

theorem Grows.of_modify {f : QueueEntry → QueueEntry} {status : QueueStatus} (hf : Restamps f status) (id : Uuid)
    (db : Db) : Grows db (restamp f id db) where
  stored x hx := ⟨x, hx, rfl⟩
  rows row hrow := by
    obtain ⟨old, hold, rfl⟩ := Rows.mem_modify.mp hrow
    refine .inl ⟨old, hold, ?_⟩
    split
    · exact ⟨(hf.executionId old).symm, (hf.id old).symm⟩
    · exact ⟨rfl, rfl⟩

theorem Grows.of_remove (e : Uuid) (db : Db) :
    Grows db (db.setQueue (Rows.remove QueueEntry.executionId e db.jobQueue)) where
  stored x hx := ⟨x, hx, rfl⟩
  rows row hrow := .inl ⟨row, (Rows.mem_remove.mp hrow).1, rfl, rfl⟩

theorem mem_writeExecution {x x' : Execution} (hx : x' ∈ (writeExecution x db).executions) :
    ∃ old ∈ db.executions, x'.id = old.id ∧ x'.jobId = old.jobId := by
  obtain ⟨old, hold, rfl⟩ := Rows.mem_modify.mp hx
  refine ⟨old, hold, ?_⟩
  split <;> exact ⟨rfl, rfl⟩

theorem stored_writeExecution (x : Execution) {old : Execution} (hold : old ∈ db.executions) :
    ∃ x' ∈ (writeExecution x db).executions, x'.id = old.id := by
  refine ⟨_, Rows.mem_modify.mpr ⟨old, hold, rfl⟩, ?_⟩
  split <;> rfl

theorem Acts.grows (h : Acts t ev db db') : Grows db db' := by
  cases h with
  | plain hnext hstill =>
      constructor
      · intro x hx
        exact ⟨x, hstill.executions ▸ hx, rfl⟩
      · intro row hrow
        exact .inl ⟨row, hstill.jobQueue ▸ hrow, rfl, rfl⟩
  | write hid => exact ⟨fun old hold => stored_writeExecution _ hold, fun row hrow => .inl ⟨row, hrow, rfl, rfl⟩⟩
  | missing => exact .refl db
  | mark hf => exact .of_modify hf _ db
  | remove => exact .of_remove _ db

theorem Acts.intact (hacts : Acts t ev db db') (h : Intact db) : Intact db' := by
  cases hacts with
  | plain hnext hstill =>
      obtain ⟨⟨hentry, hexecution⟩, hid, hunique⟩ := h
      refine ⟨⟨?_, ?_⟩, ?_, ?_⟩
      · rwa [hstill.jobQueue, hstill.executions]
      · rwa [hstill.jobs, hstill.executions]
      · rwa [hstill.jobQueue]
      · rwa [hstill.jobQueue]
  | @write x _ hid =>
      refine ⟨⟨?_, ?_⟩, h.uniqueId, h.uniqueExecution⟩
      · intro row hrow
        obtain ⟨old, hold, heq⟩ := h.linked.entry row hrow
        obtain ⟨x', hx', heq'⟩ := stored_writeExecution x hold
        exact ⟨x', hx', heq'.trans heq⟩
      · intro x' hx'
        obtain ⟨old, hold, _, hjob⟩ := mem_writeExecution hx'
        exact hjob ▸ h.linked.execution old hold
  | missing => exact h
  | mark hf =>
      exact ⟨h.linked.setQueue fun _ => hf.source, h.uniqueId.modify hf.id _, h.uniqueExecution.modify hf.executionId _⟩
  | remove =>
      refine ⟨h.linked.setQueue ?_, h.uniqueId.remove _, h.uniqueExecution.remove _⟩
      intro row hrow
      exact ⟨row, (Rows.mem_remove.mp hrow).1, rfl⟩

/-- The execution's row says that it succeeded or was cancelled. -/
def Finished (e : Uuid) (db : Db) : Prop :=
  ∃ x, Rows.lookup Execution.id e db.executions = some x ∧ (x.status = .success ∨ x.status = .cancelled)

theorem finished_iff {status : ExecutionStatus} :
    finished status = true ↔ status = .success ∨ status = .cancelled := by
  cases status <;> decide

/-- A finished execution with an active entry was one before, unless the action is the write of a final
status by a task, which is then torn. -/
theorem Acts.torn_or_before (h : Acts t ev db db') {e : Uuid} (hfinished : Finished e db') (hactive : Active e db') :
    (e = t.executionId ∧ (t.next ev).torn = true) ∨
      Finished e db ∧ Active e db ∧ (e = t.executionId → (t.next ev).torn = t.torn) := by
  cases h with
  | plain hnext hstill =>
      right
      unfold Finished Active at *
      rw [hstill.executions] at hfinished
      rw [hstill.jobQueue] at hactive
      exact ⟨hfinished, hactive, fun _ => by rw [hnext]⟩
  | @write x _ hid =>
      obtain ⟨row, hrow, hstatus⟩ := hfinished
      unfold writeExecution at hrow
      rw [Rows.lookup_modify (f := x.over) fun _ => rfl] at hrow
      split at hrow
      · rename_i heq
        obtain ⟨old, _, rfl⟩ := Option.map_eq_some_iff.mp hrow
        exact .inl ⟨heq.trans hid, finished_iff.mpr hstatus⟩
      · rename_i hne
        exact .inr ⟨⟨row, hrow, hstatus⟩, hactive, fun heq => absurd (heq.trans hid.symm) hne⟩
  | missing hnone =>
      right
      refine ⟨hfinished, hactive, ?_⟩
      rintro rfl
      obtain ⟨row, hrow, heq, _⟩ := hactive
      exact absurd heq (hnone row hrow)
  | @mark entry f _ hf hinactive hentry =>
      right
      obtain ⟨row, hrow, heq, hstatus⟩ := hactive
      obtain ⟨old, hold, rfl⟩ := Rows.mem_modify.mp hrow
      by_cases hid : old.id = entry.id
      · rw [if_pos hid, hf.status, ← QueueStatus.active_iff, hinactive] at hstatus
        cases hstatus
      · rw [if_neg hid] at heq hstatus
        exact ⟨hfinished, ⟨old, hold, heq, hstatus⟩, fun he => absurd (hentry old hold (heq.trans he)) hid⟩
  | remove =>
      right
      obtain ⟨row, hrow, heq, hstatus⟩ := hactive
      obtain ⟨hold, hne⟩ := Rows.mem_remove.mp hrow
      exact ⟨hfinished, ⟨row, hold, heq, hstatus⟩, fun he => absurd (heq.trans he) hne⟩

end

/-! ### The programs -/

/-- The entry that was read is the one of the execution, as long as there is one. -/
structure Known (e : Uuid) (entry : QueueEntry) (db : Db) : Prop where
  stored : ∃ x ∈ db.executions, x.id = e
  rows : ∀ row ∈ db.jobQueue, row.executionId = e → row.id = entry.id

theorem Known.later {e : Uuid} {entry : QueueEntry} {db db' : Db} (h : Known e entry db) (hgrows : Grows db db') :
    Known e entry db' where
  stored := by
    obtain ⟨x, hx, rfl⟩ := h.stored
    exact hgrows.stored x hx
  rows row hrow heq := by
    obtain ⟨x, hx, hid⟩ := h.stored
    rcases hgrows.rows row hrow with ⟨old, hold, hexecution, hsame⟩ | hnew
    · exact hsame.symm.trans (h.rows old hold (hexecution.trans heq))
    · exact absurd (hid.trans heq.symm) (hnew x hx)

section

variable {e : Uuid} {t : Tag} {w : World}

theorem tolerates : Tolerates protocol t := by
  intro u v ev _ hev _ hsame _
  have hnext : t.next ev = t := by
    unfold Event.Background at hev
    split at hev
    · rfl
    · rfl
    · rfl
    · rfl
    · rfl
    · rfl
    · exact hev.elim
  have hacts : Acts t ev u.db v.db := .plain hnext ⟨hsame.jobs, hsame.executions, hsame.jobQueue⟩
  exact ⟨hacts, hnext, hacts.grows⟩

/-- What every program here obeys: it stays with its execution. -/
abbrev Stays (e : Uuid) {α : Type} (p : Async α) : Prop :=
  Task.Stays protocol (fun t => t.executionId = e) (fun _ => True) p

theorem stays_perform {α : Type} {event : World → Event} {act : World → α × World}
    (hnext : ∀ (t : Tag) u, t.next (event u) = t) (hkeep : ∀ u : World, (act u).2.db = u.db) :
    Stays e (perform event act) := by
  intro t w ht
  apply obeys_perform
  intro u _ _
  have hdb := hkeep u
  refine ⟨.plain (hnext t u) ⟨?_, ?_, ?_⟩, ?_, trivial⟩
  · rw [hdb]
  · rw [hdb]
  · rw [hdb]
  · show (t.next (event u)).executionId = e
    rw [hnext]
    exact ht

theorem stays_getExecution (id : Uuid) : Stays e (ExecutionRepository.getById id) :=
  .of_keeps fun _ _ => keeps_getExecution tolerates fun _ _ _ _ => trivial

theorem stays_nowRfc3339 : Stays e nowRfc3339 := .of_keeps fun _ _ => keeps_nowRfc3339 tolerates

theorem stays_getOwn : Task.Stays protocol (fun t => t.executionId = e) (fun x : Execution => x.id = e)
    (ExecutionRepository.getById e) :=
  .of_keeps fun _ _ => keeps_getExecution tolerates fun _ _ _ => Rows.column_of_lookup

theorem stays_update {x : Execution} (hid : x.id = e) : Stays e (ExecutionRepository.update x) := by
  intro t w ht
  have htolerates : Tolerates protocol (t.next (.sql (.updateExecution x))) := tolerates
  apply obeys_updateExecution htolerates
  · intro u _ _
    have hacts : Acts t (.sql (.updateExecution x)) u.db (writeExecution x u.db) := .write (hid.trans ht.symm)
    exact ⟨hacts, rfl, hacts.grows⟩
  · intro u error _ _
    exact ⟨.plain rfl ⟨rfl, rfl, rfl⟩, ht⟩
  · exact fun _ _ _ => ⟨ht, trivial⟩
  · exact fun _ _ _ => ht

theorem obeys_getByExecution (ht : t.executionId = e) :
    Task.Obeys protocol (fun row t' s => t'.executionId = e ∧ ∀ entry, row = some entry → Known e entry s.db)
      (fun _ t' _ => t'.executionId = e) (QueueRepository.getByExecution e) t w := by
  unfold QueueRepository.getByExecution select
  apply obeys_sql
  · intro u row db _ hintact hquery
    cases (query_ok hquery).2
    beta_reduce
    cases hrow : Rows.lookup QueueEntry.executionId e u.db.jobQueue with
    | none =>
        refine ⟨.missing ?_, ht, nofun⟩
        rw [ht]
        exact Rows.lookup_eq_none.mp hrow
    | some entry =>
        refine ⟨.plain rfl ⟨rfl, rfl, rfl⟩, ht, ?_⟩
        rintro _ ⟨⟩
        have hmem := Rows.mem_of_lookup hrow
        have heq : entry.executionId = e := Rows.column_of_lookup hrow
        refine ⟨?_, fun other hother hsame => ?_⟩
        · obtain ⟨x, hx, hid⟩ := hintact.linked.entry entry hmem
          exact ⟨x, hx, hid.trans heq⟩
        · rw [hintact.uniqueExecution.eq_of_column hother hmem (hsame.trans heq.symm)]
  · intro u error _ _ _
    exact ⟨.plain rfl ⟨rfl, rfl, rfl⟩, ht⟩

theorem obeys_updateEntry {entry : QueueEntry} (ht : t.executionId = e) (hknown : Known e entry w.db)
    (hinactive : entry.status.active = false) :
    Task.Obeys protocol (fun _ t' _ => t'.executionId = e ∧ True) (fun _ t' _ => t'.executionId = e)
      (QueueRepository.update entry >>= fun _ => pure ()) t w := by
  apply Task.obeys_bind.mpr
  apply Task.obeys_bind.mpr
  apply obeys_sql
  · intro u affected db hgrows _ hquery
    cases (query_ok hquery).2
    have hlater := hknown.later hgrows
    let mark (row : QueueEntry) : QueueEntry :=
      { row with status := entry.status, startedAt := entry.startedAt, completedAt := entry.completedAt }
    have hmark : Restamps mark entry.status :=
      ⟨fun _ => rfl, fun _ => rfl, fun _ => rfl, fun _ => rfl, fun _ => rfl⟩
    refine ⟨Acts.mark hmark hinactive ?_, ht, trivial⟩
    rw [ht]
    exact hlater.rows
  · intro u error _ _ _
    exact ⟨.plain rfl ⟨rfl, rfl, rfl⟩, ht⟩

theorem stays_markEntry {mark : QueueEntry → String → QueueEntry} {status : QueueStatus} (hmark : Marks mark status)
    (hinactive : status.active = false) : Stays e (QueueManager.markEntry mark e) := by
  intro t w ht
  apply (obeys_getByExecution ht).bind
  rintro (_ | entry) t s ⟨ht, hknown⟩
  · exact ⟨ht, trivial⟩
  · apply (keeps_nowRfc3339 tolerates).bind_obeys
    · intro now u hgrows _
      have hlater := (hknown entry rfl).later hgrows
      have hmarked : Known e (mark entry now) u.db := by
        refine ⟨hlater.stored, ?_⟩
        rw [hmark.id]
        exact hlater.rows
      apply obeys_updateEntry ht hmarked
      rw [hmark.status]
      exact hinactive
    · exact fun _ _ _ => ht

theorem stays_markFailedWithRetry (qm : QueueManager) (retryCount : Int) (maxRetries : Option Int) :
    Stays e (qm.markFailedWithRetry e retryCount maxRetries) := by
  have hdead : Stays e (QueueManager.moveToDeadLetter e >>= fun _ => pure false) :=
    (stays_markEntry marks_deadLetter rfl).bind fun _ _ => .pure trivial
  unfold QueueManager.markFailedWithRetry
  dsimp only
  split
  · intro t w ht
    apply (obeys_getByExecution ht).bind
    rintro (_ | entry) t s ⟨ht, _⟩
    · exact hdead t s ht
    · have hspawn : Stays e (spawnRequeue { entryId := entry.id, executionId := e } >>= fun _ => pure true) :=
        (stays_perform (fun _ _ => rfl) fun _ => rfl).bind fun _ _ => .pure trivial
      exact hspawn t s ht
  · exact hdead

theorem stays_writeOutcome (result : ExecutionResult) : Stays e (WorkerPool.writeOutcome e result) := by
  have hfinalize (status : ExecutionStatus) (message output : Option String) :
      Stays e (WorkerPool.finalizeExecution e status message output) := by
    apply stays_getOwn.bind
    intro x hid
    apply stays_nowRfc3339.bind
    intro now _
    refine Task.Stays.bind (stays_update ?_) fun _ _ => .pure trivial
    exact hid
  have hfinish : Stays e (WorkerPool.writeOutcome.finish e result) :=
    (hfinalize _ _ _).attempt.bind fun _ _ => .pure trivial
  apply (stays_getExecution e).attempt.bind
  rintro (error | current) _
  · exact hfinish
  · dsimp only
    split
    · exact .pure trivial
    · exact hfinish

theorem stays_updateQueueEntry (pool : WorkerPool) (status : ExecutionStatus) :
    Stays e (pool.updateQueueEntry e status) := by
  have hcount : Stays e (WorkerPool.retryCountOf e) := by
    apply (stays_getExecution e).attempt.bind
    rintro (error | x) _ <;> exact .pure trivial
  have hmax : Stays e (WorkerPool.maxRetriesOf e) := by
    apply (stays_getExecution e).attempt.bind
    rintro (error | x) _
    · exact .pure trivial
    · have hjob : Stays e (JobRepository.getById x.jobId) :=
        .of_keeps fun _ _ => keeps_getJob tolerates fun _ _ _ _ => trivial
      apply hjob.attempt.bind
      rintro (error | job) _ <;> exact .pure trivial
  unfold WorkerPool.updateQueueEntry
  split
  · exact (stays_markEntry marks_completed rfl).attempt.bind fun _ _ => .pure trivial
  · apply hcount.bind
    intro count _
    apply hmax.bind
    intro max _
    exact (stays_markFailedWithRetry pool.queueManager count max).attempt.bind fun _ _ => .pure trivial

theorem stays_postRun (pool : WorkerPool) (result : ExecutionResult) : Stays e (pool.postRun e result) :=
  (stays_writeOutcome result).bind fun _ _ => stays_updateQueueEntry pool result.outcome.1

theorem stays_remove : Stays e (QueueManager.remove e) := by
  have hdelete : Stays e (QueueRepository.removeByExecution e) := by
    intro t w ht
    apply Task.obeys_bind.mpr
    apply obeys_sql
    · intro u affected db _ _ hquery
      cases (query_ok hquery).2
      exact ⟨ht ▸ Acts.remove, ht, trivial⟩
    · intro u error _ _ _
      exact ⟨.plain rfl ⟨rfl, rfl, rfl⟩, ht⟩
  have hlock : Stays e lock := by
    intro t w ht u _ _ _
    exact ⟨.plain rfl ⟨rfl, rfl, rfl⟩, ht, trivial⟩
  apply hlock.bind
  intro _ _
  have hbody : Stays e (queueDrainOther e >>= fun _ => QueueRepository.removeByExecution e) :=
    (stays_perform (fun _ _ => rfl) fun _ => rfl).bind fun _ _ => hdelete
  apply hbody.attempt.bind
  intro result _
  refine Task.Stays.bind (φ := fun _ => True) (stays_perform (fun t u => ?_) fun _ => rfl) fun _ _ => ?_
  · cases result <;> rfl
  · cases result with
    | ok value => exact .pure trivial
    | error error => exact .throw

theorem stays_cancelExecution : Stays e (Api.cancelExecution e) := by
  have hcancel : Stays e (ExecutionService.cancelExecution e) := by
    apply stays_getOwn.bind
    intro x hid
    have hwrite : Stays e (nowRfc3339 >>= fun now => ExecutionRepository.update (x.markCancelled now)) := by
      apply stays_nowRfc3339.bind
      intro now _
      exact stays_update (x := x.markCancelled now) hid
    split
    · exact hwrite
    · exact hwrite
    · exact hwrite
    · exact .throw
  apply hcancel.bind
  intro execution _
  exact stays_remove.attempt.bind fun _ _ => .pure trivial

end

/-! ### Runs -/

inductive Call where
  | postRun (executionId : Uuid) (result : ExecutionResult)
  | cancel (executionId : Uuid)

def Call.thread (pool : WorkerPool) : Call → Thread Event World Tag
  | .postRun e result => ⟨⟨e, false⟩, (pool.postRun e result).detached .returned⟩
  | .cancel e => ⟨⟨e, false⟩, (Api.cancelExecution e).detached .returned⟩

/-- What the rest of the system does meanwhile: it keeps the constraints, gives an entry only to a new
execution, and leaves no finished execution active that was not so before. -/
structure Elsewhere where
  act : World → World
  intact : ∀ w : World, Intact w.db → Intact (act w).db
  grows : ∀ w, Grows w.db (act w).db
  clean : ∀ w e, Finished e (act w).db → Active e (act w).db → Finished e w.db ∧ Active e w.db

def system (pool : WorkerPool) : System Event World Tag Call Elsewhere where
  next := Tag.next
  spawn call w := some (w, call.thread pool)
  env change w := change.act w

def initial (w : World) : Config Event World Tag := ⟨w, [], []⟩

/-- Every finished execution with an active entry has a task that still has to update the entry. -/
def Covered (db : Db) (tags : List Tag) : Prop :=
  ∀ e, Finished e db → Active e db → ⟨e, true⟩ ∈ tags

section

variable {pool : WorkerPool} {e : Uuid}

theorem next_executionId (t : Tag) (ev : Event) : (t.next ev).executionId = t.executionId := by
  unfold Tag.next
  split <;> rfl

theorem obeys_thread (call : Call) (w : World) :
    protocol.Obeys (fun _ _ _ => True) (call.thread pool).prog (call.thread pool).tag w := by
  cases call with
  | postRun e result =>
      exact (stays_postRun pool result _ w rfl).detached (fun _ _ _ _ _ _ _ => .plain rfl ⟨rfl, rfl, rfl⟩)
        fun _ _ _ _ _ _ _ => .plain rfl ⟨rfl, rfl, rfl⟩
  | cancel e =>
      exact (stays_cancelExecution _ w rfl).detached (fun _ _ _ _ _ _ _ => .plain rfl ⟨rfl, rfl, rfl⟩)
        fun _ _ _ _ _ _ _ => .plain rfl ⟨rfl, rfl, rfl⟩

/-- One action covers what it leaves finished and active. -/
theorem Covered.step {db db' : Db} {tags : List Tag} {i : Nat} {t : Tag} {ev : Event} (h : Covered db tags)
    (ht : tags[i]? = some t) (hacts : Acts t ev db db') : Covered db' (tags.set i (t.next ev)) := by
  intro e hfinished hactive
  rcases hacts.torn_or_before hfinished hactive with ⟨rfl, htorn⟩ | ⟨hfinished', hactive', hsame⟩
  · have htag : t.next ev = ⟨t.executionId, true⟩ := by
      rw [← next_executionId t ev, ← htorn]
    obtain ⟨hlength, _⟩ := List.getElem?_eq_some_iff.mp ht
    exact htag ▸ List.mem_set hlength _
  · have hmem : ∃ tag ∈ tags, tag = (⟨e, true⟩ : Tag) := ⟨_, h e hfinished' hactive', rfl⟩
    have hkept : t = (⟨e, true⟩ : Tag) → t.next ev = ⟨e, true⟩ := by
      rintro rfl
      have htorn := hsame rfl
      have hid := next_executionId ⟨e, true⟩ ev
      cases hnext : Tag.next ⟨e, true⟩ ev with
      | mk id torn =>
          rw [hnext] at htorn hid
          cases htorn
          cases hid
          rfl
    obtain ⟨tag, htag, rfl⟩ := exists_mem_set hmem ht hkept
    exact htag

theorem sound_covered : Sound (system pool) protocol (fun _ _ _ => True)
    fun w tags _ => Intact w.db ∧ Covered w.db tags where
  next := rfl
  knows h _ := h.1
  run h ht _ hacts := ⟨⟨Acts.intact hacts h.1, h.2.step ht hacts⟩, Acts.grows hacts⟩
  spawn := by
    intro w tags trace call w' th h hspawn
    cases hspawn
    refine ⟨⟨h.1, ?_⟩, Grows.refl w.db, obeys_thread call w⟩
    exact fun e hfinished hactive => List.mem_append_left _ (h.2 e hfinished hactive)
  env := by
    intro w tags trace change h
    refine ⟨⟨change.intact w h.1, ?_⟩, change.grows w⟩
    intro e hfinished hactive
    obtain ⟨hfinished', hactive'⟩ := change.clean w e hfinished hactive
    exact h.2 e hfinished' hactive'

end

/-- The process stops in any configuration that the sequences reach from a state in which no finished
execution is active. After recovery the dequeues return no finished execution if and only if no sequence
was stopped with its execution's status written and the execution's entry still active. -/
theorem recovery_skips_finished_iff (pool : WorkerPool) {w : World} (hintact : Intact w.db)
    (hclean : ∀ e, Finished e w.db → ¬ Active e w.db) {c : Config Event World Tag}
    (hrun : (system pool).Reaches (initial w) c) (now : DateTime) (nextUuid : Uuid) (clock : Nat → DateTime) :
    ∃ n u, pool.queueManager.recover.run (.start c.world.db now nextUuid) = some (.ok n, u) ∧
      ∃ turns items, drain clock turns u = some items ∧
        ((∀ item ∈ items, ¬ Finished item.executionId c.world.db) ↔
          ∀ t ∈ c.tags, t.torn = true → ¬ (Finished t.executionId c.world.db ∧ Active t.executionId c.world.db)) := by
  have hinit : Sound.Holds protocol (fun w tags _ => Intact w.db ∧ Covered w.db tags) (initial w) :=
    ⟨⟨hintact, fun e hfinished hactive => absurd hactive (hclean e hfinished)⟩, List.forall_mem_nil _⟩
  obtain ⟨⟨hlater, hcovered⟩, _⟩ := sound_covered.invariant hrun hinit
  obtain ⟨heap, hrecover, hperm⟩ := run_recover pool.queueManager (w := .start c.world.db now nextUuid)
    ⟨rfl, rfl⟩ hlater.linked rfl
  have hempty := coherent_resetRows hlater.linked hlater.uniqueId hlater.uniqueExecution
  obtain ⟨turns, items, hdrain, _, hmem, _⟩ := drain_recovered hempty hperm now nextUuid clock
  refine ⟨_, recovered c.world.db heap now nextUuid, hrecover, turns, items, hdrain, ?_⟩
  constructor
  · rintro hskips t ht htorn ⟨hfinished, hactive⟩
    obtain ⟨item, hitem, heq⟩ := List.mem_map.mp ((hmem t.executionId).mpr hactive)
    exact hskips item hitem (heq ▸ hfinished)
  · intro hwhole item hitem hfinished
    have hactive : Active item.executionId c.world.db :=
      (hmem item.executionId).mp (List.mem_map_of_mem hitem)
    exact hwhole _ (hcovered _ hfinished hactive) rfl ⟨hfinished, hactive⟩

/-! ### A worker stopped between its writes -/

/-- Execution 1 runs, and its entry is processing. -/
def runningWorld : World := .start { (World.sample 0 [1]).db with
  executions := [{ Execution.new 1 1 none "" with status := .running }]
  jobQueue := [{ QueueEntry.new 20 1 1 0 "" with status := .processing }] } epoch 1000

theorem runningWorld_intact : Intact runningWorld.db where
  linked := by
    refine ⟨fun row hrow => ?_, fun x hx => ?_⟩
    · rw [List.mem_singleton.mp hrow]
      exact ⟨_, List.mem_singleton_self _, rfl⟩
    · rw [List.mem_singleton.mp hx]
      exact ⟨_, List.mem_singleton_self _, rfl⟩
  uniqueId := by
    unfold Rows.Unique
    decide
  uniqueExecution := by
    unfold Rows.Unique
    decide

theorem runningWorld_clean (e : Uuid) : Finished e runningWorld.db → ¬ Active e runningWorld.db := by
  rintro ⟨x, hx, hstatus⟩
  rw [List.mem_singleton.mp (Rows.mem_of_lookup hx)] at hstatus
  rcases hstatus with h | h <;> cases h

/-- The executions that the dequeues return after a restart. -/
def returned (pool : WorkerPool) (c : Config Event World Tag) : Option (List Uuid) :=
  (pool.queueManager.recover.run (.start c.world.db epoch 2000)).bind fun r =>
    (drain (fun _ => epoch) 2 r.2).map fun items => items.map QueueItem.executionId

/-- The worker finishes its sequence, and the execution is not queued again. -/
theorem recovery_skips_finished_iff_whole : ∃ c, (system ⟨⟨1, 3⟩, none⟩).Reaches (initial runningWorld) c ∧
    c.tags = [⟨1, false⟩] ∧ c.trace.length = 9 ∧
    ∃ n u, (⟨1, 3⟩ : QueueManager).recover.run (.start c.world.db epoch 2000) = some (.ok n, u) ∧
      ∃ turns items, drain (fun _ => epoch) turns u = some items ∧
        ((∀ item ∈ items, ¬ Finished item.executionId c.world.db) ↔
          ∀ t ∈ c.tags, t.torn = true → ¬ (Finished t.executionId c.world.db ∧ Active t.executionId c.world.db)) := by
  have hexec : ((system ⟨⟨1, 3⟩, none⟩).exec (fun _ _ _ => true)
      ([.spawn (.postRun 1 (.sample true))] ++ List.replicate 9 (.run 0)) (initial runningWorld)).map
        (fun c => (c.tags, c.trace.length)) = some ([⟨1, false⟩], 9) := rfl
  obtain ⟨c, hc, heq⟩ := Option.map_eq_some_iff.mp hexec
  obtain ⟨htags, hlength⟩ := Prod.mk.inj heq
  have hrun := System.reaches_of_exec hc
  exact ⟨c, hrun, htags, hlength, recovery_skips_finished_iff ⟨⟨1, 3⟩, none⟩ runningWorld_intact runningWorld_clean
    hrun epoch 2000 fun _ => epoch⟩

/-- Stopped after `schedule`, the process returns a finished execution once it has restarted. -/
theorem returns_finished (schedule : List (Choice Call Elsewhere)) (status : ExecutionStatus)
    (hexec : ((system ⟨⟨1, 3⟩, none⟩).exec (fun _ _ _ => true) schedule (initial runningWorld)).map
      (fun c => ((Rows.lookup Execution.id 1 c.world.db.executions).map Execution.status,
        returned ⟨⟨1, 3⟩, none⟩ c)) = some (some status, some [1]))
    (hstatus : status = .success ∨ status = .cancelled) :
    ∃ c, (system ⟨⟨1, 3⟩, none⟩).Reaches (initial runningWorld) c ∧
      ∃ r u, (⟨1, 3⟩ : QueueManager).recover.run (.start c.world.db epoch 2000) = some (r, u) ∧
        ∃ turns items, drain (fun _ => epoch) turns u = some items ∧
          ∃ item ∈ items, Finished item.executionId c.world.db := by
  obtain ⟨c, hc, heq⟩ := Option.map_eq_some_iff.mp hexec
  obtain ⟨hrow, hreturned⟩ := Prod.mk.inj heq
  obtain ⟨⟨r, u⟩, hrecover, hdrain⟩ := Option.bind_eq_some_iff.mp hreturned
  obtain ⟨items, hitems, hids⟩ := Option.map_eq_some_iff.mp hdrain
  obtain ⟨x, hx, rfl⟩ := Option.map_eq_some_iff.mp hrow
  have hmem : 1 ∈ items.map QueueItem.executionId := by
    rw [hids]
    exact List.mem_singleton_self 1
  obtain ⟨item, hitem, hid⟩ := List.mem_map.mp hmem
  exact ⟨c, System.reaches_of_exec hc, r, u, hrecover, 2, items, hitems, item, hitem, x, hid ▸ hx, hstatus⟩

/-- The worker is stopped after it has written `success` and before it marks the entry completed. -/
theorem success_queued_again : ¬ ∀ c, (system ⟨⟨1, 3⟩, none⟩).Reaches (initial runningWorld) c →
    ∀ r u, (⟨1, 3⟩ : QueueManager).recover.run (.start c.world.db epoch 2000) = some (r, u) →
      ∀ turns items, drain (fun _ => epoch) turns u = some items →
        ∀ item ∈ items, ¬ Finished item.executionId c.world.db := by
  intro hclaim
  obtain ⟨c, hrun, r, u, hrecover, turns, items, hdrain, item, hitem, hfinished⟩ := returns_finished
    ([.spawn (.postRun 1 (.sample true))] ++ List.replicate 4 (.run 0)) .success rfl (.inl rfl)
  exact hclaim c hrun r u hrecover turns items hdrain item hitem hfinished

/-- A cancellation is stopped after it has written `cancelled` and before it removes the entry. -/
theorem cancelled_queued_again : ∃ c, (system ⟨⟨1, 3⟩, none⟩).Reaches (initial runningWorld) c ∧
    ∃ r u, (⟨1, 3⟩ : QueueManager).recover.run (.start c.world.db epoch 2000) = some (r, u) ∧
      ∃ turns items, drain (fun _ => epoch) turns u = some items ∧
        ∃ item ∈ items, Finished item.executionId c.world.db :=
  returns_finished ([.spawn (.cancel 1)] ++ List.replicate 3 (.run 0)) .cancelled rfl (.inr rfl)

end CrashSafety

end Serverust
