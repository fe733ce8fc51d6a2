import Serverust.Library.Mutex
import Serverust.Proof.Deliveries

/-!
# Removed executions

`remove` takes an execution out of the heap and its row out of the table, under the mutex. A task that was
armed or has read the row before may still push the execution, because a `requeue` of a row that is gone
succeeds. In every run in which no task does so, a removed execution is not dequeued until it is enqueued
again.
-/

namespace Serverust

namespace Removal

open Calendar Resumption

/-! ### The rules -/

/-- Where a task is with an execution. Inside it holds the mutex; it may have taken the execution from one
of the stores, or drained the heap of it, or then deleted its row as well. -/
inductive Phase where
  | outside
  | inside
  | holding
  | drained
  | emptied
deriving DecidableEq, Repr

def Phase.locks (phase : Phase) : Bool := phase ≠ .outside

def Phase.next (e : Uuid) : Phase → Event → Phase
  | .outside, .lock => .inside
  | .inside, .pop (some item) => if item.executionId = e then .holding else .inside
  | .inside, .sql (.dequeueAtomic (some row)) => if row.executionId = e then .holding else .inside
  | .inside, .drained id => if id = e then .drained else .inside
  | .drained, .sql (.removeByExecution id) => if id = e then .emptied else .drained
  | _, .unlock => .outside
  | _, .dequeued _ => .outside
  | _, .removed _ => .outside
  | phase, _ => phase

/-- No item of the execution is in the heap. -/
def Drained (e : Uuid) (w : World) : Prop := ∀ item ∈ w.memoryQueue.items, item.executionId ≠ e

/-- No row of the execution is in the table. -/
def Emptied (e : Uuid) (w : World) : Prop := ∀ row ∈ w.db.jobQueue, row.executionId ≠ e

/-- What an action of a task in this phase may do. -/
structure Allowed (e : Uuid) (phase : Phase) (ev : Event) (u v : World) : Prop where
  mutex : v.locked.toNat + phase.locks.toNat = u.locked.toNat + (phase.next e ev).locks.toNat
  items : ∀ item ∈ v.memoryQueue.items, item ∈ u.memoryQueue.items ∨ ev = .push item ∧ phase = .inside
  rows : ∀ row ∈ v.db.jobQueue, (∃ old ∈ u.db.jobQueue, old.executionId = row.executionId) ∨
    ev = .sql (.enqueue row) ∧ phase = .inside
  holding : phase.next e ev = .holding → phase = .holding ∨ ¬ Drained e u ∨ ¬ Emptied e u
  drained : phase.next e ev = .drained → phase = .drained ∨ Drained e v
  emptied : phase.next e ev = .emptied → phase = .emptied ∨ phase = .drained ∧ Emptied e v
  dequeued : ∀ item, ev = .dequeued (some item) → item.executionId = e → phase = .holding
  removed : ev = .removed e → phase = .emptied

def protocol (e : Uuid) : Protocol Event World Phase where
  next := Phase.next e
  knows phase w := phase.locks = true → w.locked = true
  grows _ _ := True
  allows := Allowed e

instance (e : Uuid) : (protocol e).Lawful := ⟨fun _ => trivial, fun _ _ => trivial⟩

/-- Events of actions that take nothing from the queue and add nothing to it. -/
def Plain : Event → Prop
  | .quiet | .failed _ | .spawned _ | .push _ | .pop none | .returned | .sql (.enqueue _) | .sql (.getByExecution ..)
  | .sql (.updateEntry _) | .sql (.requeue ..) | .sql (.dequeueAtomic none) | .sql .resetProcessing
  | .sql (.getAllQueued _) | .sql (.cleanup _) | .sql (.getExecution ..) | .sql (.getJob ..)
  | .sql (.nameExists ..) | .sql .other => True
  | _ => False

theorem next_of_plain {e : Uuid} {phase : Phase} {ev : Event} (h : Plain ev) : phase.next e ev = phase := by
  unfold Phase.next
  split <;> first | rfl | exact h.elim

section

variable {α : Type} {e : Uuid} {phase : Phase} {u v w : World} {ev : Event}

theorem Allowed.of_next (hnext : phase.next e ev = phase) (hdequeued : ∀ item, ev ≠ .dequeued item)
    (hremoved : ∀ id, ev ≠ .removed id) (hlocked : v.locked = u.locked)
    (hitems : ∀ item ∈ v.memoryQueue.items, item ∈ u.memoryQueue.items ∨ ev = .push item ∧ phase = .inside)
    (hrows : ∀ row ∈ v.db.jobQueue, (∃ old ∈ u.db.jobQueue, old.executionId = row.executionId) ∨
      ev = .sql (.enqueue row) ∧ phase = .inside) : Allowed e phase ev u v := by
  refine ⟨by rw [hlocked, hnext], hitems, hrows, ?_, ?_, ?_, ?_, ?_⟩
  · exact fun h => .inl (hnext ▸ h)
  · exact fun h => .inl (hnext ▸ h)
  · exact fun h => .inl (hnext ▸ h)
  · exact fun item h => absurd h (hdequeued _)
  · exact fun h => absurd h (hremoved e)

theorem Allowed.of_plain (hplain : Plain ev) (hlocked : v.locked = u.locked)
    (hitems : ∀ item ∈ v.memoryQueue.items, item ∈ u.memoryQueue.items ∨ ev = .push item ∧ phase = .inside)
    (hrows : ∀ row ∈ v.db.jobQueue, (∃ old ∈ u.db.jobQueue, old.executionId = row.executionId) ∨
      ev = .sql (.enqueue row) ∧ phase = .inside) : Allowed e phase ev u v := by
  refine .of_next (next_of_plain hplain) ?_ ?_ hlocked hitems hrows
  · rintro item rfl
    exact hplain
  · rintro id rfl
    exact hplain

/-- An action that adds nothing to the queue. -/
structure Aside (u : World) (ev : Event) (v : World) : Prop where
  plain : Plain ev
  locked : v.locked = u.locked
  items : ∀ item ∈ v.memoryQueue.items, item ∈ u.memoryQueue.items
  rows : ∀ row ∈ v.db.jobQueue, ∃ old ∈ u.db.jobQueue, old.executionId = row.executionId

theorem Aside.of_same (hplain : Plain ev) (hlocked : v.locked = u.locked) (hheap : v.memoryQueue = u.memoryQueue)
    (hrows : v.db.jobQueue = u.db.jobQueue) : Aside u ev v :=
  ⟨hplain, hlocked, hheap ▸ fun _ h => h, hrows ▸ fun row h => ⟨row, h, rfl⟩⟩

theorem keeps_aside {p : Async α} (h : p.Acts Aside) : Task.Keeps (protocol e) (fun _ => True) phase p := by
  apply h.keeps
  intro u ev v _ haside
  refine ⟨?_, next_of_plain haside.plain, trivial⟩
  exact .of_plain haside.plain haside.locked (fun item h => .inl (haside.items item h)) fun row h =>
    .inl (haside.rows row h)

/-! ### Programs outside the mutex -/

theorem tolerates : Tolerates (protocol e) phase := by
  intro u v ev _ hback _ hsame _
  have hplain : Plain ev := by
    unfold Event.Background at hback
    split at hback
    all_goals trivial
  have haside := Aside.of_same hplain hsame.locked hsame.memoryQueue hsame.jobQueue
  refine ⟨?_, next_of_plain hplain, trivial⟩
  exact .of_plain hplain haside.locked (fun item h => .inl (haside.items item h)) fun row h =>
    .inl (haside.rows row h)

theorem acts_statement {stmt : Db → α → Stmt} {statement : DateTime → Db → Except SqlError (α × Db)}
    (hplain : ∀ db value, Plain (.sql (stmt db value)))
    (hrows : ∀ now db value db', statement now db = .ok (value, db') →
      ∀ row ∈ db'.jobQueue, ∃ old ∈ db.jobQueue, old.executionId = row.executionId) :
    (sql stmt statement).Acts Aside :=
  acts_sql (fun _ _ _ h => ⟨hplain _ _, rfl, fun _ h => h, hrows _ _ _ _ h⟩) fun _ _ => .of_same trivial rfl rfl rfl

theorem acts_read {stmt : α → Stmt} {read : Db → α} (hplain : ∀ value, Plain (.sql (stmt value))) :
    (select stmt read).Acts Aside :=
  acts_select (fun _ => .of_same (hplain _) rfl rfl rfl) fun _ _ => .of_same trivial rfl rfl rfl

theorem acts_perform {event : World → Event} {act : World → α × World} (hplain : ∀ w, Plain (event w))
    (hlocked : ∀ w, (act w).2.locked = w.locked) (hheap : ∀ w, (act w).2.memoryQueue = w.memoryQueue)
    (hrows : ∀ w, (act w).2.db.jobQueue = w.db.jobQueue) : (perform event act).Acts Aside :=
  .action fun w => .of_same (hplain w) (hlocked w) (hheap w) (hrows w)

theorem acts_now : nowRfc3339.Acts Aside :=
  acts_perform (fun _ => trivial) (fun _ => rfl) (fun _ => rfl) fun _ => rfl

/-- Rows that are rewritten belong to the same executions. -/
theorem executionId_of_modify {κ : Type} [DecidableEq κ] {column : QueueEntry → κ} {value : κ}
    {f : QueueEntry → QueueEntry} {rows : List QueueEntry} {row : QueueEntry}
    (hrow : row ∈ Rows.modify column value f rows) (hf : ∀ row, (f row).executionId = row.executionId) :
    ∃ old ∈ rows, old.executionId = row.executionId := by
  obtain ⟨old, hold, rfl⟩ := Rows.mem_modify.mp hrow
  refine ⟨old, hold, ?_⟩
  split
  · exact (hf old).symm
  · rfl

theorem acts_update (entry : QueueEntry) : (QueueRepository.update entry).Acts Aside := by
  apply (acts_statement (fun _ _ => by trivial) ?_).bind fun _ => .pure _
  intro now db value db' h
  cases h
  exact fun row hrow => executionId_of_modify hrow fun _ => rfl

theorem acts_requeue (id : Uuid) : (QueueRepository.requeue id).Acts Aside := by
  apply (acts_statement (fun _ _ => by trivial) ?_).bind fun _ => .pure _
  intro now db value db' h
  cases h
  exact fun row hrow => executionId_of_modify hrow fun _ => rfl

theorem acts_markEntry (mark : QueueEntry → String → QueueEntry) (executionId : Uuid) :
    (QueueManager.markEntry mark executionId).Acts Aside := by
  apply Task.Acts.bind (acts_read fun _ => by trivial)
  intro row
  cases row with
  | none => exact .pure _
  | some entry => exact acts_now.bind fun now => (acts_update _).bind fun _ => .pure _

theorem acts_markFailedWithRetry (qm : QueueManager) (executionId : Uuid) (retryCount : Int)
    (maxRetries : Option Int) : (qm.markFailedWithRetry executionId retryCount maxRetries).Acts Aside := by
  have hdead : (QueueManager.moveToDeadLetter executionId >>= fun _ => pure false).Acts Aside :=
    (acts_markEntry _ executionId).bind fun _ => .pure _
  have hspawn (task : RequeueTask) : (spawnRequeue task).Acts Aside :=
    acts_perform (fun _ => trivial) (fun _ => rfl) (fun _ => rfl) fun _ => rfl
  unfold QueueManager.markFailedWithRetry
  dsimp only
  split
  · apply Task.Acts.bind (acts_read fun _ => by trivial)
    intro row
    cases row with
    | none => exact hdead
    | some entry => exact (hspawn _).bind fun _ => .pure _
  · exact hdead

theorem acts_cleanup (hours : Int) : (QueueManager.cleanup hours).Acts Aside := by
  unfold QueueManager.cleanup QueueRepository.cleanupOld
  apply acts_statement (fun _ _ => by trivial)
  intro now db value db' h
  cases h
  exact fun row hrow => ⟨row, (List.mem_filter.mp hrow).1, rfl⟩

theorem acts_resetProcessing : QueueRepository.resetProcessingToQueued.Acts Aside := by
  unfold QueueRepository.resetProcessingToQueued execute
  apply acts_statement (fun _ _ => by trivial)
  intro now db value db' h
  cases h
  exact fun row hrow => executionId_of_modify hrow fun _ => rfl

/-! ### Programs that hold the mutex -/

/-- The mutex may be given back with this event. -/
structure Returns (e : Uuid) (phase : Phase) (ev : Event) : Prop where
  locks : phase.locks = true
  event : ev = .unlock ∨ (∃ item, ev = .dequeued item) ∨ ∃ id, ev = .removed id
  dequeued : ∀ item, ev = .dequeued (some item) → item.executionId = e → phase = .holding
  removed : ev = .removed e → phase = .emptied

theorem Returns.unlock (hlocks : phase.locks = true) : Returns e phase .unlock :=
  ⟨hlocks, .inl rfl, nofun, nofun⟩

theorem Returns.next (h : Returns e phase ev) : phase.next e ev = .outside := by
  obtain rfl | ⟨item, rfl⟩ | ⟨id, rfl⟩ := h.event
  · cases phase <;> rfl
  · cases phase <;> rfl
  · cases phase <;> rfl

theorem Returns.allowed (h : Returns e phase ev) (hlocked : u.locked = true) :
    Allowed e phase ev u { u with locked := false } := by
  refine ⟨?_, fun _ hitem => .inl hitem, fun row hrow => .inl ⟨row, hrow, rfl⟩, ?_, ?_, ?_, h.dequeued, h.removed⟩
  · rw [h.next, h.locks, hlocked]
    rfl
  all_goals
    rw [h.next]
    exact nofun

theorem obeys_release {f : Unit → Async α} {ok : α → Phase → World → Prop} {err : AppError → Phase → World → Prop}
    (hreturns : Returns e phase ev) (hf : ∀ s, Task.Obeys (protocol e) ok err (f ()) .outside s) :
    Task.Obeys (protocol e) ok err (release ev >>= f) phase w := by
  apply Task.obeys_bind.mpr
  apply obeys_perform
  intro u _ hknows
  refine ⟨hreturns.allowed (hknows hreturns.locks), ?_⟩
  rw [show (protocol e).next phase ev = .outside from hreturns.next]
  exact hf _

/-- A program that holds the mutex while its body runs. -/
theorem obeys_withLock {done : Except AppError α → Event} {body : Async α}
    (h : ∀ s, Task.Obeys (protocol e) (fun a phase _ => Returns e phase (done (.ok a)))
      (fun err phase _ => Returns e phase (done (.error err))) body .inside s) :
    Task.Obeys (protocol e) (fun _ phase _ => phase = .outside) (fun _ phase _ => phase = .outside)
      (withLock done body) .outside w := by
  have hlock : Task.Obeys (protocol e) (fun _ phase _ => phase = .inside) (fun _ _ _ => False) lock .outside w := by
    intro u _ _ henabled
    have hfree : u.locked = false := by simpa using henabled
    refine ⟨⟨?_, fun _ hitem => .inl hitem, fun row hrow => .inl ⟨row, hrow, rfl⟩, nofun, nofun, nofun, nofun, nofun⟩, rfl⟩
    rw [hfree]
    rfl
  apply Task.obeys_bind.mpr
  apply hlock.mono
  · rintro _ _ s rfl
    apply Task.obeys_bind.mpr
    apply Task.obeys_attempt.mpr
    apply (h s).mono
    · exact fun _ _ _ hreturns => obeys_release hreturns fun _ => rfl
    · exact fun _ _ _ hreturns => obeys_release hreturns fun _ => rfl
  · exact fun _ _ _ => False.elim

theorem keeps_guarded {body : Async α} (h : Task.Keeps (protocol e) (fun _ => True) .inside body) :
    Task.Keeps (protocol e) (fun _ => True) .outside (withLock (fun _ => .unlock) body) := by
  intro s
  have hbody (s : World) : Task.Obeys (protocol e) (fun _ phase _ => Returns e phase .unlock)
      (fun _ phase _ => Returns e phase .unlock) body .inside s := by
    apply (h s).mono
    · rintro _ _ _ ⟨rfl, _, _⟩
      exact .unlock rfl
    · rintro _ _ _ ⟨rfl, _⟩
      exact .unlock rfl
  apply (obeys_withLock hbody).mono
  · exact fun _ _ _ hphase => ⟨hphase, trivial, trivial⟩
  · exact fun _ _ _ hphase => ⟨hphase, trivial⟩

theorem acts_queueLen : queueLen.Acts Aside :=
  acts_perform (fun _ => trivial) (fun _ => rfl) (fun _ => rfl) fun _ => rfl

theorem keeps_push (item : QueueItem) : Task.Keeps (protocol e) (fun _ => True) .inside (queuePush item) := by
  intro s
  apply obeys_perform
  intro u _ _
  refine ⟨.of_plain trivial rfl (fun other hother => ?_) fun row hrow => .inl ⟨row, hrow, rfl⟩, rfl, trivial, trivial⟩
  rcases MaxHeap.mem_push.mp hother with rfl | hold
  · exact .inr ⟨rfl, rfl⟩
  · exact .inl hold

theorem keeps_pushIfRoom (qm : QueueManager) (item : QueueItem) :
    Task.Keeps (protocol e) (fun _ => True) .inside (qm.pushIfRoom item) := by
  apply (keeps_aside acts_queueLen).bind
  intro len _
  split
  · exact keeps_push item
  · exact .pure trivial

theorem keeps_enqueue (qm : QueueManager) (item : QueueItem) :
    Task.Keeps (protocol e) (fun _ => True) .outside (qm.enqueue item) := by
  have hid : newV4.Acts Aside := acts_perform (fun _ => trivial) (fun _ => rfl) (fun _ => rfl) fun _ => rfl
  have hinsert (entry : QueueEntry) :
      Task.Keeps (protocol e) (fun _ => True) .inside (QueueRepository.enqueue entry) := by
    refine Task.Keeps.bind (φ := fun _ => True) (keeps_sql tolerates ?_) fun _ _ => .pure trivial
    intro u value db _ hquery
    obtain ⟨heq, _⟩ := insertEntry_ok (query_ok hquery).2
    cases heq
    refine ⟨.of_plain trivial rfl (fun _ hitem => .inl hitem) fun row hrow => ?_, rfl, trivial, trivial⟩
    rcases List.mem_append.mp hrow with hold | hlast
    · exact .inl ⟨row, hold, rfl⟩
    · rw [List.mem_singleton.mp hlast]
      exact .inr ⟨rfl, rfl⟩
  apply keeps_guarded
  apply (keeps_aside hid).bind fun id _ => ?_
  apply (keeps_aside acts_now).bind fun now _ => ?_
  exact (hinsert _).bind fun _ _ => keeps_pushIfRoom qm item

theorem keeps_loadEntries (qm : QueueManager) (entries : List QueueEntry) :
    Task.Keeps (protocol e) (fun _ => True) .inside (qm.loadEntries entries) := by
  induction entries with
  | nil => exact .pure trivial
  | cons entry rest ih =>
      apply (keeps_aside acts_queueLen).bind
      intro len _
      split
      · exact .pure trivial
      · apply (keeps_fetchItem tolerates entry.executionId fun _ => entry.priority).bind
        intro item _
        cases item with
        | none => exact ih
        | some item => exact (keeps_push item).bind fun _ _ => ih

theorem keeps_recover (qm : QueueManager) : Task.Keeps (protocol e) (fun _ => True) .outside qm.recover := by
  have hread : QueueRepository.getAllQueued.Acts Aside := acts_read fun _ => by trivial
  apply (keeps_aside acts_resetProcessing).bind fun _ _ => ?_
  apply (keeps_aside hread).bind fun entries _ => ?_
  exact keeps_guarded ((keeps_loadEntries qm entries).bind fun _ _ => .pure trivial)

theorem keeps_requeueTask (qm : QueueManager) (task : RequeueTask) :
    Task.Keeps (protocol e) (fun _ => True) .outside (qm.requeueTask task) := by
  apply (keeps_aside (acts_requeue task.entryId)).attempt.bind
  intro result _
  cases result with
  | error err => exact .pure trivial
  | ok value =>
      apply (keeps_fetchItem tolerates task.executionId Job.priority).bind
      intro item _
      cases item with
      | none => exact .pure trivial
      | some item => exact keeps_guarded (keeps_pushIfRoom qm item)

theorem keeps_retryDeadLetter (qm : QueueManager) (executionId : Uuid) :
    Task.Keeps (protocol e) (fun _ => True) .outside (qm.retryDeadLetter executionId) := by
  have hread : (QueueRepository.getByExecution executionId).Acts Aside := acts_read fun _ => by trivial
  apply (keeps_aside hread).bind
  intro row _
  cases row with
  | none => exact .pure trivial
  | some entry =>
      dsimp only
      split
      · exact .throw
      · apply (keeps_aside (acts_requeue entry.id)).bind fun _ _ => ?_
        apply (keeps_fetchItem tolerates entry.executionId fun _ => entry.priority).bind
        intro item _
        cases item with
        | none => exact .pure trivial
        | some item => exact keeps_guarded (keeps_pushIfRoom qm item)

/-- A task that has taken the execution, if that is the one it has. -/
def taking (e executionId : Uuid) : Phase := if executionId = e then .holding else .inside

theorem locks_taking (executionId : Uuid) : (taking e executionId).locks = true := by
  unfold taking
  split <;> rfl

theorem returns_taking (item : QueueItem) : Returns e (taking e item.executionId) (.dequeued (some item)) := by
  refine ⟨locks_taking _, .inr (.inl ⟨_, rfl⟩), ?_, nofun⟩
  rintro _ ⟨⟩ heq
  exact if_pos heq

/-- Taking the execution out of a store that has it. -/
theorem Allowed.take (executionId : Uuid) (hnext : Phase.next e .inside ev = taking e executionId)
    (hlocked : v.locked = u.locked) (hitems : ∀ item ∈ v.memoryQueue.items, item ∈ u.memoryQueue.items)
    (hrows : ∀ row ∈ v.db.jobQueue, ∃ old ∈ u.db.jobQueue, old.executionId = row.executionId)
    (hstored : (∃ item ∈ u.memoryQueue.items, item.executionId = executionId) ∨
      ∃ row ∈ u.db.jobQueue, row.executionId = executionId)
    (hdequeued : ∀ item, ev ≠ .dequeued item) (hremoved : ∀ id, ev ≠ .removed id) :
    Allowed e .inside ev u v := by
  refine ⟨?_, fun item h => .inl (hitems item h), fun row h => .inl (hrows row h), fun h => ?_, fun h => ?_, fun h => ?_,
    fun item h => absurd h (hdequeued _), fun h => absurd h (hremoved e)⟩
  · rw [hlocked, hnext, locks_taking]
    rfl
  · rw [hnext] at h
    have heq : executionId = e := by
      by_contra hne
      rw [taking, if_neg hne] at h
      cases h
    obtain ⟨item, hitem, hid⟩ | ⟨row, hrow, hid⟩ := hstored
    · exact .inr (.inl fun hdrained => hdrained item hitem (hid.trans heq))
    · exact .inr (.inr fun hemptied => hemptied row hrow (hid.trans heq))
  · rw [hnext, taking] at h
    split at h <;> cases h
  · rw [hnext, taking] at h
    split at h <;> cases h

/-- What a dequeue has when it gives the mutex back. -/
theorem obeys_dequeueOverflow : Task.Obeys (protocol e) (fun item phase _ => Returns e phase (.dequeued item))
    (fun _ phase _ => Returns e phase .unlock) QueueManager.dequeueOverflow .inside w := by
  apply Task.obeys_bind.mpr
  apply obeys_sql
  · intro u row db _ _ hquery
    obtain ⟨hfirst, rfl⟩ : row = (QueueRepository.takeFirst u.now u.db.jobQueue).1 ∧
        db = { u.db with jobQueue := (QueueRepository.takeFirst u.now u.db.jobQueue).2 } := by
      cases (query_ok hquery).2
      exact ⟨rfl, rfl⟩
    obtain ⟨hread, htickets⟩ := Deliveries.takeFirst_tickets u.now u.db.jobQueue
    have hrows : ∀ row ∈ (QueueRepository.takeFirst u.now u.db.jobQueue).2,
        ∃ old ∈ u.db.jobQueue, old.executionId = row.executionId := by
      intro row hrow
      obtain ⟨old, hold, hticket⟩ := htickets row hrow
      exact ⟨old, hold, congrArg Prod.fst hticket⟩
    cases row with
    | none =>
        refine ⟨.of_plain trivial rfl (fun _ h => .inl h) fun row h => .inl (hrows row h), ?_⟩
        exact ⟨rfl, .inr (.inl ⟨_, rfl⟩), nofun, nofun⟩
    | some entry =>
        have hentry := hrows entry (hread entry hfirst.symm)
        refine ⟨.take entry.executionId rfl rfl (fun _ h => h) hrows (.inr hentry) nofun nofun, ?_⟩
        rw [show (protocol e).next .inside (.sql (.dequeueAtomic (some entry))) = taking e entry.executionId from rfl]
        apply (keeps_fetchItem tolerates entry.executionId fun _ => entry.priority).bind_obeys
        · intro item s _ hitem
          cases item with
          | none =>
              apply (keeps_aside acts_now).bind_obeys
              · intro now s _ _
                apply (keeps_aside (acts_update _)).bind_obeys
                · exact fun _ _ _ _ => ⟨locks_taking _, .inr (.inl ⟨_, rfl⟩), nofun, nofun⟩
                · exact fun _ _ _ => .unlock (locks_taking _)
              · exact fun _ _ _ => .unlock (locks_taking _)
          | some item =>
              have hreturns : Returns e (taking e item.executionId) (.dequeued (some item)) := returns_taking item
              rw [hitem item rfl] at hreturns
              exact hreturns
        · exact fun _ _ _ => .unlock (locks_taking _)
  · intro u err _ _ _
    exact ⟨.of_plain trivial rfl (fun _ h => .inl h) fun row h => .inl ⟨row, h, rfl⟩, .unlock rfl⟩

theorem obeys_dequeue : Task.Obeys (protocol e) (fun _ phase _ => phase = .outside) (fun _ phase _ => phase = .outside)
    QueueManager.dequeue .outside w := by
  apply obeys_withLock
  intro s
  apply Task.obeys_bind.mpr
  apply obeys_perform
  intro u _ _
  cases hitems : u.memoryQueue.items with
  | nil =>
      rw [MaxHeap.pop_of_nil hitems]
      refine ⟨.of_plain trivial rfl (fun item h => ?_) fun row h => .inl ⟨row, h, rfl⟩, ?_⟩
      · simp at h
      · exact obeys_dequeueOverflow
  | cons item rest =>
      obtain ⟨sorted, hpop⟩ := MaxHeap.pop_of_cons hitems
      rw [hpop]
      have hmem : item ∈ u.memoryQueue.items := hitems ▸ List.mem_cons_self
      refine ⟨.take item.executionId rfl rfl ?_ (fun row h => ⟨row, h, rfl⟩) (.inl ⟨item, hmem, rfl⟩)
        nofun nofun, ?_⟩
      · exact fun other h => hitems ▸ List.mem_cons_of_mem _ h
      · apply (keeps_aside (acts_markEntry _ _)).bind_obeys
        · exact fun _ _ _ _ => returns_taking item
        · exact fun _ _ _ => .unlock (locks_taking item.executionId)

theorem obeys_remove (executionId : Uuid) : Task.Obeys (protocol e) (fun _ phase _ => phase = .outside)
    (fun _ phase _ => phase = .outside) (QueueManager.remove executionId) .outside w := by
  have hkept {u : World} : ∀ item ∈ (MaxHeap.ofList (u.memoryQueue.items.filter fun item =>
      item.executionId != executionId) : MemoryQueue).items,
      item ∈ u.memoryQueue.items ∧ item.executionId ≠ executionId := by
    intro item hitem
    obtain ⟨hmem, hne⟩ := List.mem_filter.mp (MaxHeap.mem_ofList.mp hitem)
    exact ⟨hmem, bne_iff_ne.mp hne⟩
  apply obeys_withLock
  intro s
  apply Task.obeys_bind.mpr
  apply obeys_perform
  intro u _ _
  by_cases heq : executionId = e
  · subst heq
    have hdrained : Phase.next executionId .inside (.drained executionId) = .drained := if_pos rfl
    rw [show (protocol executionId).next .inside (.drained executionId) = .drained from hdrained]
    refine ⟨⟨by rw [hdrained]; rfl, fun item h => .inl (hkept item h).1, fun row h => .inl ⟨row, h, rfl⟩, ?_, ?_, ?_,
      nofun, nofun⟩, ?_⟩
    · rw [hdrained]
      exact nofun
    · exact fun _ => .inr fun item h => (hkept item h).2
    · rw [hdrained]
      exact nofun
    · apply Task.obeys_bind.mpr
      apply obeys_sql
      · intro u affected db _ _ hquery
        cases (query_ok hquery).2
        have hemptied : Phase.next executionId .drained (.sql (.removeByExecution executionId)) = .emptied :=
          if_pos rfl
        rw [show (protocol executionId).next .drained (.sql (.removeByExecution executionId)) = .emptied from hemptied]
        refine ⟨⟨by rw [hemptied]; rfl, fun item h => .inl h, fun row h => ?_, ?_, ?_, ?_, nofun, nofun⟩, ?_⟩
        · exact .inl ⟨row, (Rows.mem_remove.mp h).1, rfl⟩
        · rw [hemptied]
          exact nofun
        · rw [hemptied]
          exact nofun
        · exact fun _ => .inr ⟨rfl, fun row h => (Rows.mem_remove.mp h).2⟩
        · exact ⟨rfl, .inr (.inr ⟨_, rfl⟩), nofun, fun _ => rfl⟩
      · intro u err _ _ _
        exact ⟨.of_plain trivial rfl (fun _ h => .inl h) fun row h => .inl ⟨row, h, rfl⟩, .unlock rfl⟩
  · have hinside : Phase.next e .inside (.drained executionId) = .inside := if_neg heq
    rw [show (protocol e).next .inside (.drained executionId) = .inside from hinside]
    refine ⟨.of_next hinside nofun nofun rfl (fun item h => .inl (hkept item h).1) fun row h => .inl ⟨row, h, rfl⟩, ?_⟩
    apply Task.obeys_bind.mpr
    apply obeys_sql
    · intro u affected db _ _ hquery
      cases (query_ok hquery).2
      refine ⟨.of_next rfl nofun nofun rfl (fun _ h => .inl h) fun row h => ?_, ?_⟩
      · exact .inl ⟨row, (Rows.mem_remove.mp h).1, rfl⟩
      · refine ⟨rfl, .inr (.inr ⟨_, rfl⟩), nofun, ?_⟩
        rintro ⟨⟩
        exact absurd rfl heq
    · intro u err _ _ _
      exact ⟨.of_plain trivial rfl (fun _ h => .inl h) fun row h => .inl ⟨row, h, rfl⟩, .unlock rfl⟩

end

/-! ### The pool -/

/-- The operations of the queue manager, and the tasks that sleep. -/
inductive Call where
  | enqueue (item : QueueItem)
  | dequeue
  | remove (executionId : Uuid)
  | markCompleted (executionId : Uuid)
  | markFailed (executionId : Uuid)
  | moveToDeadLetter (executionId : Uuid)
  | markFailedWithRetry (executionId : Uuid) (retryCount : Int) (maxRetries : Option Int)
  | retryDeadLetter (executionId : Uuid)
  | cleanup (olderThanHours : Int)
  | recover
  | requeue (index : Nat)

def Call.start (qm : QueueManager) (w : World) : Call → Option (World × Async Unit)
  | .enqueue item => some (w, qm.enqueue item)
  | .dequeue => some (w, do let _ ← QueueManager.dequeue)
  | .remove executionId => some (w, QueueManager.remove executionId)
  | .markCompleted executionId => some (w, QueueManager.markCompleted executionId)
  | .markFailed executionId => some (w, QueueManager.markFailed executionId)
  | .moveToDeadLetter executionId => some (w, QueueManager.moveToDeadLetter executionId)
  | .markFailedWithRetry executionId retryCount maxRetries =>
    some (w, do let _ ← qm.markFailedWithRetry executionId retryCount maxRetries)
  | .retryDeadLetter executionId => some (w, qm.retryDeadLetter executionId)
  | .cleanup olderThanHours => some (w, do let _ ← QueueManager.cleanup olderThanHours)
  | .recover => some (w, do let _ ← qm.recover)
  | .requeue index => (w.spawned[index]?).map fun task =>
      ({ w with spawned := w.spawned.eraseIdx index }, qm.requeueTask task)

/-- What else may happen: anything, but rows of the queue only go, and the heap and its mutex are left alone. -/
structure Elsewhere where
  act : World → World
  rows : ∀ w, ∀ row ∈ (act w).db.jobQueue, ∃ old ∈ w.db.jobQueue, old.executionId = row.executionId
  memoryQueue : ∀ w, (act w).memoryQueue = w.memoryQueue
  locked : ∀ w, (act w).locked = w.locked

def system (qm : QueueManager) (e : Uuid) : System Event World Phase Call Elsewhere where
  next := Phase.next e
  spawn call w := (call.start qm w).map fun r => (r.1, ⟨.outside, r.2.detached .returned⟩)
  env change w := change.act w

/-- The execution is not enqueued by these events. -/
def Unqueued (e : Uuid) (trace : List Event) : Prop :=
  ∀ entry, .sql (.enqueue entry) ∈ trace → entry.executionId ≠ e

/-- The execution was removed, and not enqueued since. -/
def Gone (e : Uuid) (trace : List Event) : Prop :=
  ∃ before after, trace = before ++ .removed e :: after ∧ Unqueued e after

/-- No task pushes the execution while it is gone. -/
def Good (e : Uuid) (c : Config Event World Phase) (_ : Nat) (ev : Event) : Prop :=
  ∀ item, ev = .push item → item.executionId = e → ¬ Gone e c.trace

/-! ### The invariant -/

structure Inv (e : Uuid) (w : World) (phases : List Phase) (trace : List Event) : Prop where
  sole : Sole Phase.locks w.locked phases
  drained : ∀ phase ∈ phases, phase = .drained ∨ phase = .emptied → Drained e w
  emptied : .emptied ∈ phases → Emptied e w
  gone : Gone e trace → Drained e w ∧ Emptied e w ∧ .holding ∉ phases
  quiet : ∀ before after, trace = before ++ .removed e :: after → Unqueued e after →
    ∀ item, .dequeued (some item) ∈ after → item.executionId ≠ e

section

variable {e : Uuid} {phase : Phase} {phases : List Phase} {trace before after : List Event} {ev x : Event} {u v : World}

/-- A point of a trace that goes on by an event is the new end, or a point of the trace before. -/
theorem split_append (h : trace ++ [ev] = before ++ x :: after) :
    after = [] ∧ ev = x ∨ ∃ rest, after = rest ++ [ev] ∧ trace = before ++ x :: rest := by
  obtain rfl | ⟨rest, last, rfl⟩ := List.eq_nil_or_concat after
  · exact .inl ⟨rfl, List.singleton_inj.mp (List.append_inj' h rfl).2⟩
  · rw [List.concat_eq_append] at h ⊢
    rw [← List.cons_append, ← List.append_assoc] at h
    obtain ⟨htrace, hlast⟩ := List.append_inj' h rfl
    exact .inr ⟨rest, by rw [List.singleton_inj.mp hlast], htrace⟩

theorem Unqueued.of_append {rest : List Event} (h : Unqueued e (rest ++ [ev])) :
    Unqueued e rest ∧ ∀ entry, ev = .sql (.enqueue entry) → entry.executionId ≠ e := by
  refine ⟨fun entry hentry => h entry (List.mem_append_left _ hentry), ?_⟩
  rintro entry rfl
  exact h entry (List.mem_append_right _ (List.mem_singleton_self _))

/-- The heap stays drained, unless a task pushes the execution. -/
theorem Allowed.keepsDrained (h : Allowed e phase ev u v) (hdrained : Drained e u)
    (hpush : ∀ item, ev = .push item → phase = .inside → item.executionId ≠ e) : Drained e v := by
  intro item hitem
  obtain hold | ⟨hev, hinside⟩ := h.items item hitem
  · exact hdrained item hold
  · exact hpush item hev hinside

/-- The table stays empty of the execution, unless it is enqueued. -/
theorem Allowed.keepsEmptied (h : Allowed e phase ev u v) (hemptied : Emptied e u)
    (hinsert : ∀ entry, ev = .sql (.enqueue entry) → phase = .inside → entry.executionId ≠ e) : Emptied e v := by
  intro row hrow
  obtain ⟨old, hold, hid⟩ | ⟨hev, hinside⟩ := h.rows row hrow
  · exact hid ▸ hemptied old hold
  · exact hinsert row hev hinside

variable {i : Nat}

/-- A task that holds the mutex keeps all others outside. -/
theorem Inv.other (h : Inv e u phases trace) (hphase : phases[i]? = some phase) {other next : Phase}
    (hother : other ∈ phases.set i next) (hlocks : other.locks = true) :
    other = next ∨ other ∈ phases ∧ phase = .outside := by
  obtain heq | ⟨j, _, hj⟩ := mem_set_index hother
  · exact .inl heq
  by_cases hhere : phase.locks = true
  · obtain heq | hfree := h.sole.alone hphase hhere hother
    · exact .inl heq
    · rw [hfree] at hlocks
      cases hlocks
  · refine .inr ⟨List.mem_of_getElem? hj, ?_⟩
    simpa [Phase.locks] using hhere

theorem Inv.drained_step (h : Inv e u phases trace) (hphase : phases[i]? = some phase)
    (hallowed : Allowed e phase ev u v) :
    ∀ other ∈ phases.set i (phase.next e ev), other = .drained ∨ other = .emptied → Drained e v := by
  have hmem := List.mem_of_getElem? hphase
  have hkeep (hdone : phase = .drained ∨ phase = .emptied) : Drained e v := by
    apply hallowed.keepsDrained (h.drained phase hmem hdone)
    rintro item _ rfl
    simp at hdone
  intro other hother hdone
  have hlocks : other.locks = true := by
    rcases hdone with rfl | rfl <;> rfl
  obtain rfl | ⟨hold, rfl⟩ := h.other hphase hother hlocks
  · rcases hdone with hdone | hdone
    · rcases hallowed.drained hdone with hthere | hnow
      · exact hkeep (.inl hthere)
      · exact hnow
    · rcases hallowed.emptied hdone with hthere | ⟨hthere, _⟩
      · exact hkeep (.inr hthere)
      · exact hkeep (.inl hthere)
  · exact hallowed.keepsDrained (h.drained other hold hdone) fun _ _ => nofun

theorem Inv.emptied_step (h : Inv e u phases trace) (hphase : phases[i]? = some phase)
    (hallowed : Allowed e phase ev u v) (hemptied : .emptied ∈ phases.set i (phase.next e ev)) : Emptied e v := by
  have hmem := List.mem_of_getElem? hphase
  obtain heq | ⟨hold, rfl⟩ := h.other hphase hemptied rfl
  · rcases hallowed.emptied heq.symm with rfl | ⟨_, hnow⟩
    · exact hallowed.keepsEmptied (h.emptied hmem) fun _ _ => nofun
    · exact hnow
  · exact hallowed.keepsEmptied (h.emptied hold) fun _ _ => nofun

theorem Inv.gone_step (h : Inv e u phases trace) (hphase : phases[i]? = some phase)
    (hallowed : Allowed e phase ev u v) (hpush : ∀ item, ev = .push item → item.executionId = e → ¬ Gone e trace)
    (hgone : Gone e (trace ++ [ev])) :
    Drained e v ∧ Emptied e v ∧ .holding ∉ phases.set i (phase.next e ev) := by
  have hmem := List.mem_of_getElem? hphase
  obtain ⟨before, after, htrace, hquiet⟩ := hgone
  obtain ⟨rfl, rfl⟩ | ⟨rest, rfl, hbefore⟩ := split_append htrace
  · -- The execution is removed by a task that has emptied both stores.
    obtain rfl := hallowed.removed rfl
    refine ⟨?_, ?_, fun hholding => ?_⟩
    · exact hallowed.keepsDrained (h.drained _ hmem (.inr rfl)) nofun
    · exact hallowed.keepsEmptied (h.emptied hmem) nofun
    · obtain heq | ⟨_, heq⟩ := h.other hphase hholding rfl
      · cases heq
      · cases heq
  · obtain ⟨hrest, hlast⟩ := hquiet.of_append
    have hthen : Gone e trace := ⟨before, rest, hbefore, hrest⟩
    obtain ⟨hdrained, hemptied, hnone⟩ := h.gone hthen
    refine ⟨?_, ?_, fun hholding => ?_⟩
    · exact hallowed.keepsDrained hdrained fun item hev _ heq => hpush item hev heq hthen
    · exact hallowed.keepsEmptied hemptied fun entry hev _ => hlast entry hev
    · obtain heq | ⟨hold, _⟩ := h.other hphase hholding rfl
      · rcases hallowed.holding heq.symm with rfl | hhas | hhas
        · exact hnone hmem
        · exact hhas hdrained
        · exact hhas hemptied
      · exact hnone hold

theorem Inv.step (h : Inv e u phases trace) (hphase : phases[i]? = some phase) (hallowed : Allowed e phase ev u v)
    (hpush : ∀ item, ev = .push item → item.executionId = e → ¬ Gone e trace) :
    Inv e v (phases.set i (phase.next e ev)) (trace ++ [ev]) := by
  refine ⟨h.sole.set hphase hallowed.mutex, h.drained_step hphase hallowed, h.emptied_step hphase hallowed,
    h.gone_step hphase hallowed hpush, ?_⟩
  intro before after htrace hquiet item hitem heq
  obtain ⟨rfl, _⟩ | ⟨rest, rfl, hbefore⟩ := split_append htrace
  · cases hitem
  obtain ⟨hrest, _⟩ := hquiet.of_append
  rcases List.mem_append.mp hitem with hold | hlast
  · exact h.quiet before rest hbefore hrest item hold heq
  · have hholding := hallowed.dequeued item (List.mem_singleton.mp hlast).symm heq
    obtain ⟨_, _, hnone⟩ := h.gone ⟨before, rest, hbefore, hrest⟩
    exact hnone (hholding ▸ List.mem_of_getElem? hphase)

theorem Inv.beside (h : Inv e u phases trace) (hlocked : v.locked = u.locked) (hheap : v.memoryQueue = u.memoryQueue)
    (hrows : ∀ row ∈ v.db.jobQueue, ∃ old ∈ u.db.jobQueue, old.executionId = row.executionId) :
    Inv e v phases trace := by
  have hdrained (hold : Drained e u) : Drained e v := fun item hitem => hold item (hheap ▸ hitem)
  have hemptied (hold : Emptied e u) : Emptied e v := by
    intro row hrow
    obtain ⟨old, hmem, hid⟩ := hrows row hrow
    exact hid ▸ hold old hmem
  refine ⟨hlocked ▸ h.sole, fun phase hphase hdone => hdrained (h.drained phase hphase hdone),
    fun hphase => hemptied (h.emptied hphase), fun hgone => ?_, h.quiet⟩
  obtain ⟨hheap, htable, hnone⟩ := h.gone hgone
  exact ⟨hdrained hheap, hemptied htable, hnone⟩

theorem Inv.spawn (h : Inv e u phases trace) : Inv e u (phases ++ [.outside]) trace := by
  have hmem {phase : Phase} (hlocks : phase.locks = true) (hphase : phase ∈ phases ++ [.outside]) : phase ∈ phases := by
    rcases List.mem_append.mp hphase with hold | hlast
    · exact hold
    · rw [List.mem_singleton.mp hlast] at hlocks
      cases hlocks
  refine ⟨h.sole.append rfl, fun phase hphase hdone => ?_, fun hphase => h.emptied (hmem rfl hphase), fun hgone => ?_,
    h.quiet⟩
  · refine h.drained phase (hmem ?_ hphase) hdone
    rcases hdone with rfl | rfl <;> rfl
  · obtain ⟨hheap, htable, hnone⟩ := h.gone hgone
    exact ⟨hheap, htable, fun hholding => hnone (hmem rfl hholding)⟩

end

theorem keeps_start {qm : QueueManager} {e : Uuid} {call : Call} {w w' : World} {p : Async Unit}
    (h : call.start qm w = some (w', p)) :
    w'.locked = w.locked ∧ w'.memoryQueue = w.memoryQueue ∧ w'.db = w.db ∧
      Task.Obeys (protocol e) (fun _ phase _ => phase = .outside) (fun _ phase _ => phase = .outside) p .outside w' := by
  have hkeeps {p : Async Unit} (h : Task.Keeps (protocol e) (fun _ => True) .outside p) (w : World) :
      Task.Obeys (protocol e) (fun _ phase _ => phase = .outside) (fun _ phase _ => phase = .outside) p .outside w :=
    (h w).mono (fun _ _ _ h => h.1) fun _ _ _ h => h.1
  have haside {α : Type} {p : Async α} (h : p.Acts Aside) (w : World) : Task.Obeys (protocol e)
      (fun _ phase _ => phase = .outside) (fun _ phase _ => phase = .outside) (do let _ ← p) .outside w :=
    hkeeps ((keeps_aside h).bind fun _ _ => .pure trivial) w
  cases call with
  | enqueue item =>
      cases h
      exact ⟨rfl, rfl, rfl, hkeeps (keeps_enqueue qm item) w⟩
  | dequeue =>
      cases h
      exact ⟨rfl, rfl, rfl, obeys_dequeue.bind fun _ _ _ hphase => hphase⟩
  | remove executionId =>
      cases h
      exact ⟨rfl, rfl, rfl, obeys_remove executionId⟩
  | markCompleted executionId =>
      cases h
      exact ⟨rfl, rfl, rfl, hkeeps (keeps_aside (acts_markEntry _ _)) w⟩
  | markFailed executionId =>
      cases h
      exact ⟨rfl, rfl, rfl, hkeeps (keeps_aside (acts_markEntry _ _)) w⟩
  | moveToDeadLetter executionId =>
      cases h
      exact ⟨rfl, rfl, rfl, hkeeps (keeps_aside (acts_markEntry _ _)) w⟩
  | markFailedWithRetry executionId retryCount maxRetries =>
      cases h
      exact ⟨rfl, rfl, rfl, haside (acts_markFailedWithRetry qm executionId retryCount maxRetries) w⟩
  | retryDeadLetter executionId =>
      cases h
      exact ⟨rfl, rfl, rfl, hkeeps (keeps_retryDeadLetter qm executionId) w⟩
  | cleanup olderThanHours =>
      cases h
      exact ⟨rfl, rfl, rfl, haside (acts_cleanup olderThanHours) w⟩
  | recover =>
      cases h
      exact ⟨rfl, rfl, rfl, hkeeps ((keeps_recover qm).bind fun _ _ => .pure trivial) w⟩
  | requeue index =>
      obtain ⟨task, _, heq⟩ := Option.map_eq_some_iff.mp h
      cases heq
      exact ⟨rfl, rfl, rfl, hkeeps (keeps_requeueTask qm task) _⟩

theorem sound_inv (qm : QueueManager) (e : Uuid) : Sound (system qm e) (protocol e) (Good e) (Inv e) where
  next := rfl
  knows hinv hphase hlocks := hinv.sole.locked_of_mem hphase hlocks
  run hinv hphase hgood hallowed := ⟨hinv.step hphase hallowed hgood, trivial⟩
  spawn := by
    intro w phases trace call w' th hinv hspawn
    obtain ⟨⟨u, p⟩, hstart, heq⟩ := Option.map_eq_some_iff.mp hspawn
    cases heq
    obtain ⟨hlocked, hheap, hdb, hobeys⟩ := keeps_start (e := e) hstart
    refine ⟨(hinv.beside hlocked hheap ?_).spawn, trivial, ?_⟩
    · rw [hdb]
      exact fun row hrow => ⟨row, hrow, rfl⟩
    · have hdone (u : World) : Allowed e .outside .returned u u :=
        .of_plain trivial rfl (fun _ h => .inl h) fun row h => .inl ⟨row, h, rfl⟩
      apply hobeys.detached
      · rintro _ _ _ u rfl _ _
        exact hdone u
      · rintro _ _ _ u rfl _ _
        exact hdone u
  env change hinv := ⟨hinv.beside (change.locked _) (change.memoryQueue _) (change.rows _), trivial⟩

/-- In every run in which no task pushes the execution while it is gone, no dequeue returns it after its
removal, until it is enqueued again. -/
theorem removed_stays_removed (qm : QueueManager) (e : Uuid) {w : World} (hfree : w.locked = false)
    {c : Config Event World Phase} (hrun : (system qm e).Run (Good e) ⟨w, [], []⟩ c) :
    ∀ before after, c.trace = before ++ .removed e :: after → Unqueued e after →
      ∀ item, .dequeued (some item) ∈ after → item.executionId ≠ e := by
  have hstart : Inv e w [] [] := by
    refine ⟨hfree ▸ .nil, List.forall_mem_nil _, nofun, ?_, ?_⟩
    · rintro ⟨before, after, htrace, _⟩
      simp at htrace
    · intro before after htrace
      simp at htrace
  exact ((sound_inv qm e).invariant hrun ⟨hstart, List.forall_mem_nil _⟩).1.quiet

/-! ### A task that was armed before -/

def oneItem : QueueManager := ⟨1, 3⟩

/-- An execution that is not queued yet. -/
def unqueued : Config Event World Phase := ⟨World.sample 3 [7], [], []⟩

/-- Calls that are served one after another, each in so many actions. -/
def oneByOne (calls : List (Call × Nat)) : List (Choice Call Elsewhere) :=
  calls.zipIdx.flatMap fun r => .spawn r.1.1 :: List.replicate r.1.2 (.run r.2)

/-- The execution is dequeued, and its retry is armed. -/
def armed : List (Call × Nat) := [(.enqueue (.sample 7 1), 8), (.dequeue, 7), (.markFailedWithRetry 7 0 none, 3)]

/-- `Good` as a test: nothing is pushed after the removal. -/
def check (e : Uuid) (c : Config Event World Phase) (_ : Nat) (ev : Event) : Bool :=
  match ev with
  | .push _ => .removed e ∉ c.trace
  | _ => true

theorem good_of_check {e : Uuid} {c : Config Event World Phase} {i : Nat} {ev : Event} (h : check e c i ev = true) :
    Good e c i ev := by
  rintro item rfl _ ⟨before, after, htrace, _⟩
  simp [check, htrace] at h

theorem split_of_getElem? {events : List Event} {n : Nat} {x : Event} (h : events[n]? = some x) :
    events = events.take n ++ x :: events.drop (n + 1) := by
  obtain ⟨hn, hget⟩ := List.getElem?_eq_some_iff.mp h
  rw [← hget, List.cons_getElem_drop_succ, List.take_append_drop]

def enqueues (e : Uuid) : Event → Bool
  | .sql (.enqueue entry) => entry.executionId = e
  | _ => false

def delivers (e : Uuid) : Event → Bool
  | .dequeued (some item) => item.executionId = e
  | _ => false

theorem unqueued_of_all {e : Uuid} {trace : List Event} (h : trace.all (fun ev => !enqueues e ev) = true) :
    Unqueued e trace := by
  intro entry hentry heq
  have hnot := List.all_eq_true.mp h _ hentry
  simp [enqueues, heq] at hnot

theorem exists_of_any {e : Uuid} {trace : List Event} (h : trace.any (delivers e) = true) :
    ∃ item, .dequeued (some item) ∈ trace ∧ item.executionId = e := by
  obtain ⟨ev, hev, hdelivers⟩ := List.any_eq_true.mp h
  unfold delivers at hdelivers
  split at hdelivers
  · exact ⟨_, hev, of_decide_eq_true hdelivers⟩
  · cases hdelivers

/-- The event with this number, and whether after it the execution is enqueued or delivered. -/
def summary (n : Nat) (c : Config Event World Phase) : Option Event × Bool × Bool :=
  (c.trace[n]?, (c.trace.drop (n + 1)).all fun ev => !enqueues 7 ev, (c.trace.drop (n + 1)).any (delivers 7))

/-- The retry fires, and then the execution is removed. -/
theorem removed_stays_removed_fired : ∃ c, (system oneItem 7).Run (Good 7) unqueued c ∧
    ∃ before after, c.trace = before ++ .removed 7 :: after ∧ Unqueued 7 after ∧
      ∀ item, .dequeued (some item) ∈ after → item.executionId ≠ 7 := by
  have hexec : ((system oneItem 7).exec (check 7)
      (oneByOne (armed ++ [(.requeue 0, 8), (.remove 7, 5), (.dequeue, 5)])) unqueued).map (summary 29) =
      some (some (.removed 7), true, false) := by decide +kernel
  obtain ⟨c, hc, heq⟩ := Option.map_eq_some_iff.mp hexec
  obtain ⟨hremoved, hrest⟩ := Prod.mk.inj heq
  have hrun := System.run_of_exec (fun _ _ _ => good_of_check) hc
  have hquiet := unqueued_of_all (Prod.mk.inj hrest).1
  exact ⟨c, hrun, _, _, split_of_getElem? hremoved, hquiet,
    removed_stays_removed oneItem 7 rfl hrun _ _ (split_of_getElem? hremoved) hquiet⟩

/-- The execution is removed, and then the retry fires: the next dequeue returns it. -/
theorem removed_comes_back : ¬ ∀ c, (system oneItem 7).Reaches unqueued c →
    ∀ before after, c.trace = before ++ .removed 7 :: after → Unqueued 7 after →
      ∀ item, .dequeued (some item) ∈ after → item.executionId ≠ 7 := by
  intro hclaim
  have hexec : ((system oneItem 7).exec (fun _ _ _ => true)
      (oneByOne (armed ++ [(.remove 7, 5), (.requeue 0, 8), (.dequeue, 5)])) unqueued).map (summary 21) =
      some (some (.removed 7), true, true) := by decide +kernel
  obtain ⟨c, hc, heq⟩ := Option.map_eq_some_iff.mp hexec
  obtain ⟨hremoved, hrest⟩ := Prod.mk.inj heq
  obtain ⟨hquiet, hdelivers⟩ := Prod.mk.inj hrest
  obtain ⟨item, hitem, hid⟩ := exists_of_any hdelivers
  exact hclaim c (System.reaches_of_exec hc) _ _ (split_of_getElem? hremoved) (unqueued_of_all hquiet) item hitem hid

end Removal

end Serverust
