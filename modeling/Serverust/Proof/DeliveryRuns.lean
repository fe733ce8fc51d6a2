import Serverust.Proof.DagNodes
import Serverust.Proof.DeliveryTasks

/-!
# Runs of the deliveries

The whole process: requests, ticks, triggers, workers, the tasks that queue an execution again, and the
recovery after a restart, interleaved in any way. Every item that is delivered was built from the row of
its execution and from a row of that execution's job.
-/

namespace Serverust

namespace Deliveries

open Calendar Resumption

/-! ### The process -/

/-- The parts of the process. -/
structure Process where
  pool : WorkerPool
  engine : DagEngine
  runner : SchedulerRunner
  fromStr : String → Option JsonText.Value

inductive Call where
  | executeJob (jobId : Uuid) (req : Option ExecuteJobRequest)
  | retryExecution (id : Uuid)
  | cancelExecution (id : Uuid)
  | tick
  | triggerDag (dagId : Uuid) (triggerType : String)
  | pass (workerId : Nat) (result : QueueItem → ExecutionResult)
  | requeue (index : Nat)
  | retryDeadLetter (executionId : Uuid)
  | recover

/-- A task without its result. -/
def ignoring {α : Type} (p : Async α) : Async Unit := do
  let _ ← p

/-- What a call starts. A task that queues an execution again is one that sleeps. -/
def Call.start (proc : Process) (w : World) : Call → Option (World × Origin × Async Unit)
  | .executeJob jobId req => some (w, .request (req.bind ExecuteJobRequest.priority),
      ignoring (Api.executeJob proc.pool.queueManager jobId req))
  | .retryExecution id => some (w, .other, ignoring (Api.retryExecution proc.pool.queueManager proc.fromStr id))
  | .cancelExecution id => some (w, .other, ignoring (Api.cancelExecution id))
  | .tick => some (w, .other, proc.runner.tick)
  | .triggerDag dagId triggerType => some (w, .other, ignoring (proc.engine.triggerDag dagId triggerType))
  | .pass workerId result => some (w, .other, proc.pool.pass workerId result)
  | .requeue index => (w.spawned[index]?).map fun task =>
      ({ w with spawned := w.spawned.eraseIdx index }, .requeue task.executionId,
        proc.pool.queueManager.requeueTask task)
  | .retryDeadLetter executionId => some (w, .other, proc.pool.queueManager.retryDeadLetter executionId)
  | .recover => some (w, .other, ignoring proc.pool.queueManager.recover)

/-- What may happen besides: anything to the other tables and, as far as `edits` allows, to the jobs. -/
structure Elsewhere (edits : List Job → List Job → Prop) where
  act : World → World
  executions : ∀ w, (act w).db.executions.map identity = w.db.executions.map identity
  jobQueue : ∀ w, (act w).db.jobQueue = w.db.jobQueue
  memoryQueue : ∀ w, (act w).memoryQueue = w.memoryQueue
  spawned : ∀ w, (act w).spawned = w.spawned
  jobs : ∀ w, edits w.db.jobs (act w).db.jobs

def system (proc : Process) (edits : List Job → List Job → Prop) :
    System Event World Tag Call (Elsewhere edits) where
  next := Tag.next
  spawn call w := (call.start proc w).map fun r => (r.1, ⟨⟨r.2.1, []⟩, r.2.2.detached .returned⟩)
  env change w := change.act w

/-- What the process finds when it starts again: the database. -/
def Reboot (u v : World) : Prop := ∃ now nextUuid, v = .start u.db now nextUuid

/-- The process as it starts the first time: nothing is queued. -/
structure Fresh (w : World) : Prop where
  unique : Rows.Unique Execution.id w.db.executions
  jobQueue : w.db.jobQueue = []
  memoryQueue : w.memoryQueue = .empty
  spawned : w.spawned = []

def initial (w : World) : Config Event World Tag := ⟨w, [], []⟩

section

variable {α : Type} {t : Tag} {proc : Process} {edits : List Job → List Job → Prop}

theorem advances_ignoring {ψ : α → Tag → Prop} {p : Async α} (h : Advances ψ t p) :
    Advances (fun _ _ => True) t (ignoring p) := h.bind fun _ _ _ _ => .pure trivial

theorem advances_start {call : Call} {w w' : World} {origin : Origin} {p : Async Unit}
    (h : call.start proc w = some (w', origin, p)) : Advances (fun _ _ => True) ⟨origin, []⟩ p := by
  cases call with
  | executeJob jobId req =>
      cases h
      exact advances_ignoring (advances_executeJob _ jobId req rfl)
  | retryExecution id =>
      cases h
      exact advances_ignoring (advances_retry _ _ id rfl)
  | cancelExecution id =>
      cases h
      exact advances_ignoring (advances_cancel id)
  | tick =>
      cases h
      exact advances_tick _ rfl
  | triggerDag dagId triggerType =>
      cases h
      exact advances_ignoring (advances_triggerDag _ dagId triggerType rfl)
  | pass workerId result =>
      cases h
      exact advances_pass _ workerId result rfl
  | requeue index =>
      obtain ⟨task, _, heq⟩ := Option.map_eq_some_iff.mp h
      cases heq
      exact advances_requeueTask _ task rfl
  | retryDeadLetter executionId =>
      cases h
      exact advances_retryDeadLetter _ executionId
  | recover =>
      cases h
      exact advances_ignoring (advances_recover _)

end

/-! ### Items are built from stored rows -/

/-- A row with the same identity is stored. -/
def Known (x : Execution) (db : Db) : Prop := identity x ∈ db.executions.map identity

/-- The item has the fields of a stored execution and of a row of its job that some task has read. -/
def Built (trace : List Event) (db : Db) (item : QueueItem) : Prop := ∃ x job id, Known x db ∧
  .sql (.getJob id (some job)) ∈ trace ∧ job.id = x.jobId ∧ item = .new x job item.priority

structure Base (w : World) (tags : List Tag) (trace : List Event) : Prop where
  logs : ∀ t ∈ tags, ∀ ev ∈ t.log, ev ∈ trace
  unique : Rows.Unique Execution.id w.db.executions
  read : ∀ id x, .sql (.getExecution id (some x)) ∈ trace → Known x w.db
  created : ∀ x, .sql (.createExecution x) ∈ trace → Known x w.db
  items : ∀ item ∈ w.memoryQueue.items, Built trace w.db item
  popped : ∀ item, .pop (some item) ∈ trace → Built trace w.db item
  delivered : ∀ item, .dequeued (some item) ∈ trace → Built trace w.db item

section

variable {t : Tag} {u v w : World} {db db' : Db} {tags : List Tag} {trace trace' : List Event} {ev : Event}
  {item : QueueItem} {i : Nat}

theorem Built.mono (h : Built trace db item) (htrace : ∀ ev ∈ trace, ev ∈ trace')
    (hdb : ∀ x, Known x db → Known x db') : Built trace' db' item := by
  obtain ⟨x, job, id, hknown, hread, hjob, heq⟩ := h
  exact ⟨x, job, id, hdb x hknown, htrace _ hread, hjob, heq⟩

/-- Two known executions with one id are the same execution. -/
theorem jobId_eq (hunique : Rows.Unique Execution.id db.executions) {x y : Execution} (hx : Known x db)
    (hy : Known y db) (hid : x.id = y.id) : x.jobId = y.jobId := by
  obtain ⟨x', hx', heq⟩ := List.mem_map.mp hx
  obtain ⟨y', hy', heq'⟩ := List.mem_map.mp hy
  simp only [identity, Prod.mk.injEq] at heq heq'
  have hsame := hunique.eq_of_column hx' hy' (heq.1.trans (hid.trans heq'.1.symm))
  rw [← heq.2.1, ← heq'.2.1, hsame]

theorem Tag.Finds.built (h : Base w tags trace) (ht : t ∈ tags) {e : Uuid} {x : Execution} {job : Job}
    (hfinds : t.Finds e x job) (priority : Int) : Built trace w.db (.new x job priority) := by
  obtain ⟨_, hread⟩ := hfinds.execution
  obtain ⟨id, hjob⟩ := hfinds.readJob
  exact ⟨x, job, id, h.read _ _ (h.logs t ht _ hread), h.logs t ht _ hjob, hfinds.jobId, rfl⟩

theorem Tag.Rebuilds.built (h : Base w tags trace) (ht : t ∈ tags) (hitem : t.Rebuilds item) :
    Built trace w.db item := by
  obtain ⟨entry, x, job, _, hfinds, rfl⟩ := hitem
  exact hfinds.built h ht entry.priority

theorem Tag.Pushes.built (h : Base w tags trace) (ht : t ∈ tags) (hitem : t.Pushes item) :
    Built trace w.db item := by
  rcases hitem with ⟨made, x, job, hmade, ⟨_, hread⟩, hid, ⟨id, hreadJob⟩, hjob, rfl⟩ | hitem | hitem
  · have hknown := h.read _ _ (h.logs t ht _ hread)
    have hof := jobId_eq h.unique hknown (h.created made (h.logs t ht _ hmade)) hid
    refine ⟨x, job, id, hknown, h.logs t ht _ hreadJob, ?_, rfl⟩
    rcases hjob with hjob | hjob
    · exact hjob.trans hof.symm
    · exact hjob
  · exact hitem.built h ht
  · obtain ⟨e, x, job, _, hfinds, rfl⟩ := hitem
    exact hfinds.built h ht job.priority

/-- What an action adds to what is known, and to what is built. -/
structure Turn (trace : List Event) (u : World) (ev : Event) (v : World) : Prop where
  unique : Rows.Unique Execution.id v.db.executions
  known : ∀ x, Known x u.db → Known x v.db
  read : ∀ id x, ev = .sql (.getExecution id (some x)) → Known x u.db
  created : ∀ x, ev = .sql (.createExecution x) → Known x v.db
  items : ∀ item ∈ v.memoryQueue.items, item ∈ u.memoryQueue.items ∨ Built trace u.db item
  popped : ∀ item, ev = .pop (some item) → item ∈ u.memoryQueue.items
  delivered : ∀ item, ev = .dequeued (some item) → Built trace u.db item

theorem Fades.known (hfades : Fades u v) {x : Execution} : Known x v.db ↔ Known x u.db := by
  rw [Known, Known, hfades.executions]

theorem unique_of_identity (h : Rows.Unique Execution.id db.executions)
    (hsame : db'.executions.map identity = db.executions.map identity) : Rows.Unique Execution.id db'.executions := by
  have hids (rows : List Execution) : rows.map Execution.id = (rows.map identity).map Prod.fst := by
    rw [List.map_map]
    rfl
  rw [Rows.Unique, hids, hsame, ← hids]
  exact h

theorem Turn.of_same (hunique : Rows.Unique Execution.id u.db.executions)
    (hexecutions : v.db.executions = u.db.executions) (hread : ∀ id x, ev ≠ .sql (.getExecution id (some x)))
    (hcreate : ∀ x, ev ≠ .sql (.createExecution x)) (hpop : ∀ item, ev ≠ .pop (some item))
    (hitems : ∀ item ∈ v.memoryQueue.items, item ∈ u.memoryQueue.items ∨ Built trace u.db item)
    (hdelivered : ∀ item, ev = .dequeued (some item) → Built trace u.db item) : Turn trace u ev v where
  unique := hexecutions ▸ hunique
  known x h := by rwa [Known, hexecutions]
  read id x h := absurd h (hread id x)
  created x h := absurd h (hcreate x)
  items := hitems
  popped item h := absurd h (hpop item)
  delivered := hdelivered

theorem Acts.turn (h : Base u tags trace) (ht : t ∈ tags) (hacts : Acts t ev u v) : Turn trace u ev v := by
  cases hacts with
  | aside hreads hadds hfades =>
      refine ⟨unique_of_identity h.unique hfades.executions, fun x hx => hfades.known.mpr hx,
        fun id x hev => ?_, fun x hev => ?_, fun item hitem => .inl (hfades.items item hitem), hreads.pop,
        fun item hev => ?_⟩
      · exact List.mem_map_of_mem (hreads.execution id x hev)
      · exact absurd (hev ▸ trivial) hadds
      · exact absurd (hev ▸ trivial) hadds
  | create x hnew =>
      have hgrows : ∀ y, Known y u.db →
          Known y { u.db with executions := u.db.executions ++ [x] } := by
        intro y hy
        rw [Known, List.map_append]
        exact List.mem_append_left _ hy
      refine ⟨h.unique.append (Rows.hits_eq_zero.mpr hnew), hgrows, by simp, ?_, fun item hitem => .inl hitem,
        by simp, by simp⟩
      rintro _ ⟨⟩
      rw [Known, List.map_append]
      exact List.mem_append_right _ (List.mem_singleton_self _)
  | enable read now hread =>
      exact .of_same h.unique rfl (by simp) (by simp) (by simp) (fun item hitem => .inl hitem) (by simp)
  | enqueue entry item hitem hticket hjob =>
      exact .of_same h.unique rfl (by simp) (by simp) (by simp) (fun item hitem => .inl hitem) (by simp)
  | push item hitem =>
      refine .of_same h.unique rfl (by simp) (by simp) (by simp) (fun other hother => ?_) (by simp)
      rcases MaxHeap.mem_push.mp hother with rfl | hold
      · exact .inr (hitem.built h ht)
      · exact .inl hold
  | deliver item hitem hfades =>
      refine ⟨unique_of_identity h.unique hfades.executions, fun x hx => hfades.known.mpr hx, by simp, by simp,
        fun item hitem => .inl (hfades.items item hitem), by simp, ?_⟩
      rintro _ ⟨⟩
      rcases hitem with hpopped | hrebuilt
      · exact h.popped item (h.logs t ht _ hpopped)
      · exact hrebuilt.built h ht
  | spawn task entry hread heq =>
      exact .of_same h.unique rfl (by simp) (by simp) (by simp) (fun item hitem => .inl hitem) (by simp)

theorem mem_append_event {ev' : Event} (h : ev' ∈ trace ++ [ev]) : ev' ∈ trace ∨ ev = ev' := by
  rcases List.mem_append.mp h with hold | hlast
  · exact .inl hold
  · exact .inr (List.mem_singleton.mp hlast).symm

theorem Base.step (h : Base u tags trace) (ht : tags[i]? = some t) (hacts : Acts t ev u v) :
    Base v (tags.set i (t.next ev)) (trace ++ [ev]) := by
  have hmem := List.mem_of_getElem? ht
  have hturn := hacts.turn h hmem
  have hold : ∀ e ∈ trace, e ∈ trace ++ [ev] := fun _ he => List.mem_append_left _ he
  have hbuilt {item : QueueItem} (hitem : Built trace u.db item) : Built (trace ++ [ev]) v.db item :=
    hitem.mono hold hturn.known
  refine ⟨fun t' ht' e he => ?_, hturn.unique, fun id x hx => ?_, fun x hx => ?_, fun item hitem => ?_,
    fun item hitem => ?_, fun item hitem => ?_⟩
  · rcases List.mem_or_eq_of_mem_set ht' with hother | rfl
    · exact hold e (h.logs t' hother e he)
    · rcases List.mem_cons.mp he with rfl | hlog
      · exact List.mem_append_right _ (List.mem_singleton_self _)
      · exact hold e (h.logs t hmem e hlog)
  · rcases mem_append_event hx with hx | hx
    · exact hturn.known x (h.read id x hx)
    · exact hturn.known x (hturn.read id x hx)
  · rcases mem_append_event hx with hx | hx
    · exact hturn.known x (h.created x hx)
    · exact hturn.created x hx
  · rcases hturn.items item hitem with hold | hnew
    · exact hbuilt (h.items item hold)
    · exact hbuilt hnew
  · rcases mem_append_event hitem with hitem | hitem
    · exact hbuilt (h.popped item hitem)
    · exact hbuilt (h.items item (hturn.popped item hitem))
  · rcases mem_append_event hitem with hitem | hitem
    · exact hbuilt (h.delivered item hitem)
    · exact hbuilt (hturn.delivered item hitem)

/-- A change of the rest of the state, and a task that starts. -/
theorem Base.beside (h : Base u tags trace) (hsame : v.db.executions.map identity = u.db.executions.map identity)
    (hitems : ∀ item ∈ v.memoryQueue.items, item ∈ u.memoryQueue.items) (more : List Tag)
    (hmore : ∀ t ∈ more, t.log = []) : Base v (tags ++ more) trace := by
  have hknown : ∀ x, Known x u.db → Known x v.db := by
    intro x hx
    rwa [Known, hsame]
  have hbuilt {item : QueueItem} (hitem : Built trace u.db item) : Built trace v.db item :=
    hitem.mono (fun _ he => he) hknown
  refine ⟨fun t ht ev hev => ?_, unique_of_identity h.unique hsame, fun id x hx => hknown x (h.read id x hx),
    fun x hx => hknown x (h.created x hx), fun item hitem => hbuilt (h.items item (hitems item hitem)),
    fun item hitem => hbuilt (h.popped item hitem), fun item hitem => hbuilt (h.delivered item hitem)⟩
  rcases List.mem_append.mp ht with hold | hnew
  · exact h.logs t hold ev hev
  · rw [hmore t hnew] at hev
    cases hev

theorem base_initial (h : Fresh w) : Base w [] [] where
  logs := List.forall_mem_nil _
  unique := h.unique
  read := by simp
  created := by simp
  items := by simp [h.memoryQueue]
  popped := by simp
  delivered := by simp

end

section

variable {proc : Process} {edits : List Job → List Job → Prop} {w w' : World}

/-- What a call starts leaves the tables and the heap as they are, and takes a sleeping task at most. -/
theorem start_same {call : Call} {origin : Origin} {p : Async Unit} (h : call.start proc w = some (w', origin, p)) :
    w'.db = w.db ∧ w'.memoryQueue = w.memoryQueue ∧ ∀ task ∈ w'.spawned, task ∈ w.spawned := by
  cases call with
  | requeue index =>
      obtain ⟨task, _, heq⟩ := Option.map_eq_some_iff.mp h
      cases heq
      exact ⟨rfl, rfl, fun task htask => List.mem_of_mem_eraseIdx htask⟩
  | _ =>
      cases h
      exact ⟨rfl, rfl, fun _ h => h⟩

theorem obeys_start {call : Call} {origin : Origin} {p : Async Unit} (h : call.start proc w = some (w', origin, p)) :
    protocol.Obeys (fun _ _ _ => True) (p.detached .returned) ⟨origin, []⟩ w' :=
  (advances_start h).detached fun _ u => .plain (by trivial) (.refl u)

theorem sound_base (proc : Process) (edits : List Job → List Job → Prop)
    (good : Config Event World Tag → Nat → Event → Prop) : Sound (system proc edits) protocol good Base where
  next := rfl
  knows _ _ := trivial
  run h ht _ hacts := ⟨h.step ht hacts, trivial⟩
  spawn := by
    intro w tags trace call w' th h hspawn
    obtain ⟨⟨w'', origin, p⟩, hstart, heq⟩ := Option.map_eq_some_iff.mp hspawn
    cases heq
    obtain ⟨hdb, hheap, _⟩ := start_same hstart
    refine ⟨h.beside (by rw [hdb]) (by rw [hheap]; exact fun _ h => h) _ ?_, trivial, obeys_start hstart⟩
    intro t ht
    rw [List.mem_singleton.mp ht]
  env := by
    intro w tags trace change h
    refine ⟨?_, trivial⟩
    have hsame := h.beside (change.executions w) (by rw [change.memoryQueue]; exact fun _ h => h) []
      (List.forall_mem_nil _)
    rwa [List.append_nil] at hsame

theorem Base.reboot {tags : List Tag} {trace : List Event} (h : Base w tags trace) (hreboot : Reboot w w') :
    Base w' tags trace := by
  obtain ⟨now, nextUuid, rfl⟩ := hreboot
  have hsame := h.beside (v := .start w.db now nextUuid) rfl (by simp [World.start]) []
    (List.forall_mem_nil _)
  rwa [List.append_nil] at hsame

/-- Every item that is delivered was built from its execution's row and a row of its job. -/
theorem base_of_lives {good : Config Event World Tag → Nat → Event → Prop} (hfresh : Fresh w)
    {c : Config Event World Tag} (hrun : (system proc edits).Lives good Reboot (initial w) c) :
    Base c.world c.tags c.trace :=
  ((sound_base proc edits good).lives Base.reboot hrun ⟨base_initial hfresh, List.forall_mem_nil _⟩).1

end

/-! ### A sample process -/

/-- One job, and nothing is queued. -/
def worldOf (job : Job) : World := .start { Db.empty with jobs := [job] } epoch 1000

theorem fresh_worldOf (job : Job) : Fresh (worldOf job) := ⟨List.nodup_nil, rfl, rfl, rfl⟩

def Process.sample : Process where
  pool := ⟨⟨1, 3⟩, none⟩
  engine := .sample
  runner := ⟨⟨1, 3⟩, ⟨Unit, fun _ => .ok (), fun _ _ => none⟩⟩
  fromStr _ := none

end Deliveries

end Serverust
