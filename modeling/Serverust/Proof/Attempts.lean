import Serverust.Library.Pool
import Serverust.Model.Api
import Serverust.Proof.Footprints

/-!
# The row of an execution across attempts

A worker that starts an execution sets the status of its row and leaves the result of an earlier attempt in
it. As long as no worker starts a finished execution, `completed_at` says whether an execution is finished, and
only a finished one has a result.
-/

namespace Serverust

open Calendar Resumption

namespace Attempts

/-- What the log stream and the cleanup rely on. -/
structure Tidy (x : Execution) : Prop where
  completed : x.completedAt.isSome ↔ x.status.isTerminal
  running : x.status = .running → x.errorMessage = none ∧ x.outputData = none

/-- The result and its time are written when the execution finishes, and not before. -/
structure Clean (x : Execution) : Prop where
  finished : x.status.isTerminal → x.completedAt.isSome
  unfinished : ¬x.status.isTerminal → x.completedAt = none ∧ x.errorMessage = none ∧ x.outputData = none

theorem Clean.tidy {x : Execution} (h : Clean x) : Tidy x where
  completed := by
    refine ⟨fun hsome => ?_, h.finished⟩
    by_contra hrunning
    simp [(h.unfinished hrunning).1] at hsome
  running hstatus := (h.unfinished (by simp [hstatus, ExecutionStatus.isTerminal])).2

theorem clean_new (id jobId : Uuid) (input : Option String) (now : String) : Clean (.new id jobId input now) where
  finished := nofun
  unfinished _ := ⟨rfl, rfl, rfl⟩

/-- A row that is marked running is clean exactly if it was not finished. -/
theorem Clean.running_iff {x : Execution} (h : Clean x) (startedAt workerId : Option String) :
    Clean { x with status := .running, startedAt, workerId } ↔ ¬x.status.isTerminal := by
  constructor
  · intro hrunning hterminal
    obtain ⟨hnone, -⟩ := hrunning.unfinished nofun
    simpa [show x.completedAt = none from hnone] using h.finished hterminal
  · exact fun hunfinished => ⟨nofun, fun _ => h.unfinished hunfinished⟩

/-- A row that is written with a final status and a time is clean, whatever else it holds. -/
theorem clean_of_finished {x : Execution} (hterminal : x.status.isTerminal) (hcompleted : x.completedAt.isSome) :
    Clean x := ⟨fun _ => hcompleted, fun h => absurd hterminal h⟩

theorem outcome_terminal (result : ExecutionResult) : result.outcome.1.isTerminal := by
  unfold ExecutionResult.outcome
  split
  · rfl
  · split
    · rfl
    · split <;> rfl

def AllClean (rows : List Execution) : Prop := ∀ x ∈ rows, Clean x

theorem AllClean.modify {rows : List Execution} (h : AllClean rows) {x : Execution} (hx : Clean x) :
    AllClean (Rows.modify Execution.id x.id x.over rows) := by
  intro row hrow
  obtain ⟨old, hold, rfl⟩ := Rows.mem_modify.mp hrow
  split
  · exact ⟨hx.finished, hx.unfinished⟩
  · exact h old hold

/-! ### The rules -/

/-- Where a task is. A worker dequeues an execution and reads its row, which it then marks running; the row is
stale if it is finished. -/
inductive Phase where
  | dequeuing
  | starting
  | settled
  | stale
deriving DecidableEq, Repr

def Phase.next : Phase → Event → Phase
  | .dequeuing, .dequeued (some _) => .starting
  | .starting, .sql (.getExecution _ (some x)) => if x.status.isTerminal then .stale else .settled
  | .starting, .sql (.getExecution _ none) => .settled
  | .starting, .failed _ => .settled
  | phase, _ => phase

/-- No task has read a row that is stale, and none makes a row unclean. -/
def protocol : Protocol Event World Phase where
  next := Phase.next
  knows phase w := phase ≠ .stale ∧ AllClean w.db.executions
  grows _ _ := True
  allows _ _ _ v := AllClean v.db.executions

instance : protocol.Lawful := ⟨fun _ => trivial, fun _ _ => trivial⟩

theorem tolerates : Tolerates protocol .settled := by
  intro u v ev hknows _ _ hsame _
  refine ⟨?_, rfl, trivial⟩
  show AllClean v.db.executions
  rw [hsame.executions]
  exact hknows.2

theorem toleratesDags : ToleratesDags protocol .settled := by
  intro u v stmt hknows hsame _
  refine ⟨?_, rfl, trivial⟩
  show AllClean v.db.executions
  rw [hsame.executions]
  exact hknows.2

theorem toleratesQueue : ToleratesQueue protocol .settled := by
  intro u v ev hknows _ hbeside
  refine ⟨?_, rfl, trivial⟩
  show AllClean v.db.executions
  rw [hbeside.executions]
  exact hknows.2

/-- Actions that deliver no item and add at most new executions. -/
structure Harmless (u : World) (ev : Event) (v : World) : Prop where
  rows : AllClean u.db.executions → AllClean v.db.executions
  event : ∀ item, ev ≠ .dequeued (some item)

section

variable {α : Type} {w : World} {phase : Phase}

theorem keeps_harmless {p : Async α} (h : p.Acts Harmless) (hphase : phase = .dequeuing ∨ phase = .settled) :
    Task.Keeps protocol (fun _ => True) phase p := by
  apply h.keeps
  intro u ev v hknows hharmless
  refine ⟨hharmless.rows hknows.2, ?_, trivial⟩
  rcases hphase with rfl | rfl
  · cases ev with
    | dequeued item =>
        cases item with
        | none => rfl
        | some item => exact absurd rfl (hharmless.event item)
    | _ => rfl
  · rfl

theorem Harmless.of_same {u v : World} {ev : Event} (hsame : v.db.executions = u.db.executions)
    (hevent : ∀ item, ev ≠ .dequeued (some item)) : Harmless u ev v :=
  ⟨fun h => hsame ▸ h, hevent⟩

theorem Harmless.of_reading {u v : World} {ev : Event} (h : Reading u ev v) : Harmless u ev v := by
  obtain ⟨nextUuid, rfl⟩ := h.same
  refine .of_same rfl fun item heq => ?_
  subst heq
  exact h.event

theorem Harmless.of_taking {u v : World} {ev : Event} (h : Taking u ev v) : Harmless u ev v := by
  obtain ⟨jobQueue, memoryQueue, locked, spawned, nextUuid, rfl⟩ := h.same
  refine .of_same rfl fun item heq => ?_
  subst heq
  exact h.passing

theorem acts_perform {event : World → Event} {act : World → α × World}
    (hevent : ∀ u item, event u ≠ .dequeued (some item)) (hsame : ∀ u, (act u).2.db = u.db) :
    (perform event act).Acts Harmless :=
  .action fun u => .of_same (by rw [hsame]) (hevent u)

theorem acts_statement {stmt : Db → α → Stmt} {statement : DateTime → Db → Except SqlError (α × Db)}
    (hsame : ∀ now db value db', statement now db = .ok (value, db') → AllClean db.executions → AllClean db'.executions) :
    (sql stmt statement).Acts Harmless :=
  acts_sql (fun _ _ _ h => ⟨hsame _ _ _ _ h, nofun⟩) fun _ _ => .of_same rfl nofun

theorem acts_now : nowRfc3339.Acts Harmless := acts_perform nofun fun _ => rfl

/-! ### Dequeuing -/

/-- A worker has an item, or has nothing to do. -/
theorem obeys_dequeue : Task.Obeys protocol (fun item phase _ => item.isSome → phase = .starting) (fun _ _ _ => True)
    QueueManager.dequeue .dequeuing w := by
  have hlock : lock.Acts Harmless := fun u => ⟨.of_same rfl nofun, trivial⟩
  apply (keeps_harmless hlock (.inl rfl)).bind_obeys
  · intro _ u _ _
    refine Task.Keeps.bind_obeys (keeps_harmless (Task.Acts.attempt ?_) (.inl rfl)) ?_ fun _ _ _ => trivial
    · refine Task.Acts.mono (acts_take ?_ ?_) fun _ _ _ => Harmless.of_taking
      · exact fun _ => rfl
      · rfl
    · intro result u _ _
      apply Task.obeys_bind.mpr
      apply obeys_perform
      intro v _ hknows
      refine ⟨hknows.2, ?_⟩
      cases result with
      | error e => trivial
      | ok item =>
          intro hsome
          obtain ⟨item, rfl⟩ := Option.isSome_iff_exists.mp hsome
          rfl
  · exact fun _ _ _ => trivial

/-! ### Creating, cancelling and running -/

theorem acts_createExecution (jobId : Uuid) (input : Option String) :
    (ExecutionService.createExecution jobId input).Acts Harmless := by
  have hjob (id : Uuid) : (JobRepository.getById id).Acts Harmless :=
    (acts_getJob id).mono fun _ _ _ => Harmless.of_reading
  have hupdate (job : Job) : (JobRepository.update job).Acts Harmless := by
    apply Task.Acts.bind (acts_statement ?_)
    · intro affected
      split
      · exact .throw _
      · exact hjob job.id
    · intro now db value db' heq
      obtain ⟨-, rfl⟩ := JobRepository.writeJob_ok heq
      exact fun h => h
  have hid : newV4.Acts Harmless := acts_perform nofun fun _ => rfl
  have hcreate (id : Uuid) (now : String) :
      (ExecutionRepository.create (.new id jobId input now)).Acts Harmless := by
    apply (acts_statement ?_).bind fun _ => (acts_getExecution _).mono fun _ _ _ => Harmless.of_reading
    intro _ db value db' heq hclean
    unfold ExecutionRepository.insertExecution at heq
    split at heq
    · cases heq
    · split at heq
      · cases heq
      · cases heq
        intro x hx
        rcases List.mem_append.mp hx with hold | hnew
        · exact hclean x hold
        · rw [List.mem_singleton.mp hnew]
          exact clean_new id jobId input now
  have hrest := acts_now.bind fun now => hid.bind fun id => hcreate id now
  apply (hjob jobId).bind
  intro job
  split
  · exact acts_now.bind fun _ => (hupdate _).bind fun _ => hrest
  · exact hrest

/-- The row that a worker marks running was read unfinished. -/
theorem obeys_setExecutionRunning (e : Uuid) (workerId : String) :
    Task.Obeys protocol (fun _ phase _ => phase = .settled) (fun _ phase _ => phase = .settled)
      (WorkerPool.setExecutionRunning e workerId) .starting w := by
  apply Task.obeys_bind.mpr
  apply obeys_getExecution
  · intro u x _ hknows hx
    refine ⟨hknows.2, ?_⟩
    have hclean : Clean x := hknows.2 x (Rows.mem_of_lookup hx)
    dsimp only [protocol, Phase.next]
    split
    · apply Task.obeys_bind.mpr
      apply obeys_perform
      intro _ _ hstale
      exact absurd rfl hstale.1
    · rename_i hunfinished
      apply (keeps_nowRfc3339 tolerates).bind_obeys
      · intro now _ _ _
        apply Task.obeys_bind.mpr
        apply obeys_updateExecution tolerates
        · exact fun v _ hv => ⟨hv.2.modify ((hclean.running_iff _ _).mpr hunfinished), rfl, trivial⟩
        · exact fun _ _ _ hv => ⟨hv.2, rfl⟩
        · exact fun _ _ _ => rfl
        · exact fun _ _ _ => rfl
      · exact fun _ _ _ => rfl
  · exact fun u _ hknows _ => ⟨hknows.2, rfl⟩
  · exact fun u _ _ hknows => ⟨hknows.2, rfl⟩

theorem keeps_update {x : Execution} (hclean : Clean x) :
    Task.Keeps protocol (fun _ => True) .settled (ExecutionRepository.update x) := by
  intro w
  apply obeys_updateExecution tolerates
  · exact fun v _ hv => ⟨hv.2.modify hclean, rfl, trivial⟩
  · exact fun _ _ _ hv => ⟨hv.2, rfl, trivial⟩
  · exact fun _ _ _ => ⟨rfl, trivial, trivial⟩
  · exact fun _ _ _ => ⟨rfl, trivial⟩

theorem keeps_finalizeExecution (e : Uuid) {status : ExecutionStatus} (hterminal : status.isTerminal)
    (message output : Option String) :
    Task.Keeps protocol (fun _ => True) .settled (WorkerPool.finalizeExecution e status message output) := by
  apply (keeps_getExecution tolerates (φ := fun _ => True) fun _ _ _ _ => trivial).bind fun x _ => ?_
  apply (keeps_nowRfc3339 tolerates).bind fun now _ => ?_
  exact (keeps_update (clean_of_finished hterminal rfl)).bind fun _ _ => .pure trivial

theorem keeps_writeOutcome (e : Uuid) (result : ExecutionResult) :
    Task.Keeps protocol (fun _ => True) .settled (WorkerPool.writeOutcome e result) := by
  have hfinish : Task.Keeps protocol (fun _ => True) .settled (WorkerPool.writeOutcome.finish e result) :=
    (keeps_finalizeExecution e (outcome_terminal result) _ _).attempt.bind fun _ _ => .pure trivial
  apply (keeps_getExecution tolerates (φ := fun _ => True) fun _ _ _ _ => trivial).attempt.bind
  rintro (_ | x) _
  · exact hfinish
  · dsimp only
    split
    · exact .pure trivial
    · exact hfinish

theorem keeps_cancelExecution (id : Uuid) :
    Task.Keeps protocol (fun _ => True) .settled (Api.cancelExecution id) := by
  have hcancel : Task.Keeps protocol (fun _ => True) .settled (ExecutionService.cancelExecution id) := by
    apply (keeps_getExecution tolerates (φ := fun _ => True) fun _ _ _ _ => trivial).bind fun x _ => ?_
    have hwrite : Task.Keeps protocol (fun _ => True) .settled
        (nowRfc3339 >>= fun now => ExecutionRepository.update (x.markCancelled now)) :=
      (keeps_nowRfc3339 tolerates).bind fun now _ => keeps_update (clean_of_finished rfl rfl)
    split
    · exact hwrite
    · exact hwrite
    · exact hwrite
    · exact .throw
  apply hcancel.bind fun x _ => ?_
  exact (toleratesQueue.keeps_remove id).attempt.bind (ψ := fun _ => True) fun _ _ => .pure trivial

theorem obeys_process (pool : WorkerPool) (workerId : Nat) (e : Uuid) (result : ExecutionResult) :
    Task.Obeys protocol (fun _ _ _ => True) (fun _ _ _ => True) (pool.process workerId e result) .starting w := by
  have hexecuted : Task.Keeps protocol (fun _ => True) .settled (perform (fun _ => .executed e) fun w => ((), w)) :=
    keeps_harmless (acts_perform nofun fun _ => rfl) (.inr rfl)
  have hreleased : Task.Keeps protocol (fun _ => True) .settled (perform (fun _ => .released e) fun w => ((), w)) :=
    keeps_harmless (acts_perform nofun fun _ => rfl) (.inr rfl)
  have hcreate (jobId : Uuid) (input : Option String) :
      Task.Keeps protocol (fun _ => True) .settled (ExecutionService.createExecution jobId input) :=
    keeps_harmless (acts_createExecution jobId input) (.inr rfl)
  have hrun : Task.Keeps protocol (fun _ => True) .settled (do
      WorkerPool.executeItem e result
      WorkerPool.writeOutcome e result
      pool.updateQueueEntry e result.outcome.1
      perform (fun _ => .released e) fun w => ((), w)
      pool.dagCallback e
      WorkerPool.log e .system ("Execution completed: " ++ result.outcome.1.asStr)) := by
    have hreport := keeps_updateQueueEntry tolerates toleratesQueue pool e result.outcome.1
    have hcallback := keeps_dagCallback tolerates toleratesQueue toleratesDags hcreate pool e
    exact keeps_run tolerates hexecuted (keeps_writeOutcome e result) hreport hreleased hcallback
  apply Task.obeys_bind.mpr
  apply Task.obeys_attempt.mpr
  apply (obeys_setExecutionRunning e _).mono
  · rintro _ _ u rfl
    exact hrun.obeys.mono (fun _ _ _ _ => trivial) fun _ _ _ _ => trivial
  · rintro _ _ u rfl
    have hfailed : Task.Keeps protocol (fun _ => True) .settled (do let _ ← (QueueManager.markFailed e).attempt) :=
      (toleratesQueue.keeps_markEntry _ e).attempt.bind fun _ _ => .pure trivial
    exact hfailed.obeys.mono (fun _ _ _ _ => trivial) fun _ _ _ _ => trivial

theorem obeys_pass (pool : WorkerPool) (workerId : Nat) (result : QueueItem → ExecutionResult) :
    Task.Obeys protocol (fun _ _ _ => True) (fun _ _ _ => True) (pool.pass workerId result) .dequeuing w := by
  apply Task.obeys_bind.mpr
  apply Task.obeys_attempt.mpr
  apply obeys_dequeue.mono
  · intro item phase u hphase
    cases item with
    | none => trivial
    | some item =>
        rw [hphase rfl]
        exact obeys_process pool workerId item.executionId (result item)
  · exact fun _ _ _ _ => trivial

theorem keeps_executeJob (qm : QueueManager) (jobId : Uuid) (req : Option ExecuteJobRequest) :
    Task.Keeps protocol (fun _ => True) .settled (Api.executeJob qm jobId req) := by
  apply (keeps_harmless (acts_createExecution _ _) (.inr rfl)).bind fun x _ => ?_
  apply (keeps_getJob tolerates (φ := fun _ => True) fun _ _ _ _ => trivial).bind fun job _ => ?_
  have henqueue (item : QueueItem) :
      Task.Keeps protocol (fun _ => True) .settled (Api.internal "Failed to enqueue execution" (qm.enqueue item)) := by
    apply (toleratesQueue.keeps_enqueue qm item).attempt.bind
    rintro (_ | _) _
    · exact .throw
    · exact .pure trivial
  exact (henqueue _).bind fun _ _ => .pure trivial

end

/-! ### The pool -/

inductive Call where
  | executeJob (jobId : Uuid) (req : Option ExecuteJobRequest)
  | pass (workerId : Nat) (result : QueueItem → ExecutionResult)
  | requeue (index : Nat)
  | cancel (id : Uuid)

/-- What a call starts. A retry is a task that sleeps. -/
def Call.start (pool : WorkerPool) (w : World) : Call → Option (World × Phase × Async Unit)
  | .executeJob jobId req => some (w, .settled, do let _ ← Api.executeJob pool.queueManager jobId req)
  | .pass workerId result => some (w, .dequeuing, pool.pass workerId result)
  | .requeue index => (w.spawned[index]?).map fun task =>
      ({ w with spawned := w.spawned.eraseIdx index }, .settled, pool.queueManager.requeueTask task)
  | .cancel id => some (w, .settled, do let _ ← Api.cancelExecution id)

/-- What else may happen: anything, but of the executions only that some are deleted and that there are new ones. -/
structure Elsewhere where
  act : World → World
  rows : ∀ w, ∀ x ∈ (act w).db.executions, x ∈ w.db.executions ∨ ∃ id jobId input now, x = .new id jobId input now

def system (pool : WorkerPool) : System Event World Phase Call Elsewhere where
  next := Phase.next
  spawn call w := (call.start pool w).map fun r => (r.1, ⟨r.2.1, r.2.2.detached .returned⟩)
  env change w := change.act w

/-- The row of an execution that a worker starts is not finished. -/
def Good (c : Config Event World Phase) (i : Nat) (ev : Event) : Prop :=
  ∀ id x, ev = .sql (.getExecution id (some x)) → c.tags[i]? = some .starting → ¬x.status.isTerminal

/-! ### The invariant -/

def Inv (w : World) (phases : List Phase) : Prop := AllClean w.db.executions ∧ .stale ∉ phases

theorem Phase.next_ne_stale {phase : Phase} {ev : Event} (hphase : phase ≠ .stale)
    (hunfinished : ∀ id x, ev = .sql (.getExecution id (some x)) → phase = .starting → ¬x.status.isTerminal) :
    phase.next ev ≠ .stale := by
  unfold Phase.next
  split
  · exact nofun
  · rename_i id x
    rw [if_neg (hunfinished id x rfl rfl)]
    exact nofun
  · exact nofun
  · exact nofun
  · exact hphase

theorem obeys_start {pool : WorkerPool} {call : Call} {w w' : World} {phase : Phase} {p : Async Unit}
    (h : call.start pool w = some (w', phase, p)) :
    phase ≠ .stale ∧ w'.db = w.db ∧ Task.Obeys protocol (fun _ _ _ => True) (fun _ _ _ => True) p phase w' := by
  have hkeeps {p : Async Unit} (h : Task.Keeps protocol (fun _ => True) .settled p) (w : World) :
      Task.Obeys protocol (fun _ _ _ => True) (fun _ _ _ => True) p .settled w :=
    h.obeys.mono (fun _ _ _ _ => trivial) fun _ _ _ _ => trivial
  cases call with
  | executeJob jobId req =>
      cases h
      exact ⟨nofun, rfl, hkeeps ((keeps_executeJob _ jobId req).bind fun _ _ => .pure trivial) w⟩
  | pass workerId result =>
      cases h
      exact ⟨nofun, rfl, obeys_pass pool workerId result⟩
  | requeue index =>
      obtain ⟨task, _, heq⟩ := Option.map_eq_some_iff.mp h
      cases heq
      exact ⟨nofun, rfl, hkeeps (keeps_requeueTask tolerates toleratesQueue _ task) _⟩
  | cancel id =>
      cases h
      exact ⟨nofun, rfl, hkeeps ((keeps_cancelExecution id).bind fun _ _ => .pure trivial) w⟩

theorem sound_inv (pool : WorkerPool) : Sound (system pool) protocol Good fun w phases _ => Inv w phases where
  next := rfl
  knows hinv hphase := ⟨fun heq => hinv.2 (heq ▸ hphase), hinv.1⟩
  run := by
    intro c i phase ev w hinv hphase hgood hallows
    refine ⟨⟨hallows, fun hstale => ?_⟩, trivial⟩
    rcases List.mem_or_eq_of_mem_set hstale with hold | hnew
    · exact hinv.2 hold
    · refine Phase.next_ne_stale ?_ ?_ hnew.symm
      · rintro rfl
        exact hinv.2 (List.mem_of_getElem? hphase)
      · rintro id x rfl rfl
        exact hgood id x rfl hphase
  spawn := by
    intro w phases trace call w' th hinv hspawn
    obtain ⟨⟨u, phase, p⟩, hstart, heq⟩ := Option.map_eq_some_iff.mp hspawn
    cases heq
    obtain ⟨hphase, hdb, hobeys⟩ := obeys_start hstart
    refine ⟨⟨hdb ▸ hinv.1, ?_⟩, trivial, ?_⟩
    · intro hstale
      rcases List.mem_append.mp hstale with hold | hnew
      · exact hinv.2 hold
      · exact hphase (List.mem_singleton.mp hnew).symm
    · exact hobeys.detached (fun _ _ _ _ _ _ hknows => hknows.2) fun _ _ _ _ _ _ hknows => hknows.2
  env := by
    intro w phases trace change hinv
    refine ⟨⟨fun x hx => ?_, hinv.2⟩, trivial⟩
    rcases change.rows w x hx with hold | ⟨id, jobId, input, now, rfl⟩
    · exact hinv.1 x hold
    · exact clean_new id jobId input now

/-- Along every run in which no worker starts a finished execution, the time of completion is set exactly for
the finished ones, and a running one has neither an error nor an output. -/
theorem attempts_tidy (pool : WorkerPool) {w : World} (hclean : AllClean w.db.executions)
    {c : Config Event World Phase} (hrun : (system pool).Run Good ⟨w, [], []⟩ c) :
    ∀ x ∈ c.world.db.executions, Tidy x := by
  have hinit : Sound.Holds protocol (fun w phases _ => Inv w phases) (⟨w, [], []⟩ : Config Event World Phase) :=
    ⟨⟨hclean, List.not_mem_nil⟩, List.forall_mem_nil _⟩
  obtain ⟨⟨hrows, _⟩, _⟩ := (sound_inv pool).invariant hrun hinit
  exact fun x hx => (hrows x hx).tidy

/-! ### A second attempt -/

/-- `Good` as a test. -/
def check (c : Config Event World Phase) (i : Nat) (ev : Event) : Bool :=
  match ev with
  | .sql (.getExecution _ (some x)) => c.tags[i]? != some .starting || !x.status.isTerminal
  | _ => true

theorem good_of_check {c : Config Event World Phase} {i : Nat} {ev : Event} (h : check c i ev = true) :
    Good c i ev := by
  rintro id x rfl hi
  simpa [check, hi] using h

def onePool : WorkerPool := ⟨⟨1, 3⟩, none⟩

/-- No execution yet of a job that is retried once. -/
def oneJob : Config Event World Phase := ⟨World.sample 1 [], [], []⟩

/-- An execution of the job is asked for, and fails. -/
def firstAttempt : List (Choice Call Elsewhere) :=
  [.spawn (.executeJob 1 none)] ++ List.replicate 14 (.run 0) ++
    [.spawn (.pass 0 fun _ => .sample false)] ++ List.replicate 29 (.run 1)

/-- It is queued again, and a worker marks it running. -/
def secondAttempt : List (Choice Call Elsewhere) :=
  [.spawn (.requeue 0)] ++ List.replicate 8 (.run 2) ++
    [.spawn (.pass 0 fun _ => .sample true)] ++ List.replicate 9 (.run 3)

/-- The status of every execution, its error, and whether its time of completion is set. -/
def summary (c : Config Event World Phase) : List (ExecutionStatus × Option String × Bool) :=
  c.world.db.executions.map fun x => (x.status, x.errorMessage, x.completedAt.isSome)

theorem attempts_tidy_first : ∃ c, (system onePool).Run Good oneJob c ∧
    summary c = [(.failed, some "Exit code: None", true)] ∧ ∀ x ∈ c.world.db.executions, Tidy x := by
  have hexec : ((system onePool).exec check firstAttempt oneJob).map summary =
      some [(.failed, some "Exit code: None", true)] := by decide +kernel
  obtain ⟨c, hc, heq⟩ := Option.map_eq_some_iff.mp hexec
  have hrun := System.run_of_exec (fun _ _ _ => good_of_check) hc
  have hclean : AllClean (World.sample 1 []).db.executions := List.forall_mem_nil _
  exact ⟨c, hrun, heq, attempts_tidy onePool hclean hrun⟩

/-- The second attempt runs with the error and the time of completion of the first. -/
theorem second_attempt_untidy : ¬∀ c, (system onePool).Reaches oneJob c →
    ∀ x ∈ c.world.db.executions, Tidy x := by
  intro hclaim
  have hexec : ((system onePool).exec (fun _ _ _ => true) (firstAttempt ++ secondAttempt) oneJob).map
      summary = some [(.running, some "Exit code: None", true)] := by decide +kernel
  obtain ⟨c, hc, heq⟩ := Option.map_eq_some_iff.mp hexec
  have hmem : (.running, some "Exit code: None", true) ∈ summary c := heq ▸ List.mem_singleton_self _
  obtain ⟨x, hx, hsummary⟩ := List.mem_map.mp hmem
  obtain ⟨hstatus, herror⟩ := Prod.mk.inj hsummary
  have hnone := ((hclaim c (System.reaches_of_exec hc) x hx).running hstatus).1
  rw [(Prod.mk.inj herror).1] at hnone
  cases hnone

end Attempts

end Serverust
