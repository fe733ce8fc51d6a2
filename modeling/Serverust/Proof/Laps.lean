import Serverust.Proof.Dispatch
import Serverust.Proof.Signs

/-!
# The laps of an execution

An execution whose attempt fails is queued again while its retry count is below the maximum of its job, and no
part of a lap writes the count. Where the count has reached the maximum there is one attempt, and the execution
is a dead letter before its worker lets go of it.
-/

namespace Serverust

namespace Laps

open Resumption Handoffs Signs

/-- The execution is stored with this retry count, its job with this maximum, and no statement fails. -/
structure Known (e j : Uuid) (r m : Int) (w : World) : Prop where
  unique : Rows.Unique Execution.id w.db.executions
  stored : ⟨e, j, r⟩ ∈ signs w
  limited : Limited j m w
  job : ∃ job ∈ w.db.jobs, job.id = j
  fault : w.fault = none

/-- What a task has of the execution: what its part in the queue says, an attempt, or one whose failure is on
record in the queue. -/
inductive Stage where
  | queue (phase : Phase)
  | attempt
  | buried
deriving DecidableEq, Repr

namespace Stage

def phase : Stage → Phase
  | .queue phase => phase
  | .attempt => .working
  | .buried => .clear

def of : Phase → Stage
  | .working => .attempt
  | phase => .queue phase

/-- An attempt that its worker has not let go of. -/
def underway : Stage → Nat
  | .queue _ => 0
  | .attempt | .buried => 1

def next (e : Uuid) : Stage → Event → Stage
  | .queue phase, ev => of (phase.next e ev)
  | .attempt, .sql (.updateEntry _) => .buried
  | .buried, .released _ => .queue .clear
  | stage, _ => stage

/-- The stages between the operations on the queue. -/
def Quiet : Stage → Prop
  | .queue phase => phase ≠ .working ∧ phase ≠ .retrying ∧ phase ≠ .fired
  | .attempt => True
  | .buried => False

end Stage

/-- The row of the execution is queued again. -/
def requeues (e : Uuid) : Event → Bool
  | .sql (.requeue _ (some row)) => row.executionId = e
  | _ => false

/-- A worker is through with the queue after an attempt of the execution. -/
def releases (e : Uuid) : Event → Bool
  | .released x => x = e
  | _ => false

/-! ### The rules -/

/-- What an action of a task at this stage does with the execution. -/
inductive Steps (e : Uuid) (u v : World) : Stage → Event → Prop
  | queue {phase : Phase} {ev : Event} (hphase : phase ≠ .working) (hworking : phase.next e ev ≠ .working)
      (hfired : phase.next e ev ≠ .fired) (h : Allowed e phase ev u v) : Steps e u v (.queue phase) ev
  | deliver {item : QueueItem} (hitem : item.executionId = e) (h : Allowed e .taken (.dequeued (some item)) u v) :
      Steps e u v (.queue .taken) (.dequeued (some item))
  | keep {ev : Event} (hnext : Stage.attempt.next e ev = .attempt) (hdecides : decides e ev = false)
      (hdelivers : delivers e ev = false) (hbeside : Beside u v) (hlocked : v.locked = u.locked) :
      Steps e u v .attempt ev
  | bury {entry : QueueEntry} (h : Allowed e .working (.sql (.updateEntry entry)) u v)
      (hdead : (stock e v).status = some .deadLetter) : Steps e u v .attempt (.sql (.updateEntry entry))
  | release (h : v = u) : Steps e u v .buried (.released e)

structure Permits (e j : Uuid) (r m : Int) (stage : Stage) (ev : Event) (u v : World) : Prop where
  known : Known e j r m v
  signs : signs u <+: signs v
  released : releases e ev = true → stage = .buried
  steps : Steps e u v stage ev

def protocol (e j : Uuid) (r m : Int) : Protocol Event World Stage where
  next := Stage.next e
  knows stage w := (Handoffs.protocol e).knows stage.phase w ∧ Known e j r m w
  grows u v := (Handoffs.protocol e).grows u v ∧ signs u <+: signs v
  allows := Permits e j r m

instance (e j : Uuid) (r m : Int) : (protocol e j r m).Lawful :=
  ⟨fun w => ⟨Protocol.Lawful.refl w, List.prefix_refl _⟩,
    fun hab hbc => ⟨Protocol.Lawful.trans hab.1 hbc.1, hab.2.trans hbc.2⟩⟩

section

variable {α : Type} {e j x id : Uuid} {r m : Int} {stage : Stage} {phase : Phase} {u v w : World} {ev : Event}

theorem Known.of_same (h : Known e j r m u) (hjobs : v.db.jobs = u.db.jobs)
    (hexecutions : v.db.executions = u.db.executions) (hfault : v.fault = u.fault) : Known e j r m v := by
  have hsigns : signs v = signs u := by
    unfold signs
    rw [hexecutions]
  refine ⟨hexecutions ▸ h.unique, hsigns ▸ h.stored, ?_, hjobs ▸ h.job, hfault.trans h.fault⟩
  unfold Limited
  rw [hjobs]
  exact h.limited

theorem Known.execution (h : Known e j r m w) :
    ∃ x, Rows.lookup Execution.id e w.db.executions = some x ∧ sign x = ⟨e, j, r⟩ := by
  obtain ⟨x, hx, hsign⟩ := List.mem_map.mp h.stored
  obtain ⟨hid, _, _⟩ := Sign.mk.inj hsign
  exact ⟨x, h.unique.lookup hx hid, hsign⟩

theorem Stage.of_eq (h : phase ≠ .working) : Stage.of phase = .queue phase := by
  cases phase <;> first | rfl | exact absurd rfl h

@[simp] theorem Stage.phase_of : (Stage.of phase).phase = phase := by
  cases phase <;> rfl

/-! ### Actions that leave the queue -/

/-- Events that leave the queue and every task where it is. -/
def Neutral (e : Uuid) : Event → Prop
  | .quiet | .failed _ | .executed _ | .returned | .sql .other | .sql (.getExecution ..) | .sql (.getJob ..)
  | .sql (.nameExists ..) | .sql (.getByExecution ..) | .sql (.updateExecution _) | .sql (.createExecution _)
  | .sql (.updateJob _) | .sql (.dag _) => True
  | .released x => x ≠ e
  | _ => False

theorem neutral_of_background (h : ev.Background) : Neutral e ev := by
  unfold Event.Background at h
  split at h
  all_goals trivial

theorem phase_next_of_neutral (h : Neutral e ev) (hworking : phase ≠ .working) (hretrying : phase ≠ .retrying)
    (hfired : phase ≠ .fired) : phase.next e ev = phase := by
  unfold Phase.next
  split
  all_goals first | rfl | exact h.elim | exact absurd rfl hworking | exact absurd rfl hretrying | exact absurd rfl hfired

theorem permits_neutral (hquiet : stage.Quiet) (hneutral : Neutral e ev) (hbeside : Beside u v)
    (hlocked : v.locked = u.locked) (hknown : Known e j r m v) (hsigns : signs u <+: signs v) :
    (protocol e j r m).allows stage ev u v ∧ (protocol e j r m).next stage ev = stage ∧
      (protocol e j r m).grows u v := by
  have hdecides : decides e ev = false := by
    unfold decides
    split <;> first | rfl | exact hneutral.elim
  have hdelivers : delivers e ev = false := by
    unfold delivers
    split <;> first | rfl | exact hneutral.elim
  have hreleases : releases e ev = false := by
    unfold releases
    split
    · exact decide_eq_false hneutral
    · rfl
  have hgrows : (protocol e j r m).grows u v := ⟨fun _ _ => hbeside.names, hsigns⟩
  have hreleased : releases e ev = true → stage = .buried :=
    fun h => absurd (hreleases.symm.trans h) Bool.false_ne_true
  cases stage with
  | queue phase =>
      obtain ⟨hworking, hretrying, hfired⟩ := hquiet
      have hnext : phase.next e ev = phase := phase_next_of_neutral hneutral hworking hretrying hfired
      have hallowed : Allowed e phase ev u v := by
        refine .of_beside hbeside ?_ (by rw [hlocked, hnext]) hdecides hdelivers ?_ ?_ ?_
        · rintro rfl
          exact hneutral
        all_goals rw [hnext]
      have hstep : Steps e u v (.queue phase) ev := by
        refine .queue hworking ?_ ?_ hallowed
        · rwa [hnext]
        · rwa [hnext]
      refine ⟨⟨hknown, hsigns, hreleased, hstep⟩, ?_, hgrows⟩
      show Stage.of (phase.next e ev) = .queue phase
      rw [hnext]
      exact Stage.of_eq hworking
  | attempt =>
      have hnext : Stage.attempt.next e ev = .attempt := by
        cases ev with
        | sql stmt => cases stmt <;> first | rfl | exact False.elim hneutral
        | _ => rfl
      exact ⟨⟨hknown, hsigns, hreleased, .keep hnext hdecides hdelivers hbeside hlocked⟩, hnext, hgrows⟩
  | buried => exact hquiet.elim

theorem tolerates (hquiet : stage.Quiet) : Tolerates (protocol e j r m) stage := by
  intro u v ev hknows hback _ hsame _
  have hsigns : signs v = signs u := by
    unfold signs
    rw [hsame.executions]
  exact permits_neutral hquiet (neutral_of_background hback) ⟨hsame.jobQueue, hsame.memoryQueue, hsame.spawned⟩
    hsame.locked (hknows.2.of_same hsame.jobs hsame.executions hsame.fault) (hsigns ▸ List.prefix_refl _)

theorem toleratesDags (hquiet : stage.Quiet) : ToleratesDags (protocol e j r m) stage := by
  intro u v stmt hknows hsame _
  have hsigns : signs v = signs u := by
    unfold signs
    rw [hsame.executions]
  have hneutral : Neutral e (.sql (.dag stmt)) := trivial
  exact permits_neutral hquiet hneutral ⟨hsame.jobQueue, hsame.memoryQueue, hsame.spawned⟩ hsame.locked
    (hknows.2.of_same hsame.jobs hsame.executions hsame.fault) (hsigns ▸ List.prefix_refl _)

theorem orderly (hquiet : stage.Quiet) : Orderly j m (protocol e j r m) stage where
  tolerates := tolerates hquiet
  grows h := h.2
  limited h := h.2.limited
  write := by
    intro u x hknows hx
    have hknown := hknows.2
    have hsigns := signs_write hknown.unique hx
    have hneutral : Neutral e (.sql (.updateExecution x)) := trivial
    have hlater : Known e j r m { u with db := writeExecution x u.db } :=
      ⟨unique_iff.mpr (hsigns ▸ unique_iff.mp hknown.unique), hsigns ▸ hknown.stored, hknown.limited, hknown.job,
        hknown.fault⟩
    exact permits_neutral hquiet hneutral ⟨rfl, rfl, rfl⟩ rfl hlater (hsigns ▸ List.prefix_refl _)
  enable := by
    intro u job hknows hjob
    have hknown := hknows.2
    have hneutral : Neutral e (.sql (.updateJob job)) := trivial
    have hmodified : ∃ row ∈ Rows.modify Job.id job.id job.over u.db.jobs, row.id = j := by
      obtain ⟨row, hrow, hid⟩ := hknown.job
      refine ⟨_, Rows.mem_modify.mpr ⟨row, hrow, rfl⟩, ?_⟩
      split
      · exact hid
      · exact hid
    exact permits_neutral hquiet hneutral ⟨rfl, rfl, rfl⟩ rfl
      ⟨hknown.unique, hknown.stored, hknown.limited.modify hjob, hmodified, hknown.fault⟩ (List.prefix_refl _)
  create := by
    intro u x hknows _ hfresh
    have hknown := hknows.2
    have hneutral : Neutral e (.sql (.createExecution x)) := trivial
    have hsigns := signs_insert (u := u) x
    have hlater : Known e j r m { u with db := { u.db with executions := u.db.executions ++ [x] } } :=
      ⟨hknown.unique.append (Rows.hits_eq_zero.mpr hfresh), hsigns ▸ List.mem_append_left _ hknown.stored,
        hknown.limited, hknown.job, hknown.fault⟩
    exact permits_neutral hquiet hneutral ⟨rfl, rfl, rfl⟩ rfl hlater ⟨[sign x], hsigns.symm⟩

theorem obeys_read {stmt : α → Stmt} {read : Db → α} (hquiet : stage.Quiet)
    (hneutral : ∀ value, Neutral e (.sql (stmt value))) :
    Task.Obeys (protocol e j r m)
      (fun value stage' u => stage' = stage ∧ (protocol e j r m).grows w u ∧ (protocol e j r m).knows stage u ∧
        value = read u.db)
      (fun _ _ _ => False) (select stmt read) stage w := by
  apply obeys_sql
  · intro u value db hgrows hknows hquery
    cases (query_ok hquery).2
    obtain ⟨hallows, hnext, _⟩ := permits_neutral hquiet (hneutral (read u.db)) ⟨rfl, rfl, rfl⟩ rfl hknows.2
      (List.prefix_refl _)
    exact ⟨hallows, hnext, hgrows, hknows, rfl⟩
  · intro u failure _ hknows hquery
    simp only [World.query, hknows.2.fault, reduceCtorEq] at hquery

theorem keeps_turn (hquiet : stage.Quiet) (hneutral : Neutral e ev) :
    Task.Keeps (protocol e j r m) (fun _ => True) stage (perform (fun _ => ev) fun w => ((), w)) := by
  intro w
  apply obeys_perform
  intro u hgrows hknows
  obtain ⟨hallows, hnext, _⟩ :=
    permits_neutral (u := u) hquiet hneutral ⟨rfl, rfl, rfl⟩ rfl hknows.2 (List.prefix_refl _)
  exact ⟨hallows, hnext, hgrows, trivial⟩

/-! ### Operations of the queue -/

theorem quiet_clear : (Stage.queue .clear).Quiet := ⟨Phase.noConfusion, Phase.noConfusion, Phase.noConfusion⟩

theorem quiet_next (hquiet : (Stage.queue phase).Quiet) (hpassing : ev.Passing) :
    (Stage.queue (phase.next e ev)).Quiet := by
  have hpushing : (Stage.queue .pushing).Quiet := ⟨Phase.noConfusion, Phase.noConfusion, Phase.noConfusion⟩
  have hinside : (Stage.queue .inside).Quiet := ⟨Phase.noConfusion, Phase.noConfusion, Phase.noConfusion⟩
  have hdrained : (Stage.queue .drained).Quiet := ⟨Phase.noConfusion, Phase.noConfusion, Phase.noConfusion⟩
  have hpopped : (Stage.queue .popped).Quiet := ⟨Phase.noConfusion, Phase.noConfusion, Phase.noConfusion⟩
  have htaken : (Stage.queue .taken).Quiet := ⟨Phase.noConfusion, Phase.noConfusion, Phase.noConfusion⟩
  unfold Phase.next
  split
  all_goals first | assumption | exact quiet_clear | exact hpassing.elim | (split <;> assumption)

/-- What an action on the queue does by the rules of the hand-offs, it may do here. -/
theorem permits_taking (hquiet : (Stage.queue phase).Quiet) (htaking : Taking u ev v) (hknown : Known e j r m u)
    (hallowed : Allowed e phase ev u v) :
    (protocol e j r m).allows (.queue phase) ev u v ∧
      (protocol e j r m).next (.queue phase) ev = .queue (phase.next e ev) ∧ (protocol e j r m).grows u v := by
  have hnext := quiet_next (e := e) hquiet htaking.passing
  have hsigns : signs u <+: signs v := by
    obtain ⟨_, _, _, _, _, rfl⟩ := htaking.same
    exact List.prefix_refl _
  have hlater : Known e j r m v := by
    obtain ⟨_, _, _, _, _, rfl⟩ := htaking.same
    exact hknown.of_same rfl rfl rfl
  refine ⟨⟨hlater, hsigns, fun hreleases => ?_, .queue hquiet.1 hnext.1 hnext.2.2 hallowed⟩, Stage.of_eq hnext.1,
    hallowed.names, hsigns⟩
  unfold releases at hreleases
  split at hreleases
  · exact htaking.passing.elim
  · cases hreleases

theorem prog_obeys {p : Prog Event World α} {post : α → Phase → World → Prop} (hacts : p.Acts Taking)
    (hquiet : (Stage.queue phase).Quiet) (h : (Handoffs.protocol e).Obeys post p phase u)
    (hgrows : (protocol e j r m).grows w u) :
    (protocol e j r m).Obeys (fun a stage v => ∃ phase, stage = .queue phase ∧ stage.Quiet ∧ post a phase v ∧
      (protocol e j r m).grows w v) p (.queue phase) u := by
  induction p generalizing phase u with
  | ret value => exact ⟨phase, rfl, hquiet, h, hgrows⟩
  | step enabled event act next ih =>
      intro s hlater hknows henabled
      obtain ⟨hallowed, hrest⟩ := h s hlater.1 hknows.1 henabled
      obtain ⟨htaking, hothers⟩ := hacts s
      obtain ⟨hpermits, hnext, hact⟩ := permits_taking hquiet htaking hknows.2 hallowed
      refine ⟨hpermits, ?_⟩
      rw [hnext]
      have hsince := Protocol.Lawful.trans (Protocol.Lawful.trans hgrows hlater) hact
      exact ih s hothers (quiet_next hquiet htaking.passing) hrest hsince

/-- An operation on the queue that obeys the rules of the hand-offs obeys these rules too. -/
theorem obeys_queue {p : Async α} {ok : α → Phase → World → Prop} {err : AppError → Phase → World → Prop}
    (hacts : p.Acts Taking) (hquiet : (Stage.queue phase).Quiet)
    (h : Task.Obeys (Handoffs.protocol e) ok err p phase w) :
    Task.Obeys (protocol e j r m)
      (fun a stage v => ∃ phase, stage = .queue phase ∧ stage.Quiet ∧ ok a phase v ∧ (protocol e j r m).grows w v)
      (fun a stage v => ∃ phase, stage = .queue phase ∧ stage.Quiet ∧ err a phase v ∧ (protocol e j r m).grows w v)
      p (.queue phase) w := by
  apply (prog_obeys hacts hquiet h (Protocol.Lawful.refl w)).mono
  rintro (_ | _) stage v hpost
  · exact hpost
  · exact hpost

theorem keeps_queue {p : Async α} (hacts : p.Acts Taking)
    (h : ∀ w, Task.Obeys (Handoffs.protocol e) (fun _ p _ => p = .clear) (fun _ p _ => p = .clear) p .clear w) :
    Task.Keeps (protocol e j r m) (fun _ => True) (.queue .clear) p := by
  intro w
  apply (obeys_queue hacts quiet_clear (h w)).mono
  · rintro a _ v ⟨_, rfl, _, rfl, hgrows⟩
    exact ⟨rfl, hgrows, trivial⟩
  · rintro a _ v ⟨_, rfl, _, rfl, hgrows⟩
    exact ⟨rfl, hgrows⟩

theorem keeps_enqueue (qm : QueueManager) (item : QueueItem) :
    Task.Keeps (protocol e j r m) (fun _ => True) (.queue .clear) (qm.enqueue item) :=
  keeps_queue ((acts_enqueue qm item).mono fun _ _ _ => .of_queueing) fun _ => Handoffs.obeys_enqueue qm item

theorem holds_of_ne (hx : x ≠ e) : holds e x = .clear := if_neg hx

theorem keeps_markEntry {mark : QueueEntry → String → QueueEntry} {status : QueueStatus} (hx : x ≠ e)
    (hmark : Marks mark status) (hstatus : status ≠ .queued) :
    Task.Keeps (protocol e j r m) (fun _ => True) (.queue .clear) (QueueManager.markEntry mark x) := by
  apply keeps_queue (acts_markEntry mark x)
  intro w
  have hhandoff := obeys_settle (e := e) (x := x) (w := w) hmark hstatus
  rwa [holds_of_ne hx] at hhandoff

theorem keeps_markFailedWithRetry (qm : QueueManager) (hx : x ≠ e) (retryCount : Int) (maxRetries : Option Int) :
    Task.Keeps (protocol e j r m) (fun _ => True) (.queue .clear)
      (qm.markFailedWithRetry x retryCount maxRetries) := by
  apply keeps_queue (acts_markFailedWithRetry qm x retryCount maxRetries)
  intro w
  have hhandoff := Handoffs.obeys_markFailedWithRetry (e := e) (x := x) (w := w) qm retryCount maxRetries
  rwa [holds_of_ne hx] at hhandoff

theorem obeys_requeue (hx : x ≠ e) (hnames : Names w id x) :
    Task.Obeys (protocol e j r m) (fun _ stage _ => stage = .queue .clear) (fun _ stage _ => stage = .queue .clear)
      (QueueRepository.requeue id) (.queue .clear) w := by
  have hhandoff := sql_of_obeys (Task.obeys_bind.mp (Handoffs.obeys_requeue (e := e) (.inl rfl) hnames))
  apply Task.obeys_bind.mpr
  apply obeys_sql
  · intro u affected db hgrows hknows hquery
    obtain ⟨hallowed, hpost⟩ := hhandoff.1 hgrows.1 hknows.1 hquery
    have hnext : Phase.next e .clear (.sql (.requeue id (Rows.lookup QueueEntry.id id u.db.jobQueue))) = .clear :=
      hpost.trans (if_neg hx)
    cases (query_ok hquery).2
    refine ⟨⟨hknows.2.of_same rfl rfl rfl, List.prefix_refl _, fun h => ?_, ?_⟩, congrArg Stage.of hnext⟩
    · cases h
    · refine .queue Phase.noConfusion (fun h => ?_) (fun h => ?_) hallowed
      · cases hnext.symm.trans h
      · cases hnext.symm.trans h
  · intro u failure hgrows hknows hquery
    simp only [World.query, hknows.2.fault, reduceCtorEq] at hquery

theorem acts_fetched (qm : QueueManager) (priority : Job → Int) {f : Option QueueItem → Async Unit}
    (hsome : ∀ item, f (some item) = withLock (fun _ => .unlock) (qm.pushIfRoom item)) (hnone : f none = pure ()) :
    (QueueManager.fetchItem x priority >>= f).Acts Taking := by
  apply (acts_fetchItem x priority).bind
  intro item
  cases item with
  | none =>
      rw [hnone]
      exact .pure ()
  | some item =>
      rw [hsome]
      apply acts_withLock
      · exact fun u => ⟨⟨_, _, true, _, u.nextUuid, rfl⟩, trivial⟩
      · exact fun u _ => ⟨⟨_, _, false, _, u.nextUuid, rfl⟩, trivial⟩
      · exact (acts_pushIfRoom qm item).mono fun _ _ _ => .of_queueing

theorem obeys_fetched (qm : QueueManager) (priority : Job → Int) (hx : x ≠ e) {f : Option QueueItem → Async Unit}
    (hsome : ∀ item, f (some item) = withLock (fun _ => .unlock) (qm.pushIfRoom item)) (hnone : f none = pure ()) :
    Task.Obeys (protocol e j r m) (fun _ stage _ => stage.Quiet) (fun _ stage _ => stage.Quiet)
      (QueueManager.fetchItem x priority >>= f) (.queue .clear) w := by
  have hhandoff := Handoffs.obeys_fetched (e := e) (x := x) (w := w) qm priority hsome hnone
  rw [fires, if_neg hx] at hhandoff
  apply (obeys_queue (acts_fetched qm priority hsome hnone) quiet_clear hhandoff).mono
  · rintro _ _ _ ⟨_, rfl, hquiet, _⟩
    exact hquiet
  · rintro _ _ _ ⟨_, rfl, hquiet, _⟩
    exact hquiet

theorem obeys_requeueTask (qm : QueueManager) (task : RequeueTask) (htask : task.executionId ≠ e)
    (hnames : Names w task.entryId task.executionId) :
    Task.Obeys (protocol e j r m) (fun _ stage _ => stage.Quiet) (fun _ stage _ => stage.Quiet)
      (qm.requeueTask task) (.queue .clear) w := by
  apply Task.obeys_bind.mpr
  apply Task.obeys_attempt.mpr
  apply (obeys_requeue htask hnames).mono
  · rintro _ _ u rfl
    exact obeys_fetched qm Job.priority htask (fun _ => rfl) rfl
  · rintro _ _ _ rfl
    exact quiet_clear

theorem obeys_retryDeadLetter (qm : QueueManager) (hx : x ≠ e) :
    Task.Obeys (protocol e j r m) (fun _ stage _ => stage.Quiet) (fun _ stage _ => stage.Quiet)
      (qm.retryDeadLetter x) (.queue .clear) w := by
  apply Task.obeys_bind.mpr
  apply (obeys_read quiet_clear fun _ => by trivial).mono
  · rintro (_ | entry) _ u ⟨rfl, _, _, hentry⟩
    · exact quiet_clear
    · have hrow := hentry.symm
      have hother : entry.executionId ≠ e := Rows.column_of_lookup hrow ▸ hx
      have hnames : Names u entry.id entry.executionId := ⟨entry, Rows.mem_of_lookup hrow, rfl, rfl⟩
      dsimp only
      split
      · exact quiet_clear
      · apply Task.obeys_bind.mpr
        apply (obeys_requeue hother hnames).mono
        · rintro _ _ s rfl
          exact obeys_fetched qm (fun _ => entry.priority) hother (fun _ => rfl) rfl
        · rintro _ _ _ rfl
          exact quiet_clear
  · exact fun _ _ _ h => h.elim

/-! ### Another execution -/

theorem keeps_process (pool : WorkerPool) (workerId : Nat) (hx : x ≠ e) (result : ExecutionResult) :
    Task.Keeps (protocol e j r m) (fun _ => True) (.queue .clear) (pool.process workerId x result) := by
  have hd : ToleratesDags (protocol e j r m) (.queue .clear) := toleratesDags quiet_clear
  have ho : Orderly j m (protocol e j r m) (.queue .clear) := orderly quiet_clear
  have hcompleted := keeps_markEntry (j := j) (r := r) (m := m) hx marks_completed QueueStatus.noConfusion
  have hfailed := keeps_markEntry (j := j) (r := r) (m := m) hx marks_failed QueueStatus.noConfusion
  have hreport := keeps_report ho.tolerates hcompleted (keeps_markFailedWithRetry pool.queueManager hx) result.outcome.1
  have hcallback : Task.Keeps (protocol e j r m) (fun _ => True) (.queue .clear) (pool.dagCallback x) :=
    keeps_callback ho.tolerates hd ho.keeps_createExecution keeps_enqueue
  have hexecuted : Neutral e (.executed x) := trivial
  have hreleased : Neutral e (.released x) := hx
  exact ho.keeps_process hfailed (keeps_turn quiet_clear hexecuted) hreport (keeps_turn quiet_clear hreleased) hcallback

/-! ### An attempt -/

theorem obeys_execution (hquiet : stage.Quiet) :
    Task.Obeys (protocol e j r m)
      (fun x stage' u => stage' = stage ∧ (protocol e j r m).grows w u ∧ sign x = ⟨e, j, r⟩) (fun _ _ _ => False)
      (ExecutionRepository.getById e) stage w := by
  apply Task.obeys_bind.mpr
  apply (obeys_read hquiet fun _ => by trivial).mono
  · rintro row _ u ⟨rfl, hgrows, hknows, rfl⟩
    obtain ⟨x, hx, hsign⟩ := hknows.2.execution
    rw [hx]
    exact ⟨rfl, hgrows, hsign⟩
  · exact fun _ _ _ h => h

theorem obeys_job (hquiet : stage.Quiet) :
    Task.Obeys (protocol e j r m)
      (fun job stage' u => stage' = stage ∧ (protocol e j r m).grows w u ∧ job.maxRetries = m) (fun _ _ _ => False)
      (JobRepository.getById j) stage w := by
  apply Task.obeys_bind.mpr
  apply (obeys_read hquiet fun _ => by trivial).mono
  · rintro row _ u ⟨rfl, hgrows, hknows, rfl⟩
    obtain ⟨job, hjob, hid⟩ := hknows.2.job
    cases hrow : Rows.lookup Job.id j u.db.jobs with
    | none => exact absurd hid (Rows.lookup_eq_none.mp hrow job hjob)
    | some found =>
        exact ⟨rfl, hgrows, hknows.2.limited found (Rows.mem_of_lookup hrow) (Rows.column_of_lookup hrow)⟩
  · exact fun _ _ _ h => h

theorem obeys_retryCountOf (hquiet : stage.Quiet) :
    Task.Obeys (protocol e j r m) (fun count stage' _ => stage' = stage ∧ count = r) (fun _ _ _ => False)
      (WorkerPool.retryCountOf e) stage w := by
  apply Task.obeys_bind.mpr
  apply Task.obeys_attempt.mpr
  apply (obeys_execution hquiet).mono
  · rintro x _ u ⟨rfl, _, hsign⟩
    obtain ⟨_, _, hcount⟩ := Sign.mk.inj hsign
    exact ⟨rfl, hcount⟩
  · exact fun _ _ _ h => h.elim

theorem obeys_maxRetriesOf (hquiet : stage.Quiet) :
    Task.Obeys (protocol e j r m) (fun max stage' _ => stage' = stage ∧ max = some m) (fun _ _ _ => False)
      (WorkerPool.maxRetriesOf e) stage w := by
  apply Task.obeys_bind.mpr
  apply Task.obeys_attempt.mpr
  apply (obeys_execution hquiet).mono
  · rintro x _ u ⟨rfl, _, hsign⟩
    obtain ⟨_, hjob, _⟩ := Sign.mk.inj hsign
    dsimp only
    rw [hjob]
    apply Task.obeys_bind.mpr
    apply Task.obeys_attempt.mpr
    apply (obeys_job hquiet).mono
    · rintro job _ s ⟨rfl, _, hmax⟩
      exact ⟨rfl, congrArg some hmax⟩
    · exact fun _ _ _ h => h.elim
  · exact fun _ _ _ h => h.elim

theorem obeys_update {x : Execution} (hquiet : stage.Quiet) (hx : sign x = ⟨e, j, r⟩) :
    Task.Obeys (protocol e j r m) (fun _ stage' _ => stage' = stage) (fun _ _ _ => False)
      (ExecutionRepository.update x) stage w := by
  obtain ⟨hid, _, _⟩ := Sign.mk.inj hx
  apply Task.obeys_bind.mpr
  apply obeys_sql
  · intro u affected db hgrows hknows hquery
    cases (query_ok hquery).2
    have hstored : sign x ∈ signs u := hx ▸ hknows.2.stored
    obtain ⟨hallows, hnext, _⟩ := (orderly hquiet).write hknows hstored
    refine ⟨hallows, ?_⟩
    obtain ⟨row, hrow, hsign⟩ := List.mem_map.mp hknows.2.stored
    have hhits : Rows.hits Execution.id x.id u.db.executions ≠ 0 :=
      Rows.hits_ne_zero.mpr ⟨row, hrow, (Sign.mk.inj hsign).1.trans hid.symm⟩
    have hread : Task.Obeys (protocol e j r m) (fun _ stage' _ => stage' = stage) (fun _ _ _ => False)
        (ExecutionRepository.getById x.id) stage { u with db := writeExecution x u.db } := by
      rw [hid]
      exact (obeys_execution hquiet).mono (fun _ _ _ h => h.1) fun _ _ _ h => h
    simp only [hnext, hhits, if_false]
    exact hread
  · intro u failure _ hknows hquery
    simp only [World.query, hknows.2.fault, reduceCtorEq] at hquery

theorem obeys_now (hquiet : stage.Quiet) :
    Task.Obeys (protocol e j r m) (fun _ stage' u => stage' = stage ∧ (protocol e j r m).grows w u)
      (fun _ _ _ => False) nowRfc3339 stage w := by
  apply obeys_perform
  intro u hgrows hknows
  have hback : Event.Background .quiet := trivial
  obtain ⟨hallows, hnext, _⟩ := tolerates hquiet hknows hback trivial .rfl .rfl
  exact ⟨hallows, hnext, hgrows⟩

theorem obeys_setExecutionRunning (hquiet : stage.Quiet) (workerId : String) :
    Task.Obeys (protocol e j r m) (fun _ stage' _ => stage' = stage) (fun _ _ _ => False)
      (WorkerPool.setExecutionRunning e workerId) stage w := by
  apply Task.obeys_bind.mpr
  apply (obeys_execution hquiet).mono
  · rintro x _ u ⟨rfl, _, hsign⟩
    apply Task.obeys_bind.mpr
    apply (obeys_now hquiet).mono
    · rintro now _ s ⟨rfl, _⟩
      let running := { x with status := .running, startedAt := some now, workerId := some workerId }
      have hrunning : sign running = ⟨e, j, r⟩ := hsign
      apply Task.obeys_bind.mpr
      exact (obeys_update hquiet hrunning).mono (fun _ _ _ h => h) fun _ _ _ h => h
    · exact fun _ _ _ h => h
  · exact fun _ _ _ h => h

/-- The row of the execution is written as a dead letter. -/
theorem obeys_bury {entry : QueueEntry} (hdead : entry.status = .deadLetter) (hnames : Names w entry.id e) :
    Task.Obeys (protocol e j r m) (fun _ stage _ => stage = .buried) (fun _ _ _ => False)
      (QueueRepository.update entry) .attempt w := by
  apply Task.obeys_bind.mpr
  apply obeys_sql
  · intro u affected db hgrows hknows hquery
    cases (query_ok hquery).2
    have hrewrites : Rewrites u { u with db := { u.db with
        jobQueue := Rows.modify QueueEntry.id entry.id (written entry) u.db.jobQueue } } entry.id (written entry) :=
      ⟨rfl, rfl, rfl, fun _ => rfl, fun _ => rfl⟩
    have hself := hrewrites.stock_of_eq (e := e) hknows.1.1 (hgrows.1 _ _ hnames) fun _ => hdead
    have hallowed : Allowed e .working (.sql (.updateEntry entry)) u _ :=
      ⟨fun _ _ => hrewrites.names, hrewrites.wellFormed, rfl, (by intro h; cases h),
        .settle (.inr rfl) QueueStatus.noConfusion hself⟩
    refine ⟨⟨hknows.2.of_same rfl rfl rfl, List.prefix_refl _, fun h => ?_, .bury hallowed ?_⟩, rfl⟩
    · cases h
    · exact congrArg Stock.status hself
  · intro u failure _ hknows hquery
    simp only [World.query, hknows.2.fault, reduceCtorEq] at hquery

theorem obeys_moveToDeadLetter : Task.Obeys (protocol e j r m) (fun _ stage _ => stage = .buried) (fun _ _ _ => False)
    (QueueManager.moveToDeadLetter e) .attempt w := by
  have hquiet : Stage.attempt.Quiet := trivial
  apply Task.obeys_bind.mpr
  apply (obeys_read hquiet fun _ => by trivial).mono
  · rintro row _ u ⟨rfl, _, hknows, rfl⟩
    cases hrow : Rows.lookup QueueEntry.executionId e u.db.jobQueue with
    | none =>
        -- The execution that the worker has taken has a row.
        have hmissing : (stock e u).status = none := by simp only [stock, hrow, Option.map_none]
        exact absurd hmissing (hknows.1.2.2.2 (by decide))
    | some entry =>
        have hnames : Names u entry.id e := ⟨entry, Rows.mem_of_lookup hrow, rfl, Rows.column_of_lookup hrow⟩
        apply Task.obeys_bind.mpr
        apply (obeys_now hquiet).mono
        · rintro now _ s ⟨rfl, hgrows⟩
          have hkept : Names s (entry.markDeadLetter now).id e := hgrows.1 _ _ hnames
          apply Task.obeys_bind.mpr
          exact (obeys_bury rfl hkept).mono (fun _ _ _ h => h) fun _ _ _ h => h
        · exact fun _ _ _ h => h
  · exact fun _ _ _ h => h

theorem obeys_updateQueueEntry (pool : WorkerPool) (hspent : m ≤ r) {status : ExecutionStatus}
    (hfailed : status ≠ .success) :
    Task.Obeys (protocol e j r m) (fun _ stage _ => stage = .buried) (fun _ _ _ => False)
      (pool.updateQueueEntry e status) .attempt w := by
  have hquiet : Stage.attempt.Quiet := trivial
  unfold WorkerPool.updateQueueEntry
  rw [if_neg hfailed]
  apply Task.obeys_bind.mpr
  apply (obeys_retryCountOf hquiet).mono
  · rintro _ _ u ⟨rfl, rfl⟩
    apply Task.obeys_bind.mpr
    apply (obeys_maxRetriesOf hquiet).mono
    · rintro _ _ s ⟨rfl, rfl⟩
      apply Task.obeys_bind.mpr
      apply Task.obeys_attempt.mpr
      unfold QueueManager.markFailedWithRetry
      rw [Option.getD_some]
      dsimp only
      rw [if_neg (by omega)]
      apply Task.obeys_bind.mpr
      exact obeys_moveToDeadLetter.mono (fun _ _ _ h => h) fun _ _ _ h => h.elim
    · exact fun _ _ _ h => h
  · exact fun _ _ _ h => h

theorem keeps_executeItem (hquiet : stage.Quiet) (result : ExecutionResult) :
    Task.Keeps (protocol e j r m) (fun _ => True) stage (WorkerPool.executeItem x result) := by
  have ht : Tolerates (protocol e j r m) stage := tolerates hquiet
  have hexecuted : Neutral e (.executed x) := trivial
  apply (keeps_log ht _ _ _).bind fun _ _ => ?_
  apply (keeps_logOutput ht _ _ _).bind fun _ _ => ?_
  apply (keeps_logOutput ht _ _ _).bind fun _ _ => ?_
  exact keeps_turn hquiet hexecuted

/-- The worker lets go of the execution, and tells the engine. -/
theorem obeys_let_go (pool : WorkerPool) (status : ExecutionStatus) :
    Task.Obeys (protocol e j r m) (fun _ stage _ => stage.Quiet) (fun _ stage _ => stage.Quiet) (do
      perform (fun _ => .released e) fun w => ((), w)
      pool.dagCallback e
      WorkerPool.log e .system ("Execution completed: " ++ status.asStr)) .buried w := by
  have ho : Orderly j m (protocol e j r m) (.queue .clear) := orderly quiet_clear
  have hd : ToleratesDags (protocol e j r m) (.queue .clear) := toleratesDags quiet_clear
  have hcallback : Task.Keeps (protocol e j r m) (fun _ => True) (.queue .clear) (pool.dagCallback e) :=
    keeps_callback ho.tolerates hd ho.keeps_createExecution keeps_enqueue
  apply Task.obeys_bind.mpr
  apply obeys_perform
  intro u _ hknows
  refine ⟨⟨hknows.2, List.prefix_refl _, fun _ => rfl, .release rfl⟩, ?_⟩
  apply (hcallback.bind fun _ _ => keeps_log ho.tolerates _ _ _) _ |>.mono
  · rintro _ _ _ ⟨rfl, _⟩
    exact quiet_clear
  · rintro _ _ _ ⟨rfl, _⟩
    exact quiet_clear

theorem obeys_process (pool : WorkerPool) (workerId : Nat) (hspent : m ≤ r) {result : ExecutionResult}
    (hfailed : result.outcome.1 ≠ .success) :
    Task.Obeys (protocol e j r m) (fun _ stage _ => stage.Quiet) (fun _ stage _ => stage.Quiet)
      (pool.process workerId e result) .attempt w := by
  have hquiet : Stage.attempt.Quiet := trivial
  have ho : Orderly j m (protocol e j r m) .attempt := orderly hquiet
  apply Task.obeys_bind.mpr
  apply Task.obeys_attempt.mpr
  apply (obeys_setExecutionRunning hquiet _).mono
  · rintro _ _ u rfl
    apply (keeps_executeItem hquiet result).bind_obeys
    · intro _ s _ _
      apply (ho.keeps_writeOutcome e result).bind_obeys
      · intro _ s _ _
        apply Task.obeys_bind.mpr
        apply (obeys_updateQueueEntry pool hspent hfailed).mono
        · rintro _ _ s rfl
          exact obeys_let_go pool _
        · exact fun _ _ _ h => h.elim
      · exact fun _ _ _ => hquiet
    · exact fun _ _ _ => hquiet
  · exact fun _ _ _ h => h.elim

/-! ### A pass of a worker -/

theorem permits_leaves (hquiet : (Stage.queue phase).Quiet) (hleaves : Leaves e phase ev)
    (hknows : (protocol e j r m).knows (.queue phase) u) :
    (protocol e j r m).allows (.queue phase) ev u { u with locked := false } ∧
      (protocol e j r m).next (.queue phase) ev = .of (phase.next e ev) := by
  have hallowed := hleaves.allowed (hknows.1.2.1 hleaves.locks)
  have hreleased : releases e ev = true → Stage.queue phase = .buried := by
    intro h
    cases hleaves <;> cases h
  refine ⟨⟨hknows.2.of_same rfl rfl rfl, List.prefix_refl _, hreleased, ?_⟩, rfl⟩
  cases hleaves with
  | unlock hlocks =>
      have hnext : (Stage.queue (phase.next e .unlock)).Quiet := quiet_next hquiet trivial
      exact .queue hquiet.1 hnext.1 hnext.2.2 hallowed
  | nothing hitem => exact .queue hquiet.1 Phase.noConfusion Phase.noConfusion hallowed
  | deliver hitem => exact .deliver hitem hallowed

theorem obeys_dequeue : Task.Obeys (protocol e j r m) (fun item stage _ => stage = .of (got e item))
    (fun _ stage _ => stage = .queue .clear) QueueManager.dequeue (.queue .clear) w := by
  have hlock : lock.Acts Taking := fun u => ⟨⟨⟨_, _, true, _, u.nextUuid, rfl⟩, trivial⟩, trivial⟩
  apply Task.obeys_bind.mpr
  apply (obeys_queue hlock quiet_clear (obeys_lock (.inl rfl))).mono
  · rintro _ _ s ⟨_, rfl, hinside, rfl, _⟩
    apply Task.obeys_bind.mpr
    apply Task.obeys_attempt.mpr
    apply (obeys_queue (acts_take (fun _ => rfl) rfl) hinside (obeys_take (fun _ => rfl) rfl)).mono
    · rintro item _ u ⟨phase, rfl, hquiet, ⟨hleaves, hnext⟩, _⟩
      apply Task.obeys_bind.mpr
      apply obeys_perform
      intro v _ hknows
      obtain ⟨hallows, hof⟩ := permits_leaves hquiet hleaves hknows
      exact ⟨hallows, hof.trans (congrArg Stage.of hnext)⟩
    · rintro failure _ u ⟨phase, rfl, hquiet, ⟨hleaves, hnext⟩, _⟩
      apply Task.obeys_bind.mpr
      apply obeys_perform
      intro v _ hknows
      obtain ⟨hallows, hof⟩ := permits_leaves hquiet hleaves hknows
      exact ⟨hallows, hof.trans (congrArg Stage.of hnext)⟩
  · rintro _ _ _ ⟨_, _, _, h, _⟩
    exact h.elim

theorem obeys_pass (pool : WorkerPool) (workerId : Nat) (hspent : m ≤ r) {result : QueueItem → ExecutionResult}
    (hfails : ∀ item, item.executionId = e → (result item).outcome.1 ≠ .success) :
    Task.Obeys (protocol e j r m) (fun _ stage _ => stage.Quiet) (fun _ stage _ => stage.Quiet)
      (pool.pass workerId result) (.queue .clear) w := by
  apply Task.obeys_bind.mpr
  apply Task.obeys_attempt.mpr
  apply obeys_dequeue.mono
  · rintro (_ | item) _ u rfl
    · exact quiet_clear
    · by_cases he : item.executionId = e
      · subst he
        rw [show got item.executionId (some item) = .working from if_pos rfl]
        exact obeys_process pool workerId hspent (hfails item rfl)
      · rw [show got e (some item) = .clear from if_neg he]
        apply (keeps_process pool workerId he (result item) u).mono
        · rintro _ _ _ ⟨rfl, _⟩
          exact quiet_clear
        · rintro _ _ _ ⟨rfl, _⟩
          exact quiet_clear
  · rintro _ _ _ rfl
    exact quiet_clear

end

/-! ### The pool -/

/-- The calls, any number of each. No attempt of the execution succeeds, and nobody takes it from the dead
letters. -/
inductive Call (e : Uuid) where
  | enqueue (item : QueueItem)
  | pass (workerId : Nat) (result : QueueItem → ExecutionResult)
      (hfails : ∀ item, item.executionId = e → (result item).outcome.1 ≠ .success)
  | retryDeadLetter (executionId : Uuid) (hother : executionId ≠ e)
  | requeue (index : Nat)

def Call.start {e : Uuid} (pool : WorkerPool) (w : World) : Call e → Option (World × Stage × Async Unit)
  | .enqueue item => some (w, .queue .clear, pool.queueManager.enqueue item)
  | .pass workerId result _ => some (w, .queue .clear, pool.pass workerId result)
  | .retryDeadLetter executionId _ => some (w, .queue .clear, pool.queueManager.retryDeadLetter executionId)
  | .requeue index => (w.spawned[index]?).map fun task =>
      ({ w with spawned := w.spawned.eraseIdx index }, .queue (wakes e task.executionId),
        pool.queueManager.requeueTask task)

/-- What else may happen: anything that leaves the queue, keeps what is known, and removes no execution. -/
structure Elsewhere (e j : Uuid) (r m : Int) where
  act : World → World
  beside : ∀ w, Beside w (act w)
  locked : ∀ w, (act w).locked = w.locked
  known : ∀ w, Known e j r m w → Known e j r m (act w)
  signs : ∀ w, signs w <+: signs (act w)

def system (pool : WorkerPool) (e j : Uuid) (r m : Int) : System Event World Stage (Call e) (Elsewhere e j r m) where
  next := Stage.next e
  spawn call w := (call.start pool w).map fun s => (s.1, ⟨s.2.1, s.2.2.detached .returned⟩)
  env change w := change.act w

/-- An execution that is attempted at most once: its row is never queued again, it is dequeued at most once, and
it is a dead letter when a worker has let go of it. -/
structure Last (e : Uuid) (c : Config Event World Stage) : Prop where
  requeued : c.trace.countP (requeues e) = 0
  dequeued : c.trace.countP (delivers e) ≤ 1
  buried : 0 < c.trace.countP (releases e) → (stock e c.world).status = some .deadLetter

/-! ### The invariant -/

open Dispatch in
structure Inv (e j : Uuid) (r m : Int) (start : Bool) (w : World) (stages : List Stage) (trace : List Event) : Prop where
  places : Dispatch.Inv e start w (stages.map Stage.phase) trace
  known : Known e j r m w
  unarmed : (stock e w).armed = 0
  quiet : ∀ phase, .queue phase ∈ stages → (Stage.queue phase).Quiet
  once : queued (stock e w) + total Phase.taking (stages.map Stage.phase) + trace.countP (delivers e) ≤ 1
  underway : total Stage.underway stages + trace.countP (releases e) ≤ trace.countP (delivers e)
  fresh : (stock e w).status = none → trace.countP (delivers e) = 0
  dead : trace.countP (delivers e) ≠ 0 → .attempt ∈ stages ∨ (stock e w).status = some .deadLetter
  never : trace.countP (requeues e) = 0

section

open Dispatch

variable {e j x id : Uuid} {r m : Int} {start : Bool} {stage : Stage} {stages : List Stage} {phase : Phase}
  {trace : List Event} {ev : Event} {u v w : World} {i : Nat} {c : Config Event World Stage}

theorem Inv.knows (h : Inv e j r m start u stages trace) (hstage : stage ∈ stages) :
    (protocol e j r m).knows stage u :=
  ⟨h.places.knows (List.mem_map_of_mem hstage), h.known⟩

/-- The execution is queued again only from a phase that no task has. -/
theorem requeues_eq (h : Allowed e phase ev u v) (hfired : phase.next e ev ≠ .fired) : requeues e ev = false := by
  unfold requeues
  split
  · rename_i id row
    by_contra hrow
    have hrow : row.executionId = e := by simpa using hrow
    cases h.moves with
    | ease hdecides => exact absurd (decide_eq_true hrow) (by simpa [decides] using hdecides)
    | requeue hphase _ _ _ =>
        rcases hphase with rfl | rfl
        · exact hfired rfl
        · exact hfired (if_pos hrow)
  · rfl

theorem countP_step (p : Event → Bool) (trace : List Event) (ev : Event) :
    (trace ++ [ev]).countP p = trace.countP p + if p ev then 1 else 0 := by
  rw [List.countP_append, List.countP_singleton]

/-- What an action between attempts does with the execution: it leaves it, or moves it before it was ever
dequeued. -/
theorem Inv.moves (h : Inv e j r m start u stages trace) (hstage : stages[i]? = some (.queue phase))
    (hphase : phase ≠ .working) (hworking : phase.next e ev ≠ .working) (hfired : phase.next e ev ≠ .fired)
    (hallowed : Allowed e phase ev u v) :
    (stock e v).armed = (stock e u).armed ∧ delivers e ev = false ∧
      ((stock e v).status = (stock e u).status ∧ (phase.next e ev).taking ≤ phase.taking ∨
        trace.countP (delivers e) = 0 ∧ (stock e v).status ≠ none) := by
  have honce := h.once
  have hitems := h.places.items
  have hmem : phase ∈ stages.map Stage.phase := List.mem_map_of_mem (List.mem_of_getElem? hstage)
  have hfloating := le_total Phase.floating hmem
  have htaking := le_total Phase.taking hmem
  cases hallowed.moves with
  | ease _ hdelivers _ ht _ hstock =>
      rw [hstock]
      exact ⟨rfl, hdelivers, .inl ⟨rfl, ht⟩⟩
  | insert hentry hfree hstock =>
      rw [hstock]
      exact ⟨rfl, rfl, .inr ⟨h.fresh hfree, Option.some_ne_none _⟩⟩
  | requeue hhow hrow =>
      rcases hhow with rfl | rfl
      · exact absurd rfl hfired
      · exact absurd (if_pos hrow) hfired
  | push hstock =>
      rw [hstock]
      exact ⟨rfl, rfl, .inl ⟨rfl, le_rfl⟩⟩
  | pop hitem hstock =>
      have hnext : Phase.next e .inside (.pop (some _)) = .popped := if_pos hitem
      rw [hstock, hnext]
      exact ⟨rfl, rfl, .inl ⟨rfl, le_rfl⟩⟩
  | mark hstock =>
      simp only [Phase.floating, Phase.taking] at hfloating htaking
      rw [hstock]
      exact ⟨rfl, rfl, .inr ⟨by omega, Option.some_ne_none _⟩⟩
  | take _ hold _ hstock =>
      have hqueued : queued (stock e u) = 1 := if_pos hold
      rw [hstock]
      exact ⟨rfl, rfl, .inr ⟨by omega, Option.some_ne_none _⟩⟩
  | deliver => exact absurd rfl hworking
  | settle hhow _ hstock =>
      obtain rfl := hhow.resolve_right hphase
      simp only [Phase.floating, Phase.taking] at hfloating htaking
      rw [hstock]
      exact ⟨rfl, rfl, .inr ⟨by omega, Option.some_ne_none _⟩⟩
  | arm => exact absurd rfl hphase

theorem next_retrying (h : phase.next e ev = .retrying) : phase = .retrying := by
  unfold Phase.next at h
  split at h
  all_goals first | exact h | (split at h <;> cases h) | cases h

theorem queued_of_status {s t : Stock} (h : s.status = t.status) : queued s = queued t := by
  unfold queued
  rw [h]

/-- The hand-offs go on as in every run. -/
theorem Inv.places_step (h : Inv e j r m start c.world c.tags c.trace) (hstage : c.tags[i]? = some stage)
    (hallowed : Allowed e stage.phase ev c.world v) (hfired : stage.phase.next e ev ≠ .fired) :
    Dispatch.Inv e start v ((c.tags.map Stage.phase).set i (stage.phase.next e ev)) (c.trace ++ [ev]) := by
  have hphase : (c.retag Stage.phase).tags[i]? = some stage.phase := by
    rw [Config.tags_retag, List.getElem?_map, hstage, Option.map_some]
  have hgood : Good e (c.retag Stage.phase) i ev := by
    constructor
    · intro row _ _ hmem
      rw [Config.tags_retag] at hmem
      obtain ⟨other, hother, hlast⟩ := List.mem_map.mp hmem
      cases other with
      | queue phase => exact (h.quiet phase hother).2.2 hlast
      | attempt => cases hlast
      | buried => cases hlast
    · rintro id row rfl hrow
      have hnone := requeues_eq hallowed hfired
      exact absurd (decide_eq_true hrow) (by simpa [requeues] using hnone)
  have hplaces : Dispatch.Inv e start (c.retag Stage.phase).world (c.retag Stage.phase).tags
      (c.retag Stage.phase).trace := by
    rw [Config.tags_retag]
    exact h.places
  have hstep := hplaces.step hphase hgood hallowed
  rwa [Config.tags_retag] at hstep

/-- An operation on the queue acts. -/
theorem Inv.queue_step (h : Inv e j r m start c.world c.tags c.trace) (hstage : c.tags[i]? = some (.queue phase))
    (hphase : phase ≠ .working) (hworking : phase.next e ev ≠ .working) (hfired : phase.next e ev ≠ .fired)
    (hallowed : Allowed e phase ev c.world v) (hreleases : releases e ev = false) (hknown : Known e j r m v) :
    Inv e j r m start v (c.tags.set i (.queue (phase.next e ev))) (c.trace ++ [ev]) := by
  obtain ⟨harmed, hdelivers, hmoves⟩ := h.moves hstage hphase hworking hfired hallowed
  have hplaces : Dispatch.Inv e start v ((c.tags.map Stage.phase).set i (phase.next e ev)) (c.trace ++ [ev]) :=
    h.places_step hstage hallowed hfired
  have hrequeues := requeues_eq hallowed hfired
  have hset : (c.tags.set i (.queue (phase.next e ev))).map Stage.phase =
      (c.tags.map Stage.phase).set i (phase.next e ev) := List.map_set
  have hphases : (c.tags.map Stage.phase)[i]? = some phase := by
    rw [List.getElem?_map, hstage, Option.map_some]
    rfl
  have htaking := total_set Phase.taking hphases (phase.next e ev)
  have hunderway := total_set Stage.underway hstage (.queue (phase.next e ev))
  have honce := h.once
  have hone := hplaces.once
  simp only [Dispatch.places] at hone
  refine ⟨hset ▸ hplaces, hknown, harmed.trans h.unarmed, ?_, ?_, ?_, ?_, ?_, ?_⟩
  · intro other hother
    obtain hself | ⟨k, _, hk⟩ := mem_set_index hother
    · obtain rfl := Stage.queue.inj hself
      exact ⟨hworking, fun h' => (h.quiet phase (List.mem_of_getElem? hstage)).2.1 (next_retrying h'), hfired⟩
    · exact h.quiet other (List.mem_of_getElem? hk)
  · rw [countP_step, hdelivers, hset]
    rcases hmoves with ⟨hstatus, hle⟩ | ⟨hnone, _⟩
    · rw [queued_of_status hstatus]
      simp only [Bool.false_eq_true, if_false]
      omega
    · simp only [Bool.false_eq_true, if_false]
      omega
  · rw [countP_step, countP_step, hdelivers, hreleases]
    have hbefore := h.underway
    simp only [Stage.underway, Bool.false_eq_true, if_false] at hunderway ⊢
    omega
  · intro hnone
    rw [countP_step, hdelivers]
    rcases hmoves with ⟨hstatus, _⟩ | ⟨_, hsome⟩
    · exact h.fresh (hstatus.symm.trans hnone)
    · exact absurd hnone hsome
  · rw [countP_step, hdelivers]
    intro hcount
    rcases hmoves with ⟨hstatus, _⟩ | ⟨hnone, _⟩
    · rw [hstatus]
      refine (h.dead hcount).imp_left fun hattempt => ?_
      have hnew : Stage.queue phase = .attempt → Stage.queue (phase.next e ev) = .attempt := Stage.noConfusion
      obtain ⟨_, hmem, rfl⟩ := exists_mem_set (p := fun s => s = .attempt) ⟨_, hattempt, rfl⟩ hstage hnew
      exact hmem
    · exact absurd hnone hcount
  · rw [countP_step, hrequeues]
    exact h.never

/-- The execution is dequeued, for the first time. -/
theorem Inv.deliver_step {item : QueueItem} (h : Inv e j r m start c.world c.tags c.trace)
    (hstage : c.tags[i]? = some (.queue .taken)) (hitem : item.executionId = e)
    (hallowed : Allowed e .taken (.dequeued (some item)) c.world v) (hknown : Known e j r m v) :
    Inv e j r m start v (c.tags.set i .attempt) (c.trace ++ [.dequeued (some item)]) := by
  have hplaces : Dispatch.Inv e start v ((c.tags.map Stage.phase).set i .working)
      (c.trace ++ [.dequeued (some item)]) := h.places_step hstage hallowed Phase.noConfusion
  have hstock : stock e v = stock e c.world := by
    cases hallowed.moves with
    | ease _ hdelivers => exact absurd (decide_eq_true hitem) (by simpa [delivers] using hdelivers)
    | deliver hstock => exact hstock
  have hset : (c.tags.set i .attempt).map Stage.phase = (c.tags.map Stage.phase).set i .working := List.map_set
  have hphases : (c.tags.map Stage.phase)[i]? = some .taken := by
    rw [List.getElem?_map, hstage, Option.map_some]
    rfl
  have htaking := total_set Phase.taking hphases .working
  have hunderway := total_set Stage.underway hstage .attempt
  have honce := h.once
  have hbefore := h.underway
  have hdelivers : delivers e (.dequeued (some item)) = true := decide_eq_true hitem
  have hattempt : .attempt ∈ c.tags.set i .attempt := List.mem_set (List.getElem?_eq_some_iff.mp hstage).1 _
  simp only [Phase.taking, Stage.underway] at htaking hunderway
  refine ⟨hset ▸ hplaces, hknown, hstock ▸ h.unarmed, ?_, ?_, ?_, ?_, fun _ => .inl hattempt, ?_⟩
  · intro other hother
    obtain hself | ⟨k, _, hk⟩ := mem_set_index hother
    · cases hself
    · exact h.quiet other (List.mem_of_getElem? hk)
  · rw [countP_step, hdelivers, hset, hstock, if_pos rfl]
    omega
  · rw [countP_step, countP_step, hdelivers, if_pos rfl]
    simp only [releases, Bool.false_eq_true, if_false]
    omega
  · rw [hstock]
    intro hnone
    have hhas := (h.places.knows (List.mem_of_getElem? hphases)).2.2.2
    exact absurd hnone (hhas (by decide))
  · rw [countP_step]
    exact h.never

/-- An attempt goes on. -/
theorem Inv.attempt_step (h : Inv e j r m start c.world c.tags c.trace)
    (hdecides : decides e ev = false) (hdelivers : delivers e ev = false) (hreleases : releases e ev = false)
    (hbeside : Beside c.world v) (hlocked : v.locked = c.world.locked) (hknown : Known e j r m v) :
    Inv e j r m start v c.tags (c.trace ++ [ev]) := by
  have hstock : stock e v = stock e c.world := hbeside.stock
  have hrequeues : requeues e ev = false := by
    unfold requeues
    split
    · exact hdecides
    · rfl
  have hplaces : Dispatch.Inv e start v (c.tags.map Stage.phase) (c.trace ++ [ev]) := by
    have hitems := h.places.items
    refine h.places.onward (hbeside.wellFormed h.places.wellFormed) (hlocked ▸ h.places.sole)
      (hstock ▸ h.places.drained) hdecides hdelivers (hstock ▸ hitems) ?_ (.inl (congrArg Stock.status hstock)) ?_
    · simp only [Dispatch.places, hstock]
      exact le_rfl
    · rw [hstock]
  refine ⟨hplaces, hknown, hstock ▸ h.unarmed, h.quiet, ?_, ?_, ?_, ?_, ?_⟩
  · rw [countP_step, hdelivers, hstock]
    exact h.once
  · rw [countP_step, countP_step, hdelivers, hreleases]
    exact h.underway
  · rw [countP_step, hdelivers, hstock]
    exact h.fresh
  · rw [countP_step, hdelivers, hstock]
    exact h.dead
  · rw [countP_step, hrequeues]
    exact h.never

/-- The failure of an attempt is written. -/
theorem Inv.bury_step {entry : QueueEntry} (h : Inv e j r m start c.world c.tags c.trace)
    (hstage : c.tags[i]? = some .attempt) (hallowed : Allowed e .working (.sql (.updateEntry entry)) c.world v)
    (hdead : (stock e v).status = some .deadLetter) (hknown : Known e j r m v) :
    Inv e j r m start v (c.tags.set i .buried) (c.trace ++ [.sql (.updateEntry entry)]) := by
  have hplaces : Dispatch.Inv e start v ((c.tags.map Stage.phase).set i .clear)
      (c.trace ++ [.sql (.updateEntry entry)]) := h.places_step hstage hallowed Phase.noConfusion
  have hset : (c.tags.set i .buried).map Stage.phase = (c.tags.map Stage.phase).set i .clear := List.map_set
  have hphases : (c.tags.map Stage.phase)[i]? = some .working := by
    rw [List.getElem?_map, hstage, Option.map_some]
    rfl
  have hzero := hplaces.nowhere (.inr hdead)
  have hunderway := total_set Stage.underway hstage .buried
  have htaking := total_set Phase.taking hphases .clear
  have honce := h.once
  have hbefore := h.underway
  simp only [Dispatch.places] at hzero
  simp only [Stage.underway, Phase.taking] at hunderway htaking
  refine ⟨hset ▸ hplaces, hknown, by omega, ?_, ?_, ?_, ?_, fun _ => .inr hdead, ?_⟩
  · intro other hother
    obtain hself | ⟨k, _, hk⟩ := mem_set_index hother
    · cases hself
    · exact h.quiet other (List.mem_of_getElem? hk)
  · rw [countP_step, hset]
    simp only [delivers, Bool.false_eq_true, if_false]
    omega
  · rw [countP_step, countP_step]
    simp only [delivers, releases, Bool.false_eq_true, if_false]
    omega
  · rw [hdead]
    exact fun hnone => by cases hnone
  · rw [countP_step]
    exact h.never

/-- The worker lets go of the execution. -/
theorem Inv.release_step (h : Inv e j r m start c.world c.tags c.trace) (hstage : c.tags[i]? = some .buried) :
    Inv e j r m start c.world (c.tags.set i (.queue .clear)) (c.trace ++ [.released e]) := by
  have hphases : (c.tags.map Stage.phase)[i]? = some .clear := by
    rw [List.getElem?_map, hstage, Option.map_some]
    rfl
  have hset : (c.tags.set i (.queue .clear)).map Stage.phase = c.tags.map Stage.phase := by
    obtain ⟨hi, hget⟩ := List.getElem?_eq_some_iff.mp hphases
    have hself := List.set_getElem_self hi
    rw [hget] at hself
    rw [List.map_set]
    exact hself
  have hplaces : Dispatch.Inv e start c.world (c.tags.map Stage.phase) (c.trace ++ [.released e]) :=
    h.places.onward h.places.wellFormed h.places.sole h.places.drained rfl rfl h.places.items le_rfl (.inl rfl) le_rfl
  have hunderway := total_set Stage.underway hstage (.queue .clear)
  have hreleases : releases e (.released e) = true := decide_eq_true rfl
  have hbefore := h.underway
  simp only [Stage.underway] at hunderway
  refine ⟨hset.symm ▸ hplaces, h.known, h.unarmed, ?_, ?_, ?_, ?_, ?_, ?_⟩
  · intro other hother
    obtain hself | ⟨k, _, hk⟩ := mem_set_index hother
    · obtain rfl := Stage.queue.inj hself
      exact quiet_clear
    · exact h.quiet other (List.mem_of_getElem? hk)
  · rw [countP_step, hset]
    exact h.once
  · rw [countP_step, countP_step, hreleases, if_pos rfl]
    simp only [delivers, Bool.false_eq_true, if_false]
    omega
  · rw [countP_step]
    exact h.fresh
  · rw [countP_step]
    intro hcount
    refine (h.dead hcount).imp_left fun hattempt => ?_
    have hnew : Stage.buried = .attempt → Stage.queue .clear = .attempt := Stage.noConfusion
    obtain ⟨_, hmem, rfl⟩ := exists_mem_set (p := fun s => s = .attempt) ⟨_, hattempt, rfl⟩ hstage hnew
    exact hmem
  · rw [countP_step]
    exact h.never

theorem Inv.step (h : Inv e j r m start c.world c.tags c.trace) (hstage : c.tags[i]? = some stage)
    (hpermits : Permits e j r m stage ev c.world v) :
    Inv e j r m start v (c.tags.set i (stage.next e ev)) (c.trace ++ [ev]) := by
  have hother (hne : stage ≠ .buried) : releases e ev = false :=
    Bool.eq_false_iff.mpr fun hreleases => hne (hpermits.released hreleases)
  cases hpermits.steps with
  | queue hphase hworking hfired hallowed =>
      rw [show Stage.next e (.queue _) ev = _ from Stage.of_eq hworking]
      exact h.queue_step hstage hphase hworking hfired hallowed (hother Stage.noConfusion) hpermits.known
  | deliver hitem hallowed => exact h.deliver_step hstage hitem hallowed hpermits.known
  | keep hnext hdecides hdelivers hbeside hlocked =>
      have hset : c.tags.set i .attempt = c.tags := by
        obtain ⟨hi, hget⟩ := List.getElem?_eq_some_iff.mp hstage
        have hself := List.set_getElem_self hi
        rwa [hget] at hself
      rw [hnext, hset]
      exact h.attempt_step hdecides hdelivers (hother Stage.noConfusion) hbeside hlocked hpermits.known
  | bury hallowed hdead => exact h.bury_step hstage hallowed hdead hpermits.known
  | release hsame =>
      subst hsame
      exact h.release_step hstage

theorem Permits.grows (hpermits : Permits e j r m stage ev u v) : (protocol e j r m).grows u v := by
  refine ⟨?_, hpermits.signs⟩
  cases hpermits.steps with
  | queue _ _ _ hallowed => exact hallowed.names
  | deliver _ hallowed => exact hallowed.names
  | keep _ _ _ hbeside => exact fun _ _ => hbeside.names
  | bury hallowed => exact hallowed.names
  | release hsame =>
      subst hsame
      exact fun _ _ hnames => hnames

theorem Inv.spawn (h : Inv e j r m start u stages trace) (hwf : WellFormed v) (hlocked : v.locked = u.locked)
    (hstock : stock e v = stock e u) (hknown : Known e j r m v) :
    Inv e j r m start v (stages ++ [.queue .clear]) trace := by
  have hphases : (stages ++ [Stage.queue .clear]).map Stage.phase = stages.map Stage.phase ++ [.clear] :=
    List.map_append
  have hplaces := h.places.spawn hwf hlocked (.inl rfl) hstock.symm
  refine ⟨hphases ▸ hplaces, hknown, hstock ▸ h.unarmed, fun phase hmem => ?_, ?_, ?_, hstock ▸ h.fresh, ?_, h.never⟩
  · rcases List.mem_append.mp hmem with hold | hlast
    · exact h.quiet phase hold
    · obtain rfl := Stage.queue.inj (List.mem_singleton.mp hlast)
      exact quiet_clear
  · rw [hphases, total_append, total_singleton, hstock]
    exact h.once
  · rw [total_append, total_singleton]
    exact h.underway
  · rw [hstock]
    exact fun hcount => (h.dead hcount).imp_left (List.mem_append_left _)

theorem Inv.sleeps_for_other (h : Inv e j r m start w stages trace) {task : RequeueTask} (htask : task ∈ w.spawned) :
    task.executionId ≠ e := by
  have hnone := List.countP_eq_zero.mp h.unarmed task htask
  simpa using hnone

theorem Inv.elsewhere (h : Inv e j r m start w stages trace) (change : Elsewhere e j r m) :
    Inv e j r m start (change.act w) stages trace := by
  have hstock : stock e (change.act w) = stock e w := (change.beside w).stock
  exact ⟨h.places.elsewhere (change.beside w) (change.locked w), change.known w h.known, hstock ▸ h.unarmed, h.quiet,
    hstock ▸ h.once, h.underway, hstock ▸ h.fresh, hstock ▸ h.dead, h.never⟩

theorem sound_inv (pool : WorkerPool) (hspent : m ≤ r) :
    Sound (system pool e j r m) (protocol e j r m) (fun _ _ _ => True) (Inv e j r m start) where
  next := rfl
  knows hinv hstage := hinv.knows hstage
  run hinv hstage _ hpermits := ⟨hinv.step hstage hpermits, hpermits.grows⟩
  spawn := by
    intro w stages trace call w' th hinv hspawn
    obtain ⟨⟨u, stage, p⟩, hstart, heq⟩ := Option.map_eq_some_iff.mp hspawn
    cases heq
    have hdone {stage : Stage} {s : World} (hquiet : stage.Quiet) (hknows : (protocol e j r m).knows stage s) :
        (protocol e j r m).allows stage .returned s s := by
      have hneutral : Neutral e .returned := trivial
      exact (permits_neutral hquiet hneutral ⟨rfl, rfl, rfl⟩ rfl hknows.2 (List.prefix_refl _)).1
    have hself := hinv.spawn hinv.places.wellFormed rfl rfl hinv.known
    have hrefl : (protocol e j r m).grows w w := Protocol.Lawful.refl w
    cases call with
    | enqueue item =>
        cases hstart
        refine ⟨hself, hrefl, ?_⟩
        apply (keeps_enqueue pool.queueManager item w).detached
        · rintro _ _ _ s ⟨rfl, _⟩ _ hknows
          exact hdone quiet_clear hknows
        · rintro _ _ _ s ⟨rfl, _⟩ _ hknows
          exact hdone quiet_clear hknows
    | pass workerId result hfails =>
        cases hstart
        refine ⟨hself, hrefl, ?_⟩
        apply (obeys_pass pool workerId hspent hfails).detached
        · exact fun _ _ _ s hquiet _ hknows => hdone hquiet hknows
        · exact fun _ _ _ s hquiet _ hknows => hdone hquiet hknows
    | retryDeadLetter executionId hother =>
        cases hstart
        refine ⟨hself, hrefl, ?_⟩
        apply (obeys_retryDeadLetter pool.queueManager hother).detached
        · exact fun _ _ _ s hquiet _ hknows => hdone hquiet hknows
        · exact fun _ _ _ s hquiet _ hknows => hdone hquiet hknows
    | requeue index =>
        obtain ⟨task, htask, heq⟩ := Option.map_eq_some_iff.mp hstart
        cases heq
        have hmem := List.mem_of_getElem? htask
        have hother := hinv.sleeps_for_other hmem
        have hwakes : wakes e task.executionId = .clear := if_neg hother
        have hstock := stock_erase (e := e) htask
        rw [hwakes] at hstock ⊢
        have hwf : WellFormed { w with spawned := w.spawned.eraseIdx index } :=
          ⟨hinv.places.wellFormed.id, hinv.places.wellFormed.executionId,
            fun task htask => hinv.places.wellFormed.tasks task (List.mem_of_mem_eraseIdx htask)⟩
        have hnames : Names { w with spawned := w.spawned.eraseIdx index } task.entryId task.executionId :=
          hinv.places.wellFormed.tasks task hmem
        have hfresh := hinv.spawn hwf rfl hstock.symm (hinv.known.of_same rfl rfl rfl)
        refine ⟨hfresh, ⟨fun _ _ h => h, List.prefix_refl _⟩, ?_⟩
        apply (obeys_requeueTask pool.queueManager task hother hnames).detached
        · exact fun _ _ _ s hquiet _ hknows => hdone hquiet hknows
        · exact fun _ _ _ s hquiet _ hknows => hdone hquiet hknows
  env change hinv := ⟨hinv.elsewhere change, fun _ _ => (change.beside _).names, change.signs _⟩

end

theorem places_of_ready {e : Uuid} {w : World} (hready : Dispatch.Ready e w) :
    Dispatch.Inv e (Dispatch.queued (stock e w) = 1) w [] [] := by
  have harmed : (stock e w).armed = 0 := by
    rw [stock, hready.spawned]
    rfl
  have hone := Dispatch.queued_le_one (stock e w)
  have hplaces : Dispatch.places e w [] = Dispatch.queued (stock e w) := by simp [Dispatch.places, harmed]
  refine ⟨hready.wellFormed, hready.locked ▸ .nil, fun hmem => absurd hmem List.not_mem_nil, hready.items, by omega,
    fun hstatus => ?_, fun hpos => ?_, trivial⟩
  · rw [hplaces, Dispatch.queued, if_neg]
    rcases hstatus with h | h <;> simp [h]
  · simp at hpos ⊢
    omega

/-- In every run in which no attempt of the execution succeeds: if its retry count has reached the maximum of its
job, it is attempted at most once. -/
theorem last_attempt (pool : WorkerPool) {e j : Uuid} {r m : Int} (hspent : m ≤ r) {w : World}
    (hready : Dispatch.Ready e w) (hknown : Known e j r m w) {c : Config Event World Stage}
    (hrun : (system pool e j r m).Reaches ⟨w, [], []⟩ c) : Last e c := by
  have hplaces := places_of_ready hready
  have harmed : (stock e w).armed = 0 := by
    rw [stock, hready.spawned]
    rfl
  have hstart : Inv e j r m (Dispatch.queued (stock e w) = 1) w [] [] :=
    ⟨hplaces, hknown, harmed, fun _ hmem => absurd hmem List.not_mem_nil, Dispatch.queued_le_one _, le_rfl,
      fun _ => rfl, fun hcount => absurd rfl hcount, rfl⟩
  obtain ⟨hinv, _⟩ := (sound_inv pool hspent).invariant hrun ⟨hstart, List.forall_mem_nil _⟩
  have honce := hinv.once
  have hunderway := hinv.underway
  refine ⟨hinv.never, by omega, fun hreleased => ?_⟩
  refine (hinv.dead (by omega)).resolve_left fun hattempt => ?_
  have hle : Stage.attempt.underway ≤ _ := le_total Stage.underway hattempt
  simp only [Stage.underway] at hle
  omega

/-! ### One attempt -/

def pool : WorkerPool := ⟨⟨1, 3⟩, none⟩

/-- An execution of a job that is not retried, not queued yet. -/
def unqueued : World := .sample 0 [7]

theorem sample_fails : (ExecutionResult.sample false).outcome.1 ≠ .success := by decide

def fails : Call 7 := .pass 0 (fun _ => .sample false) fun _ _ => sample_fails

theorem last_attempt_sample : ∃ c, (system pool 7 1 0 0).Reaches ⟨unqueued, [], []⟩ c ∧
    c.trace.countP (delivers 7) = 1 ∧ (stock 7 c.world).status = some .deadLetter := by
  have hexec : ((system pool 7 1 0 0).exec (fun _ _ _ => true) ([.spawn (.enqueue (.sample 7 1))] ++
      List.replicate 8 (.run 0) ++ [.spawn fails] ++ List.replicate 26 (.run 1)) ⟨unqueued, [], []⟩).map
        (fun c => (c.trace.countP (releases 7), c.trace.countP (delivers 7))) = some (1, 1) := by decide +kernel
  obtain ⟨c, hc, heq⟩ := Option.map_eq_some_iff.mp hexec
  obtain ⟨hreleases, hdelivers⟩ := Prod.mk.inj heq
  have hrun := System.reaches_of_exec hc
  have hready : Dispatch.Ready 7 unqueued :=
    ⟨⟨List.nodup_nil, List.nodup_nil, List.forall_mem_nil _⟩, rfl, rfl, le_rfl⟩
  have hlimited : Limited 1 0 unqueued := by
    intro job hmem _
    rw [List.mem_singleton.mp hmem]
    rfl
  have hknown : Known 7 1 0 0 unqueued :=
    ⟨List.nodup_singleton _, List.mem_singleton.mpr rfl, hlimited, ⟨_, List.mem_singleton.mpr rfl, rfl⟩, rfl⟩
  have hlast := last_attempt pool le_rfl hready hknown hrun
  refine ⟨c, hrun, hdelivers, hlast.buried ?_⟩
  rw [hreleases]
  exact Nat.one_pos

end Laps

end Serverust
