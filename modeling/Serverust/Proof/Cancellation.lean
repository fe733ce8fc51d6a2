import Serverust.Library.Pool
import Serverust.Proof.Background
import Serverust.Proof.QueueRun

/-!
# Cancelling while workers run

Workers that process executions and tasks that cancel them, in any interleaving, while the rest of the
system does anything but write the executions table. A worker overwrites the whole row at two places,
each some actions after the read it is based on: when it marks the execution running, and when it
writes the outcome. A cancellation between such a read and its write is lost, as is one that a worker
finds when it starts.

`Safe` is the invariant: a cancelled execution has no worker between a read and its write.
-/

namespace Serverust

open Calendar Resumption

namespace Cancellation

/-- Where a task is. A worker reads the row and writes it `running`, runs the execution, reads the row
again to see whether it was cancelled, and if it was not, reads it once more and writes the outcome. -/
inductive Phase where
  | start (executionId : Uuid)
  | read (executionId : Uuid)
  | wrote (executionId : Uuid)
  | ran (executionId : Uuid)
  | decided (executionId : Uuid)
  | writing (executionId : Uuid)
  | exited
  | cancelling (executionId : Uuid)
deriving DecidableEq, Repr

namespace Phase

def next : Phase → Event → Phase
  | .start e, .sql (.getExecution _ (some _)) => .read e
  | .start _, .sql (.getExecution _ none) => .exited
  | .start _, .failed _ => .exited
  | .read e, .sql (.updateExecution _) => .wrote e
  | .read _, .failed _ => .exited
  | .wrote e, .executed _ => .ran e
  | .ran e, .sql (.getExecution _ row) =>
    if row.map Execution.status = some .cancelled then .exited else .decided e
  | .ran e, .failed _ => .decided e
  | .decided e, .sql (.getExecution _ (some _)) => .writing e
  | .decided _, .sql (.getExecution _ none) => .exited
  | .decided _, .failed _ => .exited
  | .writing _, .sql (.updateExecution _) => .exited
  | .writing _, .failed _ => .exited
  | phase, _ => phase

/-- The task will write the row of this execution from an earlier read. -/
def Overwrites (executionId : Uuid) (phase : Phase) : Prop :=
  phase = .read executionId ∨ phase = .decided executionId ∨ phase = .writing executionId

/-- Nothing of the executions table is pending. -/
def Passive (phase : Phase) : Prop := phase = .exited ∨ ∃ e, phase = .wrote e

end Phase

/-- Events that neither read nor write the executions table, nor turn to the outcome. -/
def Plain : Event → Prop
  | .sql (.getExecution ..) | .sql (.updateExecution _) | .sql (.createExecution _) | .executed _ => False
  | _ => True

/-- What a task may do to the executions table. -/
inductive Acts : Phase → Event → List Execution → List Execution → Prop
  | plain {phase ev rows} (hev : Plain ev) : Acts phase ev rows rows
  | executed {e rows} : Acts (.wrote e) (.executed e) rows rows
  | read {phase id row rows}
      (hread : ∀ e, phase = .start e ∨ phase = .ran e → row = Rows.lookup Execution.id e rows) :
      Acts phase (.sql (.getExecution id row)) rows rows
  | overwrite {phase : Phase} {x rows} (hphase : phase = .read x.id ∨ phase = .writing x.id)
      (hstatus : x.status ≠ .cancelled) :
      Acts phase (.sql (.updateExecution x)) rows (Rows.modify Execution.id x.id x.over rows)
  | cancel {x rows} (hstatus : x.status = .cancelled) :
      Acts (.cancelling x.id) (.sql (.updateExecution x)) rows
        (Rows.modify Execution.id x.id x.over rows)
  | create {x rows} (hnew : x.status ≠ .cancelled) :
      Acts .exited (.sql (.createExecution x)) rows (rows ++ [x])

def protocol : Protocol Event World Phase where
  next := Phase.next
  knows _ _ := True
  grows _ _ := True
  allows phase ev u v := Acts phase ev u.db.executions v.db.executions

instance : protocol.Lawful := ⟨fun _ => trivial, fun _ _ => trivial⟩

/-! ### Queue operations and logs -/

section Passive

variable {α : Type} {phase : Phase}

theorem Phase.Passive.next (h : phase.Passive) {ev : Event} (hev : ∀ e, ev ≠ .executed e) :
    phase.next ev = phase := by
  rcases h with rfl | ⟨e, rfl⟩
  · rfl
  · cases ev with
    | executed e => exact absurd rfl (hev e)
    | _ => rfl

theorem tolerates (hev : ∀ ev, (∀ e, ev ≠ .executed e) → (∀ x, ev ≠ .sql (.updateExecution x)) →
      phase.next ev = phase) (hread : ∀ e, phase ≠ .start e ∧ phase ≠ .ran e) :
    Tolerates protocol phase := by
  intro u v ev _ hbackground _ hsame _
  refine ⟨?_, hev ev ?_ ?_, trivial⟩
  · show Acts phase ev u.db.executions v.db.executions
    rw [hsame.executions]
    unfold Event.Background at hbackground
    split at hbackground
    · exact .plain trivial
    · exact .plain trivial
    · exact .plain trivial
    · exact .read fun e he => absurd he (not_or.mpr (hread e))
    · exact .plain trivial
    · exact .plain trivial
    · exact hbackground.elim
  · rintro e rfl
    exact hbackground
  · rintro x rfl
    exact hbackground

theorem Phase.Passive.tolerates (h : phase.Passive) : Tolerates protocol phase :=
  Cancellation.tolerates (fun _ hev _ => h.next hev) fun e => by
    rcases h with rfl | ⟨_, rfl⟩ <;> exact ⟨nofun, nofun⟩

theorem Phase.Passive.toleratesDags (h : phase.Passive) : ToleratesDags protocol phase := by
  intro u v stmt _ hsame _
  refine ⟨?_, h.next fun _ => nofun, trivial⟩
  show Acts phase _ u.db.executions v.db.executions
  rw [hsame.executions]
  exact .plain trivial

theorem Phase.Passive.toleratesQueue (h : phase.Passive) : ToleratesQueue protocol phase := by
  intro u v ev _ hqueueing hbeside
  refine ⟨?_, h.next ?_, trivial⟩
  · show Acts phase ev u.db.executions v.db.executions
    rw [hbeside.executions]
    apply Acts.plain
    unfold Event.Queueing at hqueueing
    split at hqueueing
    all_goals trivial
  · rintro e rfl
    exact hqueueing

theorem Phase.Passive.keeps_perform (h : phase.Passive) {event : World → Event}
    {act : World → α × World} (hevent : ∀ u, Plain (event u))
    (hkeep : ∀ u : World, (act u).2.db = u.db) :
    Task.Keeps protocol (fun _ => True) phase (perform event act) := by
  intro w
  apply obeys_perform
  intro u _ _
  refine ⟨?_, h.next ?_, trivial, trivial⟩
  · show Acts phase _ u.db.executions (act u).2.db.executions
    rw [hkeep]
    exact .plain (hevent u)
  · intro e he
    have := hevent u
    rw [he] at this
    exact this

end Passive

/-! ### The worker and the canceller -/

section

variable {w : World}

theorem keeps_createExecution (jobId : Uuid) (input : Option String) :
    Task.Keeps protocol (fun _ => True) .exited (ExecutionService.createExecution jobId input) := by
  have hover : Phase.Passive .exited := .inl rfl
  intro w
  apply obeys_createExecution hover.tolerates (fun _ => .exited) fun _ => hover.tolerates
  · exact fun u job _ jobs => ⟨.plain trivial, rfl, trivial⟩
  · intro u x _ _ _ hstatus _ _ _
    refine ⟨.create ?_, rfl, trivial⟩
    rw [hstatus]
    exact nofun
  · exact fun _ _ _ _ _ => ⟨rfl, trivial, trivial⟩
  · exact fun _ _ _ => ⟨rfl, trivial⟩
  · exact fun _ _ _ _ => ⟨rfl, trivial⟩

theorem obeys_setExecutionRunning (e : Uuid) (workerId : String) :
    Task.Obeys protocol (fun _ phase _ => phase = .wrote e) (fun _ phase _ => phase.Passive)
      (WorkerPool.setExecutionRunning e workerId) (.start e) w := by
  have hwrote : Phase.Passive (.wrote e) := .inr ⟨e, rfl⟩
  apply Task.obeys_bind.mpr
  apply obeys_getExecution
  · intro u x _ _ hx
    refine ⟨.read ?_, ?_⟩
    · rintro _ (⟨⟨⟩⟩ | ⟨⟨⟩⟩)
      exact hx.symm
    · have hid : x.id = e := Rows.column_of_lookup hx
      apply Task.obeys_bind.mpr
      apply obeys_perform
      intro u' _ _
      refine ⟨.plain trivial, ?_⟩
      apply Task.obeys_bind.mpr
      apply obeys_updateExecution hwrote.tolerates
      · intro v _ _
        exact ⟨.overwrite (.inl (congrArg _ hid.symm)) nofun, rfl, trivial⟩
      · exact fun _ _ _ _ => ⟨.plain trivial, .inl rfl⟩
      · exact fun _ _ _ => rfl
      · exact fun _ _ _ => hwrote
  · intro u _ _ hx
    refine ⟨.read ?_, .inl rfl⟩
    rintro _ (⟨⟨⟩⟩ | ⟨⟨⟩⟩)
    exact hx.symm
  · exact fun _ _ _ _ => ⟨.plain trivial, .inl rfl⟩

theorem outcome_ne_cancelled (result : ExecutionResult) :
    result.outcome.1 ≠ .cancelled := by
  unfold ExecutionResult.outcome
  split
  · exact nofun
  · split
    · exact nofun
    · split <;> exact nofun

theorem obeys_finalizeExecution (e : Uuid) {status : ExecutionStatus} (hstatus : status ≠ .cancelled)
    (message output : Option String) :
    Task.Obeys protocol (fun _ phase _ => phase = .exited) (fun _ phase _ => phase = .exited)
      (WorkerPool.finalizeExecution e status message output) (.decided e) w := by
  have hover : Phase.Passive .exited := .inl rfl
  apply Task.obeys_bind.mpr
  apply obeys_getExecution
  · intro u x _ _ hx
    refine ⟨.read nofun, ?_⟩
    have hid : x.id = e := Rows.column_of_lookup hx
    apply Task.obeys_bind.mpr
    apply obeys_perform
    intro u' _ _
    refine ⟨.plain trivial, ?_⟩
    apply Task.obeys_bind.mpr
    apply obeys_updateExecution hover.tolerates
    · intro v _ _
      exact ⟨.overwrite (.inr (congrArg _ hid.symm)) hstatus, rfl, trivial⟩
    · exact fun _ _ _ _ => ⟨.plain trivial, rfl⟩
    · exact fun _ _ _ => rfl
    · exact fun _ _ _ => rfl
  · exact fun _ _ _ _ => ⟨.read nofun, rfl⟩
  · exact fun _ _ _ _ => ⟨.plain trivial, rfl⟩

/-- After the run a worker writes the outcome unless it finds the row cancelled. -/
theorem obeys_writeOutcome (e : Uuid) (result : ExecutionResult) :
    Task.Obeys protocol (fun _ phase _ => phase = .exited) (fun _ _ _ => False)
      (WorkerPool.writeOutcome e result) (.ran e) w := by
  have hfinish (w : World) :
      Task.Obeys protocol (fun _ phase _ => phase = .exited) (fun _ _ _ => False)
        (WorkerPool.writeOutcome.finish e result) (.decided e) w := by
    apply Task.obeys_bind.mpr
    apply Task.obeys_attempt.mpr
    apply (obeys_finalizeExecution e (outcome_ne_cancelled result) _ _).mono
    · exact fun _ _ _ h => h
    · exact fun _ _ _ h => h
  have hread {u : World} {row : Option Execution} (h : Rows.lookup Execution.id e u.db.executions = row) :
      Acts (.ran e) (.sql (.getExecution e row)) u.db.executions u.db.executions := by
    apply Acts.read
    rintro _ (⟨⟨⟩⟩ | ⟨⟨⟩⟩)
    exact h.symm
  apply Task.obeys_bind.mpr
  apply Task.obeys_attempt.mpr
  apply obeys_getExecution
  · intro u x _ _ hx
    refine ⟨hread hx, ?_⟩
    dsimp only [protocol, Phase.next]
    by_cases hcancelled : x.status = .cancelled
    · simp only [Option.map_some, hcancelled, if_true]
      rfl
    · simp only [Option.map_some, Option.some.injEq, hcancelled, if_false]
      exact hfinish u
  · intro u _ _ hx
    exact ⟨hread hx, hfinish u⟩
  · exact fun u _ _ _ => ⟨.plain trivial, hfinish u⟩

theorem obeys_executeItem (e : Uuid) (result : ExecutionResult) :
    Task.Obeys protocol (fun _ phase _ => phase = .ran e) (fun _ _ _ => True)
      (WorkerPool.executeItem e result) (.wrote e) w := by
  have hwrote : Phase.Passive (.wrote e) := .inr ⟨e, rfl⟩
  apply (keeps_log hwrote.tolerates _ _ _).bind_obeys
  · intro _ _ _ _
    apply (keeps_logOutput hwrote.tolerates _ _ _).bind_obeys
    · intro _ _ _ _
      apply (keeps_logOutput hwrote.tolerates _ _ _).bind_obeys
      · intro _ _ _ _
        apply obeys_perform
        exact fun _ _ _ => ⟨.executed, rfl⟩
      · exact fun _ _ _ => trivial
    · exact fun _ _ _ => trivial
  · exact fun _ _ _ => trivial

theorem obeys_process (pool : WorkerPool) (workerId : Nat) (e : Uuid) (result : ExecutionResult) :
    Task.Obeys protocol (fun _ _ _ => True) (fun _ _ _ => True)
      (pool.process workerId e result) (.start e) w := by
  have hover : Phase.Passive .exited := .inl rfl
  have hrest : Task.Keeps protocol (fun _ => True) .exited (do
      pool.updateQueueEntry e result.outcome.1
      perform (fun _ => .released e) fun w => ((), w)
      pool.dagCallback e
      WorkerPool.log e .system ("Execution completed: " ++ result.outcome.1.asStr)) := by
    apply (keeps_updateQueueEntry hover.tolerates hover.toleratesQueue pool e _).bind fun _ _ => ?_
    apply (hover.keeps_perform (fun _ => by trivial) fun _ => rfl).bind fun _ _ => ?_
    have hcallback := keeps_dagCallback hover.tolerates hover.toleratesQueue hover.toleratesDags
      keeps_createExecution pool e
    apply hcallback.bind fun _ _ => ?_
    exact keeps_log hover.tolerates _ _ _
  apply Task.obeys_bind.mpr
  apply Task.obeys_attempt.mpr
  apply (obeys_setExecutionRunning e _).mono
  · rintro _ _ u rfl
    apply Task.obeys_bind.mpr
    apply (obeys_executeItem e result).mono
    · rintro _ _ u rfl
      apply Task.obeys_bind.mpr
      apply (obeys_writeOutcome e result).mono
      · rintro _ _ u rfl
        exact hrest.obeys.mono (fun _ _ _ _ => trivial) fun _ _ _ _ => trivial
      · exact fun _ _ _ h => h.elim
    · exact fun _ _ _ _ => trivial
  · intro _ phase u hphase
    refine ((hphase.toleratesQueue.keeps_markEntry _ e).attempt.bind (ψ := fun _ => True) fun _ _ => ?_).obeys.mono
      (fun _ _ _ _ => trivial) fun _ _ _ _ => trivial
    exact .pure trivial

theorem obeys_cancelExecution (e : Uuid) :
    Task.Obeys protocol (fun _ _ _ => True) (fun _ _ _ => True)
      (ExecutionService.cancelExecution e) (.cancelling e) w := by
  have hcancel : Tolerates protocol (.cancelling e) := by
    apply tolerates
    · exact fun _ _ _ => rfl
    · exact fun _ => ⟨nofun, nofun⟩
  apply (keeps_getExecution hcancel (φ := fun x => x.id = e) fun _ _ _ => Rows.column_of_lookup).bind_obeys
  · intro x _ _ hid
    have hwrite : Task.Obeys protocol (fun _ _ _ => True) (fun _ _ _ => True)
        (nowRfc3339 >>= fun now => ExecutionRepository.update (x.markCancelled now)) (.cancelling e) w := by
      apply (keeps_nowRfc3339 hcancel).bind_obeys
      · intro now u _ _
        apply obeys_updateExecution hcancel
        · intro v _ _
          refine ⟨?_, rfl, trivial⟩
          show Acts (.cancelling e) _ _ _
          rw [← hid]
          exact Acts.cancel (x := x.markCancelled now) rfl
        · exact fun _ _ _ _ => ⟨.plain trivial, trivial⟩
        · exact fun _ _ _ => trivial
        · exact fun _ _ _ => trivial
      · exact fun _ _ _ => trivial
    split
    · exact hwrite
    · exact hwrite
    · exact hwrite
    · trivial
  · exact fun _ _ _ => trivial

end

/-! ### The pool -/

/-- The status of an execution's row. -/
def statusOf (executionId : Uuid) (rows : List Execution) : Option ExecutionStatus :=
  (Rows.lookup Execution.id executionId rows).map Execution.status

def Cancelled (executionId : Uuid) (w : World) : Prop :=
  statusOf executionId w.db.executions = some .cancelled

inductive Call where
  | process (workerId : Nat) (executionId : Uuid) (result : ExecutionResult)
  | cancel (executionId : Uuid)

/-- Anything else may happen to the rest of the state. -/
def elsewhere (change w : World) : World :=
  { change with db := { change.db with executions := w.db.executions } }

def Call.thread (pool : WorkerPool) : Call → Thread Event World Phase
  | .process workerId e result => ⟨.start e, (pool.process workerId e result).detached .returned⟩
  | .cancel e => ⟨.cancelling e, (ExecutionService.cancelExecution e).detached .returned⟩

def system (pool : WorkerPool) : System Event World Phase Call World where
  next := Phase.next
  spawn call w := some (w, call.thread pool)
  env := elsewhere

/-- Which actions lose no cancellation of this execution: no cancellation is written while a worker is
between a read and its write; no worker starts on the execution once it is cancelled; and no worker's
check of a cancelled execution fails. -/
structure Good (executionId : Uuid) (c : Config Event World Phase) (i : Nat) (ev : Event) : Prop where
  cancel : ∀ x, ev = .sql (.updateExecution x) → c.tags[i]? = some (.cancelling executionId) →
    ∀ phase ∈ c.tags, ¬ phase.Overwrites executionId
  start : ∀ id x, ev = .sql (.getExecution id (some x)) → c.tags[i]? = some (.start executionId) →
    x.status ≠ .cancelled
  check : ∀ error, ev = .failed error → c.tags[i]? = some (.ran executionId) →
    ¬ Cancelled executionId c.world

/-- No worker will overwrite a cancelled execution. -/
def Safe (executionId : Uuid) (w : World) (phases : List Phase) : Prop :=
  Cancelled executionId w → ∀ phase ∈ phases, ¬ phase.Overwrites executionId

section

variable {e : Uuid} {phase : Phase} {ev : Event} {rows rows' : List Execution}

theorem statusOf_over (x : Execution) (rows : List Execution) :
    statusOf e (Rows.modify Execution.id x.id x.over rows) =
      if e = x.id then (statusOf e rows).map fun _ => x.status else statusOf e rows := by
  unfold statusOf
  rw [Rows.lookup_modify (f := x.over) fun _ => rfl]
  split
  · rw [Option.map_map, Option.map_map]
    rfl
  · rfl

/-- An execution becomes cancelled only when a cancellation writes it. -/
theorem Acts.cancelled_before (h : Acts phase ev rows rows')
    (hcancelled : statusOf e rows' = some .cancelled) :
    statusOf e rows = some .cancelled ∨
      phase = .cancelling e ∧ ∃ x, ev = .sql (.updateExecution x) := by
  cases h with
  | plain | executed | read => exact .inl hcancelled
  | @overwrite _ x _ hphase hstatus =>
      rw [statusOf_over] at hcancelled
      split at hcancelled
      · obtain ⟨_, _, heq⟩ := Option.map_eq_some_iff.mp hcancelled
        exact absurd heq hstatus
      · exact .inl hcancelled
  | @cancel x _ hstatus =>
      rw [statusOf_over] at hcancelled
      split at hcancelled
      · rename_i heq
        exact .inr ⟨heq ▸ rfl, x, rfl⟩
      · exact .inl hcancelled
  | @create x _ hnew =>
      left
      unfold statusOf Rows.lookup at hcancelled ⊢
      rw [List.find?_append] at hcancelled
      cases hrow : rows.find? fun row => row.id = e with
      | some row => rwa [hrow] at hcancelled
      | none =>
          rw [hrow, Option.none_or] at hcancelled
          obtain ⟨row, hfind, hstatus⟩ := Option.map_eq_some_iff.mp hcancelled
          obtain rfl := List.mem_singleton.mp (List.mem_of_find?_eq_some hfind)
          exact absurd hstatus hnew

theorem Acts.cancelled_after (h : Acts phase ev rows rows') (hphase : ¬ phase.Overwrites e)
    (hcancelled : statusOf e rows = some .cancelled) : statusOf e rows' = some .cancelled := by
  cases h with
  | plain | executed | read => exact hcancelled
  | @overwrite _ x _ hx hstatus =>
      rw [statusOf_over, if_neg, hcancelled]
      rintro rfl
      exact hphase (hx.imp_right .inr)
  | @cancel x _ hstatus =>
      rw [statusOf_over]
      split
      · rw [hcancelled, Option.map_some, hstatus]
      · exact hcancelled
  | create =>
      obtain ⟨row, hrow, hstatus⟩ := Option.map_eq_some_iff.mp hcancelled
      rw [statusOf, Rows.lookup_append_of_some hrow, Option.map_some, hstatus]

theorem Phase.next_eq_read (h : phase.next ev = .read e) :
    phase = .read e ∨ phase = .start e ∧ ∃ id x, ev = .sql (.getExecution id (some x)) := by
  unfold Phase.next at h
  split at h <;> grind

theorem Phase.next_eq_decided (h : phase.next ev = .decided e) :
    phase = .decided e ∨ phase = .ran e ∧ ((∃ error, ev = .failed error) ∨
      ∃ id row, ev = .sql (.getExecution id row) ∧ row.map Execution.status ≠ some .cancelled) := by
  unfold Phase.next at h
  split at h <;> grind

theorem Phase.next_eq_writing (h : phase.next ev = .writing e) :
    phase = .writing e ∨ phase = .decided e := by
  unfold Phase.next at h
  split at h <;> grind

theorem Acts.row_read (h : Acts phase ev rows rows') {id : Uuid} {row : Option Execution}
    (hev : ev = .sql (.getExecution id row)) (hphase : phase = .start e ∨ phase = .ran e) :
    row.map Execution.status = statusOf e rows := by
  subst hev
  cases h with
  | plain hev => exact hev.elim
  | read hread => rw [hread e hphase, statusOf]

end

/-! ### The invariant -/

section

variable {pool : WorkerPool} {e : Uuid} {c : Config Event World Phase} {i : Nat} {phase : Phase}
  {ev : Event} {w : World}

/-- A good action keeps every worker away from a cancelled row. -/
theorem Safe.step (hsafe : Safe e c.world c.tags) (hphase : c.tags[i]? = some phase)
    (hgood : Good e c i ev) (hacts : Acts phase ev c.world.db.executions w.db.executions) :
    Safe e w (c.tags.set i (phase.next ev)) := by
  intro hcancelled
  rcases hacts.cancelled_before hcancelled with hbefore | ⟨rfl, x, rfl⟩
  · have hfree := hsafe hbefore
    intro other hother hover
    rcases List.mem_or_eq_of_mem_set hother with hold | rfl
    · exact hfree other hold hover
    · have hthis := hfree phase (List.mem_of_getElem? hphase)
      rcases hover with hread | hdecided | hwriting
      · rcases Phase.next_eq_read hread with rfl | ⟨rfl, id, x, rfl⟩
        · exact hthis (.inl rfl)
        · have hrow := hacts.row_read rfl (.inl rfl)
          rw [hbefore] at hrow
          exact hgood.start id x rfl hphase (Option.some.inj hrow)
      · rcases Phase.next_eq_decided hdecided with rfl | ⟨rfl, ⟨error, rfl⟩ | ⟨id, row, rfl, hrow⟩⟩
        · exact hthis (.inr (.inl rfl))
        · exact hgood.check error rfl hphase hbefore
        · exact hrow ((hacts.row_read rfl (.inr rfl)).trans hbefore)
      · rcases Phase.next_eq_writing hwriting with rfl | rfl
        · exact hthis (.inr (.inr rfl))
        · exact hthis (.inr (.inl rfl))
  · intro other hother
    rcases List.mem_or_eq_of_mem_set hother with hold | rfl
    · exact hgood.cancel x rfl hphase other hold
    · rintro (⟨⟨⟩⟩ | ⟨⟨⟩⟩ | ⟨⟨⟩⟩)

theorem obeys_thread (call : Call) (w : World) :
    protocol.Obeys (fun _ _ _ => True) (call.thread pool).prog (call.thread pool).tag w := by
  cases call with
  | process workerId e result =>
      exact (obeys_process pool workerId e result).detached (fun _ _ _ _ _ _ _ => .plain trivial)
        fun _ _ _ _ _ _ _ => .plain trivial
  | cancel e =>
      exact (obeys_cancelExecution e).detached (fun _ _ _ _ _ _ _ => .plain trivial)
        fun _ _ _ _ _ _ _ => .plain trivial

theorem Safe.spawn {phases : List Phase} (hsafe : Safe e w phases) (call : Call) :
    Safe e w (phases ++ [(call.thread pool).tag]) := by
  intro hcancelled other hother
  rcases List.mem_append.mp hother with hold | hlast
  · exact hsafe hcancelled other hold
  · rw [List.mem_singleton.mp hlast]
    cases call <;> rintro (⟨⟨⟩⟩ | ⟨⟨⟩⟩ | ⟨⟨⟩⟩)

theorem sound_safe : Sound (system pool) protocol (Good e) fun w phases _ => Safe e w phases where
  next := rfl
  knows _ _ := trivial
  run hsafe hphase hgood hacts := ⟨hsafe.step hphase hgood hacts, trivial⟩
  spawn hsafe hspawn := by
    cases hspawn
    exact ⟨hsafe.spawn _, trivial, obeys_thread _ _⟩
  env _ hsafe := ⟨hsafe, trivial⟩

theorem sound_cancelled :
    Sound (system pool) protocol (Good e) fun w phases _ => Safe e w phases ∧ Cancelled e w where
  next := rfl
  knows _ _ := trivial
  run h hphase hgood hacts :=
    ⟨⟨h.1.step hphase hgood hacts,
      hacts.cancelled_after (h.1 h.2 _ (List.mem_of_getElem? hphase)) h.2⟩, trivial⟩
  spawn h hspawn := by
    cases hspawn
    exact ⟨⟨h.1.spawn _, h.2⟩, trivial, obeys_thread _ _⟩
  env _ h := ⟨h, trivial⟩

end

/-- Along every run whose actions are good for an execution, once its row is cancelled it stays so. -/
theorem cancelled_final (pool : WorkerPool) (e : Uuid) (w : World) {c c' : Config Event World Phase}
    (hrun : (system pool).Run (Good e) ⟨w, [], []⟩ c) (hlater : (system pool).Run (Good e) c c')
    (hcancelled : Cancelled e c.world) : Cancelled e c'.world := by
  have hinit : Sound.Holds protocol (fun w phases _ => Safe e w phases)
      (⟨w, [], []⟩ : Config Event World Phase) := ⟨fun _ => nofun, nofun⟩
  obtain ⟨hsafe, hobeys⟩ := sound_safe.invariant hrun hinit
  exact (sound_cancelled.invariant hlater ⟨⟨hsafe, hcancelled⟩, hobeys⟩).1.2

/-! ### A lost cancellation -/

/-- `Good` as a test. -/
def check (e : Uuid) (c : Config Event World Phase) (i : Nat) (ev : Event) : Bool :=
  match ev with
  | .sql (.updateExecution _) => c.tags[i]? != some (.cancelling e) ||
      c.tags.all fun phase => phase ≠ .read e ∧ phase ≠ .decided e ∧ phase ≠ .writing e
  | .sql (.getExecution _ (some x)) => c.tags[i]? != some (.start e) || x.status ≠ .cancelled
  | .failed _ => c.tags[i]? != some (.ran e)
  | _ => true

theorem good_of_check {e : Uuid} {c : Config Event World Phase} {i : Nat} {ev : Event}
    (h : check e c i ev = true) : Good e c i ev where
  cancel := by
    rintro x rfl hi phase hphase
    simp only [check, hi, bne_self_eq_false, Bool.false_or, List.all_eq_true, decide_eq_true_eq] at h
    simpa only [Phase.Overwrites, not_or] using h phase hphase
  start := by
    rintro id x rfl hi
    simpa only [check, hi, bne_self_eq_false, Bool.false_or, decide_eq_true_eq] using h
  check := by
    rintro error rfl hi
    simp only [check, hi, bne_self_eq_false, Bool.false_eq_true] at h

/-- Execution 1 is pending, and no task runs yet. -/
def start : Config Event World Phase := ⟨World.sample 0 [1], [], []⟩

/-- A worker runs execution 1, which is then cancelled. -/
def duringRun : List (Choice Call World) :=
  [.spawn (.process 0 1 (.sample true))] ++ List.replicate 8 (.run 0) ++ [.spawn (.cancel 1)] ++
    List.replicate 3 (.run 1)

/-- A worker reads execution 1, which is then cancelled. -/
def duringRead : List (Choice Call World) :=
  [.spawn (.process 0 1 (.sample true)), .run 0, .spawn (.cancel 1)] ++ List.replicate 3 (.run 1)

/-- A cancellation during the run is found by the worker's check. -/
theorem cancelled_final_duringRun : ∃ c c',
    (system ⟨⟨1, 3⟩, none⟩).Run (Good 1) start c ∧ (system ⟨⟨1, 3⟩, none⟩).Run (Good 1) c c' ∧
      c'.trace.length = 12 ∧ Cancelled 1 c.world ∧ Cancelled 1 c'.world := by
  have hexec : (((system ⟨⟨1, 3⟩, none⟩).exec (check 1) duringRun start).bind fun c =>
      ((system ⟨⟨1, 3⟩, none⟩).exec (check 1) [.run 0] c).map fun c' =>
        (c'.trace.length, statusOf 1 c.world.db.executions)) = some (12, some .cancelled) := rfl
  obtain ⟨c, hc, hmore⟩ := Option.bind_eq_some_iff.mp hexec
  obtain ⟨c', hc', heq⟩ := Option.map_eq_some_iff.mp hmore
  obtain ⟨hlength, hcancelled⟩ := Prod.mk.inj heq
  have hrun := System.run_of_exec (fun _ _ _ => good_of_check) hc
  have hlater := System.run_of_exec (fun _ _ _ => good_of_check) hc'
  exact ⟨c, c', hrun, hlater, hlength, hcancelled, cancelled_final _ 1 _ hrun hlater hcancelled⟩

/-- A cancellation between a worker's read and its write is overwritten. -/
theorem cancelled_overwritten : ¬ ∀ c c',
    (system ⟨⟨1, 3⟩, none⟩).Reaches start c → (system ⟨⟨1, 3⟩, none⟩).Reaches c c' →
      Cancelled 1 c.world → Cancelled 1 c'.world := by
  intro hfinal
  have hexec : (((system ⟨⟨1, 3⟩, none⟩).exec (fun _ _ _ => true) duringRead start).bind fun c =>
      ((system ⟨⟨1, 3⟩, none⟩).exec (fun _ _ _ => true) [.run 0, .run 0] c).map fun c' =>
        (statusOf 1 c.world.db.executions, statusOf 1 c'.world.db.executions)) =
          some (some .cancelled, some .running) := rfl
  obtain ⟨c, hc, hmore⟩ := Option.bind_eq_some_iff.mp hexec
  obtain ⟨c', hc', heq⟩ := Option.map_eq_some_iff.mp hmore
  obtain ⟨hcancelled, hrunning⟩ := Prod.mk.inj heq
  have hstill := hfinal c c' (System.reaches_of_exec hc) (System.reaches_of_exec hc') hcancelled
  exact absurd (hstill.symm.trans hrunning) nofun

end Cancellation

end Serverust
