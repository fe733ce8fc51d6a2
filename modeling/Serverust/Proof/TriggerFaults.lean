import Serverust.Library.Disturbed
import Serverust.Proof.Completion
import Serverust.Proof.Trigger

/-!
# Statements that fail while a DAG is triggered

`trigger_dag` inserts the row of the run as `running` and then creates and starts its nodes. Nothing undoes
the row when a later statement fails, so the call fails without a run that is left `running` exactly if it
fails at the `INSERT` of the run or before.
-/

namespace Serverust

open Resumption Calendar Completion

/-- A database where the statement that is the action with a number may fail, and a clock that goes on. -/
def disturbed (faults : Nat → Option String) (clock : Nat → DateTime) (n : Nat) (w : World) : World :=
  { w with fault := faults n, now := clock n }

/-- A run is `running` after the call that was not there before it. -/
def LeavesRunning (w w' : World) : Prop :=
  ∃ run ∈ w'.db.dagRuns, run.status = .running ∧ ∀ old ∈ w.db.dagRuns, old.id ≠ run.id

/-- The request to trigger this DAG is valid, and no statement fails up to the `INSERT` of its run: the two
reads that come first are actions 0 and 1, and the `INSERT` is action 5. -/
structure Inserts (engine : DagEngine) (dagId : Uuid) (faults : Nat → Option String) (w : World) : Prop where
  enabled : ∃ dag, Rows.lookup Dag.id dagId w.db.dags = some dag ∧ dag.enabled = true
  nonempty : edgesOf dagId w.db ≠ []
  acyclic : ∃ order, DagService.validateNoCycles engine.degreeOrder (edgesOf dagId w.db) = .ok order
  fresh : Rows.hits DagRun.id w.nextUuid w.db.dagRuns = 0
  readsDag : faults 0 = none
  readsEdges : faults 1 = none
  inserts : faults 5 = none

namespace TriggerFaults

variable {α : Type} {faults : Nat → Option String} {clock : Nat → DateTime} {w w' : World}

/-! ### Statements -/

theorem runIn_sql_fault {stmt : Db → α → Stmt} {statement : DateTime → Db → Except SqlError (α × Db)}
    {mapErr : SqlError → AppError} {n : Nat} {text : String} (hfault : faults n = some text) :
    (sql stmt statement mapErr).runIn (disturbed faults clock) n w =
      some (.error (mapErr (.fault text)), disturbed faults clock n w, n + 1) := by
  simp only [sql, Task.runIn_action, disturbed, World.query, hfault]

theorem runIn_sql {stmt : Db → α → Stmt} {statement : DateTime → Db → Except SqlError (α × Db)}
    {mapErr : SqlError → AppError} {n : Nat} (hfault : faults n = none) {value : α} {db : Db}
    (hok : statement (clock n) w.db = .ok (value, db)) :
    (sql stmt statement mapErr).runIn (disturbed faults clock) n w =
      some (.ok value, { disturbed faults clock n w with db }, n + 1) := by
  simp only [sql, Task.runIn_action, disturbed, World.query, hfault, hok]

theorem runIn_sql_error {stmt : Db → α → Stmt} {statement : DateTime → Db → Except SqlError (α × Db)}
    {mapErr : SqlError → AppError} {n : Nat} (hfault : faults n = none) {e : SqlError}
    (herr : statement (clock n) w.db = .error e) :
    (sql stmt statement mapErr).runIn (disturbed faults clock) n w =
      some (.error (mapErr e), disturbed faults clock n w, n + 1) := by
  simp only [sql, Task.runIn_action, disturbed, World.query, hfault, herr]

theorem runIn_select {stmt : α → Stmt} {read : Db → α} {n : Nat} (hfault : faults n = none) :
    (select stmt read).runIn (disturbed faults clock) n w =
      some (.ok (read w.db), disturbed faults clock n w, n + 1) :=
  runIn_sql hfault rfl

theorem runIn_select_fault {stmt : α → Stmt} {read : Db → α} {n : Nat} {text : String}
    (hfault : faults n = some text) :
    (select stmt read).runIn (disturbed faults clock) n w =
      some (.error (databaseError (.fault text)), disturbed faults clock n w, n + 1) :=
  runIn_sql_fault hfault

/-! ### After the insert -/

theorem leavesRuns_createNode (runId jobId : Uuid) : (DagEngine.createNode runId jobId).Acts LeavesRuns := by
  apply (leavesRuns_of_reading acts_newV4).bind
  intro id
  apply (leavesRuns_of_reading acts_nowRfc3339).bind
  intro now
  apply Task.Acts.bind ?_ fun _ => .pure ()
  apply Task.Acts.bind (acts_sql ?_ fun _ _ => rfl)
  · exact fun _ => (acts_select (fun _ => rfl) fun _ _ => rfl).bind fun _ => acts_okOr _ _
  · intro u value db hinsert
    unfold DagRepository.insertNode at hinsert
    repeat' split at hinsert
    all_goals cases hinsert
    rfl

/-- What `trigger_dag` does once the row of the run is there. -/
def populate (engine : DagEngine) (dag : Dag) (edges : List DagEdge) (jobIds : List Uuid) (run : DagRun) :
    Async DagRun := do
  jobIds.forM (DagEngine.createNode run.id)
  let nodes ← DagRepository.getNodeExecutionsByRunId run.id
  (nodes.filter fun node => node.jobId ∈ DagEngine.findRootNodes edges jobIds).forM Trigger.setReady
  engine.advanceDagRun run.id edges dag
  DagRepository.getRunById run.id

theorem leavesRuns_populate (engine : DagEngine) (dag : Dag) (edges : List DagEdge) (jobIds : List Uuid)
    (run : DagRun) : (populate engine dag edges jobIds run).Acts LeavesRuns := by
  refine Task.Acts.bind (Task.Acts.forM fun jobId _ => leavesRuns_createNode run.id jobId) fun _ => ?_
  refine Task.Acts.bind (acts_select (fun _ => rfl) fun _ _ => rfl) fun nodes => ?_
  refine Task.Acts.bind (Task.Acts.forM fun node _ => ?_) fun _ => ?_
  · exact (leavesRuns_updateNodeExecution _).bind fun _ => .pure ()
  refine Task.Acts.bind (leavesRuns_advanceDagRun engine run.id edges dag) fun _ => ?_
  exact Task.Acts.bind (acts_select (fun _ => rfl) fun _ _ => rfl) fun _ => acts_okOr _ _

/-! ### The call -/

variable {engine : DagEngine} {dagId : Uuid} {triggerType : String} {e : AppError} {m : Nat}

/-- The row of the run that the call inserts. -/
def newRun (engine : DagEngine) (dagId : Uuid) (triggerType : String) (edges : List DagEdge) (runId : Uuid)
    (createdAt startedAt : String) : DagRun :=
  { DagRun.new runId dagId triggerType (engine.jobOrder.order (DagService.allNodes edges)).length createdAt with
    status := .running, startedAt := some startedAt }

/-- What `trigger_dag` does once the request is found to be valid. -/
def startRun (engine : DagEngine) (dagId : Uuid) (triggerType : String) (dag : Dag) (edges : List DagEdge) :
    Async DagRun := do
  let runId ← newV4
  let createdAt ← nowRfc3339
  let startedAt ← nowRfc3339
  let run ← DagRepository.createRun (newRun engine dagId triggerType edges runId createdAt startedAt)
  populate engine dag edges (engine.jobOrder.order (DagService.allNodes edges)) run

/-- The `INSERT` that is executed stays, whatever fails later. -/
theorem runIn_createRun {dag : Dag} {edges : List DagEdge} {jobIds : List Uuid} {run : DagRun} {n : Nat}
    {u : World} {r : Except AppError DagRun} (hfault : faults n = none) {db : Db}
    (hinsert : DagRepository.insertRun run u.db = .ok ((), db))
    (hrun : (DagRepository.createRun run >>= populate engine dag edges jobIds).runIn (disturbed faults clock) n u =
      some (r, w', m)) : w'.db.dagRuns = db.dagRuns := by
  rw [DagRepository.createRun, Task.bind_assoc, Task.runIn_bind, runIn_sql hfault hinsert] at hrun
  have hacts : (DagRepository.getRunById run.id >>= populate engine dag edges jobIds).Acts LeavesRuns := by
    refine Task.Acts.bind ?_ fun row => leavesRuns_populate engine dag edges jobIds row
    exact Task.Acts.bind (acts_select (fun _ => rfl) fun _ _ => rfl) fun _ => acts_okOr _ _
  refine Task.Acts.runIn (P := fun v : World => v.db.dagRuns = db.dagRuns) hacts ?_ ?_ hrun rfl
  · exact fun _ _ _ hleaves h => hleaves.trans h
  · exact fun _ _ h => h

/-- The `INSERT` is action 5. -/
theorem runIn_startRun (engine : DagEngine) (triggerType : String) {dag : Dag} {edges : List DagEdge} {r : Except AppError DagRun}
    (hdag : Rows.lookup Dag.id dagId w.db.dags = some dag)
    (hrun : (startRun engine dagId triggerType dag edges).runIn (disturbed faults clock) 2 w = some (r, w', m)) :
    (Rows.hits DagRun.id w.nextUuid w.db.dagRuns = 0 ∧ faults 5 = none ∧
      ∃ run : DagRun, run.id = w.nextUuid ∧ run.status = .running ∧ w'.db.dagRuns = w.db.dagRuns ++ [run]) ∨
    (¬ (Rows.hits DagRun.id w.nextUuid w.db.dagRuns = 0 ∧ faults 5 = none) ∧ w'.db.dagRuns = w.db.dagRuns) := by
  have hstored : Rows.hits Dag.id dagId w.db.dags ≠ 0 :=
    Rows.hits_ne_zero.mpr ⟨dag, Rows.mem_of_lookup hdag, Rows.column_of_lookup hdag⟩
  let run := newRun engine dagId triggerType edges w.nextUuid (toRfc3339 (clock 3)) (toRfc3339 (clock 4))
  change (DagRepository.createRun run >>= populate engine dag edges
    (engine.jobOrder.order (DagService.allNodes edges))).runIn (disturbed faults clock) 5
      { disturbed faults clock 4 w with nextUuid := w.nextUuid + 1 } = _ at hrun
  cases hfault : faults 5 with
  | some text =>
      rw [DagRepository.createRun, Task.bind_assoc, Task.runIn_bind, runIn_sql_fault hfault] at hrun
      cases hrun
      exact .inr ⟨fun h => Option.some_ne_none text h.2, rfl⟩
  | none =>
      by_cases hfresh : Rows.hits DagRun.id w.nextUuid w.db.dagRuns = 0
      · have hinsert : DagRepository.insertRun run w.db =
            .ok ((), { w.db with dagRuns := w.db.dagRuns ++ [run] }) :=
          (if_neg (not_not.mpr hfresh)).trans (if_neg hstored)
        refine .inl ⟨hfresh, rfl, run, rfl, rfl, ?_⟩
        exact runIn_createRun (u := { disturbed faults clock 4 w with nextUuid := w.nextUuid + 1 }) hfault
          hinsert hrun
      · rw [DagRepository.createRun, Task.bind_assoc, Task.runIn_bind,
          runIn_sql_error hfault (if_pos hfresh)] at hrun
        cases hrun
        exact .inr ⟨fun ⟨h, _⟩ => hfresh h, rfl⟩

/-- What the call does to the runs, whether its `INSERT` is executed or not. -/
theorem runIn_triggerDag {r : Except AppError DagRun}
    (hrun : (engine.triggerDag dagId triggerType).runIn (disturbed faults clock) 0 w = some (r, w', m)) :
    (Inserts engine dagId faults w ∧
      ∃ run : DagRun, run.id = w.nextUuid ∧ run.status = .running ∧ w'.db.dagRuns = w.db.dagRuns ++ [run]) ∨
    (¬ Inserts engine dagId faults w ∧ w'.db.dagRuns = w.db.dagRuns) := by
  rw [DagEngine.triggerDag, DagRepository.getById, Task.bind_assoc, Task.runIn_bind] at hrun
  by_cases hreadsDag : faults 0 = none
  swap
  · obtain ⟨text, hfault⟩ := Option.ne_none_iff_exists'.mp hreadsDag
    rw [runIn_select_fault hfault] at hrun
    cases hrun
    exact .inr ⟨fun h => hreadsDag h.readsDag, rfl⟩
  rw [runIn_select hreadsDag] at hrun
  cases hdag : Rows.lookup Dag.id dagId w.db.dags with
  | none =>
      simp only [disturbed, hdag, okOr, Task.runIn_bind, Task.runIn_throw] at hrun
      cases hrun
      refine .inr ⟨fun h => ?_, rfl⟩
      obtain ⟨dag, hfound, _⟩ := h.enabled
      cases hdag.symm.trans hfound
  | some dag =>
      change Task.runIn _ (okOr (Rows.lookup Dag.id dagId w.db.dags) _ >>= _) _ _ = _ at hrun
      rw [hdag] at hrun
      change Task.runIn _ (if !dag.enabled then _ else _) _ _ = _ at hrun
      split at hrun
      · rename_i hdisabled
        cases hrun
        refine .inr ⟨fun h => ?_, rfl⟩
        obtain ⟨_, hfound, henabled⟩ := h.enabled
        cases hdag.symm.trans hfound
        rw [henabled] at hdisabled
        cases hdisabled
      rename_i henabled
      rw [DagRepository.getEdgesByDagId, Task.runIn_bind] at hrun
      by_cases hreadsEdges : faults 1 = none
      swap
      · obtain ⟨text, hfault⟩ := Option.ne_none_iff_exists'.mp hreadsEdges
        rw [runIn_select_fault hfault] at hrun
        cases hrun
        exact .inr ⟨fun h => hreadsEdges h.readsEdges, rfl⟩
      rw [runIn_select hreadsEdges] at hrun
      change Task.runIn _ (if (edgesOf dagId w.db).isEmpty then _ else _) _ _ = _ at hrun
      split at hrun
      · rename_i hempty
        cases hrun
        exact .inr ⟨fun h => h.nonempty (List.isEmpty_iff.mp hempty), rfl⟩
      rename_i hnonempty
      split at hrun
      · rename_i refusal hrefused
        cases hrun
        refine .inr ⟨fun h => ?_, rfl⟩
        obtain ⟨order, hacyclic⟩ := h.acyclic
        cases hacyclic.symm.trans hrefused
      · rename_i order hacyclic
        have hdagIn : Rows.lookup Dag.id dagId (disturbed faults clock 1 w).db.dags = some dag := hdag
        rcases runIn_startRun engine triggerType hdagIn hrun with
          ⟨hfresh, hinserts, hrow⟩ | ⟨hnot, hkept⟩
        · refine .inl ⟨⟨⟨dag, hdag, ?_⟩, ?_, ⟨order, hacyclic⟩, hfresh, hreadsDag, hreadsEdges, hinserts⟩, hrow⟩
          · simpa using henabled
          · simpa using hnonempty
        · exact .inr ⟨fun h => hnot ⟨h.fresh, h.inserts⟩, hkept⟩

/-- Triggering a DAG fails without a run that is left `running` exactly if the request is refused, or a
statement up to the `INSERT` of the run fails. -/
theorem triggerDag_leaves_no_running_iff (engine : DagEngine) (dagId : Uuid) (triggerType : String)
    (faults : Nat → Option String) (clock : Nat → DateTime) {w w' : World} {e : AppError} {m : Nat}
    (hrun : (engine.triggerDag dagId triggerType).runIn (disturbed faults clock) 0 w = some (.error e, w', m)) :
    ¬ LeavesRunning w w' ↔ ¬ Inserts engine dagId faults w := by
  rcases runIn_triggerDag hrun with ⟨hinserts, run, hid, hrunning, hruns⟩ | ⟨hnot, hruns⟩
  · refine iff_of_false (not_not.mpr ⟨run, ?_, hrunning, fun old hold => ?_⟩) (not_not.mpr hinserts)
    · rw [hruns]
      exact List.mem_append_right _ (List.mem_singleton_self run)
    · rw [hid]
      exact Rows.hits_eq_zero.mp hinserts.fresh old hold
  · refine iff_of_true ?_ hnot
    rintro ⟨run, hrun, _, hnew⟩
    rw [hruns] at hrun
    exact hnew run hrun rfl

/-! ### Sample -/

/-- The sample DAG is triggered, and only the statement that is this action fails. -/
def failAt (n : Nat) : Nat → Option String := fun k => if k = n then some "disk I/O error" else none

/-- The `INSERT` of the run fails, so no run is left. -/
theorem triggerDag_leaves_no_running_sample : ∃ e w' m,
    (DagEngine.sample.triggerDag 5 "manual").runIn (disturbed (failAt 5) fun _ => epoch) 0
      (.start .sampleDag epoch 1000) = some (.error e, w', m) ∧
    ¬ LeavesRunning (.start .sampleDag epoch 1000) w' := by
  refine ⟨_, _, _, rfl, ?_⟩
  apply (triggerDag_leaves_no_running_iff DagEngine.sample 5 "manual" (failAt 5) (fun _ => epoch) rfl).mpr
  exact fun h => nomatch h.inserts

/-- The `INSERT` of the first node fails, and the run stays `running`. -/
theorem triggerDag_leaves_running : ∃ e w' m,
    (DagEngine.sample.triggerDag 5 "manual").runIn (disturbed (failAt 9) fun _ => epoch) 0
      (.start .sampleDag epoch 1000) = some (.error e, w', m) ∧
    LeavesRunning (.start .sampleDag epoch 1000) w' := by
  refine ⟨_, _, _, rfl, _, List.mem_singleton_self _, rfl, ?_⟩
  exact List.forall_mem_nil _

end TriggerFaults

end Serverust
