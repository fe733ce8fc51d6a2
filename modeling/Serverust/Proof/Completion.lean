import Serverust.Proof.Footprints
import Serverust.Proof.Progress

/-!
# The row of a run after a completion

A call that handles a finished execution closes the run in two places: after the sweep of a run that
stops, and after an advance, which may fail nodes itself. Whenever such a call returns, what the row of
the run says agrees with the rows of its nodes.
-/

namespace Serverust

open Calendar Resumption

namespace Completion

variable {w u w' : World} {runId : Uuid} {run : DagRun} {node : DagNodeExecution}

/-- The row of a run agrees with its nodes. -/
structure Reports (run : DagRun) (nodes : List DagNodeExecution) : Prop where
  terminal : run.status.isTerminal = true ↔ ∀ node ∈ nodes, node.status.isTerminal = true
  success : run.status.isTerminal = true →
    (run.status = .success ↔ ∀ node ∈ nodes, node.status ≠ .failed ∧ node.status ≠ .cancelled)
  completedNodes : run.status.isTerminal = true → run.completedNodes = nodes.length
  completedAt : run.status.isTerminal = true → ∃ time, run.completedAt = some time

def Reported (runId : Uuid) (db : Db) : Prop :=
  ∃ run, Rows.lookup DagRun.id runId db.dagRuns = some run ∧ Reports run (DagRepository.nodesOfRun runId db)

/-- The row of a run that has not been closed. -/
def Open (runId : Uuid) (db : Db) : Prop :=
  ∃ run, Rows.lookup DagRun.id runId db.dagRuns = some run ∧ run.status = .running

/-- A row that stays open agrees with nodes that have not all ended. -/
theorem Open.reported (h : Open runId w.db)
    (hnode : ∃ node ∈ DagRepository.nodesOfRun runId w.db, node.status.isTerminal = false) :
    Reported runId w.db := by
  obtain ⟨run, hrow, hstatus⟩ := h
  have hopen : ¬ run.status.isTerminal = true := by
    rw [hstatus]
    decide
  refine ⟨run, hrow, ⟨fun h => absurd h hopen, fun hall => ?_⟩, fun h => absurd h hopen,
    fun h => absurd h hopen, fun h => absurd h hopen⟩
  obtain ⟨node, hnode, hrunning⟩ := hnode
  rw [hall node hnode] at hrunning
  cases hrunning

theorem Open.setRun {db : Db} (h : Open runId db) (hid : run.id = runId) (hstatus : run.status = .running) :
    Open runId (DagRepository.setRun run db) := by
  subst hid
  obtain ⟨row, hrow, _⟩ := h
  exact ⟨_, DagRepository.lookup_setRun hrow, hstatus⟩

theorem isFailure_iff (status : NodeStatus) :
    DagEngine.isFailure status = true ↔ ¬ (status ≠ .failed ∧ status ≠ .cancelled) := by
  simp only [DagEngine.isFailure, decide_eq_true_eq]
  tauto

theorem any_isFailure (nodes : List DagNodeExecution) :
    ¬ (nodes.any fun n => DagEngine.isFailure n.status) = true ↔
      ∀ node ∈ nodes, node.status ≠ .failed ∧ node.status ≠ .cancelled := by
  simp only [List.any_eq_true, isFailure_iff]
  push Not
  rfl

theorem finalStatus_eq_success (nodes : List DagNodeExecution) : DagEngine.finalStatus nodes = .success ↔
    ∀ node ∈ nodes, node.status ≠ .failed ∧ node.status ≠ .cancelled := by
  rw [← any_isFailure]
  unfold DagEngine.finalStatus
  split
  · rename_i hany
    split <;> simp [hany]
  · rename_i hnone
    exact ⟨fun _ => hnone, fun _ => rfl⟩

/-! ### The statements -/

theorem run_getRunById_ok (h : (DagRepository.getRunById runId).run w = some (.ok run, w')) :
    Rows.lookup DagRun.id runId w.db.dagRuns = some run ∧ w = w' := by
  obtain ⟨_, _, hselect, hrow⟩ := Task.run_bind_ok h
  obtain ⟨rfl, rfl⟩ := run_select_ok hselect
  exact run_okOr_ok hrow

theorem run_updateRun_ok {row : DagRun} (h : (DagRepository.updateRun run).run w = some (.ok row, w')) :
    w' = { w with db := DagRepository.setRun run w.db } := by
  obtain ⟨_, u, hwrite, hread⟩ := Task.run_bind_ok h
  obtain ⟨_, rfl⟩ := run_execute_ok hwrite
  exact (run_getRunById_ok hread).2.symm

theorem reported_setRun {row : DagRun} (hrow : Rows.lookup DagRun.id runId w.db.dagRuns = some row)
    (hid : run.id = runId) (hreports : Reports run (DagRepository.nodesOfRun runId w.db)) :
    Reported runId (DagRepository.setRun run w.db) := by
  subst hid
  refine ⟨_, DagRepository.lookup_setRun hrow, ?_⟩
  exact ⟨hreports.terminal, hreports.success, hreports.completedNodes, hreports.completedAt⟩

/-! ### Finishing -/

theorem finishRun_reports (hopen : Open runId w.db)
    (h : (DagEngine.finishRun runId).run w = some (.ok (), w')) : Reported runId w'.db := by
  obtain ⟨_, _, hselect, hrest⟩ := Task.run_bind_ok h
  obtain ⟨rfl, rfl⟩ := run_select_ok hselect
  split at hrest
  · rename_i hall
    obtain ⟨run, _, hread, hrest⟩ := Task.run_bind_ok hrest
    obtain ⟨hrow, rfl⟩ := run_getRunById_ok hread
    obtain ⟨_, _, hnow, hrest⟩ := Task.run_bind_ok hrest
    cases run_nowRfc3339.symm.trans hnow
    obtain ⟨_, _, hwrite, ⟨⟩⟩ := Task.run_bind_ok hrest
    rw [run_updateRun_ok hwrite]
    have hid : run.id = runId := Rows.column_of_lookup hrow
    apply reported_setRun hrow
    · exact hid
    have hterminal := Progress.isTerminal_finalStatus (DagRepository.nodesOfRun runId w.db)
    exact ⟨⟨fun _ => List.all_eq_true.mp hall, fun _ => hterminal⟩,
      fun _ => finalStatus_eq_success _, fun _ => rfl, fun _ => ⟨_, rfl⟩⟩
  · rename_i hnot
    cases hrest
    apply hopen.reported
    simpa using hnot

/-! ### Stopping -/

/-- The pass of the loop that skips nodes. -/
def skipNode (node : DagNodeExecution) : Async Unit := do
  let now ← nowRfc3339
  let _ ← DagRepository.updateNodeExecution { node with status := .skipped, completedAt := some now }

theorem run_skipNode_ok (h : (skipNode node).run w = some (.ok (), w')) :
    ∃ skipped : DagNodeExecution, skipped.id = node.id ∧ skipped.status = .skipped ∧
      w' = { w with db := DagRepository.setNode skipped w.db } := by
  obtain ⟨_, _, hnow, hrest⟩ := Task.run_bind_ok h
  cases run_nowRfc3339.symm.trans hnow
  obtain ⟨_, _, hwrite, ⟨⟩⟩ := Task.run_bind_ok hrest
  exact ⟨{ node with status := .skipped, completedAt := some (toRfc3339 w.now) }, rfl, rfl,
    DagRepository.run_updateNodeExecution_ok hwrite⟩

/-- What the sweep of a stopped run keeps of the state `w` it starts from. -/
structure Sweeping (runId : Uuid) (w v : World) : Prop where
  runs : v.db.dagRuns = w.db.dagRuns
  source : ∀ row ∈ v.db.dagNodeExecutions, ∃ old ∈ w.db.dagNodeExecutions,
    old.id = row.id ∧ old.dagRunId = row.dagRunId ∧ (row.status = old.status ∨ row.status = .skipped)
  kept : ∀ old ∈ w.db.dagNodeExecutions, old.status ≠ .waiting → old.status ≠ .ready →
    old ∈ v.db.dagNodeExecutions

theorem Sweeping.refl (runId : Uuid) (w : World) : Sweeping runId w w :=
  ⟨rfl, fun row hrow => ⟨row, hrow, rfl, rfl, .inl rfl⟩, fun _ h _ _ => h⟩

theorem Sweeping.skip {v : World} (h : Sweeping runId w v)
    (hunique : Rows.Unique DagNodeExecution.id w.db.dagNodeExecutions)
    (hnode : node ∈ w.db.dagNodeExecutions) (hstatus : node.status = .waiting ∨ node.status = .ready)
    (hrun : (skipNode node).run v = some (.ok (), w')) : Sweeping runId w w' := by
  obtain ⟨skipped, hid, hskipped, rfl⟩ := run_skipNode_ok hrun
  refine ⟨h.runs, ?_, ?_⟩
  · intro row hrow
    obtain ⟨found, hfound, rfl⟩ := Rows.mem_modify.mp hrow
    obtain ⟨old, hold, hidOld, hof, hsame⟩ := h.source found hfound
    refine ⟨old, hold, ?_⟩
    split
    · exact ⟨hidOld, hof, .inr hskipped⟩
    · exact ⟨hidOld, hof, hsame⟩
  · intro old hold hwaiting hready
    apply Rows.mem_modify_of_ne (h.kept old hold hwaiting hready)
    intro hsame
    rw [hunique.eq_of_column hold hnode (hsame.trans hid)] at hwaiting hready
    rcases hstatus with heq | heq
    · exact hwaiting heq
    · exact hready heq

/-- The rows of this node are skipped. -/
def Skipped (node : DagNodeExecution) (w : World) : Prop :=
  ∀ row ∈ w.db.dagNodeExecutions, row.id = node.id → row.status = .skipped

theorem Skipped.set (h : (skipNode node).run w = some (.ok (), w')) : Skipped node w' := by
  obtain ⟨skipped, hid, hskipped, rfl⟩ := run_skipNode_ok h
  intro row hrow hrowId
  obtain ⟨old, hold, rfl⟩ := Rows.mem_modify.mp hrow
  split
  · exact hskipped
  · rename_i hne
    rw [if_neg hne] at hrowId
    exact absurd (hrowId.trans hid.symm) hne

theorem Skipped.keep {other : DagNodeExecution} (h : Skipped node w)
    (hrun : (skipNode other).run w = some (.ok (), w')) : Skipped node w' := by
  obtain ⟨skipped, hid, hskipped, rfl⟩ := run_skipNode_ok hrun
  intro row hrow hrowId
  obtain ⟨old, hold, rfl⟩ := Rows.mem_modify.mp hrow
  split
  · exact hskipped
  · rename_i hne
    rw [if_neg hne] at hrowId
    exact h old hold hrowId

theorem isTerminal_of_idle {status : NodeStatus} (hwaiting : status ≠ .waiting) (hready : status ≠ .ready)
    (hrunning : status ≠ .running) : status.isTerminal = true := by
  cases status with
  | waiting => exact absurd rfl hwaiting
  | ready => exact absurd rfl hready
  | running => exact absurd rfl hrunning
  | success | failed | skipped | cancelled => rfl

theorem stopRun_reports (hunique : Rows.Unique DagNodeExecution.id w.db.dagNodeExecutions)
    (hopen : Open runId w.db)
    (hfailed : ∃ node ∈ DagRepository.nodesOfRun runId w.db, DagEngine.isFailure node.status = true)
    (h : (DagEngine.stopRun runId).run w = some (.ok (), w')) : Reported runId w'.db := by
  obtain ⟨_, _, hselect, hrest⟩ := Task.run_bind_ok h
  obtain ⟨rfl, rfl⟩ := run_select_ok hselect
  obtain ⟨_, v, hsweep, hrest⟩ := Task.run_bind_ok hrest
  have hsweeping : Sweeping runId w v := by
    apply Task.run_forM_ok ?_ hsweep (.refl runId w)
    intro node hnode u u' hu hrun
    obtain ⟨hnode, hstatus⟩ := List.mem_filter.mp hnode
    exact hu.skip hunique (DagRepository.mem_nodesOfRun.mp hnode).1 (of_decide_eq_true hstatus) hrun
  have hskipped := Task.run_forM_each (fun _ _ _ _ => Skipped.set) (fun _ _ _ _ _ h => h.keep) hsweep
  have hopen' : Open runId v.db := by
    rw [Open, hsweeping.runs]
    exact hopen
  split at hrest
  · -- A node still runs, and its row is as it was.
    rename_i hany
    cases hrest
    obtain ⟨node, hnode, hrunning⟩ := List.any_eq_true.mp hany
    obtain ⟨hnode, hof⟩ := DagRepository.mem_nodesOfRun.mp hnode
    have hstatus : node.status = .running := of_decide_eq_true hrunning
    apply hopen'.reported
    refine ⟨node, DagRepository.mem_nodesOfRun.mpr ⟨hsweeping.kept node hnode ?_ ?_, hof⟩, ?_⟩
    all_goals
      rw [hstatus]
      decide
  · rename_i hnone
    obtain ⟨run, _, hread, hrest⟩ := Task.run_bind_ok hrest
    obtain ⟨hrow, rfl⟩ := run_getRunById_ok hread
    obtain ⟨_, _, hnow, hrest⟩ := Task.run_bind_ok hrest
    cases run_nowRfc3339.symm.trans hnow
    obtain ⟨_, _, hselect, hrest⟩ := Task.run_bind_ok hrest
    obtain ⟨rfl, rfl⟩ := run_select_ok hselect
    obtain ⟨_, _, hwrite, ⟨⟩⟩ := Task.run_bind_ok hrest
    rw [run_updateRun_ok hwrite]
    have hidle : ∀ node ∈ DagRepository.nodesOfRun runId w.db, node.status ≠ .running := by
      simpa using hnone
    -- What had not started is skipped, and the rest had ended.
    have hended : ∀ row ∈ DagRepository.nodesOfRun runId v.db, row.status ≠ .waiting ∧
        row.status ≠ .ready ∧ row.status ≠ .running := by
      intro row hrow
      obtain ⟨hrow, hof⟩ := DagRepository.mem_nodesOfRun.mp hrow
      obtain ⟨old, hold, hid, hofOld, hstatus⟩ := hsweeping.source row hrow
      have hmem := DagRepository.mem_nodesOfRun.mpr ⟨hold, hofOld.trans hof⟩
      rcases hstatus with hsame | hskip
      · by_cases hstarted : old.status = .waiting ∨ old.status = .ready
        · have hskip := hskipped old (List.mem_filter.mpr ⟨hmem, decide_eq_true hstarted⟩) row hrow hid.symm
          rw [hskip]
          decide
        · rw [hsame]
          exact ⟨fun heq => hstarted (.inl heq), fun heq => hstarted (.inr heq), hidle old hmem⟩
      · rw [hskip]
        decide
    have hid : run.id = runId := Rows.column_of_lookup hrow
    apply reported_setRun hrow
    · exact hid
    refine ⟨⟨fun _ row hrow => ?_, fun _ => rfl⟩, fun _ => ⟨nofun, fun hall => ?_⟩, fun _ => ?_,
      fun _ => ⟨_, rfl⟩⟩
    · obtain ⟨hwaiting, hready, hrunning⟩ := hended row hrow
      exact isTerminal_of_idle hwaiting hready hrunning
    · obtain ⟨node, hnode, hfailure⟩ := hfailed
      obtain ⟨hnode, hof⟩ := DagRepository.mem_nodesOfRun.mp hnode
      have hkept := hsweeping.kept node hnode (by rintro heq; rw [heq] at hfailure; cases hfailure)
        (by rintro heq; rw [heq] at hfailure; cases hfailure)
      exact absurd (hall node (DagRepository.mem_nodesOfRun.mpr ⟨hkept, hof⟩)) ((isFailure_iff _).mp hfailure)
    · simp only [Nat.cast_inj]
      apply List.countP_eq_length.mpr
      intro row hrow
      exact decide_eq_true (hended row hrow)

/-! ### The call -/

/-- An action that leaves the rows of the runs. -/
def LeavesRuns (u : World) (_ : Event) (v : World) : Prop := v.db.dagRuns = u.db.dagRuns

theorem leavesRuns_of_reading {α : Type} {p : Async α} (h : p.Acts Reading) : p.Acts LeavesRuns := by
  refine h.mono fun u ev v hread => ?_
  obtain ⟨_, rfl⟩ := hread.same
  rfl

theorem leavesRuns_updateNodeExecution (node : DagNodeExecution) :
    (DagRepository.updateNodeExecution node).Acts LeavesRuns := by
  apply Task.Acts.bind (acts_sql ?_ fun _ _ => rfl)
  · exact fun _ => (acts_select (fun _ => rfl) fun _ _ => rfl).bind fun _ => acts_okOr _ _
  · intro u value db hwrite
    unfold DagRepository.writeNode at hwrite
    split at hwrite
    · cases hwrite
    · cases hwrite
      rfl

theorem leavesRuns_failNode (node : DagNodeExecution) : (DagEngine.failNode node).Acts LeavesRuns := by
  apply (leavesRuns_of_reading acts_nowRfc3339).bind
  exact fun now => (leavesRuns_updateNodeExecution _).bind fun _ => .pure ()

theorem leavesRuns_createExecution (jobId : Uuid) (input : Option String) :
    (ExecutionService.createExecution jobId input).Acts LeavesRuns := by
  refine (acts_createExecution jobId input).mono fun u ev v hcreate => ?_
  obtain ⟨_, _, _, rfl⟩ := hcreate.same
  rfl

theorem leavesRuns_enqueue (qm : QueueManager) (item : QueueItem) : (qm.enqueue item).Acts LeavesRuns := by
  refine (acts_enqueue qm item).mono fun u ev v hqueue => ?_
  obtain ⟨_, _, _, _, rfl⟩ := hqueue.same
  rfl

theorem leavesRuns_startNode (engine : DagEngine) (node : DagNodeExecution) :
    (engine.startNode node).Acts LeavesRuns := by
  apply (leavesRuns_of_reading (acts_getJob node.jobId)).attempt.bind
  rintro (e | job)
  · exact leavesRuns_failNode node
  apply (leavesRuns_createExecution node.jobId none).attempt.bind
  rintro (e | execution)
  · exact leavesRuns_failNode node
  apply (leavesRuns_of_reading acts_nowRfc3339).bind
  intro now
  apply (leavesRuns_updateNodeExecution _).bind
  intro _
  exact (leavesRuns_enqueue engine.queueManager _).attempt.bind fun _ => .pure ()

/-- Advancing a run leaves all runs, whether nodes start or fail. -/
theorem leavesRuns_advanceDagRun (engine : DagEngine) (runId : Uuid) (edges : List DagEdge) (dag : Dag) :
    (engine.advanceDagRun runId edges dag).Acts LeavesRuns := by
  apply Task.Acts.bind (acts_select (fun _ => rfl) fun _ _ => rfl)
  exact fun nodes => Task.Acts.forM fun node _ => leavesRuns_startNode engine node

/-- Advancing a run leaves its row, whether nodes start or fail. -/
theorem run_advanceDagRun_ok {engine : DagEngine} {edges : List DagEdge} {dag : Dag}
    (h : (engine.advanceDagRun runId edges dag).run w = some (.ok (), w')) :
    w'.db.dagRuns = w.db.dagRuns := by
  refine Task.Acts.run (Q := fun u v : World => v.db.dagRuns = u.db.dagRuns) (fun _ => rfl)
    (fun huv hvw => hvw.trans huv) (leavesRuns_advanceDagRun engine runId edges dag) ?_ h
  exact fun _ _ _ hleaves => hleaves

/-- Whenever the call for an execution of a node of a running run returns, the row of the run agrees with
its nodes. -/
theorem onExecutionComplete_reports (engine : DagEngine) {e : Uuid}
    (hunique : Rows.Unique DagNodeExecution.id w.db.dagNodeExecutions)
    (hnode : Rows.lookup DagNodeExecution.executionId (some e) w.db.dagNodeExecutions = some node)
    (hopen : Open node.dagRunId w.db) (h : (engine.onExecutionComplete e).run w = some (.ok (), w')) :
    Reported node.dagRunId w'.db := by
  obtain ⟨_, _, hselect, hrest⟩ := Task.run_bind_ok h
  obtain ⟨rfl, rfl⟩ := run_select_ok hselect
  rw [hnode] at hrest
  obtain ⟨execution, _, hread, hrest⟩ := Task.run_bind_ok hrest
  obtain ⟨_, _, hselect, hrow⟩ := Task.run_bind_ok hread
  obtain ⟨rfl, rfl⟩ := run_select_ok hselect
  obtain ⟨_, rfl⟩ := run_okOr_ok hrow
  obtain ⟨_, _, hnow, hrest⟩ := Task.run_bind_ok hrest
  cases run_nowRfc3339.symm.trans hnow
  -- The outcome is in the node's row, and the run's row is as open as before.
  obtain ⟨_, u, hwrite, hrest⟩ := Task.run_bind_ok hrest
  have hu := DagRepository.run_updateNodeExecution_ok hwrite
  have hstored : node ∈ w.db.dagNodeExecutions := Rows.mem_of_lookup hnode
  have huniqueU : Rows.Unique DagNodeExecution.id u.db.dagNodeExecutions := by
    rw [hu]
    exact hunique.modify (f := DagRepository.overNode _) (fun _ => rfl) _
  have hopenU : Open node.dagRunId u.db := by
    rw [hu]
    exact hopen
  have hfailed : DagEngine.isFailure (DagEngine.completedStatus execution.status) = true →
      ∃ row ∈ DagRepository.nodesOfRun node.dagRunId u.db, DagEngine.isFailure row.status = true := by
    intro hfailure
    rw [hu]
    let ended : DagNodeExecution := { node with
      status := DagEngine.completedStatus execution.status, completedAt := some (toRfc3339 w.now) }
    have hrow : DagRepository.overNode ended node ∈ (DagRepository.setNode ended w.db).dagNodeExecutions :=
      Rows.mem_modify_of_eq hstored rfl
    exact ⟨_, DagRepository.mem_nodesOfRun.mpr ⟨hrow, rfl⟩, hfailure⟩
  obtain ⟨run, _, hread, hrest⟩ := Task.run_bind_ok hrest
  obtain ⟨hrow, rfl⟩ := run_getRunById_ok hread
  have hid : run.id = node.dagRunId := Rows.column_of_lookup hrow
  obtain ⟨_, v, hwrite, hrest⟩ := Task.run_bind_ok hrest
  have hv := run_updateRun_ok hwrite
  have hnodes : v.db.dagNodeExecutions = u.db.dagNodeExecutions := by rw [hv]; rfl
  have hopenV : Open node.dagRunId v.db := by
    obtain ⟨run', hrow', hstatus⟩ := id hopenU
    rw [hrow] at hrow'
    cases hrow'
    rw [hv]
    apply hopenU.setRun
    · exact hid
    · exact hstatus
  obtain ⟨dag, _, hread, hrest⟩ := Task.run_bind_ok hrest
  obtain ⟨_, _, hselect, hrow⟩ := Task.run_bind_ok hread
  obtain ⟨rfl, rfl⟩ := run_select_ok hselect
  obtain ⟨_, rfl⟩ := run_okOr_ok hrow
  obtain ⟨edges, _, hselect, hrest⟩ := Task.run_bind_ok hrest
  obtain ⟨rfl, rfl⟩ := run_select_ok hselect
  rw [hid] at hrest
  split at hrest
  · rename_i hstops
    apply stopRun_reports ?_ hopenV ?_ hrest
    · rw [hnodes]
      exact huniqueU
    · obtain ⟨row, hrow, hfailure⟩ := hfailed hstops.1
      refine ⟨row, ?_, hfailure⟩
      rw [DagRepository.nodesOfRun, hnodes]
      exact hrow
  · obtain ⟨_, x, hadvance, hfinish⟩ := Task.run_bind_ok hrest
    apply finishRun_reports ?_ hfinish
    rw [Open, run_advanceDagRun_ok hadvance]
    exact hopenV

/-- The root of the sample DAG fails, and the run waits for the other node. -/
theorem onExecutionComplete_reports_failed : ∃ w',
    (DagEngine.sample.onExecutionComplete 7).run (Progress.launched .failed) = some (.ok (), w') ∧
      Reported 10 w'.db := by
  have hstored := Progress.launched_stored .failed
  have hmem : Progress.rootNode ∈ (Progress.launched .failed).db.dagNodeExecutions := List.mem_cons_self
  have hnode : Rows.lookup DagNodeExecution.executionId (some 7) (Progress.launched .failed).db.dagNodeExecutions =
      some Progress.rootNode := rfl
  obtain ⟨_, w', hcall, _⟩ := Progress.returns_onExecutionComplete .sample hstored
    (Progress.launched_sample .failed).status le_rfl hmem rfl rfl rfl
  exact ⟨w', hcall, onExecutionComplete_reports .sample hstored.uniqueNode hnode ⟨_, rfl, rfl⟩ hcall⟩

end Completion

end Serverust
