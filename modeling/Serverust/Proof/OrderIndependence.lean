import Serverust.Proof.DagSerial
import Serverust.Proof.RunView

/-!
# The order of two completions

The calls for two ended executions of one run, one after the other, when neither starts a node. Seen as
the statuses of the run, each call is `RunView.complete`; so the two orders agree exactly if the two
completions do not clash.
-/

namespace Serverust

open Resumption

namespace DagCalls

open DagRepository

variable {run : RunOf} {w : World} {db : Db}

/-- The statuses of a run. -/
def RunOf.view (run : RunOf) (db : Db) : Option RunView :=
  (Rows.lookup DagRun.id run.id db.dagRuns).map fun row =>
    ⟨(nodesOfRun run.id db).map fun n => (n.id, n.status), row.status⟩

/-- A stored run, whose nodes refer to stored executions, each to its own, while no statement fails. -/
structure Kept (run : RunOf) (w : World) : Prop where
  fault : w.fault = none
  stored : run.Stored w.db
  refers : ∀ n ∈ w.db.dagNodeExecutions, refers n.executionId w.db = true
  ownExecution : ∀ a ∈ w.db.dagNodeExecutions, ∀ b ∈ w.db.dagNodeExecutions, ∀ e,
    a.executionId = some e → b.executionId = some e → a = b

/-! ### Closing nodes -/

/-- A row, closed if it is that of one of these nodes. -/
def closeIn (status : NodeStatus) (time : String) (nodes : List DagNodeExecution) (row : DagNodeExecution) :
    DagNodeExecution :=
  if row.id ∈ nodes.map DagNodeExecution.id then row.close status time else row

/-- The tables with these nodes closed. -/
def closeAll (status : NodeStatus) (time : String) (nodes : List DagNodeExecution) (db : Db) : Db :=
  { db with dagNodeExecutions := db.dagNodeExecutions.map (closeIn status time nodes) }

section

variable {status : NodeStatus} {time : String} {nodes : List DagNodeExecution} {node row : DagNodeExecution}

@[simp] theorem closeIn_id : (closeIn status time nodes row).id = row.id := by
  unfold closeIn
  split <;> rfl

@[simp] theorem closeIn_dagRunId : (closeIn status time nodes row).dagRunId = row.dagRunId := by
  unfold closeIn
  split <;> rfl

@[simp] theorem closeIn_jobId : (closeIn status time nodes row).jobId = row.jobId := by
  unfold closeIn
  split <;> rfl

@[simp] theorem closeIn_executionId : (closeIn status time nodes row).executionId = row.executionId := by
  unfold closeIn
  split <;> rfl

@[simp] theorem closeIn_createdAt : (closeIn status time nodes row).createdAt = row.createdAt := by
  unfold closeIn
  split <;> rfl

@[simp] theorem closeAll_nil : closeAll status time [] db = db := by
  have hid : closeIn status time [] = id := by
    funext row
    simp [closeIn]
  simp only [closeAll, hid, List.map_id]

theorem closeAll_cons :
    closeAll status time nodes (closeAll status time [node] db) = closeAll status time (node :: nodes) db := by
  simp only [closeAll, List.map_map]
  congr 2
  funext row
  by_cases hnode : row.id = node.id <;> by_cases hrest : row.id ∈ nodes.map DagNodeExecution.id <;>
    simp [closeIn, hnode, hrest, DagNodeExecution.close]

/-- A closed node that was read from the table closes its row. -/
theorem setNode_close (hunique : Rows.Unique DagNodeExecution.id db.dagNodeExecutions)
    (hnode : node ∈ db.dagNodeExecutions) : setNode (node.close status time) db = closeAll status time [node] db := by
  unfold setNode closeAll
  congr 1
  apply List.map_congr_left
  intro row hrow
  by_cases hid : row.id = node.id
  · rw [hunique.eq_of_column hrow hnode hid]
    simp [closeIn, overNode, DagNodeExecution.close]
  · simp [closeIn, hid, DagNodeExecution.close]

theorem nodesOfRun_closeAll : nodesOfRun run.id (closeAll status time nodes db) =
    (nodesOfRun run.id db).map (closeIn status time nodes) := by
  have hkept : (fun n : DagNodeExecution => decide (n.dagRunId = run.id)) ∘ closeIn status time nodes =
      fun n => decide (n.dagRunId = run.id) := by
    funext n
    simp
  simp only [nodesOfRun, closeAll, List.filter_map, hkept]
  refine (List.map_insertionSort _ 
    (fun a b : DagNodeExecution => a.createdAt ≤ b.createdAt) _ _ ?_).symm
  intro a _ b _
  simp

theorem mem_closeAll (hrow : row ∈ db.dagNodeExecutions) (hid : row.id ∉ nodes.map DagNodeExecution.id) :
    row ∈ (closeAll status time nodes db).dagNodeExecutions :=
  List.mem_map.mpr ⟨row, hrow, if_neg hid⟩

theorem Kept.closeAll (h : Kept run w) (status : NodeStatus) (time : String) (nodes : List DagNodeExecution) :
    Kept run { w with db := closeAll status time nodes w.db } where
  fault := h.fault
  stored := by
    refine ⟨h.stored.row, h.stored.dag, h.stored.edges, ?_, ?_⟩
    · have hids := h.stored.uniqueNode
      simpa [Rows.Unique, DagCalls.closeAll, Function.comp_def] using hids
    · intro a' ha' b' hb' haof hbof hjob
      obtain ⟨a, ha, rfl⟩ := List.mem_map.mp ha'
      obtain ⟨b, hb, rfl⟩ := List.mem_map.mp hb'
      simp only [closeIn_dagRunId, closeIn_jobId] at haof hbof hjob
      rw [h.stored.uniqueJob a ha b hb haof hbof hjob]
  refers := by
    intro n' hn'
    obtain ⟨n, hn, rfl⟩ := List.mem_map.mp hn'
    rw [closeIn_executionId]
    exact h.refers n hn
  ownExecution := by
    intro a' ha' b' hb' e hae hbe
    obtain ⟨a, ha, rfl⟩ := List.mem_map.mp ha'
    obtain ⟨b, hb, rfl⟩ := List.mem_map.mp hb'
    rw [closeIn_executionId] at hae hbe
    rw [h.ownExecution a ha b hb e hae hbe]

theorem Kept.setRun (h : Kept run w) (row : DagRun) : Kept run { w with db := setRun row w.db } :=
  ⟨h.fault, h.stored.setRun row, h.refers, h.ownExecution⟩

theorem Kept.run_close (h : Kept run w) {node : DagNodeExecution} (hnode : node ∈ w.db.dagNodeExecutions)
    (status : NodeStatus) (time : String) :
    ∃ found, (updateNodeExecution (node.close status time)).run w =
      some (.ok found, { w with db := DagCalls.closeAll status time [node] w.db }) := by
  rw [← setNode_close h.stored.uniqueNode hnode]
  exact run_updateNodeExecution h.fault hnode rfl (h.refers node hnode)

theorem Kept.returns_skipAll (h : Kept run w) {todo : List DagNodeExecution}
    (hstored : ∀ n ∈ todo, n ∈ w.db.dagNodeExecutions) (hunique : Rows.Unique DagNodeExecution.id todo) :
    Task.Returns
      (fun _ w' => w' = { w with db := DagCalls.closeAll .skipped (toRfc3339 w.now) todo w.db })
      (todo.forM fun n => do
        let now ← nowRfc3339
        let _ ← updateNodeExecution { n with status := .skipped, completedAt := some now }) w := by
  induction todo generalizing w with
  | nil =>
      apply Task.Returns.of_run rfl
      rw [closeAll_nil]
  | cons n todo ih =>
      obtain ⟨hfresh, hunique⟩ := List.nodup_cons.mp hunique
      obtain ⟨found, hclose⟩ := h.run_close (hstored n List.mem_cons_self) .skipped (toRfc3339 w.now)
      have hpass : Task.Returns
          (fun _ u => u = { w with db := DagCalls.closeAll .skipped (toRfc3339 w.now) [n] w.db })
          (do
            let now ← nowRfc3339
            let _ ← updateNodeExecution { n with status := .skipped, completedAt := some now }) w := by
        apply Task.Returns.after run_nowRfc3339
        apply Task.Returns.after hclose
        exact .of_run rfl rfl
      have hkept (m : DagNodeExecution) (hm : m ∈ todo) :
          m ∈ (DagCalls.closeAll .skipped (toRfc3339 w.now) [n] w.db).dagNodeExecutions := by
        apply mem_closeAll (hstored m (List.mem_cons_of_mem n hm))
        simp only [List.map_cons, List.map_nil, List.mem_singleton]
        intro heq
        exact hfresh (List.mem_map.mpr ⟨m, hm, heq⟩)
      have hrest := ih (h.closeAll .skipped (toRfc3339 w.now) [n]) hkept hunique
      rw [closeAll_cons] at hrest
      change Task.Returns _ (_ >>= fun _ => todo.forM _) w
      apply hpass.bind
      rintro _ _ rfl
      exact hrest

/-! ### What the statements do to the view -/

theorem view_closeAll : run.view (closeAll status time nodes db) = (run.view db).map fun view =>
    ⟨view.nodes.map fun n => if n.1 ∈ nodes.map DagNodeExecution.id then (n.1, status) else n, view.status⟩ := by
  simp only [RunOf.view, nodesOfRun_closeAll, List.map_map, Option.map_map]
  congr 1
  funext row
  simp only [Function.comp_apply, List.map_map]
  congr 2
  funext n
  by_cases hmem : n.id ∈ nodes.map DagNodeExecution.id
  · simp only [Function.comp_apply, closeIn, if_pos hmem, DagNodeExecution.close]
  · simp only [Function.comp_apply, closeIn, if_neg hmem]

theorem view_write : run.view (closeAll status time [node] db) =
    (run.view db).map fun view => ⟨RunView.write node.id status view.nodes, view.status⟩ := by
  rw [view_closeAll]
  simp [RunView.write]

/-- Closing the nodes that have not started is skipping them. -/
theorem view_skip (hunique : Rows.Unique DagNodeExecution.id db.dagNodeExecutions) :
    run.view (closeAll .skipped time (unstarted (nodesOfRun run.id db)) db) =
      (run.view db).map fun view => ⟨RunView.skip view.nodes, view.status⟩ := by
  rw [view_closeAll]
  simp only [RunOf.view, Option.map_map]
  congr 1
  funext row
  simp only [Function.comp_apply, RunView.skip, List.map_map]
  congr 1
  apply List.map_congr_left
  intro n hn
  have hiff : n.id ∈ (unstarted (nodesOfRun run.id db)).map DagNodeExecution.id ↔
      n.status = .waiting ∨ n.status = .ready := by
    constructor
    · intro hid
      obtain ⟨m, hm, hid⟩ := List.mem_map.mp hid
      obtain ⟨hm, hstatus⟩ := List.mem_filter.mp hm
      rw [hunique.eq_of_column (mem_nodesOfRun.mp hm).1 (mem_nodesOfRun.mp hn).1 hid] at hstatus
      exact of_decide_eq_true hstatus
    · intro hstatus
      exact List.mem_map.mpr ⟨n, List.mem_filter.mpr ⟨hn, decide_eq_true hstatus⟩, rfl⟩
  simp only [Function.comp_apply, hiff]

theorem view_setRun {row : DagRun} (hid : row.id = run.id) :
    run.view (setRun row db) = (run.view db).map fun view => ⟨view.nodes, row.status⟩ := by
  simp only [RunOf.view, DagRepository.setRun]
  rw [Rows.lookup_modify (f := overRun row) fun _ => rfl, if_pos hid.symm, Option.map_map, Option.map_map]
  rfl

/-! ### The call -/

/-- A node of the run is running, and its execution is stored. -/
structure Completing (run : RunOf) (node : DagNodeExecution) (x : Execution) (w : World) : Prop where
  running : node ∈ runningNodes run.id w.db
  execution : node.executionId = some x.id
  row : Rows.lookup Execution.id x.id w.db.executions = some x

/-- The call for the node's execution starts no node: its outcome stops the run, or leaves no waiting node
to start. -/
def StartsNone (run : RunOf) (node : DagNodeExecution) (x : Execution) (w : World) : Prop :=
  RunView.Stops run.dag.onFailure (DagEngine.completedStatus x.status) ∨
    DagEngine.newlyReady
      (nodesOfRun run.id (closeAll (DagEngine.completedStatus x.status) (toRfc3339 w.now) [node] w.db))
      run.edges run.dag = []

/-- What such a call leaves to the other running nodes. -/
structure Leaves (run : RunOf) (node : DagNodeExecution) (w w' : World) : Prop where
  kept : Kept run w'
  executions : w'.db.executions = w.db.executions
  running : ∀ n ∈ runningNodes run.id w.db, n.id ≠ node.id → n ∈ runningNodes run.id w'.db

theorem view_isSome (h : run.Stored db) : ∃ row, Rows.lookup DagRun.id run.id db.dagRuns = some row ∧
    row.id = run.id ∧ row.dagId = run.dag.id := by
  obtain ⟨row, hrow, hdag⟩ := h.row
  exact ⟨row, hrow, Rows.column_of_lookup hrow, hdag⟩

theorem Kept.returns_finishRun (h : Kept run w) :
    Task.Returns (fun _ w' => Kept run w' ∧ w'.db.executions = w.db.executions ∧
        w'.db.dagNodeExecutions = w.db.dagNodeExecutions ∧
        run.view w'.db = (run.view w.db).map fun view =>
          ⟨view.nodes, if RunView.ended view.nodes then RunView.final view.nodes else view.status⟩)
      (DagEngine.finishRun run.id) w := by
  have hended (view : RunView) (hview : run.view w.db = some view) : RunView.ended view.nodes =
      (nodesOfRun run.id w.db).all fun n => n.status.isTerminal := by
    obtain ⟨row, hrow, rfl⟩ := Option.map_eq_some_iff.mp hview
    simp only [RunView.ended, List.all_map, Function.comp_def]
  have hfinal (view : RunView) (hview : run.view w.db = some view) : RunView.final view.nodes =
      DagEngine.finalStatus (nodesOfRun run.id w.db) := by
    obtain ⟨row, hrow, rfl⟩ := Option.map_eq_some_iff.mp hview
    simp only [RunView.final, DagEngine.finalStatus, List.any_map, Function.comp_def]
  obtain ⟨row, hrow, hid, hdag⟩ := view_isSome h.stored
  have hview : run.view w.db = some ⟨_, row.status⟩ := congrArg _ hrow
  apply Task.Returns.after (run_select h.fault)
  by_cases hall : ((nodesOfRun run.id w.db).all fun n => n.status.isTerminal) = true
  · rw [if_pos hall]
    rw [← hid] at hrow
    have hfinish : Rows.lookup DagRun.id (row.finish (nodesOfRun run.id w.db) (toRfc3339 w.now)).id
        w.db.dagRuns = some row := hrow
    obtain ⟨found, hupdate⟩ := run_updateRun h.fault hfinish
    have hread := run_getRunById h.fault hrow
    rw [hid] at hread
    apply Task.Returns.after hread
    apply Task.Returns.after run_nowRfc3339
    apply Task.Returns.after hupdate
    refine .of_run rfl ⟨h.setRun _, rfl, rfl, ?_⟩
    rw [view_setRun (by exact hid), hview]
    simp only [Option.map_some, Option.some.injEq]
    rw [if_pos ((hended _ hview).trans hall), hfinal _ hview]
    rfl
  · rw [if_neg hall]
    refine .of_run rfl ⟨h, rfl, rfl, ?_⟩
    rw [hview]
    simp only [Option.map_some, Option.some.injEq]
    rw [if_neg]
    rw [hended _ hview]
    exact hall

theorem mem_runningNodes {node : DagNodeExecution} : node ∈ runningNodes run.id db ↔
    (node ∈ db.dagNodeExecutions ∧ node.dagRunId = run.id) ∧ node.status = .running := by
  simp only [runningNodes, List.mem_filter, mem_nodesOfRun, decide_eq_true_eq]

theorem Kept.returns_stopRun (h : Kept run w) :
    Task.Returns (fun _ w' => Kept run w' ∧ w'.db.executions = w.db.executions ∧
        (∀ n ∈ runningNodes run.id w.db, n ∈ runningNodes run.id w'.db) ∧
        run.view w'.db = (run.view w.db).map fun view =>
          ⟨RunView.skip view.nodes, if RunView.busy view.nodes then view.status else .failed⟩)
      (DagEngine.stopRun run.id) w := by
  let v : World := { w with
    db := DagCalls.closeAll .skipped (toRfc3339 w.now) (unstarted (nodesOfRun run.id w.db)) w.db }
  have hskip : Task.Returns (fun _ w' => w' = v) _ w := h.returns_skipAll
    (fun n hn => (mem_nodesOfRun.mp (List.mem_filter.mp hn).1).1)
    ((unique_nodesOfRun h.stored.uniqueNode).sublist (List.filter_sublist.map _))
  have hv : Kept run v := h.closeAll _ _ _
  have hrunning : ∀ n ∈ runningNodes run.id w.db, n ∈ runningNodes run.id v.db := by
    intro n hn
    obtain ⟨⟨hrow, hof⟩, hstatus⟩ := mem_runningNodes.mp hn
    refine mem_runningNodes.mpr ⟨⟨mem_closeAll hrow ?_, hof⟩, hstatus⟩
    intro hid
    obtain ⟨m, hm, hid⟩ := List.mem_map.mp hid
    obtain ⟨hm, hunstarted⟩ := List.mem_filter.mp hm
    rw [h.stored.uniqueNode.eq_of_column (mem_nodesOfRun.mp hm).1 hrow hid, hstatus] at hunstarted
    revert hunstarted
    decide
  obtain ⟨row, hrow, hid, hdag⟩ := view_isSome h.stored
  have hview : run.view w.db = some ⟨_, row.status⟩ := congrArg _ hrow
  have hbusy : RunView.busy ((nodesOfRun run.id w.db).map fun n => (n.id, n.status)) =
      (nodesOfRun run.id w.db).any fun n => n.status = .running := by
    simp only [RunView.busy, List.any_map, Function.comp_def]
  apply Task.Returns.after (run_select h.fault)
  apply hskip.bind
  rintro _ _ rfl
  by_cases hany : ((nodesOfRun run.id w.db).any fun n => n.status = .running) = true
  · rw [if_pos hany]
    refine .of_run rfl ⟨hv, rfl, hrunning, ?_⟩
    rw [view_skip h.stored.uniqueNode, hview]
    simp only [Option.map_some, hbusy, hany, if_true]
  · rw [if_neg hany]
    rw [← hid] at hrow
    have hread := run_getRunById (w := v) h.fault hrow
    rw [hid] at hread
    have hfail : Rows.lookup DagRun.id (row.fail (nodesOfRun run.id v.db) (toRfc3339 w.now)).id
        v.db.dagRuns = some row := hrow
    obtain ⟨found, hupdate⟩ := run_updateRun (w := v) h.fault hfail
    apply Task.Returns.after hread
    apply Task.Returns.after run_nowRfc3339
    apply Task.Returns.after (run_select hv.fault)
    apply Task.Returns.after hupdate
    refine .of_run rfl ⟨hv.setRun _, rfl, hrunning, ?_⟩
    rw [view_setRun (by exact hid), view_skip h.stored.uniqueNode, hview]
    simp only [Option.map_some, hbusy, hany]
    rfl

/-- The call, seen as the statuses of the run. -/
theorem Kept.returns_onExecutionComplete (engine : DagEngine) (h : Kept run w) {node : DagNodeExecution}
    {x : Execution} (hnode : Completing run node x w) (hquiet : StartsNone run node x w) :
    Task.Returns (fun _ w' => Leaves run node w w' ∧ run.view w'.db = (run.view w.db).map
        (RunView.complete run.dag.onFailure node.id (DagEngine.completedStatus x.status)))
      (engine.onExecutionComplete x.id) w := by
  obtain ⟨⟨hstored, hof⟩, hrunning⟩ := mem_runningNodes.mp hnode.running
  have hfind : (findNodeByExecutionId x.id).run w = some (.ok (some node), w) := by
    obtain ⟨found, hfound⟩ : ∃ found, Rows.lookup DagNodeExecution.executionId (some x.id)
        w.db.dagNodeExecutions = some found := Rows.lookup_isSome hstored hnode.execution
    have hsame := h.ownExecution found (Rows.mem_of_lookup hfound) node hstored x.id
      (Rows.column_of_lookup hfound) hnode.execution
    rw [findNodeByExecutionId, run_select h.fault, hfound, hsame]
  have hread : (ExecutionRepository.getById x.id).run w = some (.ok x, w) := by
    simp only [ExecutionRepository.getById, Task.run_bind, run_select h.fault, hnode.row, run_okOr_some]
  apply Task.Returns.after hfind
  apply Task.Returns.after hread
  apply Task.Returns.after run_nowRfc3339
  -- The node's row.
  let u : World := { w with
    db := DagCalls.closeAll (DagEngine.completedStatus x.status) (toRfc3339 w.now) [node] w.db }
  have hu : Kept run u := h.closeAll _ _ _
  obtain ⟨_, hclose⟩ := h.run_close hstored (DagEngine.completedStatus x.status) (toRfc3339 w.now)
  apply Task.Returns.after hclose
  -- The run's row.
  obtain ⟨row, hrow, hid, hdag⟩ := view_isSome h.stored
  rw [← hid] at hrow
  have hreadRun := run_getRunById (w := u) h.fault hrow
  rw [hid, ← hof] at hreadRun
  apply Task.Returns.after hreadRun
  let v : World := { u with db := DagRepository.setRun (row.count (DagEngine.completedStatus x.status)) u.db }
  have hv : Kept run v := hu.setRun _
  have hcounted : Rows.lookup DagRun.id (row.count (DagEngine.completedStatus x.status)).id u.db.dagRuns =
    some row := hrow
  obtain ⟨_, hcount⟩ := run_updateRun (w := u) h.fault hcounted
  apply Task.Returns.after hcount
  have hview : run.view v.db = (run.view w.db).map fun view =>
      ⟨RunView.write node.id (DagEngine.completedStatus x.status) view.nodes, view.status⟩ := by
    have hbefore : run.view w.db = some ⟨_, row.status⟩ := congrArg _ (hid ▸ hrow)
    rw [view_setRun (by exact hid), view_write, hbefore]
    rfl
  have hrest : ∀ n ∈ runningNodes run.id w.db, n.id ≠ node.id → n ∈ runningNodes run.id v.db := by
    intro n hn hne
    obtain ⟨⟨hrow, hof⟩, hstatus⟩ := mem_runningNodes.mp hn
    refine mem_runningNodes.mpr ⟨⟨mem_closeAll hrow ?_, hof⟩, hstatus⟩
    simpa using hne
  have hgetDag : (getById row.dagId).run v = some (.ok run.dag, v) := by
    simp only [getById, Task.run_bind, run_select hv.fault, hdag, hv.stored.dag, run_okOr_some]
  have hgetEdges : (getEdgesByDagId row.dagId).run v = some (.ok run.edges, v) := by
    rw [hdag, ← hv.stored.edges]
    exact run_select hv.fault
  apply Task.Returns.after hgetDag
  apply Task.Returns.after hgetEdges
  rw [hid]
  by_cases hstops : RunView.Stops run.dag.onFailure (DagEngine.completedStatus x.status)
  · rw [if_pos (by exact hstops)]
    apply hv.returns_stopRun.mono
    rintro _ w' ⟨hw', hexecutions, hkept, hafter⟩
    refine ⟨⟨hw', hexecutions, fun n hn hne => hkept n (hrest n hn hne)⟩, ?_⟩
    rw [hafter, hview, Option.map_map]
    congr 1
    funext view
    simp only [Function.comp_apply, RunView.complete, if_pos hstops]
  · rw [if_neg (by exact hstops)]
    have hadvance : (engine.advanceDagRun run.id run.edges run.dag).run v = some (.ok (), v) := by
      have hready : DagEngine.newlyReady (nodesOfRun run.id v.db) run.edges run.dag = [] :=
        hquiet.resolve_left hstops
      simp only [DagEngine.advanceDagRun, getNodeExecutionsByRunId, Task.run_bind, run_select hv.fault, hready]
      rfl
    apply Task.Returns.after hadvance
    apply hv.returns_finishRun.mono
    rintro _ w' ⟨hw', hexecutions, hnodes, hafter⟩
    refine ⟨⟨hw', hexecutions, fun n hn hne => ?_⟩, ?_⟩
    · have hn := mem_runningNodes.mp (hrest n hn hne)
      rw [← hnodes] at hn
      exact mem_runningNodes.mpr hn
    · rw [hafter, hview, Option.map_map]
      congr 1
      funext view
      simp only [Function.comp_apply, RunView.complete, if_neg hstops]

end

/-! ### Two calls -/

/-- The calls for two executions, one after the other. -/
def handleBoth (engine : DagEngine) (e f : Uuid) : Async Unit := do
  engine.onExecutionComplete e
  engine.onExecutionComplete f

/-- Neither of the calls for two nodes, one after the other, starts a node. -/
def BothStartNone (engine : DagEngine) (run : RunOf) (a : DagNodeExecution) (x : Execution)
    (b : DagNodeExecution) (y : Execution) (w : World) : Prop :=
  StartsNone run a x w ∧
    ∀ u, (engine.onExecutionComplete x.id).run w = some (.ok (), u) → StartsNone run b y u

/-- The statuses of the run's nodes. -/
def RunOf.statuses (run : RunOf) (db : Db) : List (Uuid × NodeStatus) :=
  (nodesOfRun run.id db).map fun n => (n.id, n.status)

section

variable {a b : DagNodeExecution} {x y : Execution}

theorem Kept.returns_both (engine : DagEngine) (h : Kept run w) (ha : Completing run a x w)
    (hb : Completing run b y w) (hne : a.id ≠ b.id) (hquiet : BothStartNone engine run a x b y w) :
    Task.Returns (fun _ w' => run.view w'.db = (run.view w.db).map fun view =>
        (view.complete run.dag.onFailure a.id (DagEngine.completedStatus x.status)).complete
          run.dag.onFailure b.id (DagEngine.completedStatus y.status))
      (handleBoth engine x.id y.id) w := by
  obtain ⟨_, u, hrun, hleaves, hview⟩ := h.returns_onExecutionComplete engine ha hquiet.1
  have hb' : Completing run b y u :=
    ⟨hleaves.running b hb.running hne.symm, hb.execution, hleaves.executions ▸ hb.row⟩
  apply Task.Returns.after hrun
  apply (hleaves.kept.returns_onExecutionComplete engine hb' (hquiet.2 u hrun)).mono
  rintro _ w' ⟨_, hview'⟩
  rw [hview', hview, Option.map_map]
  rfl

theorem Completing.running_view (h : Completing run a x w) : (a.id, .running) ∈ run.statuses w.db := by
  obtain ⟨hrow, hstatus⟩ := mem_runningNodes.mp h.running
  refine List.mem_map.mpr ⟨a, mem_nodesOfRun.mpr hrow, ?_⟩
  rw [hstatus]

/-- The calls for two running nodes return in either order, and if they start no node, then both orders
leave the same statuses exactly if the two completions do not clash. -/
theorem same_outcome_iff (engine : DagEngine) (h : Kept run w) (ha : Completing run a x w)
    (hb : Completing run b y w) (hne : a.id ≠ b.id) (hab : BothStartNone engine run a x b y w)
    (hba : BothStartNone engine run b y a x w) :
    ∃ u v, (handleBoth engine x.id y.id).run w = some (.ok (), u) ∧
      (handleBoth engine y.id x.id).run w = some (.ok (), v) ∧
      (run.view u.db = run.view v.db ↔
        ¬ RunView.Clashes run.dag.onFailure a.id b.id (DagEngine.completedStatus x.status)
          (DagEngine.completedStatus y.status) (run.statuses w.db)) := by
  obtain ⟨_, u, hu, huview⟩ := h.returns_both engine ha hb hne hab
  obtain ⟨_, v, hv, hvview⟩ := h.returns_both engine hb ha hne.symm hba
  refine ⟨u, v, hu, hv, ?_⟩
  obtain ⟨row, hrow, _⟩ := view_isSome h.stored
  have hview : run.view w.db = some ⟨run.statuses w.db, row.status⟩ := congrArg _ hrow
  rw [huview, hvview, hview]
  simp only [Option.map_some, Option.some.injEq]
  apply RunView.complete_comm_iff
  · exact RunView.isOutcome_completedStatus _
  · exact RunView.isOutcome_completedStatus _
  · exact hne
  · exact ha.running_view
  · exact hb.running_view

end

/-! ### A sample run -/

/-- Job 3 runs after jobs 1 and 2 have succeeded; a failure stops the run. -/
def splitRun : RunOf := { joinRun with dag := { joinRun.dag with onFailure := .stop } }

/-- Jobs 1 and 2 are running; the execution of job 1 has failed and that of job 2 has succeeded. -/
def splitWorld : World :=
  sampleWorld splitRun.dag splitRun.edges [1, 2, 3] [sampleExecution 7 1 .failed, sampleExecution 8 2 .success]
    [sampleNode 1 .running (some 7), sampleNode 2 .running (some 8), sampleNode 3 .waiting none]

theorem splitWorld_kept : Kept splitRun splitWorld where
  fault := rfl
  stored := stored_sample _ _ rfl (by decide) (by decide)
  refers := by decide
  ownExecution := by
    have hall : ∀ a ∈ splitWorld.db.dagNodeExecutions, ∀ b ∈ splitWorld.db.dagNodeExecutions,
        a.executionId.isSome → a.executionId = b.executionId → a = b := by decide
    intro a ha b hb e hae hbe
    exact hall a ha b hb (by rw [hae]; rfl) (hae.trans hbe.symm)

theorem split_first : Completing splitRun (sampleNode 1 .running (some 7)) (sampleExecution 7 1 .failed)
    splitWorld := by
  refine ⟨by decide, rfl, rfl⟩

theorem split_second : Completing splitRun (sampleNode 2 .running (some 8)) (sampleExecution 8 2 .success)
    splitWorld := by
  refine ⟨by decide, rfl, rfl⟩

/-- The failure stops the run, and job 3 is not ready while job 1 runs. -/
theorem split_quiet : BothStartNone .sample splitRun (sampleNode 1 .running (some 7)) (sampleExecution 7 1 .failed)
      (sampleNode 2 .running (some 8)) (sampleExecution 8 2 .success) splitWorld ∧
    BothStartNone .sample splitRun (sampleNode 2 .running (some 8)) (sampleExecution 8 2 .success)
      (sampleNode 1 .running (some 7)) (sampleExecution 7 1 .failed) splitWorld := by
  have hfailure : RunView.Stops splitRun.dag.onFailure
      (DagEngine.completedStatus (sampleExecution 7 1 .failed).status) := ⟨rfl, rfl⟩
  refine ⟨⟨.inl hfailure, ?_⟩, .inr rfl, fun _ _ => .inl hfailure⟩
  intro u hu
  cases hu
  exact .inr rfl

theorem same_outcome_iff_split : ∃ u v, (handleBoth .sample 7 8).run splitWorld = some (.ok (), u) ∧
    (handleBoth .sample 8 7).run splitWorld = some (.ok (), v) ∧
    (splitRun.view u.db = splitRun.view v.db ↔
      ¬ RunView.Clashes .stop 11 12 .failed .success [(11, .running), (12, .running), (13, .waiting)]) := by
  have hiff := same_outcome_iff .sample splitWorld_kept split_first split_second (by decide) split_quiet.1 split_quiet.2
  exact hiff

/-- Job 1 fails before job 2 succeeds: the run ends `partially`. After job 2 succeeded: the run ends
`failed`. -/
theorem order_matters : ¬ ∀ (run : RunOf) (w : World) (a b : DagNodeExecution) (x y : Execution),
    Kept run w → Completing run a x w → Completing run b y w → a.id ≠ b.id →
    BothStartNone .sample run a x b y w → BothStartNone .sample run b y a x w →
    ∀ u v, (handleBoth .sample x.id y.id).run w = some (.ok (), u) →
      (handleBoth .sample y.id x.id).run w = some (.ok (), v) → run.view u.db = run.view v.db := by
  intro hclaim
  obtain ⟨_, u, hu, huview⟩ := splitWorld_kept.returns_both .sample split_first split_second (by decide)
    split_quiet.1
  obtain ⟨_, v, hv, hvview⟩ := splitWorld_kept.returns_both .sample split_second split_first (by decide)
    split_quiet.2
  have hsame := hclaim _ _ _ _ _ _ splitWorld_kept split_first split_second (by decide) split_quiet.1
    split_quiet.2 u v hu hv
  rw [huview, hvview] at hsame
  revert hsame
  decide

end DagCalls

end Serverust
