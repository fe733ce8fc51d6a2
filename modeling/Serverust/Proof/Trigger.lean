import Serverust.Model.DagEngine
import Serverust.Proof.DagNodes

/-!
# Triggering a DAG

Triggering a DAG sets the nodes of its root jobs to `ready`, and advancing a run starts nodes that are
`waiting`. So no root starts, and no other node can, because none of its upstream nodes has ended.
-/

namespace Serverust

open Resumption

/-- What triggering a DAG is to achieve: as many root jobs run as may run at once, each with an execution
that waits in the queue, and nothing else runs. -/
structure Triggered (dag : Dag) (edges : List DagEdge) (runId : Uuid) (db : Db) : Prop where
  count : (runningNodes runId db).length = min dag.maxConcurrentNodes.toNat (rootJobs edges).length
  root : ∀ node ∈ runningNodes runId db, node.jobId ∈ rootJobs edges
  queued : ∀ node ∈ runningNodes runId db, ∃ executionId, node.executionId = some executionId ∧
    ∃ row ∈ db.jobQueue, row.executionId = executionId ∧ row.status = .queued

/-- Every node belongs to a run. -/
def NodesLinked (db : Db) : Prop := ∀ node ∈ db.dagNodeExecutions, ∃ run ∈ db.dagRuns, run.id = node.dagRunId

namespace Trigger

variable {w w' : World} {runId : Uuid}

/-! ### The statements of a trigger -/

theorem run_createRun_ok {run row : DagRun} (h : (DagRepository.createRun run).run w = some (.ok row, w')) :
    row.id = run.id ∧ Rows.hits DagRun.id run.id w.db.dagRuns = 0 ∧
      w'.db.dagNodeExecutions = w.db.dagNodeExecutions := by
  obtain ⟨_, u, hinsert, hread⟩ := Task.run_bind_ok h
  obtain ⟨db, hstatement, rfl⟩ := run_sql_ok hinsert
  obtain ⟨found, v, hselect, hrow⟩ := Task.run_bind_ok hread
  obtain ⟨rfl, rfl⟩ := run_select_ok hselect
  obtain ⟨hfound, rfl⟩ := run_okOr_ok hrow
  refine ⟨Rows.column_of_lookup hfound, ?_⟩
  unfold DagRepository.insertRun at hstatement
  split at hstatement
  · cases hstatement
  · rename_i hnew
    split at hstatement
    · cases hstatement
    · cases hstatement
      exact ⟨not_not.mp hnew, rfl⟩

theorem run_createNode_ok {jobId : Uuid}
    (h : (DagEngine.createNode runId jobId).run w = some (.ok (), w')) :
    ∃ node : DagNodeExecution, node.jobId = jobId ∧ node.status = .waiting ∧
      w'.db.dagNodeExecutions = w.db.dagNodeExecutions ++ [node] := by
  obtain ⟨id, u, hid, hrest⟩ := Task.run_bind_ok h
  cases hid
  obtain ⟨now, u, hnow, hrest⟩ := Task.run_bind_ok hrest
  cases hnow
  obtain ⟨_, u, hcreate, hrest⟩ := Task.run_bind_ok hrest
  cases hrest
  obtain ⟨_, u, hinsert, hread⟩ := Task.run_bind_ok hcreate
  obtain ⟨db, hstatement, rfl⟩ := run_sql_ok hinsert
  obtain ⟨_, v, hselect, hrow⟩ := Task.run_bind_ok hread
  obtain ⟨_, rfl⟩ := run_select_ok hselect
  obtain ⟨_, rfl⟩ := run_okOr_ok hrow
  refine ⟨.new w.nextUuid runId jobId (toRfc3339 w.now), rfl, rfl, ?_⟩
  unfold DagRepository.insertNode at hstatement
  repeat' split at hstatement
  all_goals cases hstatement
  rfl

/-! ### The nodes of a run that is being triggered -/

/-- Every node of the run is new and stands for one of the jobs. -/
def Created (runId : Uuid) (jobs : List Uuid) (w : World) : Prop :=
  ∀ node ∈ w.db.dagNodeExecutions, node.dagRunId = runId → node.status = .waiting ∧ node.jobId ∈ jobs

/-- Every node of the run has not started, and is one of these nodes. -/
def Unstarted (runId : Uuid) (nodes : List DagNodeExecution) (w : World) : Prop :=
  ∀ row ∈ w.db.dagNodeExecutions, row.dagRunId = runId →
    (row.status = .waiting ∨ row.status = .ready) ∧ ∃ node ∈ nodes, node.id = row.id ∧ node.jobId = row.jobId

/-- The row of this node is ready. -/
def Readied (node : DagNodeExecution) (w : World) : Prop :=
  ∀ row ∈ w.db.dagNodeExecutions, row.id = node.id → row.status = .ready

theorem Created.createNode {jobs : List Uuid} {jobId : Uuid} (hjob : jobId ∈ jobs)
    (h : Created runId jobs w) (hrun : (DagEngine.createNode runId jobId).run w = some (.ok (), w')) :
    Created runId jobs w' := by
  obtain ⟨new, hjobId, hstatus, hnodes⟩ := run_createNode_ok hrun
  intro node hnode hof
  rw [hnodes] at hnode
  rcases List.mem_append.mp hnode with hold | hlast
  · exact h node hold hof
  · rw [List.mem_singleton.mp hlast, hjobId]
    exact ⟨hstatus, hjob⟩

/-- The pass of the loop that sets root nodes to ready. -/
def setReady (node : DagNodeExecution) : Async Unit := do
  let _ ← DagRepository.updateNodeExecution { node with status := .ready }

theorem run_setReady_ok {node : DagNodeExecution} (h : (setReady node).run w = some (.ok (), w')) :
    w'.db.dagNodeExecutions = Rows.modify DagNodeExecution.id node.id
      (DagRepository.overNode { node with status := .ready }) w.db.dagNodeExecutions := by
  obtain ⟨_, u, hupdate, hrest⟩ := Task.run_bind_ok h
  cases hrest
  rw [DagRepository.run_updateNodeExecution_ok hupdate]
  rfl

theorem Unstarted.setReady {nodes : List DagNodeExecution} {node : DagNodeExecution}
    (h : Unstarted runId nodes w) (hrun : (setReady node).run w = some (.ok (), w')) :
    Unstarted runId nodes w' := by
  intro row hrow hof
  rw [run_setReady_ok hrun] at hrow
  obtain ⟨old, hold, rfl⟩ := Rows.mem_modify.mp hrow
  split at hof
  · obtain ⟨_, hfrom⟩ := h old hold hof
    rw [if_pos ‹_›]
    exact ⟨.inr rfl, hfrom⟩
  · rw [if_neg ‹_›]
    exact h old hold hof

theorem Readied.set {node : DagNodeExecution} (hrun : (setReady node).run w = some (.ok (), w')) :
    Readied node w' := by
  intro row hrow hid
  rw [run_setReady_ok hrun] at hrow
  obtain ⟨old, hold, rfl⟩ := Rows.mem_modify.mp hrow
  split
  · rfl
  · rename_i hne
    rw [if_neg hne] at hid
    exact absurd hid hne

theorem Readied.keep {node other : DagNodeExecution} (h : Readied node w)
    (hrun : (setReady other).run w = some (.ok (), w')) : Readied node w' := by
  intro row hrow hid
  rw [run_setReady_ok hrun] at hrow
  obtain ⟨old, hold, rfl⟩ := Rows.mem_modify.mp hrow
  split
  · rfl
  · rename_i hne
    rw [if_neg hne] at hid
    exact h old hold hid

/-- A run of which no node has started, and whose root nodes are all ready, is advanced without
starting a node. -/
theorem newlyReady_eq_nil {edges : List DagEdge} {dag : Dag} {nodes : List DagNodeExecution}
    (hunstarted : ∀ node ∈ nodes, node.status = .waiting ∨ node.status = .ready)
    (hjobs : ∀ node ∈ nodes, node.jobId ∈ DagService.allNodes edges)
    (hroots : ∀ node ∈ nodes, node.status = .waiting → node.jobId ∉ rootJobs edges) :
    DagEngine.newlyReady nodes edges dag = [] := by
  have hnone : nodes.filter (fun node => node.status = .waiting &&
      DagEngine.isNodeReady node.jobId edges (DagEngine.statusOf nodes)) = [] := by
    apply List.filter_eq_nil_iff.mpr
    intro node hnode hready
    obtain ⟨hwaiting, hready⟩ := Bool.and_eq_true_iff.mp hready
    have hnotRoot := hroots node hnode (of_decide_eq_true hwaiting)
    have hdown : node.jobId ∈ edges.map DagEdge.downstreamJobId := by
      by_contra hno
      exact hnotRoot (mem_rootJobs.mpr ⟨hjobs node hnode, hno⟩)
    obtain ⟨edge, hedge, hjob⟩ := List.mem_map.mp hdown
    obtain ⟨status, hstatus, hsatisfied⟩ := DagEngine.satisfied_of_ready hready hedge hjob
    have hterminal := DagEngine.isTerminal_of_satisfied hsatisfied
    obtain ⟨upstream, hupstream, _, rfl⟩ := DagEngine.statusOf_eq_some hstatus
    rcases hunstarted upstream hupstream with heq | heq
    · rw [heq] at hterminal
      cases hterminal
    · rw [heq] at hterminal
      cases hterminal
  unfold DagEngine.newlyReady
  rw [hnone]
  exact List.take_nil

end Trigger

namespace DagEngine

open Trigger

variable {w w' : World} {dagId : Uuid} {triggerType : String} {run : DagRun}

/-- The stages of a trigger that succeeds: the run is created, then its nodes, then its root nodes are
set to ready, then it is advanced. -/
structure Stages (engine : DagEngine) (dagId : Uuid) (w w' : World) (run : DagRun) (dag : Dag)
    (created filled readied : World) : Prop where
  nonempty : edgesOf dagId w.db ≠ []
  found : Rows.lookup Dag.id dagId w.db.dags = some dag
  unused : Rows.hits DagRun.id run.id w.db.dagRuns = 0
  kept : created.db.dagNodeExecutions = w.db.dagNodeExecutions
  fill : ((engine.jobOrder.order (DagService.allNodes (edgesOf dagId w.db))).forM
    (createNode run.id)).run created = some (.ok (), filled)
  ready : (((DagRepository.nodesOfRun run.id filled.db).filter fun node => node.jobId ∈ findRootNodes
    (edgesOf dagId w.db) (engine.jobOrder.order (DagService.allNodes (edgesOf dagId w.db)))).forM
      setReady).run filled = some (.ok (), readied)
  advance : (engine.advanceDagRun run.id (edgesOf dagId w.db) dag).run readied = some (.ok (), w')

theorem triggerDag_stages (engine : DagEngine)
    (hrun : (engine.triggerDag dagId triggerType).run w = some (.ok run, w')) :
    ∃ dag created filled readied, Stages engine dagId w w' run dag created filled readied := by
  obtain ⟨dag, _, hdag, hafterDag⟩ := Task.run_bind_ok hrun
  obtain ⟨_, _, hselect, hrow⟩ := Task.run_bind_ok hdag
  obtain ⟨rfl, rfl⟩ := run_select_ok hselect
  obtain ⟨hfound, rfl⟩ := run_okOr_ok hrow
  split at hafterDag
  · cases hafterDag
  obtain ⟨_, _, hselect, hafterEdges⟩ := Task.run_bind_ok hafterDag
  obtain ⟨rfl, rfl⟩ := run_select_ok hselect
  split at hafterEdges
  · cases hafterEdges
  rename_i hne
  split at hafterEdges
  · cases hafterEdges
  obtain ⟨runId, _, ⟨⟩, hafterId⟩ := Task.run_bind_ok hafterEdges
  obtain ⟨createdAt, _, ⟨⟩, hafterCreated⟩ := Task.run_bind_ok hafterId
  obtain ⟨startedAt, _, ⟨⟩, hafterStarted⟩ := Task.run_bind_ok hafterCreated
  obtain ⟨row, created, hcreate, hafterRun⟩ := Task.run_bind_ok hafterStarted
  obtain ⟨hrowId, hunused, hkept⟩ := run_createRun_ok hcreate
  obtain ⟨_, filled, hfill, hafterFill⟩ := Task.run_bind_ok hafterRun
  obtain ⟨_, _, hselect, hafterRead⟩ := Task.run_bind_ok hafterFill
  obtain ⟨rfl, rfl⟩ := run_select_ok hselect
  obtain ⟨_, readied, hready, hafterReady⟩ := Task.run_bind_ok hafterRead
  obtain ⟨_, advanced, hadvance, hreread⟩ := Task.run_bind_ok hafterReady
  obtain ⟨_, _, hselect, hrow⟩ := Task.run_bind_ok hreread
  obtain ⟨rfl, rfl⟩ := run_select_ok hselect
  obtain ⟨hfinal, rfl⟩ := run_okOr_ok hrow
  have hid : run.id = row.id := Rows.column_of_lookup hfinal
  refine ⟨dag, created, filled, readied, ?_, hfound, ?_, hkept, ?_, ?_, ?_⟩
  · exact fun hnil => hne (by rw [List.isEmpty_iff]; exact hnil)
  · rw [hid, hrowId]
    exact hunused
  all_goals
    rw [hid]
    assumption

/-- A trigger that succeeds leaves its run without a running node. -/
theorem triggerDag_runs_nothing (engine : DagEngine) (hlinked : NodesLinked w.db)
    (hrun : (engine.triggerDag dagId triggerType).run w = some (.ok run, w')) :
    runningNodes run.id w'.db = [] := by
  obtain ⟨dag, created, filled, readied, hstages⟩ := triggerDag_stages engine hrun
  have hjobs := fun job => (engine.jobOrder.perm (DagService.allNodes (edgesOf dagId w.db))).mem_iff (a := job)
  -- The run is new, so its nodes are those that the first loop creates.
  have hcreated : Created run.id (engine.jobOrder.order (DagService.allNodes (edgesOf dagId w.db)))
      filled := by
    apply Task.run_forM_ok (fun job hjob _ _ h hrun => h.createNode hjob hrun) hstages.fill
    intro node hnode hof
    rw [hstages.kept] at hnode
    obtain ⟨old, hold, hid⟩ := hlinked node hnode
    exact absurd (hid.trans hof) (Rows.hits_eq_zero.mp hstages.unused old hold)
  have hunstarted : Unstarted run.id (DagRepository.nodesOfRun run.id filled.db) readied := by
    apply Task.run_forM_ok (fun node _ _ _ h hrun => h.setReady hrun) hstages.ready
    intro node hnode hof
    exact ⟨.inl (hcreated node hnode hof).1, node, DagRepository.mem_nodesOfRun.mpr ⟨hnode, hof⟩, rfl, rfl⟩
  have hreadied := Task.run_forM_each (fun _ _ _ _ => Readied.set) (fun _ _ _ _ _ h => h.keep)
    hstages.ready
  have hnil : newlyReady (DagRepository.nodesOfRun run.id readied.db) (edgesOf dagId w.db) dag = [] := by
    apply newlyReady_eq_nil
    · intro node hnode
      obtain ⟨hnode, hof⟩ := DagRepository.mem_nodesOfRun.mp hnode
      exact (hunstarted node hnode hof).1
    · intro node hnode
      obtain ⟨hnode, hof⟩ := DagRepository.mem_nodesOfRun.mp hnode
      obtain ⟨_, old, hold, _, hjob⟩ := hunstarted node hnode hof
      obtain ⟨hold, hof'⟩ := DagRepository.mem_nodesOfRun.mp hold
      exact hjob ▸ (hjobs _).mp (hcreated old hold hof').2
    · intro node hnode hwaiting hroot
      obtain ⟨hnode, hof⟩ := DagRepository.mem_nodesOfRun.mp hnode
      obtain ⟨_, old, hold, hid, hjob⟩ := hunstarted node hnode hof
      obtain ⟨hjob', hdown⟩ := mem_rootJobs.mp (hjob ▸ hroot)
      have hset := hreadied old (List.mem_filter.mpr ⟨hold, decide_eq_true
        (List.mem_filter.mpr ⟨(hjobs _).mpr hjob', decide_eq_true hdown⟩)⟩) node hnode hid.symm
      rw [hwaiting] at hset
      cases hset
  -- Nothing is started, so the nodes are as the second loop left them.
  obtain ⟨_, _, hselect, hstart⟩ := Task.run_bind_ok hstages.advance
  obtain ⟨rfl, rfl⟩ := run_select_ok hselect
  rw [hnil] at hstart
  cases hstart
  apply List.filter_eq_nil_iff.mpr
  intro node hnode hrunning
  obtain ⟨hnode, hof⟩ := DagRepository.mem_nodesOfRun.mp hnode
  rcases (hunstarted node hnode hof).1 with heq | heq
  · rw [heq] at hrunning
    cases hrunning
  · rw [heq] at hrunning
    cases hrunning

/-- No trigger of an acyclic DAG that succeeds achieves what it is to achieve. -/
theorem triggerDag_never_starts (engine : DagEngine) (hlinked : NodesLinked w.db)
    (hacyclic : Acyclic.On (Leads (edgesOf dagId w.db)))
    (hlimit : ∀ dag, Rows.lookup Dag.id dagId w.db.dags = some dag → 1 ≤ dag.maxConcurrentNodes)
    (hrun : (engine.triggerDag dagId triggerType).run w = some (.ok run, w')) :
    ∃ dag, Rows.lookup Dag.id dagId w.db.dags = some dag ∧
      ¬ Triggered dag (edgesOf dagId w.db) run.id w'.db := by
  obtain ⟨dag, _, _, _, hstages⟩ := triggerDag_stages engine hrun
  refine ⟨dag, hstages.found, fun htriggered => ?_⟩
  obtain ⟨root, hroot⟩ := exists_rootJob hacyclic hstages.nonempty
  have hpos := List.length_pos_of_mem hroot
  have hlimit := hlimit dag hstages.found
  have hcount := htriggered.count
  rw [triggerDag_runs_nothing engine hlinked hrun, List.length_nil] at hcount
  omega

theorem sample_triggered : ∃ run w',
    (DagEngine.sample.triggerDag 5 "manual").run (.start .sampleDag Calendar.epoch 1000) =
      some (.ok run, w') ∧ runningNodes run.id w'.db = [] := by
  have heval : ((DagEngine.sample.triggerDag 5 "manual").run (.start .sampleDag Calendar.epoch 1000)).map
      (fun r => r.1.toOption.map fun run => runningNodes run.id r.2.db) = some (some []) := rfl
  obtain ⟨⟨r, w'⟩, hrun, heq⟩ := Option.map_eq_some_iff.mp heval
  cases r with
  | ok run => exact ⟨run, w', hrun, Option.some.inj heq⟩
  | error e => cases heq

theorem triggerDag_never_starts_sample : ∃ run w',
    (DagEngine.sample.triggerDag 5 "manual").run (.start .sampleDag Calendar.epoch 1000) =
      some (.ok run, w') ∧
    ∃ dag, Rows.lookup Dag.id 5 Db.sampleDag.dags = some dag ∧
      ¬ Triggered dag (edgesOf 5 .sampleDag) run.id w'.db := by
  obtain ⟨run, w', hrun, _⟩ := sample_triggered
  refine ⟨run, w', hrun, ?_⟩
  apply triggerDag_never_starts DagEngine.sample (w := .start .sampleDag Calendar.epoch 1000) ?_ ?_ ?_ hrun
  · exact List.forall_mem_nil _
  · exact acyclic_sample
  · rintro _ ⟨⟩
    exact le_rfl

/-- The root job of the sample DAG does not start. -/
theorem root_not_started : ¬ ∀ run w',
    (DagEngine.sample.triggerDag 5 "manual").run (.start .sampleDag Calendar.epoch 1000) =
      some (.ok run, w') → Triggered .sample [.sample] run.id w'.db := by
  intro hclaim
  obtain ⟨run, w', hrun, hnone⟩ := sample_triggered
  have hcount := (hclaim run w' hrun).count
  rw [hnone] at hcount
  revert hcount
  decide

end DagEngine

end Serverust
