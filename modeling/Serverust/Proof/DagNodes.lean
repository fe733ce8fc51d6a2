import Serverust.Library.Acyclic
import Serverust.Proof.Sequential

/-!
# Nodes of a DAG run

What the statements of the DAG repository return and write, and when a node is ready, as facts about the
nodes of one run.
-/

namespace Serverust

open Resumption

/-! ### Edges -/

/-- An edge leads from one job to the other. -/
def Leads (edges : List DagEdge) (a b : Uuid) : Prop :=
  ∃ edge ∈ edges, edge.upstreamJobId = a ∧ edge.downstreamJobId = b

/-- The edges of a DAG, as `getEdgesByDagId` returns them. -/
def edgesOf (dagId : Uuid) (db : Db) : List DagEdge :=
  (db.dagEdges.filter fun edge => edge.dagId = dagId).insertionSort fun a b => a.createdAt ≤ b.createdAt

/-- The jobs without an incoming edge. -/
def rootJobs (edges : List DagEdge) : List Uuid :=
  (DagService.allNodes edges).filter fun id => id ∉ edges.map DagEdge.downstreamJobId

section

variable {edges : List DagEdge} {job : Uuid}

theorem mem_allNodes : job ∈ DagService.allNodes edges ↔
    ∃ edge ∈ edges, job = edge.upstreamJobId ∨ job = edge.downstreamJobId := by
  simp only [DagService.allNodes, List.mem_dedup, List.mem_flatMap, List.mem_cons, List.not_mem_nil,
    or_false]

theorem mem_rootJobs : job ∈ rootJobs edges ↔
    job ∈ DagService.allNodes edges ∧ job ∉ edges.map DagEdge.downstreamJobId := by
  simp only [rootJobs, List.mem_filter, decide_eq_true_eq]

/-- The edges of a non-empty acyclic DAG leave some job without an incoming edge. -/
theorem exists_rootJob (hacyclic : Acyclic.On (Leads edges)) (hne : edges ≠ []) :
    ∃ job, job ∈ rootJobs edges := by
  obtain ⟨first, hfirst⟩ := List.exists_mem_of_ne_nil edges hne
  have hjob : first.upstreamJobId ∈ DagService.allNodes edges := mem_allNodes.mpr ⟨first, hfirst, .inl rfl⟩
  obtain ⟨root, hroot, hsource⟩ := hacyclic.exists_source hjob
  refine ⟨root, mem_rootJobs.mpr ⟨hroot, fun hdown => ?_⟩⟩
  obtain ⟨edge, hedge, rfl⟩ := List.mem_map.mp hdown
  exact hsource edge.upstreamJobId (mem_allNodes.mpr ⟨edge, hedge, .inl rfl⟩) ⟨edge, hedge, rfl, rfl⟩

end

/-! ### Readiness -/

/-- The statuses of an upstream node that meet the condition of an edge. -/
def EdgeCondition.meeting : EdgeCondition → List NodeStatus
  | .success | .other _ => [.success]
  | .failure => [.failed]
  | .always => [.success, .failed, .skipped, .cancelled]
  | .skipped => [.skipped]

theorem DagEngine.satisfied_iff {condition : EdgeCondition} {status : NodeStatus} :
    satisfied condition status = true ↔ status ∈ condition.meeting := by
  cases condition <;> cases status <;> simp [satisfied, EdgeCondition.meeting, NodeStatus.isTerminal]

theorem DagEngine.isTerminal_of_satisfied {condition : EdgeCondition} {upstream : NodeStatus}
    (h : DagEngine.satisfied condition upstream = true) : upstream.isTerminal = true := by
  cases condition with
  | always => exact h
  | success | failure | skipped | other =>
      simp only [DagEngine.satisfied, decide_eq_true_eq] at h
      rw [h]
      rfl

/-- A job that is ready has, for each incoming edge, an upstream node whose status meets its condition. -/
theorem DagEngine.satisfied_of_ready {job : Uuid} {edges : List DagEdge}
    {statuses : Uuid → Option NodeStatus} (h : DagEngine.isNodeReady job edges statuses = true)
    {edge : DagEdge} (hedge : edge ∈ edges) (hjob : edge.downstreamJobId = job) :
    ∃ status, statuses edge.upstreamJobId = some status ∧ DagEngine.satisfied edge.condition status = true := by
  have hthis := List.all_eq_true.mp h edge (List.mem_filter.mpr ⟨hedge, decide_eq_true hjob⟩)
  split at hthis
  · exact ⟨_, ‹_›, hthis⟩
  · cases hthis

theorem DagEngine.statusOf_eq_some {nodes : List DagNodeExecution} {job : Uuid} {status : NodeStatus}
    (h : DagEngine.statusOf nodes job = some status) :
    ∃ node ∈ nodes, node.jobId = job ∧ node.status = status := by
  obtain ⟨node, hnode, rfl⟩ := Option.map_eq_some_iff.mp h
  exact ⟨node, List.mem_reverse.mp (Rows.mem_of_lookup hnode), Rows.column_of_lookup hnode, rfl⟩

/-! ### Statements -/

namespace DagRepository

variable {db : Db} {w w' : World} {node : DagNodeExecution}

theorem mem_nodesOfRun {runId : Uuid} :
    node ∈ nodesOfRun runId db ↔ node ∈ db.dagNodeExecutions ∧ node.dagRunId = runId := by
  simp only [nodesOfRun, List.mem_insertionSort, List.mem_filter, decide_eq_true_eq]

/-- What a node's update makes of its row. -/
def overNode (node row : DagNodeExecution) : DagNodeExecution :=
  { row with executionId := node.executionId, status := node.status, startedAt := node.startedAt,
             completedAt := node.completedAt }

/-- The tables after a node's update. -/
def setNode (node : DagNodeExecution) (db : Db) : Db :=
  { db with dagNodeExecutions :=
      Rows.modify DagNodeExecution.id node.id (overNode node) db.dagNodeExecutions }

theorem run_updateNodeExecution_ok {row : DagNodeExecution}
    (h : (updateNodeExecution node).run w = some (.ok row, w')) :
    w' = { w with db := setNode node w.db } := by
  obtain ⟨_, u, hwrite, hread⟩ := Task.run_bind_ok h
  obtain ⟨db, hstatement, rfl⟩ := run_sql_ok hwrite
  obtain ⟨_, v, hselect, hrow⟩ := Task.run_bind_ok hread
  obtain ⟨_, rfl⟩ := run_select_ok hselect
  obtain ⟨_, rfl⟩ := run_okOr_ok hrow
  unfold writeNode at hstatement
  split at hstatement
  · cases hstatement
  · cases hstatement
    rfl

theorem run_updateNodeExecution (hfault : w.fault = none) {row : DagNodeExecution}
    (hrow : row ∈ w.db.dagNodeExecutions) (hid : row.id = node.id)
    (hrefers : refers node.executionId w.db = true) :
    ∃ found, (updateNodeExecution node).run w = some (.ok found, { w with db := setNode node w.db }) := by
  have hwrite : (sql (fun _ _ => .dag (.updateNode node)) fun _ => writeNode node).run w =
      some (.ok (), { w with db := setNode node w.db }) := by
    rw [run_sql hfault]
    simp only [writeNode, hrefers, Bool.not_true, Bool.false_eq_true, and_false, if_false]
    rfl
  have hkept : overNode node row ∈ (setNode node w.db).dagNodeExecutions := Rows.mem_modify_of_eq hrow hid
  obtain ⟨found, hfound⟩ : ∃ found, Rows.lookup DagNodeExecution.id node.id
      (setNode node w.db).dagNodeExecutions = some found := Rows.lookup_isSome hkept hid
  refine ⟨found, ?_⟩
  simp only [updateNodeExecution, getNodeExecutionById, Task.run_bind, hwrite,
    run_select (w := { w with db := setNode node w.db }) hfault, hfound, run_okOr_some]

theorem run_getRunById (hfault : w.fault = none) {run : DagRun}
    (hrun : Rows.lookup DagRun.id run.id w.db.dagRuns = some run) :
    (getRunById run.id).run w = some (.ok run, w) := by
  simp only [getRunById, Task.run_bind, run_select hfault, hrun, run_okOr_some]

/-- What a run's update makes of its row. -/
def overRun (run row : DagRun) : DagRun :=
  { row with status := run.status, startedAt := run.startedAt, completedAt := run.completedAt,
             completedNodes := run.completedNodes, failedNodes := run.failedNodes }

/-- The tables after a run's update. -/
def setRun (run : DagRun) (db : Db) : Db :=
  { db with dagRuns := Rows.modify DagRun.id run.id (overRun run) db.dagRuns }

theorem lookup_setRun {run row : DagRun} (hrow : Rows.lookup DagRun.id run.id db.dagRuns = some row) :
    Rows.lookup DagRun.id run.id (setRun run db).dagRuns = some (overRun run row) := by
  simp only [setRun]
  rw [Rows.lookup_modify (f := overRun run) fun _ => rfl, if_pos rfl, hrow]
  rfl

theorem run_updateRun (hfault : w.fault = none) {run row : DagRun}
    (hrow : Rows.lookup DagRun.id run.id w.db.dagRuns = some row) :
    ∃ found, (updateRun run).run w = some (.ok found, { w with db := setRun run w.db }) := by
  refine ⟨overRun run row, ?_⟩
  have hread : (getRunById run.id).run { w with db := setRun run w.db } =
      some (.ok (overRun run row), { w with db := setRun run w.db }) := by
    simp only [getRunById, Task.run_bind, run_select (w := { w with db := setRun run w.db }) hfault,
      lookup_setRun hrow, run_okOr_some]
  simp only [updateRun, Task.run_bind, run_execute hfault]
  exact hread

end DagRepository

/-- The nodes of a run that are running. -/
def runningNodes (runId : Uuid) (db : Db) : List DagNodeExecution :=
  (DagRepository.nodesOfRun runId db).filter fun node => node.status = .running

/-! ### A sample DAG -/

def HashOrder.unchanged : HashOrder := ⟨id, fun _ => .refl _⟩

def DagEngine.sample : DagEngine := ⟨⟨1, 3⟩, .unchanged, .unchanged⟩

/-- Job 2 runs after job 1 has succeeded. -/
def DagEdge.sample : DagEdge where
  id := 6
  dagId := 5
  upstreamJobId := 1
  downstreamJobId := 2
  condition := .success
  createdAt := ""

def Dag.sample : Dag where
  id := 5
  name := "dag"
  enabled := true
  maxConcurrentNodes := 1
  onFailure := .continue

def Db.sampleDag : Db :=
  { Db.empty with
    jobs := [.sample 0, { Job.sample 0 with id := 2 }]
    dags := [.sample]
    dagEdges := [.sample] }

theorem acyclic_sample : Acyclic.On (Leads [DagEdge.sample]) := by
  apply Acyclic.on_of_rank id
  rintro a b ⟨edge, hedge, rfl, rfl⟩
  rw [List.mem_singleton.mp hedge]
  exact Nat.lt_succ_self 1

end Serverust
