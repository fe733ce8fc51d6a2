import Serverust.Model.DagService
import Serverust.Model.ExecutionService

/-!
# DAG engine

A run of a DAG has one node for each job of its edges. Triggering a DAG creates the nodes, and every
completion of a node's execution starts the waiting nodes it makes ready.
-/

namespace Serverust

open Resumption

/-! ### Repository -/

namespace DagRun

def new (id dagId : Uuid) (triggerType : String) (totalNodes : Int) (now : String) : DagRun where
  id := id
  dagId := dagId
  status := .pending
  triggerType := triggerType
  startedAt := none
  completedAt := none
  totalNodes := totalNodes
  completedNodes := 0
  failedNodes := 0
  createdAt := now

end DagRun

namespace DagNodeExecution

def new (id dagRunId jobId : Uuid) (now : String) : DagNodeExecution where
  id := id
  dagRunId := dagRunId
  jobId := jobId
  executionId := none
  status := .waiting
  startedAt := none
  completedAt := none
  createdAt := now

end DagNodeExecution

namespace DagRepository

def getById (id : Uuid) : Async Dag := do
  let row ← select (fun row => .dag (.getDag id row)) fun db => Rows.lookup Dag.id id db.dags
  okOr row (.notFound ("DAG not found: " ++ id.text))

/-- `ORDER BY created_at ASC`. -/
def getEdgesByDagId (dagId : Uuid) : Async (List DagEdge) :=
  select (fun edges => .dag (.getEdges dagId edges)) fun db =>
    (db.dagEdges.filter fun edge => edge.dagId = dagId).insertionSort fun a b =>
      a.createdAt ≤ b.createdAt

def getRunById (id : Uuid) : Async DagRun := do
  let row ← select (fun row => .dag (.getRun id row)) fun db => Rows.lookup DagRun.id id db.dagRuns
  okOr row (.notFound ("DAG run not found: " ++ id.text))

def insertRun (run : DagRun) (db : Db) : Except SqlError (Unit × Db) :=
  if Rows.hits DagRun.id run.id db.dagRuns ≠ 0 then .error (.unique "dag_runs.id")
  else if Rows.hits Dag.id run.dagId db.dags = 0 then .error .foreignKey
  else .ok ((), { db with dagRuns := db.dagRuns ++ [run] })

def createRun (run : DagRun) : Async DagRun := do
  sql (fun _ _ => .dag (.createRun run)) fun _ => insertRun run
  getRunById run.id

def updateRun (run : DagRun) : Async DagRun := do
  let _ ← execute (fun _ => .dag (.updateRun run)) fun db =>
    (Rows.hits DagRun.id run.id db.dagRuns,
      { db with dagRuns := Rows.modify DagRun.id run.id (fun row =>
          { row with status := run.status, startedAt := run.startedAt, completedAt := run.completedAt,
                     completedNodes := run.completedNodes
                     failedNodes := run.failedNodes }) db.dagRuns })
  getRunById run.id

def getNodeExecutionById (id : Uuid) : Async DagNodeExecution := do
  let row ← select (fun _ => .other) fun db =>
    Rows.lookup DagNodeExecution.id id db.dagNodeExecutions
  okOr row (.notFound ("Node execution not found: " ++ id.text))

/-- A reference to an execution is null or refers to a row. -/
def refers (executionId : Option Uuid) (db : Db) : Bool :=
  match executionId with
  | none => true
  | some id => Rows.hits Execution.id id db.executions ≠ 0

def insertNode (node : DagNodeExecution) (db : Db) : Except SqlError (Unit × Db) :=
  if Rows.hits DagNodeExecution.id node.id db.dagNodeExecutions ≠ 0 then
    .error (.unique "dag_node_executions.id")
  else if Rows.hits DagRun.id node.dagRunId db.dagRuns = 0 then .error .foreignKey
  else if Rows.hits Job.id node.jobId db.jobs = 0 then .error .foreignKey
  else if !refers node.executionId db then .error .foreignKey
  else .ok ((), { db with dagNodeExecutions := db.dagNodeExecutions ++ [node] })

def createNodeExecution (node : DagNodeExecution) : Async DagNodeExecution := do
  sql (fun _ _ => .dag (.createNode node)) fun _ => insertNode node
  getNodeExecutionById node.id

def writeNode (node : DagNodeExecution) (db : Db) : Except SqlError (Unit × Db) :=
  if Rows.hits DagNodeExecution.id node.id db.dagNodeExecutions ≠ 0 ∧ !refers node.executionId db then
    .error .foreignKey
  else .ok ((), { db with
    dagNodeExecutions := Rows.modify DagNodeExecution.id node.id (fun row =>
      { row with executionId := node.executionId, status := node.status, startedAt := node.startedAt,
                 completedAt := node.completedAt }) db.dagNodeExecutions })

def updateNodeExecution (node : DagNodeExecution) : Async DagNodeExecution := do
  sql (fun _ _ => .dag (.updateNode node)) fun _ => writeNode node
  getNodeExecutionById node.id

/-- The nodes of a run, `ORDER BY created_at ASC`. -/
def nodesOfRun (runId : Uuid) (db : Db) : List DagNodeExecution :=
  (db.dagNodeExecutions.filter fun node => node.dagRunId = runId).insertionSort fun a b =>
    a.createdAt ≤ b.createdAt

def getNodeExecutionsByRunId (runId : Uuid) : Async (List DagNodeExecution) :=
  select (fun nodes => .dag (.getNodes runId nodes)) (nodesOfRun runId)

def findNodeByExecutionId (executionId : Uuid) : Async (Option DagNodeExecution) :=
  select (fun row => .dag (.findNode executionId row)) fun db =>
    Rows.lookup DagNodeExecution.executionId (some executionId) db.dagNodeExecutions

end DagRepository

/-! ### Engine -/

structure DagEngine where
  queueManager : QueueManager
  jobOrder : HashOrder
  degreeOrder : HashOrder

namespace DagEngine

/-- The status of a job's node; of two nodes of one job the later counts. -/
def statusOf (nodes : List DagNodeExecution) (jobId : Uuid) : Option NodeStatus :=
  (Rows.lookup DagNodeExecution.jobId jobId nodes.reverse).map DagNodeExecution.status

/-- Whether an upstream status meets the condition of an edge. -/
def satisfied (condition : EdgeCondition) (upstream : NodeStatus) : Bool :=
  match condition with
  | .success => upstream = .success
  | .failure => upstream = .failed
  | .always => upstream.isTerminal
  | .skipped => upstream = .skipped
  | .other _ => upstream = .success

def isNodeReady (jobId : Uuid) (edges : List DagEdge) (statuses : Uuid → Option NodeStatus) : Bool :=
  (edges.filter fun edge => edge.downstreamJobId = jobId).all fun edge =>
    match statuses edge.upstreamJobId with
    | some upstream => satisfied edge.condition upstream
    | none => false

def findRootNodes (edges : List DagEdge) (allJobIds : List Uuid) : List Uuid :=
  allJobIds.filter fun id => id ∉ edges.map DagEdge.downstreamJobId

/-- The nodes a call of `advance_dag_run` starts: the first waiting nodes that are ready, up to the
free slots. -/
def newlyReady (nodes : List DagNodeExecution) (edges : List DagEdge) (dag : Dag) :
    List DagNodeExecution :=
  let runningCount := nodes.countP fun node => node.status = .running
  let availableSlots := max (dag.maxConcurrentNodes - runningCount) 0
  (nodes.filter fun node =>
    node.status = .waiting && isNodeReady node.jobId edges (statusOf nodes)).take availableSlots.toNat

def failNode (node : DagNodeExecution) : Async Unit := do
  let now ← nowRfc3339
  let _ ← DagRepository.updateNodeExecution { node with status := .failed, completedAt := some now }

variable (engine : DagEngine)

/-- Create and enqueue the execution of a node. The node fails if its job is gone or its execution
cannot be created; an enqueue that fails is only logged. -/
def startNode (node : DagNodeExecution) : Async Unit := do
  match ← (JobRepository.getById node.jobId).attempt with
  | .error _ => failNode node
  | .ok job =>
    match ← (ExecutionService.createExecution node.jobId none).attempt with
    | .error _ => failNode node
    | .ok execution =>
      let now ← nowRfc3339
      let _ ← DagRepository.updateNodeExecution
        { node with executionId := some execution.id, status := .running, startedAt := some now }
      let _ ← (engine.queueManager.enqueue (.new execution job job.priority)).attempt
      return ()

def advanceDagRun (dagRunId : Uuid) (edges : List DagEdge) (dag : Dag) : Async Unit := do
  let nodes ← DagRepository.getNodeExecutionsByRunId dagRunId
  (newlyReady nodes edges dag).forM engine.startNode

def createNode (dagRunId jobId : Uuid) : Async Unit := do
  let id ← newV4
  let now ← nowRfc3339
  let _ ← DagRepository.createNodeExecution (.new id dagRunId jobId now)

def triggerDag (dagId : Uuid) (triggerType : String) : Async DagRun := do
  let dag ← DagRepository.getById dagId
  if !dag.enabled then
    Task.throw (.badRequest ("DAG '" ++ dag.name ++ "' is disabled"))
  else
    let edges ← DagRepository.getEdgesByDagId dagId
    if edges.isEmpty then
      Task.throw (.badRequest "DAG has no edges — nothing to execute")
    else
      match DagService.validateNoCycles engine.degreeOrder edges with
      | .error e => Task.throw e
      | .ok _ =>
        let jobIds := engine.jobOrder.order (DagService.allNodes edges)
        let runId ← newV4
        let createdAt ← nowRfc3339
        let startedAt ← nowRfc3339
        let run ← DagRepository.createRun
          { DagRun.new runId dagId triggerType jobIds.length createdAt with
            status := .running, startedAt := some startedAt }
        jobIds.forM (createNode run.id)
        let rootNodes := findRootNodes edges jobIds
        let nodes ← DagRepository.getNodeExecutionsByRunId run.id
        (nodes.filter fun node => node.jobId ∈ rootNodes).forM fun node => do
          let _ ← DagRepository.updateNodeExecution { node with status := .ready }
        engine.advanceDagRun run.id edges dag
        DagRepository.getRunById run.id

/-- The node status of a finished execution. -/
def completedStatus : ExecutionStatus → NodeStatus
  | .success => .success
  | .cancelled => .cancelled
  | _ => .failed

/-- `node_status == "failed" || node_status == "cancelled"`. -/
def isFailure (status : NodeStatus) : Bool := status = .failed ∨ status = .cancelled

/-- `on_failure = 'stop'` after a failure: skip what has not started, and end the run if nothing runs. -/
def stopRun (runId : Uuid) : Async Unit := do
  let allNodes ← DagRepository.getNodeExecutionsByRunId runId
  (allNodes.filter fun n => n.status = .waiting ∨ n.status = .ready).forM fun n => do
    let now ← nowRfc3339
    let _ ← DagRepository.updateNodeExecution { n with status := .skipped, completedAt := some now }
  if allNodes.any fun n => n.status = .running then return ()
  else
    let finalRun ← DagRepository.getRunById runId
    let now ← nowRfc3339
    let refreshed ← DagRepository.getNodeExecutionsByRunId runId
    let completed := refreshed.countP fun n =>
      n.status ≠ .waiting ∧ n.status ≠ .ready ∧ n.status ≠ .running
    let _ ← DagRepository.updateRun
      { finalRun with status := .failed, completedAt := some now, completedNodes := completed }

def finalStatus (nodes : List DagNodeExecution) : RunStatus :=
  if nodes.any fun n => isFailure n.status then
    if nodes.any fun n => n.status = .skipped then .partially else .failed
  else .success

/-- End the run once all its nodes are terminal. -/
def finishRun (runId : Uuid) : Async Unit := do
  let allNodes ← DagRepository.getNodeExecutionsByRunId runId
  if allNodes.all fun n => n.status.isTerminal then
    let finalRun ← DagRepository.getRunById runId
    let now ← nowRfc3339
    let _ ← DagRepository.updateRun
      { finalRun with
        status := finalStatus allNodes, completedAt := some now, completedNodes := allNodes.length }

def onExecutionComplete (executionId : Uuid) : Async Unit := do
  match ← DagRepository.findNodeByExecutionId executionId with
  | none => return ()
  | some node =>
    let execution ← ExecutionRepository.getById executionId
    let nodeStatus := completedStatus execution.status
    let now ← nowRfc3339
    let _ ← DagRepository.updateNodeExecution
      { node with status := nodeStatus, completedAt := some now }
    let run ← DagRepository.getRunById node.dagRunId
    let _ ← DagRepository.updateRun
      { run with
        completedNodes := run.completedNodes + 1
        failedNodes := if isFailure nodeStatus then run.failedNodes + 1 else run.failedNodes }
    let dag ← DagRepository.getById run.dagId
    let edges ← DagRepository.getEdgesByDagId run.dagId
    if isFailure nodeStatus ∧ dag.onFailure = .stop then stopRun run.id
    else
      engine.advanceDagRun run.id edges dag
      finishRun run.id

def cancelDagRun (runId : Uuid) : Async DagRun := do
  let run ← DagRepository.getRunById runId
  if run.status ≠ .running ∧ run.status ≠ .pending then
    Task.throw (.badRequest ("Cannot cancel DAG run in '" ++ run.status.asStr ++ "' status"))
  else
    let nodes ← DagRepository.getNodeExecutionsByRunId runId
    (nodes.filter fun n => !n.status.isTerminal).forM fun n => do
      let now ← nowRfc3339
      let _ ← DagRepository.updateNodeExecution
        { n with status := .cancelled, completedAt := some now }
    let now ← nowRfc3339
    DagRepository.updateRun { run with status := .cancelled, completedAt := some now }

end DagEngine

end Serverust
