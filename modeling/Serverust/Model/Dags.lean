import Serverust.Model.DagEdges
import Serverust.Model.VenvService

/-!
# DAGs

Creating, updating, deleting and validating a DAG. A deleted DAG takes its edges, its runs and their nodes with
it.
-/

namespace Serverust

open Resumption

/-- The texts `on_failure` may be. -/
def OnFailure.fromStr : String → Option OnFailure
  | "stop" => some .stop
  | "continue" => some .continue
  | "retry" => some .retry
  | _ => none

structure CreateDagRequest where
  name : String
  maxConcurrentNodes : Int := 4
  onFailure : String := "stop"

structure UpdateDagRequest where
  name : Option String
  enabled : Option Bool
  maxConcurrentNodes : Option Int
  onFailure : Option String

def Dag.new (id : Uuid) (name : String) (maxConcurrentNodes : Int) (onFailure : OnFailure) : Dag where
  id := id
  name := name
  enabled := true
  maxConcurrentNodes := maxConcurrentNodes
  onFailure := onFailure

structure DagDetailResponse where
  dag : Dag
  edges : List DagEdge

structure DagRunDetailResponse where
  run : DagRun
  nodes : List DagNodeExecution

structure DagValidationResponse where
  valid : Bool
  totalNodes : Nat
  totalEdges : Nat
  levels : List (List Uuid)
  errors : List String
deriving DecidableEq, Repr

namespace DagRepository

def insertDag (dag : Dag) (db : Db) : Except SqlError (Unit × Db) :=
  if Rows.hits Dag.id dag.id db.dags ≠ 0 then .error (.unique "dags.id")
  else if Rows.hits Dag.name dag.name db.dags ≠ 0 then .error (.unique "dags.name")
  else .ok ((), { db with dags := db.dags ++ [dag] })

def create (dag : Dag) : Async Dag := do
  sql (fun _ _ => .other) fun _ => insertDag dag
  getById dag.id

/-- Write all columns but the id. -/
def writeDag (dag : Dag) (db : Db) : Except SqlError (Unit × Db) :=
  if Rows.hits Dag.id dag.id db.dags ≠ 0 ∧ db.dags.any fun row => row.id ≠ dag.id && row.name = dag.name then
    .error (.unique "dags.name")
  else .ok ((), { db with
    dags := Rows.modify Dag.id dag.id (fun row =>
      { row with name := dag.name, enabled := dag.enabled, maxConcurrentNodes := dag.maxConcurrentNodes
                 onFailure := dag.onFailure }) db.dags })

def update (dag : Dag) : Async Dag := do
  sql (fun _ _ => .other) fun _ => writeDag dag
  getById dag.id

/-- Delete a DAG. Its edges and runs go with it, and the nodes of the runs. -/
def deleteRows (id : Uuid) (db : Db) : Db :=
  let ofDag (r : Uuid) : Bool := db.dagRuns.any fun run => run.id = r && run.dagId = id
  { db with
    dags := Rows.remove Dag.id id db.dags
    dagEdges := Rows.remove DagEdge.dagId id db.dagEdges
    dagRuns := Rows.remove DagRun.dagId id db.dagRuns
    dagNodeExecutions := db.dagNodeExecutions.filter fun node => !ofDag node.dagRunId }

def delete (id : Uuid) : Async Unit := do
  let affected ← execute (fun _ => .other) fun db => (Rows.hits Dag.id id db.dags, deleteRows id db)
  if affected = 0 then Task.throw (.notFound ("DAG not found: " ++ id.text)) else return ()

end DagRepository

namespace DagService

def nameError : AppError := .validation "DAG name cannot be empty"

def onFailureError : AppError := .validation "on_failure must be one of: stop, continue, retry"

def createDag (req : CreateDagRequest) : Async Dag := do
  let name := trim req.name
  if name.isEmpty then Task.throw nameError
  else
    match OnFailure.fromStr req.onFailure with
    | none => Task.throw onFailureError
    | some onFailure =>
      let id ← newV4
      DagRepository.create (.new id name (max req.maxConcurrentNodes 1) onFailure)

def getDagDetail (id : Uuid) : Async DagDetailResponse := do
  let dag ← DagRepository.getById id
  let edges ← DagRepository.getEdgesByDagId id
  return { dag, edges }

/-- The DAG with the fields that a request sets. The name is checked first, and `on_failure` last. -/
def applyUpdate (dag : Dag) (req : UpdateDagRequest) : Except AppError Dag := do
  let dag ← match req.name with
    | some name => if (trim name).isEmpty then .error nameError else .ok { dag with name := trim name }
    | none => .ok dag
  let dag := { dag with
    enabled := req.enabled.getD dag.enabled
    maxConcurrentNodes := (req.maxConcurrentNodes.map fun n => max n 1).getD dag.maxConcurrentNodes }
  match req.onFailure with
  | some text =>
    match OnFailure.fromStr text with
    | some onFailure => .ok { dag with onFailure }
    | none => .error onFailureError
  | none => .ok dag

def updateDag (id : Uuid) (req : UpdateDagRequest) : Async Dag := do
  let dag ← DagRepository.getById id
  match applyUpdate dag req with
  | .ok dag => DagRepository.update dag
  | .error e => Task.throw e

def deleteDag (id : Uuid) : Async Unit := DagRepository.delete id

/-- A cycle is reported in the response, not as an error. -/
def validateDag (hash : HashOrder) (dagId : Uuid) : Async DagValidationResponse := do
  let _ ← DagRepository.getById dagId
  let edges ← DagRepository.getEdgesByDagId dagId
  if edges.isEmpty then
    return { valid := true, totalNodes := 0, totalEdges := 0, levels := []
             errors := ["DAG has no edges defined"] }
  else
    let (levels, errors) := match topologicalLevels hash edges with
      | .ok levels => (levels, [])
      | .error e => ([], ["Cycle detected: " ++ e.toString])
    return { valid := errors.isEmpty, totalNodes := (levels.map List.length).sum, totalEdges := edges.length
             levels, errors }

end DagService

/-- `GET /dags/{dag_id}/runs/{run_id}`. -/
def Api.getDagRun (runId : Uuid) : Async DagRunDetailResponse := do
  let run ← DagRepository.getRunById runId
  let nodes ← DagRepository.getNodeExecutionsByRunId runId
  return { run, nodes }

end Serverust
