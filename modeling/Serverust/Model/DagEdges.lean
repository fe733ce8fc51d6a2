import Serverust.Model.DagEngine

/-!
# Edges of a DAG

An edge is added after a cycle check on the edges as they were read.
-/

namespace Serverust

open Resumption

/-- The body of `POST /dags/:id/edges`. -/
structure AddEdgeRequest where
  upstreamJobId : Uuid
  downstreamJobId : Uuid
  condition : EdgeCondition

def DagEdge.new (id dagId upstreamJobId downstreamJobId : Uuid) (condition : EdgeCondition) (now : String) :
    DagEdge where
  id := id
  dagId := dagId
  upstreamJobId := upstreamJobId
  downstreamJobId := downstreamJobId
  condition := condition
  createdAt := now

namespace DagRepository

/-- `e.to_string().contains("UNIQUE constraint")`. -/
def edgeError (e : SqlError) : AppError :=
  if e.toString.contains "UNIQUE constraint" then
    .conflict "Edge already exists between these jobs in this DAG"
  else databaseError e

def insertEdge (edge : DagEdge) (db : Db) : Except SqlError (Unit × Db) :=
  if Rows.hits DagEdge.id edge.id db.dagEdges ≠ 0 then .error (.unique "dag_edges.id")
  else if db.dagEdges.any fun row => row.dagId = edge.dagId ∧ row.upstreamJobId = edge.upstreamJobId ∧
      row.downstreamJobId = edge.downstreamJobId then
    .error (.unique "dag_edges.dag_id, dag_edges.upstream_job_id, dag_edges.downstream_job_id")
  else if Rows.hits Dag.id edge.dagId db.dags = 0 then .error .foreignKey
  else if Rows.hits Job.id edge.upstreamJobId db.jobs = 0 then .error .foreignKey
  else if Rows.hits Job.id edge.downstreamJobId db.jobs = 0 then .error .foreignKey
  else .ok ((), { db with dagEdges := db.dagEdges ++ [edge] })

def getEdgeById (id : Uuid) : Async DagEdge := do
  let row ← select (fun row => .dag (.getEdge id row)) fun db => Rows.lookup DagEdge.id id db.dagEdges
  okOr row (.notFound ("Edge not found: " ++ id.text))

def createEdge (edge : DagEdge) : Async DagEdge := do
  sql (fun _ _ => .dag (.createEdge edge)) (fun _ => insertEdge edge) edgeError
  getEdgeById edge.id

def deleteEdge (edgeId : Uuid) : Async Unit := do
  let affected ← execute (fun _ => .dag (.deleteEdge edgeId)) fun db =>
    (Rows.hits DagEdge.id edgeId db.dagEdges,
      { db with dagEdges := Rows.remove DagEdge.id edgeId db.dagEdges })
  if affected = 0 then Task.throw (.notFound ("Edge not found: " ++ edgeId.text)) else return ()

end DagRepository

namespace DagService

/-- `hash` is the order in which the check's hash map yields its keys. -/
def addEdge (hash : HashOrder) (dagId : Uuid) (req : AddEdgeRequest) : Async DagEdge := do
  let _ ← DagRepository.getById dagId
  if req.upstreamJobId = req.downstreamJobId then
    Task.throw (.validation "A job cannot depend on itself")
  else
    match req.condition with
    | .other _ => Task.throw (.validation "condition must be one of: success, failure, always, skipped")
    | condition =>
      let id ← newV4
      let now ← nowRfc3339
      let edge := DagEdge.new id dagId req.upstreamJobId req.downstreamJobId condition now
      let edges ← DagRepository.getEdgesByDagId dagId
      match validateNoCycles hash (edges ++ [edge]) with
      | .error e => Task.throw e
      | .ok _ => DagRepository.createEdge edge

def deleteEdge (dagId edgeId : Uuid) : Async Unit := do
  let edge ← DagRepository.getEdgeById edgeId
  if edge.dagId ≠ dagId then Task.throw (.notFound "Edge not found in this DAG")
  else DagRepository.deleteEdge edgeId

structure TopologyResponse where
  levels : List (List Uuid)
  totalNodes : Nat

def getTopology (hash : HashOrder) (dagId : Uuid) : Async TopologyResponse := do
  let edges ← DagRepository.getEdgesByDagId dagId
  match topologicalLevels hash edges with
  | .error e => Task.throw e
  | .ok levels => return { levels, totalNodes := (levels.map List.length).sum }

end DagService

end Serverust
