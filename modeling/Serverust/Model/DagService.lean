import Serverust.Model.World
import Mathlib.Data.List.AList
import Mathlib.Data.List.Dedup

/-!
# DAG service

Cycle detection over the edges of a DAG by Kahn's algorithm. The order in which a hash map or a hash
set yields its keys is a parameter.
-/

namespace Serverust

/-- An order in which a hash container yields its keys. -/
structure HashOrder where
  order : List Uuid → List Uuid
  perm : ∀ keys, (order keys).Perm keys

namespace DagService

/-- A `HashMap<&str, usize>`. -/
abbrev DegreeMap := AList fun _ : Uuid => Nat

/-- `*in_degree.entry(node).or_insert(0) += amount`. -/
def bump (inDegree : DegreeMap) (node : Uuid) (amount : Nat) : DegreeMap :=
  inDegree.insert node ((inDegree.lookup node).getD 0 + amount)

def inDegrees (edges : List DagEdge) : DegreeMap :=
  edges.foldl (fun inDegree edge => bump (bump inDegree edge.downstreamJobId 1) edge.upstreamJobId 0) ∅

/-- `adj.get(node)`. -/
def neighbors (edges : List DagEdge) (node : Uuid) : List Uuid :=
  (edges.filter fun edge => edge.upstreamJobId = node).map DagEdge.downstreamJobId

/-- The endpoints of the edges, each once. -/
def allNodes (edges : List DagEdge) : List Uuid :=
  (edges.flatMap fun edge => [edge.upstreamJobId, edge.downstreamJobId]).dedup

structure Kahn where
  inDegree : DegreeMap
  queue : List Uuid
  sorted : List Uuid

/-- Take one edge away from a neighbour. A decrement below zero panics. -/
def relax (s : Kahn) (neighbor : Uuid) : Except AppError Kahn :=
  match s.inDegree.lookup neighbor with
  | none => .ok s
  | some 0 => .error (.internal "attempt to subtract with overflow")
  | some (deg + 1) => .ok
    { s with
      inDegree := s.inDegree.insert neighbor deg
      queue := if deg = 0 then s.queue ++ [neighbor] else s.queue }

/-- `while let Some(node) = queue.pop_front()`, for at most `turns` turns. -/
def drain (edges : List DagEdge) : Nat → Kahn → Except AppError Kahn
  | 0, s => .ok s
  | turns + 1, s =>
    match s.queue with
    | [] => .ok s
    | node :: queue => do
      let s ← (neighbors edges node).foldlM relax { s with queue, sorted := s.sorted ++ [node] }
      drain edges turns s

/-- Each turn takes a node off the queue, and each node put on the queue takes an edge away, so there
are no more turns than nodes and edges. -/
def validateNoCycles (hash : HashOrder) (edges : List DagEdge) : Except AppError (List Uuid) := do
  let inDegree := inDegrees edges
  let roots := (hash.order inDegree.keys).filter fun node => inDegree.lookup node = some 0
  let s ← drain edges (inDegree.keys.length + edges.length) { inDegree, queue := roots, sorted := [] }
  if s.sorted.length ≠ (allNodes edges).length then
    .error (.validation "DAG contains a cycle — cannot add this edge")
  else .ok s.sorted

/-- `for _ in 0..level_size`: the nodes of the level are collected in `sorted`. Taking from an empty queue
panics. -/
def takeLevel (edges : List DagEdge) : Nat → Kahn → Except AppError Kahn
  | 0, s => .ok s
  | size + 1, s =>
    match s.queue with
    | [] => .error (.internal "called `Option::unwrap()` on a `None` value")
    | node :: queue => do
      let s ← (neighbors edges node).foldlM relax { s with queue, sorted := s.sorted ++ [node] }
      takeLevel edges size s

/-- `while !queue.is_empty()`, for at most `turns` turns. -/
def takeLevels (edges : List DagEdge) : Nat → Kahn → List (List Uuid) → Except AppError (List (List Uuid))
  | 0, _, levels => .ok levels
  | turns + 1, s, levels =>
    if s.queue.isEmpty then .ok levels
    else do
      let s ← takeLevel edges s.queue.length { s with sorted := [] }
      takeLevels edges turns s (levels ++ [s.sorted])

/-- Each level takes a node off the queue, so there are no more levels than nodes. -/
def topologicalLevels (hash : HashOrder) (edges : List DagEdge) : Except AppError (List (List Uuid)) :=
  if edges.isEmpty then .ok []
  else do
    let inDegree := inDegrees edges
    let roots := (hash.order inDegree.keys).filter fun node => inDegree.lookup node = some 0
    let levels ← takeLevels edges inDegree.keys.length { inDegree, queue := roots, sorted := [] } []
    if (levels.map List.length).sum ≠ inDegree.keys.length then .error (.validation "DAG contains a cycle")
    else .ok levels

end DagService

end Serverust
