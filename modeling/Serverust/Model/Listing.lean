import Serverust.Model.ExecutionService
import Serverust.Model.JobService

/-!
# Paged lists

The lists of jobs and of executions. A request counts the rows that its filters select and reads a page of
them. Both statements are put together filter by filter: the text gets a condition with a `?`, and the
values are bound in a second pass.
-/

namespace Serverust

open Resumption

/-! ### Statements -/

/-- A value bound to a `?`. -/
inductive Bound where
  | bool (value : Bool)
  | text (value : String)
  | integer (value : Int)

/-- `LIKE`: `%` stands for any text and `_` for any character, and the case of ASCII letters is ignored. -/
def like : List Char → List Char → Bool
  | [], text => text.isEmpty
  | '%' :: pattern, text => text.tails.any (like pattern)
  | '_' :: pattern, text =>
    match text with
    | [] => false
    | _ :: rest => like pattern rest
  | c :: pattern, text =>
    match text with
    | [] => false
    | d :: rest => c.toLower = d.toLower && like pattern rest

/-- A `SELECT` with the conditions of its `WHERE 1=1`, each with one `?`, and the values bound so far. -/
structure Query (κ : Type) where
  conditions : List κ
  binds : List Bound

namespace Query

variable {κ ρ : Type}

/-- `push_str` of a condition. -/
def and (q : Query κ) (condition : κ) : Query κ := { q with conditions := q.conditions ++ [condition] }

def bind (q : Query κ) (value : Bound) : Query κ := { q with binds := q.binds ++ [value] }

/-- The row satisfies the conditions with the values bound in their order. A `?` without a value is `NULL`,
which satisfies none. -/
def holds (test : κ → Bound → ρ → Bool) : List κ → List Bound → ρ → Bool
  | [], _, _ => true
  | condition :: conditions, value :: values, row =>
    test condition value row && holds test conditions values row
  | _ :: _, [], _ => false

/-- `SELECT COUNT(*)`. -/
def count (q : Query κ) (test : κ → Bound → ρ → Bool) (rows : List ρ) : Nat :=
  rows.countP (holds test q.conditions q.binds)

/-- `LIMIT ? OFFSET ?`. A negative limit is none. -/
def window (limit offset : Int) (rows : List ρ) : List ρ :=
  if limit < 0 then rows.drop offset.toNat else (rows.drop offset.toNat).take limit.toNat

/-- `ORDER BY created_at DESC LIMIT ? OFFSET ?`, with the two values bound last. -/
def page (q : Query κ) (test : κ → Bound → ρ → Bool) (createdAt : ρ → String) (rows : List ρ) : List ρ :=
  let sorted := (rows.filter (holds test q.conditions q.binds)).insertionSort fun a b => createdAt b ≤ createdAt a
  match q.binds.drop q.conditions.length with
  | [.integer limit, .integer offset] => window limit offset sorted
  | _ => []

end Query

/-! ### Jobs -/

structure ListJobsQuery where
  limit : Int := 20
  offset : Int := 0
  enabled : Option Bool
  search : Option String

structure JobListResponse where
  jobs : List Job
  total : Nat
  limit : Int
  offset : Int

/-- `AND enabled = ?` and `AND name LIKE ?`. -/
inductive JobCondition where
  | enabled
  | nameLike

def JobCondition.test : JobCondition → Bound → Job → Bool
  | .enabled, .bool value, job => job.enabled = value
  | .nameLike, .text pattern, job => like pattern.toList job.name.toList
  | _, _, _ => false

def JobRepository.list (query : ListJobsQuery) : Async (List Job × Nat) := do
  let sqlQuery : Query JobCondition := ⟨[], []⟩
  let countQuery : Query JobCondition := ⟨[], []⟩
  -- Build dynamic WHERE clauses
  let sqlQuery := if query.enabled.isSome then sqlQuery.and .enabled else sqlQuery
  let countQuery := if query.enabled.isSome then countQuery.and .enabled else countQuery
  let sqlQuery := if query.search.isSome then sqlQuery.and .nameLike else sqlQuery
  let countQuery := if query.search.isSome then countQuery.and .nameLike else countQuery
  -- Build and execute the count query
  let countQuery := query.enabled.elim countQuery fun enabled => countQuery.bind (.bool enabled)
  let countQuery := query.search.elim countQuery fun search => countQuery.bind (.text ("%" ++ search ++ "%"))
  let total ← select (fun _ => .other) fun db => countQuery.count JobCondition.test db.jobs
  -- Build and execute the main query
  let sqlQuery := query.enabled.elim sqlQuery fun enabled => sqlQuery.bind (.bool enabled)
  let sqlQuery := query.search.elim sqlQuery fun search => sqlQuery.bind (.text ("%" ++ search ++ "%"))
  let sqlQuery := (sqlQuery.bind (.integer query.limit)).bind (.integer query.offset)
  let jobs ← select (fun _ => .other) fun db => sqlQuery.page JobCondition.test Job.createdAt db.jobs
  return (jobs, total)

namespace JobService

def listJobs (query : ListJobsQuery) : Async JobListResponse := do
  let limit := max 1 (min query.limit 100)
  let offset := max query.offset 0
  let (jobs, total) ← JobRepository.list { query with limit, offset }
  return { jobs, total, limit, offset }

end JobService

/-! ### Executions -/

structure ListExecutionsQuery where
  limit : Int := 20
  offset : Int := 0
  status : Option String
  jobId : Option String
  fromDate : Option String
  toDate : Option String

structure ExecutionListResponse where
  executions : List Execution
  total : Nat
  limit : Int
  offset : Int

/-- `AND status = ?`, `AND job_id = ?`, `AND created_at >= ?` and `AND created_at <= ?`. -/
inductive ExecutionCondition where
  | status
  | jobId
  | fromDate
  | toDate

def ExecutionCondition.test : ExecutionCondition → Bound → Execution → Bool
  | .status, .text value, exec => exec.status.asStr = value
  | .jobId, .text value, exec => exec.jobId.text = value
  | .fromDate, .text value, exec => value ≤ exec.createdAt
  | .toDate, .text value, exec => exec.createdAt ≤ value
  | _, _, _ => false

def ExecutionRepository.list (query : ListExecutionsQuery) : Async (List Execution × Nat) := do
  let sqlQuery : Query ExecutionCondition := ⟨[], []⟩
  let countQuery : Query ExecutionCondition := ⟨[], []⟩
  -- Build dynamic WHERE clauses
  let sqlQuery := if query.status.isSome then sqlQuery.and .status else sqlQuery
  let countQuery := if query.status.isSome then countQuery.and .status else countQuery
  let sqlQuery := if query.jobId.isSome then sqlQuery.and .jobId else sqlQuery
  let countQuery := if query.jobId.isSome then countQuery.and .jobId else countQuery
  let sqlQuery := if query.fromDate.isSome then sqlQuery.and .fromDate else sqlQuery
  let countQuery := if query.fromDate.isSome then countQuery.and .fromDate else countQuery
  let sqlQuery := if query.toDate.isSome then sqlQuery.and .toDate else sqlQuery
  let countQuery := if query.toDate.isSome then countQuery.and .toDate else countQuery
  -- Build and execute the count query
  let countQuery := query.status.elim countQuery fun status => countQuery.bind (.text status)
  let countQuery := query.jobId.elim countQuery fun jobId => countQuery.bind (.text jobId)
  let countQuery := query.fromDate.elim countQuery fun fromDate => countQuery.bind (.text fromDate)
  let countQuery := query.toDate.elim countQuery fun toDate => countQuery.bind (.text toDate)
  let total ← select (fun _ => .other) fun db => countQuery.count ExecutionCondition.test db.executions
  -- Build and execute the main query
  let sqlQuery := query.status.elim sqlQuery fun status => sqlQuery.bind (.text status)
  let sqlQuery := query.jobId.elim sqlQuery fun jobId => sqlQuery.bind (.text jobId)
  let sqlQuery := query.fromDate.elim sqlQuery fun fromDate => sqlQuery.bind (.text fromDate)
  let sqlQuery := query.toDate.elim sqlQuery fun toDate => sqlQuery.bind (.text toDate)
  let sqlQuery := (sqlQuery.bind (.integer query.limit)).bind (.integer query.offset)
  let executions ← select (fun _ => .other) fun db =>
    sqlQuery.page ExecutionCondition.test Execution.createdAt db.executions
  return (executions, total)

namespace ExecutionService

def listExecutions (query : ListExecutionsQuery) : Async ExecutionListResponse := do
  let limit := max 1 (min query.limit 100)
  let offset := max query.offset 0
  let (executions, total) ← ExecutionRepository.list { query with limit, offset }
  return { executions, total, limit, offset }

end ExecutionService

namespace Api

/-- `GET /jobs`. -/
def listJobs (query : ListJobsQuery) : Async JobListResponse := JobService.listJobs query

/-- `GET /executions`. -/
def listExecutions (query : ListExecutionsQuery) : Async ExecutionListResponse :=
  ExecutionService.listExecutions query

end Api

end Serverust
