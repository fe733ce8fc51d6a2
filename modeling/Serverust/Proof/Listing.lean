import Serverust.Library.Paging
import Serverust.Model.Listing
import Serverust.Proof.LogStream
import Serverust.Proof.Timestamps

/-!
# Walking over a list

The two statements of a list request select by the same filters, and pages are cut from one sorted list. So
a walk from offset 0 that adds the limit of each response yields each selected row once, newest first, and
every total is the number of rows it yields.
-/

namespace Serverust

open Calendar Resumption

namespace Listing

/-! ### What a request answers -/

/-- A list request with its filters fixed. -/
structure Endpoint (ρ σ : Type) where
  table : Db → List ρ
  createdAt : ρ → String
  selects : ρ → Bool
  request (limit offset : Int) : Async σ
  rows : σ → List ρ
  total : σ → Nat
  limit : σ → Int

namespace Endpoint

variable {ρ σ : Type} (l : Endpoint ρ σ)

/-- The selected rows, newest first. -/
def sorted (rows : List ρ) : List ρ :=
  (rows.filter l.selects).insertionSort fun a b => l.createdAt b ≤ l.createdAt a

/-- A request whose two statements read the table at some time answers with a page and the total. -/
structure Answers : Prop where
  rows : ∀ {limit offset : Int} {w w' : World} {r : σ},
    (l.request limit offset).along [w, w'] = some (.ok r, []) → 
      l.rows r = ((l.sorted (l.table w'.db)).drop (max offset 0).toNat).take (max 1 (min limit 100)).toNat
  total : ∀ {limit offset : Int} {w w' : World} {r : σ},
    (l.request limit offset).along [w, w'] = some (.ok r, []) → l.total r = (l.table w.db).countP l.selects
  limit : ∀ {limit offset : Int} {w w' : World} {r : σ},
    (l.request limit offset).along [w, w'] = some (.ok r, []) → l.limit r = max 1 (min limit 100)
  answered : ∀ (limit offset : Int) {w w' : World}, w.fault = none → w'.fault = none →
    ∃ r, (l.request limit offset).along [w, w'] = some (.ok r, [])

/-- Requests from an offset on, each behind the limit of the response before it, until a page is empty. The
table is the same at each statement. -/
inductive Walk (limit : Int) (rows : List ρ) : Int → List σ → Prop
  | last {offset : Int} {w w' : World} {r : σ} (hcount : l.table w.db = rows) (hpage : l.table w'.db = rows)
      (hrun : (l.request limit offset).along [w, w'] = some (.ok r, [])) (hempty : l.rows r = []) :
      Walk limit rows offset [r]
  | next {offset : Int} {w w' : World} {r : σ} {rest : List σ} (hcount : l.table w.db = rows)
      (hpage : l.table w'.db = rows) (hrun : (l.request limit offset).along [w, w'] = some (.ok r, []))
      (hmore : l.rows r ≠ []) (hrest : Walk limit rows (offset + l.limit r) rest) :
      Walk limit rows offset (r :: rest)

variable {l} {limit : Int} {rows : List ρ} {offset : Int} {responses : List σ}

/-- The pages of a walk are a walk over the sorted rows. -/
theorem Walk.pages (hl : l.Answers) (h : l.Walk limit rows offset responses) (hoffset : 0 ≤ offset) :
    Paging.Walk (l.sorted rows) offset.toNat (responses.map l.rows) := by
  induction h with
  | @last offset w w' r hcount hpage hrun hempty =>
      have hrows := hl.rows hrun
      rw [hpage, hempty, max_eq_left hoffset] at hrows
      rw [List.map_singleton, hempty]
      have hpos : 0 < (max 1 (min limit 100)).toNat := by omega
      exact .last hpos hrows.symm
  | @next offset w w' r rest hcount hpage hrun hmore hrest ih =>
      have hlimit := hl.limit hrun
      have hnext := ih (by omega)
      rw [hlimit, Int.toNat_add hoffset (by omega)] at hnext
      rw [List.map_cons, hl.rows hrun, hpage, max_eq_left hoffset]
      exact .next hnext

theorem Walk.total (hl : l.Answers) (h : l.Walk limit rows offset responses) :
    ∀ r ∈ responses, l.total r = rows.countP l.selects := by
  induction h with
  | last hcount hpage hrun hempty =>
      exact List.forall_mem_singleton.mpr (hcount ▸ hl.total hrun)
  | next hcount hpage hrun hmore hrest ih => exact List.forall_mem_cons.mpr ⟨hcount ▸ hl.total hrun, ih⟩

/-- What a walk from the start yields: each selected row once, newest first, as many as every total says. -/
structure Complete (l : Endpoint ρ σ) (rows : List ρ) (responses : List σ) : Prop where
  each : (responses.flatMap l.rows).Perm (rows.filter l.selects)
  newest : (responses.flatMap l.rows).Pairwise fun a b => l.createdAt b ≤ l.createdAt a
  chronological : (responses.flatMap l.rows).Pairwise fun a b =>
    ∀ t u, l.createdAt a = toRfc3339 t → l.createdAt b = toRfc3339 u → u ≤ t
  total : ∀ r ∈ responses, l.total r = (responses.flatMap l.rows).length

theorem Walk.complete (hl : l.Answers) (h : l.Walk limit rows 0 responses) : l.Complete rows responses := by
  have hyield : responses.flatMap l.rows = l.sorted rows := by
    rw [List.flatMap_def]
    exact (h.pages hl le_rfl).flatten
  have hperm := List.perm_insertionSort (fun a b => l.createdAt b ≤ l.createdAt a) (rows.filter l.selects)
  have hsorted := List.pairwise_insertionSort (fun a b => l.createdAt b ≤ l.createdAt a) (rows.filter l.selects)
  refine ⟨hyield ▸ hperm, hyield ▸ hsorted, ?_, fun r hr => ?_⟩
  · rw [hyield]
    refine hsorted.imp fun {a b} hab t u ht hu => ?_
    rw [ht, hu, toRfc3339_le_toRfc3339] at hab
    exact hab
  · rw [hyield, h.total hl r hr, sorted, hperm.length_eq, List.countP_eq_length_filter]

theorem exists_walk (hl : l.Answers) (limit : Int) {w : World} (hfault : w.fault = none) (offset : Nat) :
    ∃ responses, l.Walk limit (l.table w.db) offset responses := by
  have hpos : 0 < (max 1 (min limit 100)).toNat := by omega
  induction offset using Paging.induct (l.sorted (l.table w.db)) hpos with
  | last offset hempty =>
      obtain ⟨r, hrun⟩ := hl.answered limit offset hfault hfault
      refine ⟨[r], .last rfl rfl hrun ?_⟩
      rw [hl.rows hrun, max_eq_left (Int.natCast_nonneg offset), Int.toNat_natCast]
      exact hempty
  | next offset hmore ih =>
      obtain ⟨rest, hrest⟩ := ih
      obtain ⟨r, hrun⟩ := hl.answered limit offset hfault hfault
      refine ⟨r :: rest, .next rfl rfl hrun ?_ ?_⟩
      · rw [hl.rows hrun, max_eq_left (Int.natCast_nonneg offset), Int.toNat_natCast]
        exact hmore
      · rw [hl.limit hrun, show (offset : Int) + max 1 (min limit 100) =
          ((offset + (max 1 (min limit 100)).toNat : Nat) : Int) by omega]
        exact hrest

end Endpoint

/-! ### Statements -/

section

variable {κ ρ : Type} {test : κ → Bound → ρ → Bool} {selects : ρ → Bool} {q : Query κ}

theorem holds_append (conditions : List κ) {values : List Bound} (hlength : conditions.length = values.length)
    (more : List Bound) (row : ρ) :
    Query.holds test conditions (values ++ more) row = Query.holds test conditions values row := by
  induction conditions generalizing values with
  | nil => rfl
  | cons condition conditions ih =>
      cases values with
      | nil => simp at hlength
      | cons value values => rw [List.cons_append, Query.holds, Query.holds, ih (by simpa using hlength)]

/-- The conditions of a statement, with a value for each, select these rows. -/
structure Selects (test : κ → Bound → ρ → Bool) (q : Query κ) (selects : ρ → Bool) : Prop where
  length : q.conditions.length = q.binds.length
  holds : ∀ row, Query.holds test q.conditions q.binds row = selects row

theorem Selects.count (h : Selects test q selects) (rows : List ρ) : q.count test rows = rows.countP selects := by
  rw [Query.count, funext h.holds]

theorem Selects.page (h : Selects test q selects) (createdAt : ρ → String) {limit : Int} (hlimit : 0 ≤ limit)
    (offset : Int) (rows : List ρ) :
    ((q.bind (.integer limit)).bind (.integer offset)).page test createdAt rows =
      (((rows.filter selects).insertionSort fun a b => createdAt b ≤ createdAt a).drop offset.toNat).take
        limit.toNat := by
  have hholds : Query.holds test q.conditions (q.binds ++ [.integer limit] ++ [.integer offset]) = selects := by
    funext row
    rw [List.append_assoc, holds_append q.conditions h.length, h.holds]
  have hlast : (q.binds ++ [Bound.integer limit] ++ [Bound.integer offset]).drop q.conditions.length =
      [.integer limit, .integer offset] := by
    rw [List.append_assoc, h.length, List.drop_left]
    rfl
  simp only [Query.page, Query.bind, hholds, hlast, Query.window, if_neg (Int.not_lt.mpr hlimit)]

end

/-- The count and the page. -/
def reads {α β : Type} (count : Db → α) (page : Db → β) : Async (β × α) := do
  let total ← select (fun _ => .other) count
  let rows ← select (fun _ => .other) page
  return (rows, total)

theorem along_reads {α β σ : Type} {count : Db → α} {page : Db → β} {k : β → α → σ} {w w' : World} {r : σ} :
    (reads count page >>= fun p => pure (k p.1 p.2) : Async σ).along [w, w'] = some (.ok r, []) ↔
      w.fault = none ∧ w'.fault = none ∧ k (page w'.db) (count w.db) = r := by
  cases hw : w.fault <;> cases hw' : w'.fault <;>
    simp [reads, along_select, hw, hw']

/-- A request that makes its response of the count and the page answers so. -/
theorem Endpoint.Answers.of_reads {κ ρ σ : Type} {l : Endpoint ρ σ} {test : κ → Bound → ρ → Bool} {q : Query κ}
    (hselects : Selects test q l.selects) {k : Int → Int → List ρ → Nat → σ}
    (hrequest : ∀ limit offset, l.request limit offset =
      reads (fun db => q.count test (l.table db)) (fun db => ((q.bind (.integer (max 1 (min limit 100)))).bind
        (.integer (max offset 0))).page test l.createdAt (l.table db)) >>= fun p =>
          pure (k (max 1 (min limit 100)) (max offset 0) p.1 p.2))
    (hrows : ∀ limit offset rows total, l.rows (k limit offset rows total) = rows)
    (htotal : ∀ limit offset rows total, l.total (k limit offset rows total) = total)
    (hlimit : ∀ limit offset rows total, l.limit (k limit offset rows total) = limit) : l.Answers where
  rows {limit offset w w' r} h := by
    rw [hrequest, along_reads] at h
    rw [← h.2.2, hrows, hselects.page l.createdAt (by omega)]
    rfl
  total {limit offset w w' r} h := by
    rw [hrequest, along_reads] at h
    rw [← h.2.2, htotal, hselects.count]
  limit {limit offset w w' r} h := by
    rw [hrequest, along_reads] at h
    rw [← h.2.2, hlimit]
  answered limit offset {w w'} hw hw' := by
    rw [hrequest]
    exact ⟨_, along_reads.mpr ⟨hw, hw', rfl⟩⟩

/-! ### Jobs -/

def jobs (enabled : Option Bool) (search : Option String) : Endpoint Job JobListResponse where
  table := Db.jobs
  createdAt := Job.createdAt
  selects job := enabled.all (fun value => job.enabled = value) &&
    search.all fun text => like ("%" ++ text ++ "%").toList job.name.toList
  request limit offset := Api.listJobs { limit, offset, enabled, search }
  rows := JobListResponse.jobs
  total := JobListResponse.total
  limit := JobListResponse.limit

/-- Both statements before the page is bound. -/
def jobQuery (enabled : Option Bool) (search : Option String) : Query JobCondition :=
  let q : Query JobCondition := ⟨[], []⟩
  let q := if enabled.isSome then q.and .enabled else q
  let q := if search.isSome then q.and .nameLike else q
  let q := enabled.elim q fun enabled => q.bind (.bool enabled)
  search.elim q fun search => q.bind (.text ("%" ++ search ++ "%"))

theorem selects_jobQuery (enabled : Option Bool) (search : Option String) :
    Selects JobCondition.test (jobQuery enabled search) (jobs enabled search).selects := by
  cases enabled <;> cases search <;>
    exact ⟨rfl, fun job => by simp [jobQuery, Query.and, Query.bind, Query.holds, JobCondition.test, jobs]⟩

theorem answers_jobs (enabled : Option Bool) (search : Option String) : (jobs enabled search).Answers :=
  .of_reads (selects_jobQuery enabled search) (k := fun limit offset jobs total => ⟨jobs, total, limit, offset⟩)
    (fun _ _ => rfl) (fun _ _ _ _ => rfl) (fun _ _ _ _ => rfl) fun _ _ _ _ => rfl

/-! ### Executions -/

def executions (status jobId fromDate toDate : Option String) : Endpoint Execution ExecutionListResponse where
  table := Db.executions
  createdAt := Execution.createdAt
  selects exec := status.all (fun text => exec.status.asStr = text) &&
    (jobId.all (fun text => exec.jobId.text = text) && (fromDate.all (fun text => text ≤ exec.createdAt) &&
      toDate.all fun text => exec.createdAt ≤ text))
  request limit offset := Api.listExecutions { limit, offset, status, jobId, fromDate, toDate }
  rows := ExecutionListResponse.executions
  total := ExecutionListResponse.total
  limit := ExecutionListResponse.limit

def executionQuery (status jobId fromDate toDate : Option String) : Query ExecutionCondition :=
  let q : Query ExecutionCondition := ⟨[], []⟩
  let q := if status.isSome then q.and .status else q
  let q := if jobId.isSome then q.and .jobId else q
  let q := if fromDate.isSome then q.and .fromDate else q
  let q := if toDate.isSome then q.and .toDate else q
  let q := status.elim q fun status => q.bind (.text status)
  let q := jobId.elim q fun jobId => q.bind (.text jobId)
  let q := fromDate.elim q fun fromDate => q.bind (.text fromDate)
  toDate.elim q fun toDate => q.bind (.text toDate)

theorem selects_executionQuery (status jobId fromDate toDate : Option String) :
    Selects ExecutionCondition.test (executionQuery status jobId fromDate toDate)
      (executions status jobId fromDate toDate).selects := by
  cases status <;> cases jobId <;> cases fromDate <;> cases toDate <;>
    exact ⟨rfl, fun exec => by
      simp [executionQuery, Query.and, Query.bind, Query.holds, ExecutionCondition.test, executions]⟩

theorem answers_executions (status jobId fromDate toDate : Option String) :
    (executions status jobId fromDate toDate).Answers :=
  .of_reads (selects_executionQuery status jobId fromDate toDate)
    (k := fun limit offset executions total => ⟨executions, total, limit, offset⟩)
    (fun _ _ => rfl) (fun _ _ _ _ => rfl) (fun _ _ _ _ => rfl) fun _ _ _ _ => rfl

/-! ### Walks -/

/-- A walk over the jobs or over the executions ends, and every such walk is complete. -/
theorem walk_complete :
    (∀ enabled search limit rows,
      (∃ responses, (jobs enabled search).Walk limit rows 0 responses) ∧
      ∀ responses, (jobs enabled search).Walk limit rows 0 responses →
        (jobs enabled search).Complete rows responses) ∧
    ∀ status jobId fromDate toDate limit rows,
      (∃ responses, (executions status jobId fromDate toDate).Walk limit rows 0 responses) ∧
      ∀ responses, (executions status jobId fromDate toDate).Walk limit rows 0 responses →
        (executions status jobId fromDate toDate).Complete rows responses := by
  refine ⟨fun enabled search limit rows => ⟨?_, fun _ hwalk => hwalk.complete (answers_jobs _ _)⟩,
    fun status jobId fromDate toDate limit rows => ⟨?_, fun _ hwalk => hwalk.complete (answers_executions _ _ _ _)⟩⟩
  · exact Endpoint.exists_walk (answers_jobs enabled search) limit
      (w := .start { Db.empty with jobs := rows } epoch 0) rfl 0
  · exact Endpoint.exists_walk (answers_executions status jobId fromDate toDate) limit
      (w := .start { Db.empty with executions := rows } epoch 0) rfl 0

end Listing

end Serverust
