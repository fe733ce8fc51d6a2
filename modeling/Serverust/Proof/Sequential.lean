import Serverust.Model.WorkerPool

/-!
# Running alone

What each action yields when one task runs alone and no statement fails. A function's run is computed
from these by `simp`.
-/

namespace Serverust

open Calendar Resumption

variable {α : Type} {w : World}

/-! ### Actions -/

/-- A statement yields what it computes, or fails on a constraint. -/
theorem run_sql (hfault : w.fault = none) {stmt : Db → α → Stmt}
    {statement : DateTime → Db → Except SqlError (α × Db)} {mapErr : SqlError → AppError} :
    (sql stmt statement mapErr).run w =
      match statement w.now w.db with
      | .ok (value, db) => some (.ok value, { w with db })
      | .error e => some (.error (mapErr e), w) := by
  simp only [sql, Task.run_action, World.query, hfault]
  cases statement w.now w.db <;> rfl

theorem run_sql_ok {stmt : Db → α → Stmt} {statement : DateTime → Db → Except SqlError (α × Db)}
    {mapErr : SqlError → AppError} {value : α} {w' : World}
    (h : (sql stmt statement mapErr).run w = some (.ok value, w')) :
    ∃ db, statement w.now w.db = .ok (value, db) ∧ w' = { w with db } := by
  simp only [sql, Task.run_action, Option.some.injEq] at h
  cases hquery : w.query statement with
  | error e =>
      simp only [hquery] at h
      cases h
  | ok r =>
      simp only [hquery] at h
      cases h
      unfold World.query at hquery
      split at hquery
      · cases hquery
      · exact ⟨r.2, hquery, rfl⟩

theorem run_select_ok {stmt : α → Stmt} {read : Db → α} {value : α} {w' : World}
    (h : (select stmt read).run w = some (.ok value, w')) : value = read w.db ∧ w = w' := by
  obtain ⟨db, heq, rfl⟩ := run_sql_ok h
  cases heq
  exact ⟨rfl, rfl⟩

theorem run_execute_ok {stmt : Db → Stmt} {write : Db → Nat × Db} {affected : Nat} {w' : World}
    (h : (execute stmt write).run w = some (.ok affected, w')) :
    affected = (write w.db).1 ∧ w' = { w with db := (write w.db).2 } := by
  obtain ⟨db, heq, rfl⟩ := run_sql_ok h
  rw [Except.ok.inj heq]
  exact ⟨rfl, rfl⟩

theorem run_okOr_ok {value : Option α} {e : AppError} {a : α} {w' : World}
    (h : (okOr value e).run w = some (.ok a, w')) : value = some a ∧ w = w' := by
  cases value with
  | none => cases h
  | some b =>
      cases h
      exact ⟨rfl, rfl⟩

theorem run_select (hfault : w.fault = none) {stmt : α → Stmt} {read : Db → α} :
    (select stmt read).run w = some (.ok (read w.db), w) :=
  run_sql hfault

theorem run_execute (hfault : w.fault = none) {stmt : Db → Stmt} {write : Db → Nat × Db} :
    (execute stmt write).run w = some (.ok (write w.db).1, { w with db := (write w.db).2 }) :=
  run_sql hfault

@[simp] theorem run_perform (event : World → Event) (act : World → α × World) :
    (perform event act).run w = some (.ok (act w).1, (act w).2) := rfl

@[simp] theorem run_newV4 :
    newV4.run w = some (.ok w.nextUuid, { w with nextUuid := w.nextUuid + 1 }) := rfl

@[simp] theorem run_nowRfc3339 : nowRfc3339.run w = some (.ok (toRfc3339 w.now), w) := rfl

@[simp] theorem run_queueLen : queueLen.run w = some (.ok w.memoryQueue.len, w) := rfl

@[simp] theorem run_queuePush (item : QueueItem) :
    (queuePush item).run w = some (.ok (), { w with memoryQueue := w.memoryQueue.push item }) := rfl

@[simp] theorem run_queuePop : queuePop.run w =
    some (.ok w.memoryQueue.pop.1, { w with memoryQueue := w.memoryQueue.pop.2 }) := rfl

@[simp] theorem run_queueDrainOther (executionId : Uuid) : (queueDrainOther executionId).run w =
    some (.ok (), { w with
      memoryQueue := .ofList (w.memoryQueue.items.filter fun i => i.executionId != executionId) }) := rfl

@[simp] theorem run_okOr_some (value : α) (e : AppError) :
    (okOr (some value) e).run w = some (.ok value, w) := rfl

@[simp] theorem run_okOr_none (e : AppError) :
    (okOr (none : Option α) e).run w = some (.error e, w) := rfl

theorem run_lock : lock.run w = if w.locked then none else some (.ok (), { w with locked := true }) := by
  change (if (!w.locked) = true then _ else _) = _
  cases w.locked <;> rfl

/-- A section under the mutex runs as its body does, if the mutex is free. -/
theorem run_withLock (hfree : w.locked = false) {done : Except AppError α → Event} {body : Async α}
    {r : Except AppError α} {u : World} (h : body.run { w with locked := true } = some (r, u)) :
    (withLock done body).run w = some (r, { u with locked := false }) := by
  simp only [withLock, Task.run_bind, run_lock, hfree, Bool.false_eq_true, if_false, Task.run_attempt, h,
    Option.map_some, release, run_perform]
  cases r <;> rfl

/-- A section under the mutex has run because the mutex was free and its body ran. -/
theorem run_of_withLock {done : Except AppError α → Event} {body : Async α} {r : Except AppError α} {w' : World}
    (h : (withLock done body).run w = some (r, w')) :
    ∃ u, body.run { w with locked := true } = some (r, u) ∧ w' = { u with locked := false } := by
  cases hlocked : w.locked with
  | true =>
      simp only [withLock, Task.run_bind, run_lock, hlocked, if_true] at h
      cases h
  | false =>
      cases hbody : body.run { w with locked := true } with
      | none =>
          simp only [withLock, Task.run_bind, run_lock, hlocked, Bool.false_eq_true, if_false, Task.run_attempt,
            hbody] at h
          cases h
      | some result =>
          rw [run_withLock hlocked hbody] at h
          cases h
          exact ⟨_, rfl, rfl⟩

/-! ### Sample states -/

def Job.sample (maxRetries : Int) : Job where
  id := 1
  name := "job"
  description := none
  pythonCode := "print(1)"
  timeoutSeconds := 30
  memoryLimitMb := 128
  useCustomVenv := false
  venvId := none
  priority := 0
  maxRetries := maxRetries
  createdAt := ""
  updatedAt := ""
  enabled := true

/-- The process on a database with one job and some executions of it. -/
def World.sample (maxRetries : Int) (executions : List Uuid) : World :=
  .start { Db.empty with
    jobs := [.sample maxRetries]
    executions := executions.map fun id => .new id 1 none "" } epoch 1000

def QueueItem.sample (executionId : Uuid) (priority : Int) : QueueItem :=
  .new (.new executionId 1 none "") (.sample 0) priority

/-- A process that prints nothing. -/
def ExecutionResult.sample (success : Bool) : ExecutionResult where
  success := success
  stdout := ""
  stderr := ""
  exitCode := none
  timedOut := false
  memoryExceeded := false

end Serverust
