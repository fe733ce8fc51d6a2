import Serverust.Proof.DagNodes
import Serverust.Proof.Services
import Serverust.Proof.JobEdits

/-!
# Runs of the server

Any number of requests, workers, ticks and background tasks, in any order and interleaved at single statements,
any of which may fail, while the process stops and starts again at any moment. Whatever happens, the stored data
stay consistent, the heap stays within its bound, and every call comes to its end.
-/

namespace Serverust

namespace Server

open Calendar Resumption

/-- What changes by itself: the clock, the disk, and whether statements fail. -/
structure Change where
  now : DateTime
  disk : Disk
  fault : Option String

variable (server : Server)

def system : System Event World Unit Call Change where
  next _ _ := ()
  spawn call w := (server.start w call).map fun r => (r.1, ⟨(), r.2.detached .returned⟩)
  env change w := { w with now := change.now, disk := change.disk, fault := change.fault }

/-- The process stops, and starts again on the same database. -/
def Restarts (w w' : World) : Prop :=
  ∃ now nextUuid fault,
    w' = { w with memoryQueue := .empty, locked := false, spawned := [], now, nextUuid, fault }

/-- The process as it starts on consistent data. -/
structure Starts (w : World) : Prop where
  db : w.db.Consistent server.cron
  heap : w.memoryQueue = .empty
  free : w.locked = false

def initial (w : World) : Config Event World Unit := ⟨w, [], []⟩

/-- The configurations of all lives of the process. -/
def Reached (w : World) (c : Config Event World Unit) : Prop :=
  server.system.Lives (fun _ _ _ => True) Restarts (initial w) c

section

variable {server} {w : World} {c : Config Event World Unit}

theorem runs : (monitor server.cron server.queueManager.maxMemorySize).Runs server.system where
  spawn := by
    intro call w w' th hinv hspawn
    obtain ⟨⟨u, p⟩, hstart, heq⟩ := Option.map_eq_some_iff.mp hspawn
    cases heq
    obtain ⟨⟨spawned, rfl⟩, hsafe⟩ := guarded_start server call hstart
    refine ⟨hinv, rfl, rfl, hsafe.detached fun u _ => ?_⟩
    exact Admits.leaves ‹_› (.refl u)
  env := fun _ _ hinv => ⟨hinv, rfl, rfl⟩

theorem Reached.holds (hrun : server.Reached w c) (hstart : server.Starts w) :
    (monitor server.cron server.queueManager.maxMemorySize).Holds () c := by
  have hempty (u : World) (hheap : u.memoryQueue = .empty) :
      u.memoryQueue.len ≤ server.queueManager.maxMemorySize := by
    rw [hheap]
    exact Nat.zero_le _
  induction hrun with
  | start => exact .start ⟨hstart.db, hempty w hstart.heap⟩ hstart.free trivial
  | move _ hmove ih => exact ih.move runs hmove
  | restart _ hreboot ih =>
      obtain ⟨now, nextUuid, fault, rfl⟩ := hreboot
      exact .restart ⟨ih.inv.1, hempty _ rfl⟩ rfl trivial

/-- No call waits for ever: whatever is scheduled and whichever statements fail, the calls that are there act
finitely often, and none is left when none can act. -/
theorem completes (hstart : server.Starts w) (hrun : server.Reached w c) :
    server.system.Ends (fun c => (∀ th ∈ c.threads, th.prog = .ret ()) ∧ c.world.locked = false) c :=
  ((hrun.holds hstart).ends runs).mono fun _ h => ⟨h.returned, h.free⟩

theorem heap_bounded (hstart : server.Starts w) (hrun : server.Reached w c) :
    c.world.memoryQueue.len ≤ server.queueManager.maxMemorySize := (hrun.holds hstart).inv.2

theorem keys_and_references (hstart : server.Starts w) (hrun : server.Reached w c) :
    c.world.db.Keyed ∧ c.world.db.Referenced :=
  ⟨(hrun.holds hstart).inv.1.keyed, (hrun.holds hstart).inv.1.referenced⟩

/-- Every stored row is one that the program means to store. -/
theorem rows_formed (hstart : server.Starts w) (hrun : server.Reached w c) : c.world.db.Formed server.cron :=
  (hrun.holds hstart).inv.1.formed

/-- No log is left without its execution, so the statement that deletes such logs never finds one. -/
theorem no_orphaned_logs (hstart : server.Starts w) (hrun : server.Reached w c) (hfault : c.world.fault = none) :
    ExecutionLogRepository.deleteOrphaned.run c.world = some (.ok 0, c.world) := by
  have hlogs := (hrun.holds hstart).inv.1.referenced.logExecution
  have hstored : ∀ log ∈ c.world.db.executionLogs,
      decide (Rows.hits Execution.id log.executionId c.world.db.executions = 0) = false := by
    intro log hlog
    obtain ⟨x, hx, hid⟩ := hlogs log hlog log.executionId rfl
    exact decide_eq_false (Rows.hits_ne_zero.mpr ⟨x, hx, hid⟩)
  have hcount : (c.world.db.executionLogs.countP fun log =>
      Rows.hits Execution.id log.executionId c.world.db.executions = 0) = 0 := by
    apply List.countP_eq_zero.mpr
    intro log hlog hzero
    rw [hstored log hlog] at hzero
    cases hzero
  have hkept : (c.world.db.executionLogs.filter fun log =>
      !decide (Rows.hits Execution.id log.executionId c.world.db.executions = 0)) = c.world.db.executionLogs := by
    apply List.filter_eq_self.mpr
    intro log hlog
    rw [hstored log hlog]
    rfl
  rw [ExecutionLogRepository.deleteOrphaned, run_execute hfault]
  dsimp only
  rw [hcount, hkept]

end

/-! ### A server -/

/-- Every expression is a schedule, and the next run is the instant itself. -/
def everyInstant : Cron where
  Schedule := Unit
  fromStr := fun _ => .ok ()
  next := fun _ now => some now

def sample : Server where
  queueManager := ⟨1, 3⟩
  jobOrder := .unchanged
  degreeOrder := .unchanged
  fields := JobEdits.FieldOrder.declared
  cron := everyInstant
  packages := ⟨none, "fail", id⟩
  venvs := { basePath := "venvs", pythonExecutable := "python3", succeeds := fun _ => false, versionOf := fun _ => none }
  fromStr := fun _ => none
  historyDays := 30

theorem starts_sample : sample.Starts (.sample 0 []) where
  db := by
    have hinsert : JobRepository.insertJob (.sample 0) Db.empty = .ok ((), (World.sample 0 []).db) := rfl
    exact (Writes.insertJob hinsert).consistent (consistent_empty _)
  heap := rfl
  free := rfl

def execute : Choice Call Change := .spawn (.request (.executeJob 1 none))

/-- What a schedule reads off the configuration it leads to. -/
theorem reached_sample {α : Type} {f : Config Event World Unit → α} {schedule : List (Choice Call Change)} {a : α}
    (h : (sample.system.exec (fun _ _ _ => true) schedule (initial (.sample 0 []))).map f = some a) :
    ∃ c, sample.Reached (.sample 0 []) c ∧ f c = a := by
  obtain ⟨c, hexec, hf⟩ := Option.map_eq_some_iff.mp h
  exact ⟨c, .run .start (System.reaches_of_exec hexec), hf⟩

/-- One request holds the mutex, and another waits for it. -/
theorem completes_sample : ∃ c, sample.Reached (.sample 0 []) c ∧ c.world.locked = true ∧
    sample.system.Ends (fun c => (∀ th ∈ c.threads, th.prog = .ret ()) ∧ c.world.locked = false) c := by
  have hexec : (sample.system.exec (fun _ _ _ => true)
      ([execute, execute] ++ List.replicate 7 (.run 0) ++ List.replicate 6 (.run 1)) (initial (.sample 0 []))).map
        (fun c => c.world.locked) = some true := by decide +kernel
  obtain ⟨c, hrun, hlocked⟩ := reached_sample hexec
  exact ⟨c, hrun, hlocked, completes starts_sample hrun⟩

/-- Of two executions only one fits the heap. -/
theorem heap_bounded_sample : ∃ c, sample.Reached (.sample 0 []) c ∧ c.world.db.jobQueue.length = 2 ∧
    c.world.memoryQueue.len ≤ 1 := by
  have hexec : (sample.system.exec (fun _ _ _ => true)
      ([execute, execute] ++ List.replicate 13 (.run 0) ++ List.replicate 12 (.run 1)) (initial (.sample 0 []))).map
        (fun c => c.world.db.jobQueue.length) = some 2 := by decide +kernel
  obtain ⟨c, hrun, hrows⟩ := reached_sample hexec
  exact ⟨c, hrun, hrows, heap_bounded starts_sample hrun⟩

/-- A job is deleted while an execution of it is queued. -/
theorem keys_and_references_sample : ∃ c, sample.Reached (.sample 0 []) c ∧
    (c.world.db.jobs.length = 0 ∧ c.world.memoryQueue.len = 1) ∧ c.world.db.Keyed ∧ c.world.db.Referenced := by
  have hexec : (sample.system.exec (fun _ _ _ => true)
      ([execute, .spawn (.request (.deleteJob 1))] ++ List.replicate 13 (.run 0) ++ [.run 1])
        (initial (.sample 0 []))).map (fun c => (c.world.db.jobs.length, c.world.memoryQueue.len)) =
          some (0, 1) := by decide +kernel
  obtain ⟨c, hrun, heq⟩ := reached_sample hexec
  exact ⟨c, hrun, Prod.mk.inj heq, keys_and_references starts_sample hrun⟩

theorem rows_formed_sample : ∃ c, sample.Reached (.sample 0 []) c ∧
    (c.world.db.dags.length = 1 ∧ c.world.db.jobSchedules.length = 1) ∧ c.world.db.Formed everyInstant := by
  have hexec : (sample.system.exec (fun _ _ _ => true)
      ([.spawn (.request (.createDag { name := " d " })), .spawn (.request (.createSchedule 1 ⟨"x"⟩))] ++
        List.replicate 3 (.run 0) ++ List.replicate 6 (.run 1)) (initial (.sample 0 []))).map
          (fun c => (c.world.db.dags.length, c.world.db.jobSchedules.length)) = some (1, 1) := by decide +kernel
  obtain ⟨c, hrun, heq⟩ := reached_sample hexec
  exact ⟨c, hrun, Prod.mk.inj heq, rows_formed starts_sample hrun⟩

theorem no_orphaned_logs_sample : ∃ c, sample.Reached (.sample 0 []) c ∧
    c.world.db.executionLogs.length = 1 ∧
    ExecutionLogRepository.deleteOrphaned.run c.world = some (.ok 0, c.world) := by
  have hexec : (sample.system.exec (fun _ _ _ => true)
      ([execute, .spawn (.pass 0 fun _ => .sample true)] ++ List.replicate 13 (.run 0) ++
        List.replicate 13 (.run 1)) (initial (.sample 0 []))).map
          (fun c => (c.world.db.executionLogs.length, c.world.fault)) = some (1, none) := by decide +kernel
  obtain ⟨c, hrun, heq⟩ := reached_sample hexec
  obtain ⟨hlogs, hfault⟩ := Prod.mk.inj heq
  exact ⟨c, hrun, hlogs, no_orphaned_logs starts_sample hrun hfault⟩

end Server

end Serverust
