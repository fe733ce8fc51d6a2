import Serverust.Model.JobExecutor
import Serverust.Model.VenvService
import Serverust.Proof.DeliveryRuns

/-!
# The interpreter an execution runs in

An item carries the flag of its job for an own venv, but not the venv that the job names. So the
interpreter is the one of the named venv only where that is the venv the flag selects anyway.
-/

namespace Serverust

namespace Deliveries

open Calendar Resumption

/-! ### The selection -/

/-- A row of the venvs. -/
structure Venv where
  id : VenvId
  path : Path

/-- The venv that a job names, if it exists. -/
def namedVenv (venvs : List Venv) (job : Job) : Option Venv :=
  job.venvId.bind fun id => Rows.lookup Venv.id id venvs

section

variable (executor : JobExecutor)

/-- The venv of a job by its flag: its own, or the main one. -/
def flagVenvPath (jobId : Uuid) (useCustomVenv : Bool) : Path :=
  if useCustomVenv then executor.customVenvBasePath.join ("job-" ++ jobId.text) else executor.mainVenvPath

/-- The venv that a job selects. -/
def selectedVenvPath (venvs : List Venv) (job : Job) : Path :=
  match namedVenv venvs job with
  | some venv => venv.path
  | none => flagVenvPath executor job.id job.useCustomVenv

/-- The venv of the flag `built`, which the job had when the item was built, has an interpreter, and the
job names that venv, or it names no existing one and has the venv of the same flag. Or that venv has no
interpreter, and the configured one is that of the selected venv. -/
def Selects (host : Host) (venvs : List Venv) (built : Bool) (job : Job) : Prop :=
  if host.pathExists (PythonRunner.pythonPath host (flagVenvPath executor job.id built)) then
    match namedVenv venvs job with
    | some venv => venv.path = flagVenvPath executor job.id built
    | none => flagVenvPath executor job.id job.useCustomVenv = flagVenvPath executor job.id built
  else executor.runner.pythonExecutable = PythonRunner.pythonPath host (selectedVenvPath executor venvs job)

variable {executor} {host : Host} {venvs : List Venv} {job : Job} {item : QueueItem}

theorem pythonPath_injective (host : Host) : Function.Injective (PythonRunner.pythonPath host) := by
  intro path path' heq
  simp only [PythonRunner.pythonPath, Path.join, List.append_assoc] at heq
  split at heq
  · exact List.append_cancel_right heq
  · exact List.append_cancel_right heq

theorem getVenvPath_eq (hjob : job.id = item.jobId) :
    executor.getVenvPath item = flagVenvPath executor job.id item.useCustomVenv := by
  rw [hjob]
  rfl

theorem interpreter_eq_iff (hjob : job.id = item.jobId) : executor.interpreter host item =
    PythonRunner.pythonPath host (selectedVenvPath executor venvs job) ↔
      Selects executor host venvs item.useCustomVenv job := by
  rw [JobExecutor.interpreter, PythonRunner.chosenPythonPath, getVenvPath_eq hjob, Selects]
  split
  · rw [(pythonPath_injective host).eq_iff, selectedVenvPath]
    cases namedVenv venvs job with
    | none => exact eq_comm
    | some venv => exact eq_comm
  · exact Iff.rfl

end

/-! ### Deliveries -/

/-- The flag of the item is the one its job had when a task read the job's row to build the item. -/
structure BuiltFrom (trace : List Event) (item : QueueItem) (x : Execution) (job : Job) : Prop where
  execution : x.id = item.executionId ∧ x.jobId = item.jobId ∧ x.inputData = item.inputData
  read : ∃ id, .sql (.getJob id (some job)) ∈ trace
  job : job.id = item.jobId ∧ job.useCustomVenv = item.useCustomVenv

/-- Each item that a worker gets was built from its execution and a row of its job, and it runs in the venv
that a row of its job selects if and only if the row selects the venv of the flag in the item. -/
theorem interpreter_selected_iff {proc : Process} {edits : List Job → List Job → Prop} {w : World}
    (hfresh : Fresh w) {c : Config Event World Tag}
    (hrun : (system proc edits).Lives (fun _ _ _ => True) Reboot (initial w) c) {item : QueueItem}
    (hitem : .dequeued (some item) ∈ c.trace) :
    (∃ x ∈ c.world.db.executions, ∃ built, BuiltFrom c.trace item x built) ∧
      ∀ job : Job, job.id = item.jobId → ∀ (executor : JobExecutor) (host : Host) (venvs : List Venv),
        executor.interpreter host item = PythonRunner.pythonPath host (selectedVenvPath executor venvs job) ↔
          Selects executor host venvs item.useCustomVenv job := by
  refine ⟨?_, fun job hjob executor host venvs => interpreter_eq_iff hjob⟩
  obtain ⟨x, job, id, hknown, hread, hjob, heq⟩ := (base_of_lives hfresh hrun).delivered item hitem
  obtain ⟨row, hrow, hsame⟩ := List.mem_map.mp hknown
  simp only [identity, Prod.mk.injEq] at hsame
  obtain ⟨hid, hof, hinput⟩ := hsame
  rw [heq]
  exact ⟨row, hrow, job, ⟨hid, hof.trans hjob.symm, hinput⟩, ⟨id, hread⟩, rfl, rfl⟩

/-! ### A job that names a venv -/

/-- A request for the job, and a worker that takes its execution. -/
def handled (w : World) : Option (Config Event World Tag) :=
  (system Process.sample fun _ _ => True).exec (fun _ _ _ => true)
    ([.spawn (.executeJob 1 none)] ++ List.replicate 14 (.run 0) ++
      [.spawn (.pass 0 fun _ => .sample true)] ++ List.replicate 6 (.run 1)) (initial w)

theorem lives_handled {w : World} {c : Config Event World Tag} (h : handled w = some c) :
    (system Process.sample fun _ _ => True).Lives (fun _ _ _ => True) Reboot (initial w) c :=
  .run .start (System.reaches_of_exec h)

/-- The item of the execution that the request creates. -/
def handledItem (job : Job) : QueueItem := .new (.new 1000 1 none "") job 0

theorem interpreter_selected_iff_handled : ∃ c : Config Event World Tag, .dequeued (some (handledItem (.sample 0))) ∈ c.trace ∧
    (∃ x ∈ c.world.db.executions, ∃ built, BuiltFrom c.trace (handledItem (.sample 0)) x built) ∧
      ∀ job : Job, job.id = (handledItem (.sample 0)).jobId →
        ∀ (executor : JobExecutor) (host : Host) (venvs : List Venv),
          executor.interpreter host (handledItem (.sample 0)) =
            PythonRunner.pythonPath host (selectedVenvPath executor venvs job) ↔
              Selects executor host venvs (handledItem (.sample 0)).useCustomVenv job := by
  have hlast : (handled (worldOf (.sample 0))).map (fun c => c.trace.getLast?) =
    some (some (.dequeued (some (handledItem (.sample 0))))) := rfl
  obtain ⟨c, hc, heq⟩ := Option.map_eq_some_iff.mp hlast
  have hitem := List.mem_of_getLast? heq
  exact ⟨c, hitem, interpreter_selected_iff (fresh_worldOf _) (lives_handled hc) hitem⟩

/-- The job names venv 5. -/
def naming : Job := { Job.sample 0 with venvId := some (.uuid 5) }

/-- Venv 5 is stored, as one that belongs to no job. -/
def namingWorld : World :=
  .start { Db.empty with jobs := [naming], venvs := [.newStandalone 5 "venvs/data" none ""] } epoch 1000

theorem fresh_namingWorld : Fresh namingWorld := ⟨List.nodup_nil, rfl, rfl, rfl⟩

/-- The job names a venv that exists and has an interpreter, and its execution runs in the main venv. -/
theorem named_venv_ignored : ¬ ∀ (proc : Process) (edits : List Job → List Job → Prop) (w : World), Fresh w →
    ∀ c, (system proc edits).Lives (fun _ _ _ => True) Reboot (initial w) c →
      ∀ item, .dequeued (some item) ∈ c.trace → ∀ job ∈ c.world.db.jobs, job.id = item.jobId →
        ∀ (executor : JobExecutor) (host : Host) (venvs : List Venv), (∀ path, host.pathExists path = true) →
          executor.interpreter host item = PythonRunner.pythonPath host (selectedVenvPath executor venvs job) := by
  intro hclaim
  have hlast : (handled namingWorld).map (fun c => (c.world.db.jobs, c.trace.getLast?)) =
    some ([naming], some (.dequeued (some (handledItem naming)))) := rfl
  obtain ⟨c, hc, heq⟩ := Option.map_eq_some_iff.mp hlast
  obtain ⟨hjobs, htrace⟩ := Prod.mk.inj heq
  have hjob : naming ∈ c.world.db.jobs := hjobs ▸ List.mem_singleton_self naming
  have hrun := hclaim _ _ _ fresh_namingWorld c (lives_handled hc) _ (List.mem_of_getLast? htrace) naming hjob rfl
    ⟨⟨["python3"]⟩, ["venvs", "main"], ["venvs"]⟩ ⟨false, fun _ => true⟩ [⟨.uuid 5, ["venvs", "data"]⟩] fun _ => rfl
  exact absurd hrun (by decide)

end Deliveries

end Serverust
