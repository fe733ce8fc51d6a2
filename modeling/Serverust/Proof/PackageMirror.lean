import Serverust.Proof.PackageCache

/-!
# The cache mirrors the venv

The cache has one row for each version of a package that was installed, while the venv has one version of it.
The two agree as long as every installation that succeeds is of the version that the cache has for the
package, if it has one, and no installation that fails is of that version.
-/

namespace Serverust

namespace PackageMirror

open Calendar Resumption Requests

/-! ### Runs -/

section Runs

variable {manager : PackageManager} {lower names : String → String} {w : World}

/-- The packages after a command. -/
def after (manager : PackageManager) (args : List String) (w : World) : World :=
  { w with disk := { w.disk with installed := (manager.pip args w.disk.installed).2 } }

/-- What `pip show` tells about a package. -/
def shown (manager : PackageManager) (name : String) (venv : List (String × String)) : Option String :=
  match (manager.pip (PackageManager.showArgs name) venv).1.result with
  | .ok output => if output.success then PackageManager.shownVersion output.stdout else none
  | .error _ => none

theorem updateCache_eq (cache : PackageCache) (db : Db) : PackageRepository.updateCache cache db =
    (db.packageCache.countP (hit cache), { db with packageCache := db.packageCache.map (update cache) }) := rfl

theorem run_upsertCache (cache : PackageCache) (hworks : w.fault = none) (hvenv : cache.venvId = none)
    (hnew : ∀ row ∈ w.db.packageCache, row.id ≠ cache.id) :
    ∃ db, (PackageRepository.upsertCache cache).run w = some (.ok cache, { w with db }) ∧
      db.packageCache = upserted cache w.db.packageCache := by
  have hids : Rows.hits PackageCache.id cache.id (w.db.packageCache.map (update cache)) = 0 := by
    refine Rows.hits_eq_zero.mpr ?_
    intro row hrow
    obtain ⟨old, hold, rfl⟩ := List.mem_map.mp hrow
    rw [update_id]
    exact hnew old hold
  unfold PackageRepository.upsertCache
  simp only [hvenv, Task.run_bind, run_execute hworks, updateCache_eq]
  by_cases hzero : w.db.packageCache.countP (hit cache) = 0
  · rw [if_pos hzero, Task.run_bind, run_sql (by exact hworks)]
    simp only [PackageRepository.insertCache, hids, ne_eq, not_true_eq_false, if_false]
    exact ⟨_, rfl, by simp [upserted, hzero]⟩
  · rw [if_neg hzero]
    exact ⟨_, rfl, by simp [upserted, hzero]⟩

variable {setup : Setup} {pip : Pip}

theorem service_workers : (setup.service pip).workers = some (setup.venvManager, setup.manager pip) := rfl

theorem run_checkConflict (hstrategy : setup.conflictStrategy ≠ "fail") (hworks : w.fault = none)
    (req : InstallPackageRequest) : ((setup.service pip).checkConflict req).run w = some (.ok (), w) := by
  have hstrategy' : (setup.service pip).conflictStrategy ≠ "fail" := hstrategy
  unfold PackageService.checkConflict PackageRepository.getCachedPackage
  cases req.version with
  | none => rfl
  | some requested =>
      simp only [Task.run_bind, Task.run_attempt, run_select hworks, Option.map_some, hstrategy', decide_false,
        Bool.and_false, Bool.false_eq_true, if_false]
      split <;> rfl

/-- An installation that gets as far as pip. -/
def Starts (setup : Setup) (w : World) (name : String) : Prop :=
  trim name ≠ "" ∧ (w.disk.mainVenv = false → setup.venvManager.mainVenvError = none)

/-- The state when pip starts. -/
def started (w : World) : World :=
  { w with
    disk := { w.disk with mainVenv := true }
    nextUuid := w.nextUuid + 1 }

theorem run_ensureMainVenv_error {e : String} (hvenv : w.disk.mainVenv = false)
    (herror : setup.venvManager.mainVenvError = some e) :
    ∃ e', (PackageService.ensureMainVenv setup.venvManager).run w = some (.error e', w) := by
  refine ⟨.internal ("Failed to create main venv: " ++ e), ?_⟩
  unfold PackageService.ensureMainVenv VenvManager.mainVenvExists VenvManager.createMainVenv
  simp [hvenv, herror]

/-- The entry that an installation starts with. -/
def entry (setup : Setup) (w : World) (req : InstallPackageRequest) : PackageCache :=
  PackageService.newCache req setup.venvManager.mainVenvPath w.nextUuid (toRfc3339 w.now) (toRfc3339 w.now)

theorem run_refused (pip : Pip) (hstrategy : setup.conflictStrategy ≠ "fail") (hworks : w.fault = none)
    {req : InstallPackageRequest} (h : ¬Starts setup w req.name) :
    ∃ e, ((setup.service pip).installPackage req).run w = some (.error e, w) := by
  unfold PackageService.installPackage
  by_cases hblank : trim req.name = ""
  · rw [if_pos hblank]
    exact ⟨_, rfl⟩
  rw [if_neg hblank, service_workers]
  have hvenv : w.disk.mainVenv = false ∧ setup.venvManager.mainVenvError ≠ none := by
    simpa [Starts, hblank] using h
  obtain ⟨e, herror⟩ := Option.ne_none_iff_exists'.mp hvenv.2
  obtain ⟨e', hrun⟩ := run_ensureMainVenv_error hvenv.1 herror
  refine ⟨e', ?_⟩
  simp only [Task.run_bind, run_checkConflict hstrategy hworks, hrun]

/-- An installation whose entry has the version that pip left, and is that of every ready row of the package. -/
structure Fits (setup : Setup) (pip : Pip) (w : World) (req : InstallPackageRequest) (version : String) :
    Prop where
  named : setup.lower (setup.names (PackageManager.packageSpec req.name req.version)) = setup.lower req.name
  left : ∃ package ∈ (pip ((setup.manager pip).installArgs req.name req.version) w.disk.installed).2,
    setup.lower package.1 = setup.lower req.name ∧ package.2 = version
  told : succeeds (pip (PackageManager.showArgs req.name)
      (pip ((setup.manager pip).installArgs req.name req.version) w.disk.installed).2).1 ∨
    req.version = some version
  alone : ∀ row ∈ w.db.packageCache, Ready row → setup.lower row.packageName = setup.lower req.name →
    row.packageName = req.name ∧ row.version = version

/-- An installation that fits if it succeeds, and is of no version that is ready if it fails, or an
uninstallation of the package that has the name. -/
def Harmless (setup : Setup) (w : World) (req : Request) : Prop :=
  match req.call with
  | .installPackage body => Starts setup w body.name →
      if installs (setup.manager req.pip)
          (req.pip ((setup.manager req.pip).installArgs body.name body.version) w.disk.installed).1 then
        ∃ version, Fits setup req.pip w body version
      else ∀ row ∈ w.db.packageCache, Ready row → row.packageName = body.name →
        row.version ≠ body.version.getD "latest"
  | .uninstallPackage name => trim name ≠ "" →
      succeeds (req.pip (PackageManager.uninstallArgs name) w.disk.installed).1 →
        setup.lower (setup.names name) = setup.lower name

theorem step_eq (req : Request) {r : Except AppError Unit} {w' : World}
    (h : (req.call.task (setup.service req.pip)).run w = some (r, w')) : setup.step w req = w' := by
  unfold Setup.step
  rw [h]

/-- A request of which only the state matters. -/
theorem run_ignored {α : Type} {p : Async α} {r : Except AppError α} {w' : World} (h : p.run w = some (r, w')) :
    ∃ r', (do let _ ← p : Async Unit).run w = some (r', w') := by
  rw [Task.run_bind, h]
  cases r with
  | ok value => exact ⟨.ok (), rfl⟩
  | error e => exact ⟨.error e, rfl⟩

theorem Consistent.unchanged (h : Consistent setup.lower w) {req : InstallPackageRequest}
    (hrun : ∃ r, ((setup.service pip).installPackage req).run w = some (r, w)) :
    Consistent setup.lower (setup.step w ⟨.installPackage req, pip⟩) := by
  obtain ⟨r, hrun⟩ := hrun
  obtain ⟨r', hrun'⟩ := run_ignored hrun
  rw [step_eq ⟨.installPackage req, pip⟩ hrun']
  exact h

end Runs

/-! ### An index and a venv -/

namespace Sample

def lower (name : String) : String := String.ofList (name.toList.map Char.toLower)

/-- The name at the start of a requirement. -/
def names (spec : String) : String := String.ofList (spec.toList.takeWhile fun c => !"=<>~!".toList.contains c)

def answered (success : Bool) (stdout : String) : PipRun := ⟨1, .ok ⟨success, stdout, ""⟩⟩

/-- `pip show`, for a version that can be read from what it prints. -/
def told (name : String) (venv : List (String × String)) : PipRun :=
  match venv.find? fun package => lower package.1 = lower name with
  | some package =>
    let text := "Version: " ++ package.2 ++ "\n"
    answered (PackageManager.shownVersion text = some package.2) text
  | none => answered false ""

def offline : Pip := fun _ venv => (answered false "", venv)

def setup : Setup where
  venvManager := ⟨"/data/venvs", "python3", fun _ => true, fun _ => none, none⟩
  packageManager := ⟨300, true, none, offline⟩
  conflictStrategy := "suggest_custom_venv"
  lower := lower
  names := names

def installing (name : String) (version : Option String) (pip : Pip) : Request :=
  ⟨.installPackage ⟨name, version⟩, pip⟩

end Sample

end PackageMirror

end Serverust
