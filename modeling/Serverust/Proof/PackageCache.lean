import Serverust.Library.Requests
import Serverust.Model.PackageService
import Serverust.Proof.Sequential

/-!
# The cache and the venv

What is assumed of pip, when the cache agrees with the main venv, and what a write of the cache does to that.
-/

namespace Serverust

namespace PackageMirror

open Calendar Resumption Requests

/-! ### What is assumed of pip -/

/-- An installation that succeeds in time. -/
def installs (manager : PackageManager) (run : PipRun) : Bool :=
  !decide (manager.pipTimeout < run.seconds) && match run.result with
    | .ok output => output.success
    | .error _ => false

def succeeds (run : PipRun) : Bool :=
  match run.result with
  | .ok output => output.success
  | .error _ => false

/-- The packages without one. -/
def without (lower : String → String) (name : String) (venv : List (String × String)) : List (String × String) :=
  venv.filter fun entry => lower entry.1 ≠ lower name

/-- The packages with this version of one. -/
def put (lower : String → String) (name version : String) (venv : List (String × String)) :
    List (String × String) :=
  without lower name venv ++ [(name, version)]

/-- An installation that succeeds leaves one version of the package that the requirement names, which is the
version it asks for with `==`. An uninstallation that succeeds leaves none. A command that fails changes
nothing, and `pip show` only tells the version. Names that are `lower` the same are the same, and `names` is
how pip reads a requirement. -/
structure Lawful (lower names : String → String) (manager : PackageManager) : Prop where
  install : ∀ name constraint venv, installs manager (manager.pip (manager.installArgs name constraint) venv).1 →
    ∃ version, (manager.pip (manager.installArgs name constraint) venv).2 =
        put lower (names (PackageManager.packageSpec name constraint)) version venv ∧
      ∀ exact, PackageManager.packageSpec name constraint =
        names (PackageManager.packageSpec name constraint) ++ "==" ++ exact → version = exact
  installFails : ∀ name constraint venv,
    ¬installs manager (manager.pip (manager.installArgs name constraint) venv).1 →
      (manager.pip (manager.installArgs name constraint) venv).2 = venv
  uninstall : ∀ name venv, succeeds (manager.pip (PackageManager.uninstallArgs name) venv).1 →
    (manager.pip (PackageManager.uninstallArgs name) venv).2 = without lower (names name) venv
  uninstallFails : ∀ name venv, ¬succeeds (manager.pip (PackageManager.uninstallArgs name) venv).1 →
    (manager.pip (PackageManager.uninstallArgs name) venv).2 = venv
  showReads : ∀ name venv, (manager.pip (PackageManager.showArgs name) venv).2 = venv
  showTells : ∀ name venv output, (manager.pip (PackageManager.showArgs name) venv).1.result = .ok output →
    output.success → ∃ entry ∈ venv, lower entry.1 = lower name ∧
      PackageManager.shownVersion output.stdout = some entry.2

/-! ### Requests -/

inductive Call where
  | installPackage (req : InstallPackageRequest)
  | uninstallPackage (packageName : String)

def Call.task (service : PackageService) : Call → Async Unit
  | .installPackage req => do let _ ← service.installPackage req
  | .uninstallPackage packageName => service.uninstallPackage packageName

/-- A call, and what pip does while it is served. -/
structure Request where
  call : Call
  pip : Pip

/-- What the requests of a sequence share. -/
structure Setup where
  venvManager : VenvManager
  packageManager : PackageManager
  conflictStrategy : String
  lower : String → String
  names : String → String

namespace Setup

variable (setup : Setup)

/-- The package manager, with this pip. -/
def manager (pip : Pip) : PackageManager := { setup.packageManager with pip }

def service (pip : Pip) : PackageService where
  workers := some (setup.venvManager, setup.manager pip)
  conflictStrategy := setup.conflictStrategy
  toLowercase := setup.lower

/-- Serve a request that runs alone. -/
def step (w : World) (req : Request) : World :=
  match (req.call.task (setup.service req.pip)).run w with
  | some (_, w') => w'
  | none => w

end Setup

/-! ### The cache and the venv -/

/-- A row of the main venv that is ready. -/
def Ready (row : PackageCache) : Prop := PackageRepository.inVenv .main none row = true ∧ row.status = .ready

instance : DecidablePred Ready := fun _ => inferInstanceAs (Decidable (_ ∧ _))

/-- No two ready rows of one package. -/
def Apart (lower : String → String) (a b : PackageCache) : Prop :=
  Ready a → Ready b → lower a.packageName ≠ lower b.packageName

/-- Two rows of the main venv that are not for one version of a package. -/
def Different (a b : PackageCache) : Prop :=
  PackageRepository.inVenv .main none a → PackageRepository.inVenv .main none b →
    a.packageName = b.packageName → a.version ≠ b.version

/-- The cache and the venv agree, the rows of the main venv are for different versions, and the next id is
new. -/
structure Consistent (lower : String → String) (w : World) : Prop where
  same : ∀ name version,
    (∃ row ∈ w.db.packageCache, Ready row ∧ lower row.packageName = name ∧ row.version = version) ↔
      ∃ entry ∈ w.disk.installed, lower entry.1 = name ∧ entry.2 = version
  one : w.db.packageCache.Pairwise (Apart lower)
  packages : Rows.Unique (fun package => lower package.1) w.disk.installed
  entries : w.db.packageCache.Pairwise Different
  fresh : ∀ row ∈ w.db.packageCache, row.id < w.nextUuid
  works : w.fault = none

section Rows

variable {lower : String → String} {w w' : World} {cache row : PackageCache}

/-- The row for the version of a package that `cache` is about. -/
def hit (cache row : PackageCache) : Bool :=
  PackageRepository.isEntry cache.venvType none cache.packageName cache.version row

/-- What the update does to a row. -/
def update (cache row : PackageCache) : PackageCache :=
  if hit cache row then
    { row with
      status := cache.status
      errorMessage := cache.errorMessage
      sizeBytes := cache.sizeBytes
      lastUsedAt := cache.lastUsedAt
      useCount := cache.useCount
      installationPath := cache.installationPath }
  else row

theorem update_packageName : (update cache row).packageName = row.packageName := by
  unfold update
  split <;> rfl

theorem update_version : (update cache row).version = row.version := by
  unfold update
  split <;> rfl

theorem update_id : (update cache row).id = row.id := by
  unfold update
  split <;> rfl

theorem update_inVenv (venvType : VenvType) (venvId : Option String) :
    PackageRepository.inVenv venvType venvId (update cache row) = PackageRepository.inVenv venvType venvId row := by
  unfold update
  split <;> rfl

theorem update_of_not_hit (h : ¬hit cache row) : update cache row = row := if_neg h

/-- The cache after an upsert: the rows that it hits are updated, or else there is a new one. -/
def upserted (cache : PackageCache) (rows : List PackageCache) : List PackageCache :=
  rows.map (update cache) ++ if rows.countP (hit cache) = 0 then [cache] else []

theorem mem_upserted {rows : List PackageCache} : row ∈ upserted cache rows ↔
    (∃ old ∈ rows, update cache old = row) ∨ (∀ old ∈ rows, ¬hit cache old) ∧ row = cache := by
  have hnone : rows.countP (hit cache) = 0 ↔ ∀ old ∈ rows, ¬hit cache old := List.countP_eq_zero
  unfold upserted
  rw [List.mem_append, List.mem_map, ← hnone]
  by_cases hzero : rows.countP (hit cache) = 0
  · simp only [hzero, if_true, true_and, List.mem_singleton]
  · simp only [hzero, if_false, false_and, List.not_mem_nil]

theorem pairwise_upserted {R S : PackageCache → PackageCache → Prop} {rows : List PackageCache}
    (hupdate : ∀ a ∈ rows, ∀ b ∈ rows, S a b → R (update cache a) (update cache b))
    (hnew : (∀ old ∈ rows, ¬hit cache old) → ∀ old ∈ rows, R old cache) (h : rows.Pairwise S) :
    (upserted cache rows).Pairwise R := by
  have hmap : (rows.map (update cache)).Pairwise R :=
    List.pairwise_map.mpr (h.imp_of_mem fun ha hb hab => hupdate _ ha _ hb hab)
  unfold upserted
  split
  · rename_i hnone
    have hnot : ∀ old ∈ rows, ¬hit cache old := List.countP_eq_zero.mp hnone
    refine List.pairwise_append.mpr ⟨hmap, List.pairwise_singleton _ _, ?_⟩
    intro row hrow other hother
    obtain ⟨old, hold, rfl⟩ := List.mem_map.mp hrow
    rw [List.mem_singleton.mp hother, update_of_not_hit (hnot old hold)]
    exact hnew hnot old hold
  · rw [List.append_nil]
    exact hmap

/-- A row that is ready after an upsert was, or is about the version that was written. -/
theorem ready_update (hmain : PackageRepository.inVenv .main none cache) :
    Ready (update cache row) ↔ if hit cache row then cache.status = .ready else Ready row := by
  by_cases hhit : hit cache row
  · have hrow : PackageRepository.inVenv .main none row := by
      unfold hit PackageRepository.isEntry at hhit
      unfold PackageRepository.inVenv at hmain
      simp only [Bool.and_eq_true, decide_eq_true_eq] at hhit hmain
      rw [hmain.1] at hhit
      exact hhit.1.1
    unfold Ready
    rw [update_inVenv, if_pos hhit]
    simp [update, hhit, hrow]
  · rw [update_of_not_hit hhit, if_neg hhit]

theorem hit_iff (hmain : PackageRepository.inVenv .main none cache) : hit cache row ↔
    PackageRepository.inVenv .main none row ∧ row.packageName = cache.packageName ∧
      row.version = cache.version := by
  unfold PackageRepository.inVenv at hmain
  unfold hit PackageRepository.isEntry
  simp only [Bool.and_eq_true, decide_eq_true_eq] at hmain ⊢
  rw [hmain.1, and_assoc]

theorem different_upserted {rows : List PackageCache} (hmain : PackageRepository.inVenv .main none cache)
    (h : rows.Pairwise Different) : (upserted cache rows).Pairwise Different := by
  refine pairwise_upserted ?_ ?_ h
  · intro a _ b _ hab
    unfold Different
    rw [update_inVenv, update_inVenv, update_packageName, update_packageName, update_version, update_version]
    exact hab
  · exact fun hnone old hold hold' _ hname hversion =>
      hnone old hold ((hit_iff hmain).mpr ⟨hold', hname, hversion⟩)

theorem fresh_upserted {rows : List PackageCache} {next : Uuid} (hid : cache.id = next)
    (h : ∀ row ∈ rows, row.id < next) : ∀ row ∈ upserted cache rows, row.id < next + 1 := by
  intro row hrow
  rcases mem_upserted.mp hrow with ⟨old, hold, rfl⟩ | ⟨-, rfl⟩
  · rw [update_id]
    exact Nat.lt_succ_of_lt (h old hold)
  · rw [hid]
    exact Nat.lt_succ_self _

/-! ### Installations -/

/-- A failed installation of a version of which no ready row is. -/
theorem Consistent.fail (h : Consistent lower w) (cache : PackageCache) (hmain : PackageRepository.inVenv .main none cache)
    (hfailed : cache.status ≠ .ready) (hid : cache.id = w.nextUuid)
    (hnot : ∀ old ∈ w.db.packageCache, Ready old → ¬hit cache old)
    (hrows : w'.db.packageCache = upserted cache w.db.packageCache)
    (hdisk : w'.disk.installed = w.disk.installed)
    (hnext : w'.nextUuid = w.nextUuid + 1) (hworks : w'.fault = none) : Consistent lower w' := by
  have hready (old : PackageCache) : Ready (update cache old) ↔ Ready old ∧ ¬hit cache old := by
    rw [ready_update hmain]
    by_cases hhit : hit cache old
    · simp [hhit, hfailed]
    · simp [hhit]
  refine ⟨?_, ?_, ?_, ?_, ?_, hworks⟩
  · intro name version
    rw [hrows, hdisk, ← h.same]
    constructor
    · rintro ⟨row, hrow, hreadyRow, rfl, rfl⟩
      rcases mem_upserted.mp hrow with ⟨old, hold, rfl⟩ | ⟨-, rfl⟩
      · exact ⟨old, hold, ((hready old).mp hreadyRow).1, by rw [update_packageName], by rw [update_version]⟩
      · exact absurd hreadyRow.2 hfailed
    · rintro ⟨old, hold, hreadyOld, rfl, rfl⟩
      have hkept : update cache old = old := update_of_not_hit (hnot old hold hreadyOld)
      exact ⟨old, mem_upserted.mpr (.inl ⟨old, hold, hkept⟩), hreadyOld, rfl, rfl⟩
  · rw [hrows]
    refine pairwise_upserted ?_ ?_ h.one
    · intro a _ b _ hab hreadyA hreadyB
      rw [update_packageName, update_packageName]
      exact hab ((hready a).mp hreadyA).1 ((hready b).mp hreadyB).1
    · exact fun _ _ _ _ hreadyNew => absurd hreadyNew.2 hfailed
  · rw [hdisk]
    exact h.packages
  · rw [hrows]
    exact different_upserted hmain h.entries
  · rw [hrows, hnext]
    exact fresh_upserted hid h.fresh

end Rows

end PackageMirror

end Serverust
