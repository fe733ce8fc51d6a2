import Serverust.Library.StableSort
import Serverust.Model.PackageService
import Serverust.Proof.Sequential

/-!
# The status of dependencies

A dependency is reported as ready when the first row of its package is. Which versions satisfy which
constraints is a parameter: the report does not look at it.
-/

namespace Serverust

open Resumption

namespace DependencyStatus

open PackageRepository PackageService

section

variable (satisfies : String → String → Prop) (venvType : VenvType) (venvId : Option String)
  (rows : List PackageCache) (dep : JobDependency)

/-- The rows of the venv for a package. -/
def named (row : PackageCache) : Bool := inVenv venvType venvId row && row.packageName = dep.packageName

/-- A version that will do is ready. -/
def Satisfied : Prop :=
  ∃ row ∈ rows, named venvType venvId dep row = true ∧ row.status = .ready ∧
    satisfies dep.versionConstraint row.version

/-- The first row of the package is ready if and only if a version that will do is. -/
def FirstTells : Prop :=
  ∀ row, rows.find? (named venvType venvId dep) = some row →
    (row.status = .ready ↔ Satisfied satisfies venvType venvId rows dep)

/-- A report that tells of every dependency whether a version that will do is ready, and of all together
whether there are some and each is reported as ready. -/
structure Truthful (deps : List JobDependency) (response : DependencyStatusResponse) : Prop where
  packages : List.Forall₂ (fun dep package => package.name = dep.packageName ∧
    (package.status = .ready ↔ Satisfied satisfies venvType venvId rows dep)) deps response.packages
  status : response.status = .ready ↔
    response.packages ≠ [] ∧ ∀ package ∈ response.packages, package.status = .ready

end

section

variable {satisfies : String → String → Prop} {venvType : VenvType} {venvId : Option String}
  {rows cached : List PackageCache} {dep : JobDependency} {w : World}

instance : Std.Total fun a b : PackageCache => a.packageName ≤ b.packageName :=
  ⟨fun a b => le_total a.packageName b.packageName⟩

instance : IsTrans PackageCache fun a b => a.packageName ≤ b.packageName :=
  ⟨fun _ _ _ => le_trans⟩

/-- The rows that `getCacheByVenv` reads. -/
def cachedOf (venvType : VenvType) (venvId : Option String) (rows : List PackageCache) : List PackageCache :=
  (rows.filter (inVenv venvType venvId)).insertionSort fun a b => a.packageName ≤ b.packageName

theorem find?_cachedOf (rows : List PackageCache) (dep : JobDependency) :
    (cachedOf venvType venvId rows).find? (fun c => c.packageName = dep.packageName) =
      rows.find? (named venvType venvId dep) := by
  rw [cachedOf, StableSort.find?_insertionSort, List.find?_filter]
  · congr
    funext row
    simp [named]
  · intro a _ b _ ha hb
    exact le_of_eq ((of_decide_eq_true ha).trans (of_decide_eq_true hb).symm)

/-- The dependencies that `getDependencies` reads. -/
def dependenciesOf (jobId : Uuid) (db : Db) : List JobDependency :=
  (db.jobDependencies.filter fun dep => dep.jobId = jobId).insertionSort fun a b => a.packageName ≤ b.packageName

theorem installStatus_ready : (installStatus cached dep).status = .ready ↔
    ∃ row, cached.find? (fun c => c.packageName = dep.packageName) = some row ∧ row.status = .ready := by
  unfold installStatus
  cases hfirst : cached.find? fun c => c.packageName = dep.packageName with
  | none => simp
  | some row =>
      cases hstatus : row.status <;> simp [hstatus]

theorem checkAll_eq (cached : List PackageCache) (deps : List JobDependency) : checkAll cached deps =
    (deps.map (installStatus cached), deps.all fun dep => (installStatus cached dep).status = .ready) := by
  induction deps with
  | nil => rfl
  | cons dep deps ih => simp only [checkAll, ih, List.map_cons, List.all_cons]

/-- The report on these dependencies and rows. -/
def report (jobId : Uuid) (deps : List JobDependency) (cached : List PackageCache) : DependencyStatusResponse where
  jobId := jobId
  status :=
    if deps.isEmpty then .noDependencies
    else if deps.all fun dep => (installStatus cached dep).status = .ready then .ready
    else .pending
  packages := deps.map (installStatus cached)

theorem run_getDependencyStatus (hfault : w.fault = none) (jobId : Uuid) (venvType : VenvType)
    (venvId : Option String) : (getDependencyStatus jobId venvType venvId).run w =
      some (.ok (report jobId (dependenciesOf jobId w.db) (cachedOf venvType venvId w.db.packageCache)), w) := by
  simp only [getDependencyStatus, getDependencies, getCacheByVenv, Task.run_bind, run_select hfault, checkAll_eq,
    List.isEmpty_map]
  rfl

theorem report_ready (jobId : Uuid) (deps : List JobDependency) (cached : List PackageCache) :
    (report jobId deps cached).status = .ready ↔ (report jobId deps cached).packages ≠ [] ∧
      ∀ package ∈ (report jobId deps cached).packages, package.status = .ready := by
  simp only [report]
  cases deps with
  | nil => simp
  | cons dep deps =>
      simp only [List.isEmpty_cons, Bool.false_eq_true, if_false]
      split <;> simp_all

/-- What is reported of one dependency is true if and only if the first row tells. -/
theorem installStatus_true (dep : JobDependency) :
    ((installStatus (cachedOf venvType venvId rows) dep).status = .ready ↔
      Satisfied satisfies venvType venvId rows dep) ↔ FirstTells satisfies venvType venvId rows dep := by
  rw [installStatus_ready, find?_cachedOf, FirstTells]
  cases hfirst : rows.find? (named venvType venvId dep) with
  | none =>
      have hnone : ¬Satisfied satisfies venvType venvId rows dep := by
        rintro ⟨row, hrow, hnamed, -⟩
        exact List.find?_eq_none.mp hfirst row hrow hnamed
      simp [hnone]
  | some row => simp

theorem forall₂_map {α β : Type} {R : α → β → Prop} {f : α → β} {xs : List α} :
    List.Forall₂ R xs (xs.map f) ↔ ∀ x ∈ xs, R x (f x) := by
  rw [List.forall₂_map_right_iff, List.forall₂_same]

end

/-- The report is true exactly if, for each dependency of the job, the first row of the package in the table
is ready when, and only when, a version that will do is. -/
theorem getDependencyStatus_truthful (satisfies : String → String → Prop) {w : World} (hfault : w.fault = none)
    (jobId : Uuid) (venvType : VenvType) (venvId : Option String) :
    ∃ response, (getDependencyStatus jobId venvType venvId).run w = some (.ok response, w) ∧
      (Truthful satisfies venvType venvId w.db.packageCache (dependenciesOf jobId w.db) response ↔
        ∀ dep ∈ dependenciesOf jobId w.db, FirstTells satisfies venvType venvId w.db.packageCache dep) := by
  refine ⟨_, run_getDependencyStatus hfault jobId venvType venvId, ?_⟩
  have hpackages : List.Forall₂ (fun dep package => package.name = dep.packageName ∧
      (package.status = .ready ↔ Satisfied satisfies venvType venvId w.db.packageCache dep))
      (dependenciesOf jobId w.db)
      (report jobId (dependenciesOf jobId w.db) (cachedOf venvType venvId w.db.packageCache)).packages ↔
        ∀ dep ∈ dependenciesOf jobId w.db, FirstTells satisfies venvType venvId w.db.packageCache dep := by
    rw [report, forall₂_map]
    refine forall₂_congr fun dep _ => ?_
    rw [← installStatus_true]
    exact and_iff_right rfl
  constructor
  · exact fun h => hpackages.mp h.packages
  · exact fun h => ⟨hpackages.mpr h, report_ready jobId _ _⟩

/-! ### Two dependencies that are reported wrongly -/

/-- `*` is satisfied by every version, and `==` by the one after it. -/
def Reads (constraint version : String) : Prop := constraint = "*" ∨ constraint = "==" ++ version

def dependency (id : Uuid) (packageName versionConstraint : String) : JobDependency where
  id := id
  jobId := 7
  packageName := packageName
  versionConstraint := versionConstraint
  createdAt := ""

def entry (id : Uuid) (packageName version : String) (status : PackageStatus) : PackageCache where
  id := id
  venvType := .main
  venvId := none
  packageName := packageName
  version := version
  installationPath := ""
  sizeBytes := none
  status := status
  errorMessage := none
  installedAt := ""
  lastUsedAt := none
  useCount := 0

/-- A job that needs numpy 2.0 and any pandas, with numpy 1.26.4 ready, and pandas 2.2 after 2.1 failed. -/
def misreported : World :=
  .start { Db.empty with
    jobDependencies := [dependency 1 "numpy" "==2.0", dependency 2 "pandas" "*"]
    packageCache := [entry 1 "numpy" "1.26.4" .ready, entry 2 "pandas" "2.1" .failed,
      entry 3 "pandas" "2.2" .ready] } Calendar.epoch 4

/-- The theorem in a state without a fault. -/
theorem getDependencyStatus_truthful_sample : misreported.fault = none ∧
    ∃ response, (getDependencyStatus 7 .main none).run misreported = some (.ok response, misreported) ∧
      (Truthful Reads .main none misreported.db.packageCache (dependenciesOf 7 misreported.db) response ↔
        ∀ dep ∈ dependenciesOf 7 misreported.db, FirstTells Reads .main none misreported.db.packageCache dep) :=
  ⟨rfl, getDependencyStatus_truthful Reads rfl 7 .main none⟩

/-- numpy 2.0 is reported as ready, and pandas as failed. -/
theorem getDependencyStatus_first_row : ∃ response,
    (getDependencyStatus 7 .main none).run misreported = some (.ok response, misreported) ∧
      response.packages.map (fun package => (package.name, package.status)) =
        [("numpy", .ready), ("pandas", .failed)] ∧
      ¬Satisfied Reads .main none misreported.db.packageCache (dependency 1 "numpy" "==2.0") ∧
      Satisfied Reads .main none misreported.db.packageCache (dependency 2 "pandas" "*") ∧
      ¬Truthful Reads .main none misreported.db.packageCache (dependenciesOf 7 misreported.db) response := by
  have hpandas : Satisfied Reads .main none misreported.db.packageCache (dependency 2 "pandas" "*") :=
    ⟨entry 3 "pandas" "2.2" .ready, by decide +kernel, rfl, rfl, .inl rfl⟩
  refine ⟨_, run_getDependencyStatus rfl 7 .main none, by decide +kernel, ?_, hpandas, ?_⟩
  · simp [Satisfied, misreported, World.start, Reads, named, inVenv, entry, dependency]
  · intro h
    have hpackages := forall₂_map.mp h.packages
    have hstatus := (hpackages (dependency 2 "pandas" "*") (by decide +kernel)).2.mpr hpandas
    exact absurd hstatus (by decide +kernel)

end DependencyStatus

end Serverust
