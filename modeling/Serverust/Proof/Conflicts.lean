import Serverust.Model.PackageService
import Serverust.Proof.Sequential

/-!
# Conflicts with an installed version

The service compares the text of a constraint with the version that is ready, and pip is given a requirement
that is read. Which versions a specifier admits is a parameter.
-/

namespace Serverust

open Calendar Resumption

namespace Conflicts

open PackageRepository PackageService

/-- What the requirement says after the name of the package, if anything. -/
def specifier (versionConstraint : Option String) : Option String :=
  match versionConstraint with
  | some constraint =>
    if constraint = "*" then none
    else if PackageManager.operators.any (startsWith constraint) then some constraint
    else some ("==" ++ constraint)
  | none => none

/-- The version satisfies the requirement. -/
def Satisfies (admits : String → String → Prop) (versionConstraint : Option String) (version : String) : Prop :=
  ∀ spec, specifier versionConstraint = some spec → admits spec version

/-- The rows of the main venv for the package of a request. -/
def named (req : InstallPackageRequest) (row : PackageCache) : Bool :=
  inVenv .main none row && row.packageName = req.name

def conflictError (name version requested : String) : AppError :=
  .validation ("Package conflict: " ++ name ++ " v" ++ version ++ " is already installed in main-venv. Requested v" ++
    requested ++ ". Use a custom venv or change the conflict resolution strategy.")

def IsConflict (e : AppError) : Prop := ∃ name version requested, e = conflictError name version requested

/-- A service that fails on conflicts. -/
def failing (venvManager : VenvManager) (packageManager : PackageManager) (toLowercase : String → String) :
    PackageService where
  workers := some (venvManager, packageManager)
  conflictStrategy := "fail"
  toLowercase := toLowercase

/-- For each version that is ready: if it satisfies the requirement, the call does not return the conflict, and
if not, the call returns it and pip does not run. -/
def Judges (admits : String → String → Prop) (service : PackageService) (req : InstallPackageRequest) (w : World) :
    Prop :=
  ∀ row ∈ w.db.packageCache, named req row → row.status = .ready →
    (Satisfies admits req.version row.version →
      ∀ e w', (service.installPackage req).run w = some (.error e, w') → ¬IsConflict e) ∧
    (¬Satisfies admits req.version row.version →
      ∃ e w', (service.installPackage req).run w = some (.error e, w') ∧ IsConflict e ∧
        ∀ args, .pip args ∉ (service.installPackage req).trace w)

/-- The row of the package that is read first: the one with the lowest text of a version. -/
def first (req : InstallPackageRequest) (rows : List PackageCache) : Option PackageCache :=
  ((rows.filter (named req)).insertionSort fun a b => a.version ≤ b.version).head?

/-- The row that is read first is ready, in a version other than the text of the request. -/
def Differs (req : InstallPackageRequest) (rows : List PackageCache) : Prop :=
  ∃ requested existing, req.version = some requested ∧ first req rows = some existing ∧
    conflicts existing requested = true

section

variable {req : InstallPackageRequest} {w w' : World}

/-- What follows the name in the requirement that pip is given. -/
theorem packageSpec_eq (name : String) (versionConstraint : Option String) :
    PackageManager.packageSpec name versionConstraint = name ++ (specifier versionConstraint).getD "" := by
  unfold PackageManager.packageSpec specifier
  cases versionConstraint with
  | none => simp
  | some constraint =>
      dsimp only
      split
      · simp
      · split <;> simp [String.append_assoc]

/-! ### Errors -/

theorem not_isConflict_empty : ¬IsConflict (.validation "Package name cannot be empty") := by
  rintro ⟨name, version, requested, h⟩
  simp only [conflictError, AppError.validation.injEq] at h
  have hchar := congrArg (fun s : String => s.toList[8]?) h
  simp [String.toList_append] at hchar

theorem not_isConflict_database (text : String) : ¬IsConflict (.database text) := by
  rintro ⟨name, version, requested, h⟩
  cases h

theorem not_isConflict_internal (text : String) : ¬IsConflict (.internal text) := by
  rintro ⟨name, version, requested, h⟩
  cases h

theorem throws_sql {α : Type} {stmt : Db → α → Stmt} {statement : DateTime → Db → Except SqlError (α × Db)} :
    (sql stmt statement).Throws fun e => ¬IsConflict e := by
  apply Task.Throws.action
  intro w e h
  cases hquery : w.query statement with
  | ok r =>
      simp only [hquery] at h
      cases h
  | error e' =>
      simp only [hquery] at h
      cases h
      exact not_isConflict_database _

theorem throws_perform {α : Type} {P : AppError → Prop} (event : World → Event) (act : World → α × World) :
    (perform event act).Throws P := Task.Throws.action fun _ _ h => by cases h

theorem throws_internal {α : Type} (text : String) :
    (Task.throw (.internal text) : Async α).Throws fun e => ¬IsConflict e :=
  Task.Throws.throw (not_isConflict_internal text)

theorem throws_upsertCache (cache : PackageCache) : (upsertCache cache).Throws fun e => ¬IsConflict e := by
  unfold upsertCache
  split
  · apply Task.Throws.bind throws_sql
    intro updated
    split
    · exact throws_sql.bind fun _ => .pure cache
    · exact .pure cache
  · exact throws_sql.bind fun _ => .pure cache

theorem throws_ensureMainVenv (venvManager : VenvManager) :
    (ensureMainVenv venvManager).Throws fun e => ¬IsConflict e := by
  refine Task.Throws.bind (throws_perform _ _) fun found => ?_
  split
  · exact .pure ()
  · refine Task.Throws.bind (throws_perform _ _) fun created => ?_
    split
    · exact .pure ()
    · exact throws_internal _

theorem throws_pip (packageManager : PackageManager) (name : String) (versionConstraint : Option String) :
    (packageManager.installPackage name versionConstraint).Throws fun e => ¬IsConflict e := by
  refine Task.Throws.bind (throws_perform _ _) fun installed => ?_
  split
  · exact .pure _
  · split
    · split
      · apply Task.Throws.bind
        · refine Task.Throws.bind (throws_perform _ _) fun shown => ?_
          split
          · exact .pure _
          · exact .pure _
        · exact fun _ => .pure _
      · exact .pure _
    · exact .pure _

theorem throws_recordResult (cache : PackageCache) (result : InstallResult) :
    (recordResult cache result).Throws fun e => ¬IsConflict e := by
  unfold recordResult
  split
  · exact throws_upsertCache _
  · exact throws_upsertCache _
  · exact (throws_upsertCache _).bind fun _ => throws_internal _
  · exact (throws_upsertCache _).bind fun _ => throws_internal _

/-! ### Runs -/

/-- Whether a request is refused as a conflict. -/
def Refuses (req : InstallPackageRequest) (w : World) : Prop :=
  w.fault = none ∧ Differs req w.db.packageCache

theorem run_getCachedPackage (hfault : w.fault = none) (req : InstallPackageRequest) :
    (getCachedPackage .main none req.name).run w = some (.ok (first req w.db.packageCache), w) :=
  run_select hfault

theorem trace_getCachedPackage (hfault : w.fault = none) (req : InstallPackageRequest) :
    (getCachedPackage .main none req.name).trace w = [.sql .other] := by
  simp [getCachedPackage, select, sql, World.query, hfault]

variable (venvManager : VenvManager) (packageManager : PackageManager) (toLowercase : String → String)

theorem run_checkConflict_refuses (h : Refuses req w) :
    ∃ e, ((failing venvManager packageManager toLowercase).checkConflict req).run w = some (.error e, w) ∧
      IsConflict e ∧ ∀ args, .pip args ∉
        ((failing venvManager packageManager toLowercase).checkConflict req).trace w := by
  obtain ⟨hfault, requested, existing, hversion, hfirst, hconflicts⟩ := h
  have hrun : ((failing venvManager packageManager toLowercase).checkConflict req).run w =
      some (.error (conflictError req.name existing.version requested), w) := by
    simp only [checkConflict, hversion, Task.run_bind, Task.run_attempt, run_getCachedPackage hfault, hfirst,
      Option.map_some, hconflicts]
    rfl
  refine ⟨_, hrun, ⟨_, _, _, rfl⟩, ?_⟩
  intro args hpip
  simp [checkConflict, hversion, run_getCachedPackage hfault, trace_getCachedPackage hfault, hfirst, hconflicts,
    failing] at hpip

theorem run_checkConflict_passes (h : ¬Refuses req w) :
    ((failing venvManager packageManager toLowercase).checkConflict req).run w = some (.ok (), w) := by
  unfold checkConflict
  cases hversion : req.version with
  | none => rfl
  | some requested =>
      dsimp only
      cases hfault : w.fault with
      | some text =>
          have hread : (getCachedPackage .main none req.name).run w =
              some (.error (databaseError (.fault text)), w) := by
            simp [getCachedPackage, select, sql, World.query, hfault]
          simp only [Task.run_bind, Task.run_attempt, hread, Option.map_some]
          rfl
      | none =>
          simp only [Task.run_bind, Task.run_attempt, run_getCachedPackage hfault, Option.map_some]
          cases hfirst : first req w.db.packageCache with
          | none => rfl
          | some existing =>
              have hsame : conflicts existing requested = false := Bool.eq_false_iff.mpr fun hconflicts =>
                h ⟨hfault, requested, existing, hversion, hfirst, hconflicts⟩
              simp only [hsame, Bool.false_and, Bool.false_eq_true, if_false]
              rfl

theorem run_installPackage_refuses (hname : trim req.name ≠ "") (h : Refuses req w) :
    ∃ e w', ((failing venvManager packageManager toLowercase).installPackage req).run w = some (.error e, w') ∧
      IsConflict e ∧ ∀ args, .pip args ∉
        ((failing venvManager packageManager toLowercase).installPackage req).trace w := by
  obtain ⟨e, hrun, hconflict, htrace⟩ := run_checkConflict_refuses venvManager packageManager toLowercase h
  refine ⟨e, w, ?_, hconflict, ?_⟩
  · simp only [installPackage, hname, if_false, failing] at hrun ⊢
    rw [Task.run_bind, hrun]
  · intro args hpip
    simp only [installPackage, hname, if_false, failing] at hrun hpip
    rw [Task.trace_bind, hrun] at hpip
    exact htrace args (by simpa [failing] using hpip)

/-- A request without a name, or one that is not refused, does not return the conflict. -/
theorem run_installPackage_passes (h : ¬(trim req.name ≠ "" ∧ Refuses req w)) {e : AppError}
    (hrun : ((failing venvManager packageManager toLowercase).installPackage req).run w = some (.error e, w')) :
    ¬IsConflict e := by
  unfold installPackage at hrun
  by_cases hname : trim req.name = ""
  · rw [if_pos hname] at hrun
    cases hrun
    exact not_isConflict_empty
  · have hpasses := run_checkConflict_passes venvManager packageManager toLowercase
      fun hrefuses => h ⟨hname, hrefuses⟩
    simp only [hname, if_false, failing] at hrun hpasses
    rw [Task.run_bind, hpasses] at hrun
    refine Task.Throws.bind (throws_ensureMainVenv _) (fun _ => ?_) _ _ _ hrun
    refine Task.Throws.bind (throws_perform _ _) fun id => ?_
    refine Task.Throws.bind (throws_perform _ _) fun installedAt => ?_
    refine Task.Throws.bind (throws_perform _ _) fun lastUsedAt => ?_
    exact Task.Throws.bind (throws_pip packageManager _ _) fun result => throws_recordResult _ result

end

/-- A service that fails on conflicts reads the requirement as pip does exactly if, for each version that is
ready, a request with a name whose text differs from the row that is read first is one that the version does not satisfy. -/
theorem installPackage_judges (admits : String → String → Prop) (venvManager : VenvManager)
    (packageManager : PackageManager) (toLowercase : String → String) (req : InstallPackageRequest) (w : World) :
    Judges admits (failing venvManager packageManager toLowercase) req w ↔
      ∀ row ∈ w.db.packageCache, named req row → row.status = .ready →
        (trim req.name ≠ "" ∧ w.fault = none ∧ Differs req w.db.packageCache ↔
          ¬Satisfies admits req.version row.version) := by
  refine forall₄_congr fun row hrow hnamed hready => ?_
  have hpasses : ¬(trim req.name ≠ "" ∧ Refuses req w) → ∀ e w',
      ((failing venvManager packageManager toLowercase).installPackage req).run w = some (.error e, w') →
        ¬IsConflict e :=
    fun h e w' hrun => run_installPackage_passes venvManager packageManager toLowercase h hrun
  change _ ↔ (trim req.name ≠ "" ∧ Refuses req w ↔ _)
  by_cases hrefuses : trim req.name ≠ "" ∧ Refuses req w
  · obtain ⟨e, w', hrun, hconflict, htrace⟩ :=
      run_installPackage_refuses venvManager packageManager toLowercase hrefuses.1 hrefuses.2
    constructor
    · exact fun h => iff_of_true hrefuses fun hsat => h.1 hsat e w' hrun hconflict
    · exact fun h => ⟨fun hsat => absurd hsat (h.mp hrefuses), fun _ => ⟨e, w', hrun, hconflict, htrace⟩⟩
  · constructor
    · intro h
      refine iff_of_false hrefuses fun hunsat => ?_
      obtain ⟨e, w', hrun, hconflict, -⟩ := h.2 hunsat
      exact hpasses hrefuses e w' hrun hconflict
    · exact fun h => ⟨fun _ => hpasses hrefuses, fun hunsat => absurd (h.mpr hunsat) hrefuses⟩

/-! ### A pinned version -/

/-- numpy as it is installed. -/
def installed : PackageCache where
  id := 1
  venvType := .main
  venvId := none
  packageName := "numpy"
  version := "1.26.4"
  installationPath := ""
  sizeBytes := none
  status := .ready
  errorMessage := none
  installedAt := ""
  lastUsedAt := none
  useCount := 0

/-- The request for the version that is installed, as a dependency says it. -/
def pinned : InstallPackageRequest := ⟨"numpy", some "==1.26.4"⟩

/-- The request is refused, whatever the managers of the venv and of the packages are. -/
theorem installPackage_refuses_pinned : ¬∃ venvManager packageManager toLowercase,
    Judges (fun spec version => spec = "==" ++ version) (failing venvManager packageManager toLowercase) pinned
      (.start { Db.empty with packageCache := [installed] } epoch 2) := by
  rintro ⟨venvManager, packageManager, toLowercase, h⟩
  have hrefuses : Refuses pinned (.start { Db.empty with packageCache := [installed] } epoch 2) :=
    ⟨rfl, "==1.26.4", installed, rfl, by decide +kernel, by decide +kernel⟩
  obtain ⟨e, w', hrun, hconflict, -⟩ :=
    run_installPackage_refuses venvManager packageManager toLowercase (by decide +kernel) hrefuses
  refine (h installed (List.mem_singleton_self _) (by decide +kernel) rfl).1 ?_ e w' hrun hconflict
  intro spec hspec
  have hpin : specifier pinned.version = some "==1.26.4" := by decide +kernel
  exact (Option.some.inj (hpin.symm.trans hspec)).symm

end Conflicts

end Serverust
