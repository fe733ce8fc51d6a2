import Serverust.Model.PackageService
import Serverust.Proof.Sequential

/-!
# Rows of the package cache

`upsert_cache` has a branch for the main venv and one for venvs with an id. Both keep one row for each
version of a package in a venv. But the second does not write the path, and a call that updates a row
returns what it was given, not the row.
-/

namespace Serverust

open Resumption

namespace CacheRows

open PackageRepository

/-- What the table has one row for. -/
def key (row : PackageCache) : String × String × VenvType × Option String :=
  (row.packageName, row.version, row.venvType, row.venvId)

/-- What an upsert makes of the row with its key. -/
def overwrite (cache row : PackageCache) : PackageCache :=
  { row with
    status := cache.status
    errorMessage := cache.errorMessage
    sizeBytes := cache.sizeBytes
    lastUsedAt := cache.lastUsedAt
    useCount := cache.useCount
    installationPath := if cache.venvId = none then cache.installationPath else row.installationPath }

/-- The table after an upsert. -/
def upserted (cache : PackageCache) (rows : List PackageCache) : List PackageCache :=
  if Rows.hits key (key cache) rows = 0 then rows ++ [cache]
  else Rows.modify key (key cache) (overwrite cache) rows

/-- The tables that calls make, one at a time, from the empty one. -/
inductive Reached : List PackageCache → Prop
  | empty : Reached []
  | upsert {w w' : World} {cache : PackageCache} {r : Except AppError PackageCache}
      (before : Reached w.db.packageCache) (call : (upsertCache cache).run w = some (r, w')) :
      Reached w'.db.packageCache
  | delete {w w' : World} {venvType : VenvType} {venvId : Option String} {packageName version : String}
      {r : Except AppError Unit} (before : Reached w.db.packageCache)
      (call : (deleteCache venvType venvId packageName version).run w = some (r, w')) :
      Reached w'.db.packageCache

/-- A row has what an entry says about its package. -/
structure Carries (cache row : PackageCache) : Prop where
  status : row.status = cache.status
  errorMessage : row.errorMessage = cache.errorMessage
  sizeBytes : row.sizeBytes = cache.sizeBytes
  lastUsedAt : row.lastUsedAt = cache.lastUsedAt
  useCount : row.useCount = cache.useCount
  installationPath : row.installationPath = cache.installationPath

/-- A call that leaves one row for the key, with the entry in it, and returns that row. -/
def Upserts (cache : PackageCache) (rows rows' : List PackageCache) (r : Except AppError PackageCache) : Prop :=
  ∃ row, rows'.filter (fun row => key row = key cache) = [row] ∧ Carries cache row ∧
    Rows.remove key (key cache) rows' = Rows.remove key (key cache) rows ∧ r = .ok row

/-- The table has no row with the key and none with the id, or the row with the key has the entry's id, its
time and, in a venv with an id, its path. -/
def Fits (cache : PackageCache) (rows : List PackageCache) : Prop :=
  (∀ row ∈ rows, key row ≠ key cache ∧ row.id ≠ cache.id) ∨
    ∃ row ∈ rows, key row = key cache ∧ row.id = cache.id ∧ row.installedAt = cache.installedAt ∧
      (cache.venvId = none ∨ row.installationPath = cache.installationPath)

section

variable {w w' : World} {cache row : PackageCache} {rows : List PackageCache}

theorem key_overwrite (cache row : PackageCache) : key (overwrite cache row) = key row := rfl

theorem unique_upserted (h : Rows.Unique key rows) (cache : PackageCache) :
    Rows.Unique key (upserted cache rows) := by
  unfold upserted
  split
  · exact h.append ‹_›
  · exact h.modify (key_overwrite cache) _

/-! ### Runs -/

theorem isEntry_eq (cache : PackageCache) : isEntry cache.venvType cache.venvId cache.packageName cache.version =
    fun row => decide (key row = key cache) := by
  funext row
  rw [Bool.eq_iff_iff]
  simp only [isEntry, inVenv, key, Bool.and_eq_true, decide_eq_true_eq, Prod.mk.injEq]
  tauto

theorem updateCache_eq (hmain : cache.venvId = none) (db : Db) : updateCache cache db =
    (Rows.hits key (key cache) db.packageCache,
      { db with packageCache := Rows.modify key (key cache) (overwrite cache) db.packageCache }) := by
  have hentry := isEntry_eq cache
  rw [hmain] at hentry
  have hrow (row : PackageCache) : overwrite cache row = { row with
      status := cache.status
      errorMessage := cache.errorMessage
      sizeBytes := cache.sizeBytes
      lastUsedAt := cache.lastUsedAt
      useCount := cache.useCount
      installationPath := cache.installationPath } := by
    simp only [overwrite, hmain, if_true]
  simp only [updateCache, hentry, Rows.hits, Rows.modify, hrow, decide_eq_true_eq]

theorem insertOrUpdate_eq (hcustom : cache.venvId ≠ none) (db : Db) : insertOrUpdate cache db =
    if Rows.hits key (key cache) db.packageCache = 0 ∧ Rows.hits PackageCache.id cache.id db.packageCache ≠ 0 then
      .error (.unique "package_cache.id")
    else .ok ((), { db with packageCache := upserted cache db.packageCache }) := by
  have hrow (row : PackageCache) : overwrite cache row = { row with
      status := cache.status
      errorMessage := cache.errorMessage
      sizeBytes := cache.sizeBytes
      lastUsedAt := cache.lastUsedAt
      useCount := cache.useCount } := by
    simp only [overwrite, hcustom, if_false]
  simp only [insertOrUpdate, isEntry_eq, upserted]
  by_cases hhits : Rows.hits key (key cache) db.packageCache = 0
  · have hany : (db.packageCache.any fun row => decide (key row = key cache)) = false := by
      simpa using Rows.hits_eq_zero.mp hhits
    simp only [hany, Bool.false_eq_true, if_false, hhits, true_and, if_true]
  · have hany : (db.packageCache.any fun row => decide (key row = key cache)) = true := by
      simpa using Rows.hits_ne_zero.mp hhits
    simp only [hany, if_true, hhits, false_and, if_false, Rows.modify, hrow, decide_eq_true_eq]

theorem run_upsertCache (hfault : w.fault = none) (cache : PackageCache) :
    (upsertCache cache).run w =
      if Rows.hits key (key cache) w.db.packageCache = 0 ∧
          Rows.hits PackageCache.id cache.id w.db.packageCache ≠ 0 then
        some (.error (databaseError (.unique "package_cache.id")), w)
      else some (.ok cache, { w with db := { w.db with packageCache := upserted cache w.db.packageCache } }) := by
  unfold upsertCache
  by_cases hmain : cache.venvId = none
  · simp only [hmain, Task.run_bind, run_execute hfault, updateCache_eq hmain]
    by_cases hhits : Rows.hits key (key cache) w.db.packageCache = 0
    · have hnone : Rows.modify key (key cache) (overwrite cache) w.db.packageCache = w.db.packageCache :=
        Rows.modify_of_ne (Rows.hits_eq_zero.mp hhits)
      simp only [hhits, if_true, true_and, hnone, upserted, Task.run_bind, run_sql hfault, insertCache]
      by_cases hid : Rows.hits PackageCache.id cache.id w.db.packageCache = 0
      · simp only [hid, ne_eq, not_true_eq_false, if_false]
        rfl
      · simp only [hid, ne_eq, not_false_eq_true, if_true]
    · simp only [hhits, if_false, false_and, upserted]
      rfl
  · obtain ⟨id, hid⟩ := Option.ne_none_iff_exists'.mp hmain
    simp only [hid, Task.run_bind, run_sql hfault, insertOrUpdate_eq hmain]
    by_cases herror : Rows.hits key (key cache) w.db.packageCache = 0 ∧
        Rows.hits PackageCache.id cache.id w.db.packageCache ≠ 0
    · simp only [if_pos herror]
    · simp only [if_neg herror]
      rfl

theorem run_upsertCache_fault {text : String} (hfault : w.fault = some text) (cache : PackageCache) :
    (upsertCache cache).run w = some (.error (databaseError (.fault text)), w) := by
  unfold upsertCache
  cases hvenv : cache.venvId <;> simp [sql, execute, World.query, hfault]

theorem run_deleteCache (venvType : VenvType) (venvId : Option String) (packageName version : String)
    {r : Except AppError Unit} (h : (deleteCache venvType venvId packageName version).run w = some (r, w')) :
    w'.db.packageCache.Sublist w.db.packageCache := by
  cases hfault : w.fault with
  | none =>
      simp only [deleteCache, Task.run_bind, run_execute hfault] at h
      cases h
      exact List.filter_sublist
  | some text =>
      simp [deleteCache, sql, execute, World.query, hfault] at h
      rw [← h.2]

/-! ### Tables -/

/-- Two rows of a table that calls made differ in the package, the version or the venv. -/
theorem Reached.unique (h : Reached rows) : Rows.Unique key rows := by
  induction h with
  | empty => exact List.nodup_nil
  | @upsert w w' cache r before call ih =>
      cases hfault : w.fault with
      | some text =>
          cases (run_upsertCache_fault hfault cache).symm.trans call
          exact ih
      | none =>
          rw [run_upsertCache hfault] at call
          split at call
          · cases call
            exact ih
          · cases call
            exact unique_upserted ih cache
  | delete before call ih => exact ih.sublist ((run_deleteCache _ _ _ _ call).map key)

theorem Carries.refl (cache : PackageCache) : Carries cache cache := ⟨rfl, rfl, rfl, rfl, rfl, rfl⟩

theorem overwrite_eq (hkey : key row = key cache) : overwrite cache row = cache ↔
    row.id = cache.id ∧ row.installedAt = cache.installedAt ∧
      (cache.venvId = none ∨ row.installationPath = cache.installationPath) := by
  cases row
  cases cache
  simp only [key, Prod.mk.injEq] at hkey
  simp only [overwrite, PackageCache.mk.injEq, hkey, true_and, and_true]
  split
  · simp_all
  · simp_all
    tauto

theorem upserts_append (hnone : Rows.hits key (key cache) rows = 0) :
    Upserts cache rows (rows ++ [cache]) (.ok cache) := by
  have hne := Rows.hits_eq_zero.mp hnone
  refine ⟨cache, ?_, Carries.refl cache, ?_, rfl⟩
  · have hrows : (rows.filter fun row => key row = key cache) = [] := by simpa using hne
    simp [List.filter_append, hrows]
  · simp [Rows.remove, List.filter_append]

/-- What an update leaves and returns: the row is the entry only if it was to begin with. -/
theorem upserts_modify (hunique : Rows.Unique key rows) (hrow : row ∈ rows) (hkey : key row = key cache) :
    Upserts cache rows (Rows.modify key (key cache) (overwrite cache) rows) (.ok cache) ↔
      overwrite cache row = cache := by
  have hone : (Rows.modify key (key cache) (overwrite cache) rows).filter (fun r => key r = key cache) =
      [overwrite cache row] := by
    rw [hunique.filter_modify_eq hrow hkey (key_overwrite cache)]
  constructor
  · rintro ⟨found, hfound, -, -, hr⟩
    rw [hone] at hfound
    cases hr
    exact List.singleton_inj.mp hfound
  · intro heq
    refine ⟨cache, by rw [hone, heq], Carries.refl cache, ?_, rfl⟩
    exact Rows.remove_modify (key_overwrite cache) (key cache) rows

end

/-- After calls one at a time, an upsert leaves one row with the entry and returns it exactly if the entry
fits the table and the statement does not fail. -/
theorem upsertCache_upserts {w : World} (hreached : Reached w.db.packageCache) (cache : PackageCache) :
    ∃ r w', (upsertCache cache).run w = some (r, w') ∧
      (Upserts cache w.db.packageCache w'.db.packageCache r ↔ Fits cache w.db.packageCache ∧ w.fault = none) := by
  cases hfault : w.fault with
  | some text =>
      refine ⟨_, _, run_upsertCache_fault hfault cache, ?_⟩
      simp [Upserts]
  | none =>
      have hrun := run_upsertCache hfault cache
      by_cases hnone : Rows.hits key (key cache) w.db.packageCache = 0
      · have hne := Rows.hits_eq_zero.mp hnone
        have hfits : Fits cache w.db.packageCache ↔ Rows.hits PackageCache.id cache.id w.db.packageCache = 0 := by
          rw [Rows.hits_eq_zero]
          constructor
          · rintro (hfree | ⟨row, hrow, hkey, -⟩)
            · exact fun row hrow => (hfree row hrow).2
            · exact absurd hkey (hne row hrow)
          · exact fun hid => .inl fun row hrow => ⟨hne row hrow, hid row hrow⟩
        by_cases hid : Rows.hits PackageCache.id cache.id w.db.packageCache = 0
        · rw [if_neg (by simp [hid])] at hrun
          refine ⟨_, _, hrun, iff_of_true ?_ ⟨hfits.mpr hid, rfl⟩⟩
          simp only [upserted, hnone, if_true]
          exact upserts_append hnone
        · rw [if_pos ⟨hnone, hid⟩] at hrun
          refine ⟨_, _, hrun, iff_of_false ?_ fun h => hid (hfits.mp h.1)⟩
          simp [Upserts]
      · obtain ⟨row, hrow, hkey⟩ := Rows.hits_ne_zero.mp hnone
        rw [if_neg fun h => hnone h.1] at hrun
        refine ⟨_, _, hrun, ?_⟩
        simp only [upserted, hnone, if_false, and_true]
        rw [upserts_modify hreached.unique hrow hkey, overwrite_eq hkey]
        constructor
        · exact fun h => .inr ⟨row, hrow, hkey, h⟩
        · rintro (hfree | ⟨found, hfound, hfoundKey, h⟩)
          · exact absurd hkey (hfree row hrow).1
          · rw [hreached.unique.eq_of_column hrow hfound (hkey.trans hfoundKey.symm)]
            exact h

/-! ### A venv with an id -/

/-- A package that a venv with an id has. -/
def installed : PackageCache where
  id := 1
  venvType := .custom
  venvId := some "7"
  packageName := "numpy"
  version := "1.26.4"
  installationPath := "/venvs/7"
  sizeBytes := none
  status := .ready
  errorMessage := none
  installedAt := "2024-01-01T00:00:00+00:00"
  lastUsedAt := none
  useCount := 0

/-- The same package in another directory. -/
def moved : PackageCache := { installed with id := 2, installationPath := "/data/venvs/7" }

/-- The state in which the package is the only one. -/
def onlyInstalled : World :=
  .start { Db.empty with packageCache := [installed] } Calendar.epoch 3

theorem reached_installed : Reached onlyInstalled.db.packageCache := by
  have hrun : (upsertCache installed).run (.start .empty Calendar.epoch 3) = some (.ok installed, onlyInstalled) :=
    rfl
  exact .upsert .empty hrun

/-- An upsert of the row itself. -/
theorem upsertCache_upserts_again : Fits installed onlyInstalled.db.packageCache ∧
    ∃ r w', (upsertCache installed).run onlyInstalled = some (r, w') ∧
      (Upserts installed onlyInstalled.db.packageCache w'.db.packageCache r ↔
        Fits installed onlyInstalled.db.packageCache ∧ onlyInstalled.fault = none) :=
  ⟨.inr ⟨installed, List.mem_singleton_self _, rfl, rfl, rfl, .inr rfl⟩,
    upsertCache_upserts reached_installed installed⟩

/-- A new entry for the package: the row keeps the old path, and what is returned is not the row. -/
theorem upsertCache_keeps_path : Reached onlyInstalled.db.packageCache ∧
    ∃ w', (upsertCache moved).run onlyInstalled = some (.ok moved, w') ∧ w'.db.packageCache = [installed] ∧
      ¬Upserts moved onlyInstalled.db.packageCache w'.db.packageCache (.ok moved) := by
  refine ⟨reached_installed, _, rfl, rfl, ?_⟩
  rintro ⟨row, hrow, hcarries, -, hr⟩
  cases hr
  exact absurd hrow (by decide +kernel)

end CacheRows

end Serverust
