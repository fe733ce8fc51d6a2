import Serverust.Library.Pool
import Serverust.Model.Upkeep
import Serverust.Proof.Background
import Serverust.Proof.Footprints

/-!
# Arguments of pip

The handlers refuse a blank name at most, and pass the name on to pip, at once, as a stored dependency or from
the cache of what was installed. So what pip is given is safe as long as the names in the requests are.
-/

namespace Serverust

namespace PipArguments

open Calendar Resumption

variable (isAlphanumeric : Char → Bool)

/-! ### Requirements -/

/-- A character that starts a version operator. -/
def isOperator (c : Char) : Bool := "=<>~!".toList.contains c

/-- The name part of a requirement: what stands before the version operator. -/
def namePart (spec : String) : String := String.ofList (spec.toList.takeWhile fun c => !isOperator c)

/-- An argument that starts with a letter or digit, and whose name part is a valid package name. -/
structure Safe (arg : String) : Prop where
  first : ∃ c, arg.toList.head? = some c ∧ isAlphanumeric c
  name : validatePackageName isAlphanumeric (namePart arg)

/-- A name that is valid up to a version operator that it may have. -/
def Valid (name : String) : Prop := validatePackageName isAlphanumeric (namePart name)

/-- The argument of a command line that names a package. -/
def packageArgument : List String → Option String
  | "install" :: spec :: _ => some spec
  | "uninstall" :: name :: _ => some name
  | _ => none

/-- An action that runs pip, if at all, with a safe package argument. -/
def SafeEvent (ev : Event) : Prop :=
  ∀ args arg, ev = .pip args → packageArgument args = some arg → Safe isAlphanumeric arg

variable {isAlphanumeric}

theorem safe_iff {arg : String} : Safe isAlphanumeric arg ↔ Valid isAlphanumeric arg := by
  refine ⟨Safe.name, fun hvalid => ⟨?_, hvalid⟩⟩
  unfold Valid validatePackageName namePart at hvalid
  simp only [String.toList_ofList, Bool.and_eq_true] at hvalid
  obtain ⟨⟨-, hfirst⟩, -⟩ := hvalid
  cases hchars : arg.toList with
  | nil => simp [hchars] at hfirst
  | cons c rest =>
      refine ⟨c, rfl, ?_⟩
      by_cases hc : isOperator c
      · simp [hchars, hc] at hfirst
      · simpa [hchars, hc] using hfirst

theorem takeWhile_append {p : Char → Bool} {name rest : List Char} (hrest : ∀ c, rest.head? = some c → ¬p c) :
    (name ++ rest).takeWhile p = name.takeWhile p := by
  induction name with
  | nil =>
      cases rest with
      | nil => rfl
      | cons c more => simp [hrest c rfl]
  | cons c name ih =>
      rw [List.cons_append, List.takeWhile_cons, List.takeWhile_cons, ih]

theorem operator_head {op constraint : String} {c : Char} (hop : op ∈ PackageManager.operators)
    (hstarts : startsWith constraint op) (hc : constraint.toList.head? = some c) : isOperator c := by
  have hheads : ∀ op ∈ PackageManager.operators, op.toList.head?.any isOperator := by decide
  have hhead := hheads op hop
  obtain ⟨rest, hrest⟩ := List.isPrefixOf_iff_prefix.mp hstarts
  rw [← hrest] at hc
  cases hchars : op.toList with
  | nil => simp [hchars] at hhead
  | cons d more =>
      rw [hchars] at hc hhead
      cases hc
      exact hhead

/-- The name part of what pip is given is that of the name in the request. -/
theorem namePart_packageSpec (name : String) (versionConstraint : Option String) :
    namePart (PackageManager.packageSpec name versionConstraint) = namePart name := by
  have happend (rest : String) (h : ∀ c, rest.toList.head? = some c → isOperator c) :
      namePart (name ++ rest) = namePart name := by
    unfold namePart
    rw [String.toList_append, takeWhile_append]
    intro c hc
    simp [h c hc]
  unfold PackageManager.packageSpec
  split
  · rename_i constraint
    split
    · rfl
    split
    · rename_i hoperator
      apply happend
      intro c hc
      obtain ⟨op, hop, hstarts⟩ := List.any_eq_true.mp hoperator
      exact operator_head hop hstarts hc
    · rw [String.append_assoc]
      apply happend
      intro c hc
      rw [String.toList_append] at hc
      cases hc
      rfl
  · rfl

theorem safe_packageSpec {name : String} {versionConstraint : Option String} :
    Safe isAlphanumeric (PackageManager.packageSpec name versionConstraint) ↔ Valid isAlphanumeric name := by
  rw [safe_iff, Valid, Valid, namePart_packageSpec]

/-! ### The rules -/

/-- The stored names that pip may be given. -/
structure Stored (isAlphanumeric : Char → Bool) (db : Db) : Prop where
  dependencies : ∀ dep ∈ db.jobDependencies, Valid isAlphanumeric dep.packageName
  cached : ∀ row ∈ db.packageCache, Valid isAlphanumeric row.packageName

/-- Each stored name was there before, or is valid. -/
structure Names (isAlphanumeric : Char → Bool) (db db' : Db) : Prop where
  dependencies : ∀ dep ∈ db'.jobDependencies,
    (∃ old ∈ db.jobDependencies, old.packageName = dep.packageName) ∨ Valid isAlphanumeric dep.packageName
  cached : ∀ row ∈ db'.packageCache,
    (∃ old ∈ db.packageCache, old.packageName = row.packageName) ∨ Valid isAlphanumeric row.packageName

namespace Names

variable {db db' : Db}

theorem of_subset (hdependencies : db'.jobDependencies ⊆ db.jobDependencies)
    (hcached : db'.packageCache ⊆ db.packageCache) : Names isAlphanumeric db db' where
  dependencies dep hdep := .inl ⟨dep, hdependencies hdep, rfl⟩
  cached row hrow := .inl ⟨row, hcached hrow, rfl⟩

theorem of_same (hdependencies : db'.jobDependencies = db.jobDependencies)
    (hcached : db'.packageCache = db.packageCache) : Names isAlphanumeric db db' :=
  .of_subset (hdependencies ▸ List.Subset.refl _) (hcached ▸ List.Subset.refl _)

theorem stored (h : Names isAlphanumeric db db') (hstored : Stored isAlphanumeric db) :
    Stored isAlphanumeric db' where
  dependencies dep hdep := by
    rcases h.dependencies dep hdep with ⟨old, hold, heq⟩ | hvalid
    · exact heq ▸ hstored.dependencies old hold
    · exact hvalid
  cached row hrow := by
    rcases h.cached row hrow with ⟨old, hold, heq⟩ | hvalid
    · exact heq ▸ hstored.cached old hold
    · exact hvalid

/-- A dependency is written over its row, or gets a new one. -/
theorem upsertDependency {dep : JobDependency} (hname : Valid isAlphanumeric dep.packageName)
    (h : PackageRepository.upsertDependency dep db = .ok ((), db')) : Names isAlphanumeric db db' := by
  unfold PackageRepository.upsertDependency at h
  dsimp only at h
  split at h
  · cases h
  split at h
  · cases h
    refine ⟨fun row hrow => .inl ?_, fun row hrow => .inl ⟨row, hrow, rfl⟩⟩
    obtain ⟨old, hold, rfl⟩ := List.mem_map.mp hrow
    refine ⟨old, hold, ?_⟩
    split <;> rfl
  split at h
  · cases h
  · cases h
    refine ⟨fun row hrow => ?_, fun row hrow => .inl ⟨row, hrow, rfl⟩⟩
    rcases List.mem_append.mp hrow with hold | hnew
    · exact .inl ⟨row, hold, rfl⟩
    · exact .inr (List.mem_singleton.mp hnew ▸ hname)

/-- Entries of the cache that are rewritten keep their packages. -/
theorem rewrite {hit : PackageCache → Bool} {f : PackageCache → PackageCache}
    (hname : ∀ row, (f row).packageName = row.packageName) : Names isAlphanumeric db
      { db with packageCache := db.packageCache.map fun row => if hit row then f row else row } := by
  refine ⟨fun dep hdep => .inl ⟨dep, hdep, rfl⟩, fun row hrow => .inl ?_⟩
  obtain ⟨old, hold, rfl⟩ := List.mem_map.mp hrow
  refine ⟨old, hold, ?_⟩
  split
  · exact (hname old).symm
  · rfl

theorem insertCache {cache : PackageCache} (hname : Valid isAlphanumeric cache.packageName)
    (h : PackageRepository.insertCache cache db = .ok ((), db')) : Names isAlphanumeric db db' := by
  unfold PackageRepository.insertCache at h
  split at h
  · cases h
  · cases h
    refine ⟨fun dep hdep => .inl ⟨dep, hdep, rfl⟩, fun row hrow => ?_⟩
    rcases List.mem_append.mp hrow with hold | hnew
    · exact .inl ⟨row, hold, rfl⟩
    · exact .inr (List.mem_singleton.mp hnew ▸ hname)

theorem insertOrUpdate {cache : PackageCache} (hname : Valid isAlphanumeric cache.packageName)
    (h : PackageRepository.insertOrUpdate cache db = .ok ((), db')) : Names isAlphanumeric db db' := by
  unfold PackageRepository.insertOrUpdate at h
  dsimp only at h
  split at h
  · cases h
    exact .rewrite fun _ => rfl
  · exact .insertCache hname h

end Names

/-- What an action may do. -/
def Allowed (isAlphanumeric : Char → Bool) (u : World) (ev : Event) (v : World) : Prop :=
  SafeEvent isAlphanumeric ev ∧ Names isAlphanumeric u.db v.db

def protocol (isAlphanumeric : Char → Bool) : Protocol Event World Unit where
  next _ _ := ()
  knows _ w := Stored isAlphanumeric w.db
  grows _ _ := True
  allows _ ev u v := Allowed isAlphanumeric u ev v

instance : (protocol isAlphanumeric).Lawful := ⟨fun _ => trivial, fun _ _ => trivial⟩

/-! ### Actions -/

section

variable {α : Type}

/-- An action that runs no command and stores no name. -/
theorem Allowed.aside {u v : World} {ev : Event} (hev : ∀ args, ev ≠ .pip args) (hsame : v.db = u.db) :
    Allowed isAlphanumeric u ev v :=
  ⟨fun args _ h => absurd h (hev args), hsame ▸ .of_same rfl rfl⟩

theorem acts_statement {stmt : Db → α → Stmt} {statement : DateTime → Db → Except SqlError (α × Db)}
    {mapErr : SqlError → AppError} (hnames : ∀ now db value db', statement now db = .ok (value, db') →
      Names isAlphanumeric db db') : (sql stmt statement mapErr).Acts (Allowed isAlphanumeric) :=
  acts_sql (fun w value db h => ⟨by simp [SafeEvent], hnames w.now w.db value db h⟩) fun _ _ => .aside (by simp) rfl

theorem acts_read {stmt : α → Stmt} {read : Db → α} : (select stmt read).Acts (Allowed isAlphanumeric) :=
  acts_select (fun _ => .aside (by simp) rfl) fun _ _ => .aside (by simp) rfl

theorem acts_quiet {act : World → α × World} (hsame : ∀ w, (act w).2.db = w.db) :
    (perform (fun _ => .quiet) act).Acts (Allowed isAlphanumeric) :=
  .action fun w => .aside (by simp) (hsame w)

theorem acts_reading {p : Async α} (h : p.Acts Reading) : p.Acts (Allowed isAlphanumeric) := by
  apply h.mono
  intro u ev v hread
  obtain ⟨_, rfl⟩ := hread.same
  refine .aside ?_ rfl
  rintro args rfl
  exact hread.event

theorem acts_run (manager : PackageManager) {args : List String}
    (hsafe : ∀ arg, packageArgument args = some arg → Safe isAlphanumeric arg) :
    (manager.run args).Acts (Allowed isAlphanumeric) := by
  refine .action fun w => ⟨?_, .of_same rfl rfl⟩
  intro args' arg hev harg
  cases hev
  exact hsafe arg harg

/-! ### What the handlers do -/

-- A program is only followed by the lemmas about its parts.
attribute [local irreducible] Task.Acts

theorem acts_installArgs {manager : PackageManager} {name : String} {versionConstraint : Option String}
    (hname : Valid isAlphanumeric name) :
    (manager.run (manager.installArgs name versionConstraint)).Acts (Allowed isAlphanumeric) := by
  apply acts_run
  intro arg harg
  cases harg
  exact safe_packageSpec.mpr hname

theorem acts_getInstalledVersion (manager : PackageManager) (name : String) :
    (manager.getInstalledVersion name).Acts (Allowed isAlphanumeric) := by
  unfold PackageManager.getInstalledVersion
  apply (acts_run manager (by simp [PackageManager.showArgs, packageArgument])).bind
  intro shown
  split <;> exact .pure _

theorem acts_install {manager : PackageManager} {name : String} {versionConstraint : Option String}
    (hname : Valid isAlphanumeric name) :
    (manager.installPackage name versionConstraint).Acts (Allowed isAlphanumeric) := by
  unfold PackageManager.installPackage
  apply (acts_installArgs hname).bind
  intro installed
  split
  · exact .pure _
  split
  · split
    · exact (acts_getInstalledVersion manager name).bind fun _ => .pure _
    · exact .pure _
  · exact .pure _

theorem acts_uninstall {manager : PackageManager} {name : String} (hname : Valid isAlphanumeric name) :
    (manager.uninstallPackage name).Acts (Allowed isAlphanumeric) := by
  have hsafe : ∀ arg, packageArgument (PackageManager.uninstallArgs name) = some arg → Safe isAlphanumeric arg := by
    intro arg harg
    cases harg
    exact safe_iff.mpr hname
  unfold PackageManager.uninstallPackage
  apply (acts_run manager hsafe).bind
  intro uninstalled
  split
  · split <;> exact .pure _
  · exact .pure _

theorem acts_upsertCache (cache : PackageCache) (hname : Valid isAlphanumeric cache.packageName) :
    (PackageRepository.upsertCache cache).Acts (Allowed isAlphanumeric) := by
  unfold PackageRepository.upsertCache
  split
  · have hupdate (now : DateTime) (db : Db) (updated : Nat) (db' : Db)
        (h : Except.ok (PackageRepository.updateCache cache db) = Except.ok (ε := SqlError) (updated, db')) :
        Names isAlphanumeric db db' := by
      cases h
      exact .rewrite fun _ => rfl
    apply Task.Acts.bind (acts_statement hupdate)
    intro updated
    split
    · exact (acts_statement fun _ _ _ _ => Names.insertCache hname).bind fun _ => .pure _
    · exact .pure _
  · exact (acts_statement fun _ _ _ _ => Names.insertOrUpdate hname).bind fun _ => .pure _

theorem acts_recordResult (cache : PackageCache) (hname : Valid isAlphanumeric cache.packageName)
    (result : InstallResult) : (PackageService.recordResult cache result).Acts (Allowed isAlphanumeric) := by
  unfold PackageService.recordResult
  split
  · exact acts_upsertCache _ hname
  · exact acts_upsertCache _ hname
  · refine Task.Acts.bind (acts_upsertCache _ ?_) fun _ => .throw _
    exact hname
  · refine Task.Acts.bind (acts_upsertCache _ ?_) fun _ => .throw _
    exact hname

theorem acts_installPackage (service : PackageService) {req : InstallPackageRequest}
    (hname : Valid isAlphanumeric req.name) : (service.installPackage req).Acts (Allowed isAlphanumeric) := by
  have hcheck : (service.checkConflict req).Acts (Allowed isAlphanumeric) := by
    unfold PackageService.checkConflict
    split
    · exact .pure _
    apply (Task.Acts.attempt acts_read).bind
    intro found
    split
    · split
      · exact .throw _
      · exact .pure _
    · exact .pure _
  have hensure (venvManager : VenvManager) :
      (PackageService.ensureMainVenv venvManager).Acts (Allowed isAlphanumeric) := by
    unfold PackageService.ensureMainVenv VenvManager.mainVenvExists VenvManager.createMainVenv
    apply (acts_quiet fun _ => rfl).bind
    intro found
    split
    · exact .pure _
    apply Task.Acts.bind (acts_quiet fun w => by split <;> rfl)
    intro created
    split
    · exact .pure _
    · exact .throw _
  unfold PackageService.installPackage
  split
  · exact .throw _
  split
  · exact .throw _
  apply hcheck.bind
  intro _
  apply (hensure _).bind
  intro _
  apply (acts_reading acts_newV4).bind
  intro id
  apply (acts_reading acts_nowRfc3339).bind
  intro installedAt
  apply (acts_reading acts_nowRfc3339).bind
  intro lastUsedAt
  refine (acts_install hname).bind fun result => acts_recordResult _ ?_ result
  exact hname

theorem acts_uninstallPackage (service : PackageService) {name : String} (hname : Valid isAlphanumeric name) :
    (service.uninstallPackage name).Acts (Allowed isAlphanumeric) := by
  have hforget : (service.forgetPackage name).Acts (Allowed isAlphanumeric) := by
    unfold PackageService.forgetPackage PackageRepository.deleteCache
    apply acts_read.bind
    intro cached
    apply Task.Acts.forM
    intro entry _
    have hdelete : (PackageRepository.deleteCache .main none entry.packageName entry.version).Acts
        (Allowed isAlphanumeric) := by
      unfold PackageRepository.deleteCache
      refine Task.Acts.bind (acts_statement ?_) fun _ => .pure _
      rintro now db _ _ ⟨⟩
      exact .of_subset (List.Subset.refl _) List.filter_sublist.subset
    exact hdelete.attempt.bind fun _ => .pure _
  unfold PackageService.uninstallPackage
  split
  · exact .throw _
  split
  · exact .throw _
  apply (acts_uninstall hname).bind
  intro result
  split
  · exact hforget
  · exact .throw _

theorem acts_storeDependency (dep : JobDependency) (hname : Valid isAlphanumeric dep.packageName) :
    (PackageRepository.addDependency dep).Acts (Allowed isAlphanumeric) := by
  unfold PackageRepository.addDependency
  exact (acts_statement fun _ _ _ _ => Names.upsertDependency hname).bind fun _ => .pure _

theorem acts_addDependency (jobId : Uuid) {req : AddDependencyRequest} (hname : Valid isAlphanumeric req.packageName) :
    (PackageService.addDependency jobId req).Acts (Allowed isAlphanumeric) := by
  unfold PackageService.addDependency
  split
  · exact .throw _
  apply (acts_reading acts_newV4).bind
  intro id
  apply (acts_reading acts_nowRfc3339).bind
  intro now
  refine acts_storeDependency _ ?_
  exact hname

/-- The name in the path of an update is stored without a check, whether or not the job had the dependency. -/
theorem acts_updateDependency (jobId : Uuid) {packageName : String} (versionConstraint : String)
    (hname : Valid isAlphanumeric packageName) :
    (PackageService.updateDependency jobId packageName versionConstraint).Acts (Allowed isAlphanumeric) := by
  have hdelete : (PackageRepository.deleteDependency jobId packageName).Acts (Allowed isAlphanumeric) := by
    unfold PackageRepository.deleteDependency
    apply Task.Acts.bind (acts_statement ?_)
    · intro affected
      split
      · exact .throw _
      · exact .pure _
    · rintro now db _ _ ⟨⟩
      exact .of_subset List.filter_sublist.subset (List.Subset.refl _)
  unfold PackageService.updateDependency
  apply hdelete.attempt.bind
  intro _
  apply (acts_reading acts_newV4).bind
  intro id
  apply (acts_reading acts_nowRfc3339).bind
  intro now
  refine acts_storeDependency _ ?_
  exact hname

theorem acts_installAll (service : PackageService) {dependencies : List JobDependency}
    (hnames : ∀ dep ∈ dependencies, Valid isAlphanumeric dep.packageName) :
    (Api.installAll service dependencies).Acts (Allowed isAlphanumeric) := by
  induction dependencies with
  | nil => exact .pure _
  | cons dep rest ih =>
      have hinstall (version : Option String) :
          (service.installPackage ⟨dep.packageName, version⟩).Acts (Allowed isAlphanumeric) :=
        acts_installPackage service (hnames dep List.mem_cons_self)
      unfold Api.installAll
      apply (hinstall _).attempt.bind
      intro result
      apply (ih fun dep hdep => hnames dep (List.mem_cons_of_mem _ hdep)).bind
      intro response
      cases result with
      | ok cache => exact .pure _
      | error e => exact .pure _

theorem acts_reinstallAll (service : PackageService) {packages : List PackageCache}
    (hnames : ∀ pkg ∈ packages, Valid isAlphanumeric pkg.packageName) :
    (Api.reinstallAll service packages).Acts (Allowed isAlphanumeric) := by
  induction packages with
  | nil => exact .pure _
  | cons pkg rest ih =>
      have hinstall : (service.installPackage ⟨pkg.packageName, none⟩).Acts (Allowed isAlphanumeric) :=
        acts_installPackage service (hnames pkg List.mem_cons_self)
      unfold Api.reinstallAll
      apply hinstall.attempt.bind
      intro result
      apply (ih fun pkg hpkg => hnames pkg (List.mem_cons_of_mem _ hpkg)).bind
      intro response
      cases result with
      | ok cache => exact .pure _
      | error e => exact .pure _

theorem keeps {p : Async α} (h : p.Acts (Allowed isAlphanumeric)) :
    Task.Keeps (protocol isAlphanumeric) (fun _ => True) () p :=
  h.keeps fun _ _ _ _ hact => ⟨hact, rfl, trivial⟩

theorem keeps_read {stmt : α → Stmt} {read : Db → α} {φ : α → Prop}
    (h : ∀ db, Stored isAlphanumeric db → φ (read db)) :
    Task.Keeps (protocol isAlphanumeric) φ () (select stmt read) := by
  intro w
  unfold select
  apply obeys_sql
  · intro u rows db _ hknows hquery
    cases (query_ok hquery).2
    exact ⟨.aside (by simp) rfl, rfl, trivial, h u.db hknows⟩
  · exact fun _ _ _ _ _ => ⟨.aside (by simp) rfl, rfl, trivial⟩

/-- The dependencies are read, and each is passed on. -/
theorem keeps_installJobDependencies (service : PackageService) (jobId : Uuid) :
    Task.Keeps (protocol isAlphanumeric) (fun _ => True) () (Api.installJobDependencies service jobId) := by
  have hread : Task.Keeps (protocol isAlphanumeric)
      (fun dependencies => ∀ dep ∈ dependencies, Valid isAlphanumeric dep.packageName) ()
      (PackageRepository.getDependencies jobId) := by
    apply keeps_read
    intro db hstored dep hdep
    exact hstored.dependencies dep (List.mem_filter.mp ((List.mem_insertionSort _).mp hdep)).1
  unfold Api.installJobDependencies
  apply hread.bind
  intro dependencies hnames
  split
  · exact .pure trivial
  · apply (keeps (acts_reading (acts_getJob jobId))).bind
    intro job _
    exact keeps (acts_installAll service hnames)

/-- The packages of the main venv are read from the cache, and each is installed again. -/
theorem keeps_updateMainVenvPackages (service : PackageService) :
    Task.Keeps (protocol isAlphanumeric) (fun _ => True) () (Api.updateMainVenvPackages service) := by
  have hread : Task.Keeps (protocol isAlphanumeric)
      (fun packages => ∀ pkg ∈ packages, Valid isAlphanumeric pkg.packageName) ()
      PackageService.getMainVenvPackages := by
    apply keeps_read
    intro db hstored pkg hpkg
    exact hstored.cached pkg (List.mem_filter.mp ((List.mem_insertionSort _).mp hpkg)).1
  unfold Api.updateMainVenvPackages
  apply hread.bind
  intro packages hnames
  exact keeps (acts_reinstallAll service hnames)

end

/-! ### The pool -/

inductive Call where
  | installPackage (req : InstallPackageRequest)
  | uninstallPackage (name : String)
  | addJobDependency (jobId : Uuid) (req : AddDependencyRequest)
  | updateDependency (jobId : Uuid) (packageName versionConstraint : String)
  | installJobDependencies (jobId : Uuid)
  | updateMainVenvPackages

def Call.task (service : PackageService) : Call → Async Unit
  | .installPackage req => do let _ ← Api.installPackage service req
  | .uninstallPackage name => Api.uninstallPackage service name
  | .addJobDependency jobId req => do let _ ← Api.addJobDependency jobId req
  | .updateDependency jobId packageName versionConstraint => do
    let _ ← PackageService.updateDependency jobId packageName versionConstraint
  | .installJobDependencies jobId => do let _ ← Api.installJobDependencies service jobId
  | .updateMainVenvPackages => do let _ ← Api.updateMainVenvPackages service

/-- The package name in the body of a request, or in its path. -/
def Call.packageName : Call → Option String
  | .installPackage req => some req.name
  | .uninstallPackage name => some name
  | .addJobDependency _ req => some req.packageName
  | .updateDependency _ packageName _ => some packageName
  | .installJobDependencies _ | .updateMainVenvPackages => none

/-- The requests whose names are `accepted`, each with the service (and so the pip) that it finds. Anything
else may happen to the rest of the state, and dependencies and entries of the cache may be removed. -/
def system (accepted : String → Prop) [DecidablePred accepted] :
    System Event World Unit (PackageService × Call) World where
  next _ _ := ()
  spawn call w :=
    if ∀ name ∈ call.2.packageName, accepted name then
      some (w, ⟨(), (call.2.task call.1).detached .returned⟩)
    else none
  env change w :=
    { change with db := { change.db with
        jobDependencies := change.db.jobDependencies.filter (w.db.jobDependencies.contains ·)
        packageCache := change.db.packageCache.filter (w.db.packageCache.contains ·) } }

section

variable {accepted : String → Prop} [DecidablePred accepted]
  (haccepted : ∀ name, accepted name → Valid isAlphanumeric name)

include haccepted

-- A program is only followed by the lemmas about its parts.
attribute [local irreducible] Task.Acts Task.Keeps

omit [DecidablePred accepted] in
theorem keeps_task (service : PackageService) {call : Call} (hnames : ∀ name ∈ call.packageName, accepted name) :
    Task.Keeps (protocol isAlphanumeric) (fun _ => True) () (call.task service) := by
  have hignored {α : Type} {p : Async α} (h : Task.Keeps (protocol isAlphanumeric) (fun _ => True) () p) :
      Task.Keeps (protocol isAlphanumeric) (fun _ => True) () (do let _ ← p) := h.bind fun _ _ => .pure trivial
  cases call with
  | installPackage req =>
      apply hignored
      exact keeps (acts_installPackage service (haccepted _ (hnames _ rfl)))
  | uninstallPackage name => exact keeps (acts_uninstallPackage service (haccepted _ (hnames _ rfl)))
  | addJobDependency jobId req =>
      apply hignored
      apply keeps
      exact (acts_reading (acts_getJob jobId)).bind fun _ =>
        acts_addDependency jobId (haccepted _ (hnames _ rfl))
  | updateDependency jobId packageName versionConstraint =>
      apply hignored
      exact keeps (acts_updateDependency jobId versionConstraint (haccepted _ (hnames _ rfl)))
  | installJobDependencies jobId =>
      apply hignored
      exact keeps_installJobDependencies service jobId
  | updateMainVenvPackages =>
      apply hignored
      exact keeps_updateMainVenvPackages service

omit [DecidablePred accepted] in
theorem obeys_thread (service : PackageService) {call : Call} (hnames : ∀ name ∈ call.packageName, accepted name)
    (w : World) :
    (protocol isAlphanumeric).Obeys (fun _ _ _ => True) ((call.task service).detached .returned) () w := by
  have hreturned (u : World) : Allowed isAlphanumeric u .returned u := .aside (by simp) rfl
  have hobeys := (keeps_task haccepted service hnames).obeys (s := w)
  exact hobeys.detached (fun _ _ _ u _ _ _ => hreturned u) fun _ _ _ u _ _ _ => hreturned u

theorem sound_safe : Sound (system accepted) (protocol isAlphanumeric) (fun _ _ _ => True) fun w _ trace =>
    Stored isAlphanumeric w.db ∧ ∀ ev ∈ trace, SafeEvent isAlphanumeric ev where
  next := rfl
  knows h _ := h.1
  run h _ _ hacts := by
    refine ⟨⟨hacts.2.stored h.1, ?_⟩, trivial⟩
    intro ev hev
    rcases List.mem_append.mp hev with hold | hnew
    · exact h.2 ev hold
    · rw [List.mem_singleton.mp hnew]
      exact hacts.1
  spawn {w _ _ call _ _} h hspawn := by
    change (if ∀ name ∈ call.2.packageName, accepted name then _ else none) = _ at hspawn
    split at hspawn
    · rename_i hnames
      cases hspawn
      exact ⟨h, trivial, obeys_thread haccepted call.1 hnames w⟩
    · cases hspawn
  env change h := by
    refine ⟨⟨⟨fun dep hdep => ?_, fun row hrow => ?_⟩, h.2⟩, trivial⟩
    · exact h.1.dependencies dep (by simpa using (List.mem_filter.mp hdep).2)
    · exact h.1.cached row (by simpa using (List.mem_filter.mp hrow).2)

end

/-! ### An option in the place of a name -/

instance : DecidablePred (Valid isAlphanumeric) := fun _ => inferInstanceAs (Decidable (_ = true))

/-- A host on which every command of pip succeeds. -/
def service : PackageService where
  workers := some (⟨"/data/venvs", "python3", fun _ => true, fun _ => none, none⟩,
    ⟨300, true, none, fun _ venv => (⟨1, .ok ⟨true, "", ""⟩⟩, venv)⟩)
  conflictStrategy := "suggest_custom_venv"
  toLowercase name := name

end PipArguments

end Serverust
