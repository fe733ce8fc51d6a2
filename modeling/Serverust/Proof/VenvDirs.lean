import Serverust.Library.Requests
import Serverust.Model.VenvService
import Serverust.Proof.Sequential

/-!
# Directories and rows of standalone venvs

A creation makes the directory and then inserts the row, and a deletion removes the row alone. So the two
agree exactly as long as every insert succeeds and no standalone venv is deleted.
-/

namespace Serverust

/-- A named venv that belongs to no job. -/
def Venv.Standalone (venv : Venv) : Prop := venv.venvType = .custom ∧ venv.jobId = none

instance (venv : Venv) : Decidable venv.Standalone := inferInstanceAs (Decidable (_ ∧ _))

namespace VenvDirs

open Calendar Resumption Requests

variable (manager : VenvManager)

/-! ### Requests -/

inductive Call where
  | createVenv (req : CreateVenvRequest)
  | deleteVenv (id : VenvId)

def Call.task : Call → Async Unit
  | .createVenv req => do let _ ← Api.createVenv manager req
  | .deleteVenv id => Api.deleteVenv id

/-- A call, and the failure of its first statement, if it fails. The first statement of a creation is the
insert. -/
structure Request where
  call : Call
  fault : Option String

/-- Serve a request that runs alone. -/
def step (w : World) (req : Request) : World :=
  match (req.call.task manager).run { w with fault := req.fault } with
  | some (_, w') => w'
  | none => w

/-- The directories of standalone venvs are the paths of the rows of standalone venvs. -/
def Sync (w : World) : Prop :=
  ∀ path, path ∈ w.disk.venvDirs ↔ ∃ venv ∈ w.db.venvs, venv.Standalone ∧ venv.path = path

/-- What a creation checks before it makes the directory. -/
structure Passes (w : World) (req : CreateVenvRequest) : Prop where
  nonempty : trim req.name ≠ ""
  free : trim req.name ≠ "main"
  safe : ((trim req.name).toList.any fun c => c = '/' || c = '\\' || c = '.') = false
  python : ∃ pythonExe, Api.pythonExe manager req = .ok pythonExe
  unused : manager.namedVenvPath (trim req.name) ∉ w.disk.venvDirs

/-- A creation whose insert does not fail, or the deletion of no standalone venv. -/
def Harmless (w : World) (req : Request) : Prop :=
  match req.call with
  | .createVenv body => Passes manager w body → req.fault = none
  | .deleteVenv id => req.fault = none → ∀ venv ∈ w.db.venvs, venv.id = id → ¬venv.Standalone

/-- Directories and rows agree, no two standalone venvs have one path, and the next id is new. -/
structure Consistent (w : World) : Prop where
  sync : Sync w
  ids : Rows.Unique Venv.id w.db.venvs
  paths : ∀ venv ∈ w.db.venvs, ∀ other ∈ w.db.venvs, venv.Standalone → other.Standalone →
    venv.path = other.path → venv.id = other.id
  fresh : ∀ venv ∈ w.db.venvs, ∀ id, venv.id = .uuid id → id < w.nextUuid

/-! ### Creation -/

variable {manager} {w : World} {req : CreateVenvRequest}

/-- The row of a creation. -/
def newVenv (manager : VenvManager) (w : World) (req : CreateVenvRequest) : Venv :=
  let path := manager.namedVenvPath (trim req.name)
  (Venv.newStandalone w.nextUuid path ((manager.versionOf path).or req.pythonVersion) (toRfc3339 w.now)).markReady
    (toRfc3339 w.now)

theorem newVenv_standalone : (newVenv manager w req).Standalone := ⟨rfl, rfl⟩

/-- The state once the directory is made and the id is drawn. -/
def made (manager : VenvManager) (w : World) (req : CreateVenvRequest) : World :=
  { w with
    disk := { w.disk with venvDirs := w.disk.venvDirs ++ [manager.namedVenvPath (trim req.name)] }
    nextUuid := w.nextUuid + 1 }

theorem run_refused (h : ¬Passes manager w req) :
    ∃ e, (Api.createVenv manager req).run w = some (.error e, w) := by
  unfold Api.createVenv
  dsimp only
  split
  · exact ⟨_, rfl⟩
  split
  · exact ⟨_, rfl⟩
  split
  · exact ⟨_, rfl⟩
  rename_i hnonempty hfree hsafe
  simp only [VenvManager.namedVenvExists, Task.run_bind, run_perform]
  split
  · exact ⟨_, rfl⟩
  rename_i hunused
  cases hpython : Api.pythonExe manager req with
  | error e => exact ⟨e, rfl⟩
  | ok pythonExe =>
      refine absurd ⟨hnonempty, hfree, by simpa using hsafe, ⟨pythonExe, hpython⟩, ?_⟩ h
      simpa using hunused

theorem run_passes (h : Passes manager w req) :
    (Api.createVenv manager req).run w =
      (VenvService.createStandaloneVenv (newVenv manager w req)).run (made manager w req) := by
  obtain ⟨hnonempty, hfree, hsafe, ⟨pythonExe, hpython⟩, hunused⟩ := h
  unfold Api.createVenv
  simp only [hnonempty, hfree, hsafe, hpython, VenvManager.namedVenvExists,
    VenvManager.createNamedVenvWithPython]
  simp [hunused]
  rfl

theorem run_create_fault (venv : Venv) {text : String} (hfault : w.fault = some text) :
    ∃ e, (VenvService.createStandaloneVenv venv).run w = some (.error e, w) := by
  refine ⟨databaseError (.fault text), ?_⟩
  simp [VenvService.createStandaloneVenv, VenvRepository.create, sql, World.query, hfault]

theorem run_create (venv : Venv) (hfault : w.fault = none) (hjob : venv.jobId = none)
    (hnew : ∀ row ∈ w.db.venvs, row.id ≠ venv.id) :
    ∃ r, (VenvService.createStandaloneVenv venv).run w =
      some (r, { w with db := { w.db with venvs := w.db.venvs ++ [venv] } }) := by
  have hinsert : VenvRepository.insertVenv venv w.db = .ok ((), { w.db with venvs := w.db.venvs ++ [venv] }) := by
    simp [VenvRepository.insertVenv, Rows.hits_eq_zero.mpr hnew, hjob]
  unfold VenvService.createStandaloneVenv VenvRepository.create VenvRepository.getById
  simp only [Task.run_bind, run_sql hfault, hinsert]
  rw [run_select (by exact hfault)]
  cases Rows.lookup Venv.id venv.id (w.db.venvs ++ [venv]) with
  | none => exact ⟨_, rfl⟩
  | some row => exact ⟨_, rfl⟩

/-! ### Deletion -/

theorem run_delete_fault (id : VenvId) {text : String} (hfault : w.fault = some text) :
    ∃ e, (Api.deleteVenv id).run w = some (.error e, w) := by
  refine ⟨databaseError (.fault text), ?_⟩
  simp [Api.deleteVenv, VenvService.deleteVenv, VenvRepository.getById, select, sql, World.query, hfault]

theorem run_deleteRow {id : VenvId} (hfault : w.fault = none) (hhits : Rows.hits Venv.id id w.db.venvs ≠ 0) :
    ∃ db, (VenvRepository.delete id).run w = some (.ok (), { w with db }) ∧
      db.venvs = Rows.remove Venv.id id w.db.venvs := by
  unfold VenvRepository.delete
  simp only [Task.run_bind, run_execute hfault, hhits, if_false]
  exact ⟨_, rfl, rfl⟩

theorem run_delete (id : VenvId) (hfault : w.fault = none) :
    ∃ r db, (Api.deleteVenv id).run w = some (r, { w with db }) ∧
      db.venvs = if (Rows.lookup Venv.id id w.db.venvs).any fun venv => venv.venvType = .custom then
        Rows.remove Venv.id id w.db.venvs else w.db.venvs := by
  unfold Api.deleteVenv VenvService.deleteVenv VenvRepository.getById
  simp only [Task.run_bind, run_select hfault]
  cases hrow : Rows.lookup Venv.id id w.db.venvs with
  | none => exact ⟨_, w.db, rfl, rfl⟩
  | some venv =>
      have hhits : Rows.hits Venv.id id w.db.venvs ≠ 0 :=
        Rows.hits_ne_zero.mpr ⟨venv, Rows.mem_of_lookup hrow, Rows.column_of_lookup hrow⟩
      obtain ⟨db, hrun, hrows⟩ := run_deleteRow hfault hhits
      simp only [run_okOr_some]
      cases htype : venv.venvType with
      | main => exact ⟨_, w.db, rfl, by simp [htype]⟩
      | custom => exact ⟨_, db, by simpa using hrun, by simpa [htype] using hrows⟩

/-! ### What a request does -/

/-- The ways in which a request changes the directories and the rows. -/
inductive Effect (manager : VenvManager) (w : World) (req : Request) (w' : World) : Prop
  | nothing (hharmless : Harmless manager w req) (hdisk : w'.disk = w.disk)
      (hrows : w'.db.venvs = w.db.venvs) (hids : w'.nextUuid = w.nextUuid)
  | created (body : CreateVenvRequest) (hcall : req.call = .createVenv body) (hpasses : Passes manager w body)
      (hfault : req.fault = none)
      (hdisk : w'.disk.venvDirs = w.disk.venvDirs ++ [(newVenv manager w body).path])
      (hrows : w'.db.venvs = w.db.venvs ++ [newVenv manager w body]) (hids : w'.nextUuid = w.nextUuid + 1)
  | orphaned (body : CreateVenvRequest) (hcall : req.call = .createVenv body) (hpasses : Passes manager w body)
      (hfault : req.fault ≠ none)
      (hdisk : w'.disk.venvDirs = w.disk.venvDirs ++ [(newVenv manager w body).path])
      (hrows : w'.db.venvs = w.db.venvs)
  | deleted (venv : Venv) (hcall : req.call = .deleteVenv venv.id) (hvenv : venv ∈ w.db.venvs)
      (hfault : req.fault = none) (hdisk : w'.disk = w.disk)
      (hrows : w'.db.venvs = Rows.remove Venv.id venv.id w.db.venvs) (hids : w'.nextUuid = w.nextUuid)

theorem effect_create (hw : Consistent w) {body : CreateVenvRequest} {fault : Option String} :
    Effect manager w ⟨.createVenv body, fault⟩ (step manager w ⟨.createVenv body, fault⟩) := by
  unfold step Call.task
  simp only [Task.run_bind]
  by_cases hpasses : Passes manager w body
  · have hpasses' : Passes manager { w with fault } body := ⟨hpasses.1, hpasses.2, hpasses.3, hpasses.4, hpasses.5⟩
    rw [run_passes hpasses']
    cases hfault : fault with
    | none =>
        have hnew : ∀ row ∈ w.db.venvs, row.id ≠ .uuid w.nextUuid :=
          fun row hrow hid => Nat.lt_irrefl _ (hw.fresh row hrow _ hid)
        obtain ⟨r, hrun⟩ := run_create (w := made manager { w with fault := none } body)
          (newVenv manager { w with fault := none } body) rfl rfl hnew
        rw [hrun]
        cases r <;> exact .created body rfl hpasses rfl rfl rfl rfl
    | some text =>
        obtain ⟨e, hrun⟩ := run_create_fault (w := made manager { w with fault := some text } body)
          (newVenv manager { w with fault := some text } body) rfl
        rw [hrun]
        exact .orphaned body rfl hpasses (by simp) rfl rfl
  · have hpasses' : ¬Passes manager { w with fault } body := fun h => hpasses ⟨h.1, h.2, h.3, h.4, h.5⟩
    obtain ⟨e, hrun⟩ := run_refused hpasses'
    rw [hrun]
    exact .nothing (fun h => absurd h hpasses) rfl rfl rfl

theorem effect_delete (hw : Consistent w) {id : VenvId} {fault : Option String} :
    Effect manager w ⟨.deleteVenv id, fault⟩ (step manager w ⟨.deleteVenv id, fault⟩) := by
  unfold step Call.task
  cases hfault : fault with
  | some text =>
      obtain ⟨e, hrun⟩ := run_delete_fault (w := { w with fault := some text }) id rfl
      simp only [hrun]
      exact .nothing (by simp [Harmless]) rfl rfl rfl
  | none =>
      obtain ⟨r, db, hrun, hrows⟩ := run_delete (w := { w with fault := none }) id rfl
      simp only [hrun]
      cases hrow : Rows.lookup Venv.id id w.db.venvs with
      | none =>
          refine .nothing ?_ rfl (by simpa [hrow] using hrows) rfl
          exact fun _ venv hvenv hid => absurd hid (Rows.lookup_eq_none.mp hrow venv hvenv)
      | some venv =>
          have hvenv := Rows.mem_of_lookup hrow
          obtain rfl := Rows.column_of_lookup hrow
          cases htype : venv.venvType with
          | custom => exact .deleted venv rfl hvenv rfl rfl (by simpa [hrow, htype] using hrows) rfl
          | main =>
              refine .nothing ?_ rfl (by simpa [hrow, htype] using hrows) rfl
              intro _ other hother hid hstandalone
              have heq : other = venv := hw.ids.eq_of_column hother hvenv hid
              exact absurd (heq ▸ hstandalone.1) (by simp [htype])

theorem effect (manager : VenvManager) (hw : Consistent w) (req : Request) : Effect manager w req (step manager w req) := by
  obtain ⟨call, fault⟩ := req
  cases call with
  | createVenv body => exact effect_create hw
  | deleteVenv id => exact effect_delete hw

/-! ### Requests that keep the two in step -/

theorem Consistent.sync_step (hw : Consistent w) (req : Request) :
    Sync (step manager w req) ↔ Harmless manager w req := by
  cases effect manager hw req with
  | nothing hharmless hdisk hrows =>
      refine iff_of_true ?_ hharmless
      intro path
      rw [hdisk, hrows]
      exact hw.sync path
  | created body hcall hpasses hfault hdisk hrows =>
      refine iff_of_true ?_ ?_
      · intro path
        rw [hdisk, hrows, List.mem_append, List.mem_singleton, hw.sync path]
        constructor
        · rintro (⟨venv, hvenv, hstandalone, hpath⟩ | rfl)
          · exact ⟨venv, List.mem_append_left _ hvenv, hstandalone, hpath⟩
          · exact ⟨_, List.mem_append_right _ (List.mem_singleton_self _), newVenv_standalone, rfl⟩
        · rintro ⟨venv, hvenv, hstandalone, hpath⟩
          rcases List.mem_append.mp hvenv with hold | hnew
          · exact .inl ⟨venv, hold, hstandalone, hpath⟩
          · rw [List.mem_singleton.mp hnew] at hpath
            exact .inr hpath.symm
      · unfold Harmless
        rw [hcall]
        exact fun _ => hfault
  | orphaned body hcall hpasses hfault hdisk hrows =>
      refine iff_of_false ?_ ?_
      · intro hsync
        -- The new directory has no row, neither before nor after.
        have hdir : (newVenv manager w body).path ∈ (step manager w req).disk.venvDirs := by
          rw [hdisk]
          exact List.mem_append_right _ (List.mem_singleton_self _)
        have hrow := (hsync _).mp hdir
        rw [hrows] at hrow
        exact hpasses.unused ((hw.sync _).mpr hrow)
      · unfold Harmless
        rw [hcall]
        exact fun h => hfault (h hpasses)
  | deleted venv hcall hvenv hfault hdisk hrows =>
      have hharmless : Harmless manager w req ↔ ¬venv.Standalone := by
        unfold Harmless
        rw [hcall]
        constructor
        · exact fun h => h hfault venv hvenv rfl
        · intro h _ other hother hid
          rw [hw.ids.eq_of_column hother hvenv hid]
          exact h
      rw [hharmless]
      constructor
      · intro hsync hstandalone
        have hdir : venv.path ∈ (step manager w req).disk.venvDirs := by
          rw [hdisk]
          exact (hw.sync _).mpr ⟨venv, hvenv, hstandalone, rfl⟩
        obtain ⟨other, hother, hother', hpath⟩ := (hsync _).mp hdir
        rw [hrows] at hother
        obtain ⟨hmem, hne⟩ := Rows.mem_remove.mp hother
        exact hne (hw.paths other hmem venv hvenv hother' hstandalone hpath)
      · intro hnot path
        rw [hdisk, hrows, hw.sync path]
        constructor
        · rintro ⟨other, hother, hstandalone, hpath⟩
          refine ⟨other, Rows.mem_remove.mpr ⟨hother, ?_⟩, hstandalone, hpath⟩
          intro hid
          rw [hw.ids.eq_of_column hother hvenv hid] at hstandalone
          exact hnot hstandalone
        · rintro ⟨other, hother, hstandalone, hpath⟩
          exact ⟨other, (Rows.mem_remove.mp hother).1, hstandalone, hpath⟩

theorem Consistent.step (hw : Consistent w) (req : Request) (hharmless : Harmless manager w req) :
    Consistent (step manager w req) := by
  have hsync := (hw.sync_step req).mpr hharmless
  cases effect manager hw req with
  | nothing _ _ hrows hids =>
      refine ⟨hsync, ?_, ?_, ?_⟩
      · exact hrows ▸ hw.ids
      · exact hrows ▸ hw.paths
      · rw [hrows, hids]
        exact hw.fresh
  | created body hcall hpasses hfault hdisk hrows hids =>
      have hnew : ∀ row ∈ w.db.venvs, row.id ≠ (newVenv manager w body).id :=
        fun row hrow hid => Nat.lt_irrefl _ (hw.fresh row hrow _ hid)
      have hpath : ∀ row ∈ w.db.venvs, row.Standalone → row.path ≠ (newVenv manager w body).path :=
        fun row hrow hstandalone hpath => hpasses.unused ((hw.sync _).mpr ⟨row, hrow, hstandalone, hpath⟩)
      refine ⟨hsync, ?_, ?_, ?_⟩
      · rw [hrows]
        exact hw.ids.append (Rows.hits_eq_zero.mpr hnew)
      · rw [hrows]
        intro venv hvenv other hother hstandalone hstandalone' hsame
        rcases List.mem_append.mp hvenv with hold | hvenv
        · rcases List.mem_append.mp hother with hold' | hother
          · exact hw.paths venv hold other hold' hstandalone hstandalone' hsame
          · rw [List.mem_singleton.mp hother] at hsame
            exact absurd hsame (hpath venv hold hstandalone)
        · rcases List.mem_append.mp hother with hold' | hother
          · rw [List.mem_singleton.mp hvenv] at hsame
            exact absurd hsame.symm (hpath other hold' hstandalone')
          · rw [List.mem_singleton.mp hvenv, List.mem_singleton.mp hother]
      · rw [hrows, hids]
        intro venv hvenv id hid
        rcases List.mem_append.mp hvenv with hold | hnew
        · exact Nat.lt_succ_of_lt (hw.fresh venv hold id hid)
        · rw [List.mem_singleton.mp hnew] at hid
          cases hid
          exact Nat.lt_succ_self _
  | orphaned body hcall hpasses hfault =>
      unfold Harmless at hharmless
      rw [hcall] at hharmless
      exact absurd (hharmless hpasses) hfault
  | deleted venv hcall hvenv hfault hdisk hrows hids =>
      refine ⟨hsync, ?_, ?_, ?_⟩
      · rw [hrows]
        exact hw.ids.remove _
      · rw [hrows]
        exact fun a ha b hb => hw.paths a (Rows.mem_remove.mp ha).1 b (Rows.mem_remove.mp hb).1
      · rw [hrows, hids]
        exact fun row hrow => hw.fresh row (Rows.mem_remove.mp hrow).1

/-- Directories and rows agree after every request of a sequence exactly if the insert of every creation
succeeds and no standalone venv is deleted. -/
theorem dirs_match_rows (manager : VenvManager) (hw : Consistent w) (requests : List Request) :
    After (step manager) Sync w requests ↔ Each (step manager) (Harmless manager) w requests := by
  apply each_congr Consistent
  · exact fun u req hu hsync => hu.step req ((hu.sync_step req).mp hsync)
  · exact fun u req hu => hu.sync_step req
  · exact hw

/-! ### Directories without a row -/

def host : VenvManager where
  basePath := "/data/venvs"
  pythonExecutable := "python3"
  succeeds _ := true
  versionOf _ := none

/-- Serve the creation of a venv with this name. -/
def creation (name : String) (fault : Option String) : Request := ⟨.createVenv ⟨name, none⟩, fault⟩

theorem sample_consistent : Consistent (World.sample 0 []) where
  sync _ := by simp [World.sample, World.start, Db.empty]
  ids := List.nodup_nil
  paths _ hvenv := absurd hvenv List.not_mem_nil
  fresh _ hvenv := absurd hvenv List.not_mem_nil

/-- Two venvs, two names that are refused, and the deletion of a venv that does not exist. -/
theorem dirs_match_rows_created : After (step host) Sync (World.sample 0 [])
    [creation " a" none, creation "a" none, creation "main" (some "disk I/O error"), creation "b" none,
      ⟨.deleteVenv (.uuid 7), none⟩] := by
  refine (dirs_match_rows host sample_consistent _).mpr ⟨?_, ?_, ?_, ?_, ?_, trivial⟩
  · exact fun _ => rfl
  · exact fun _ => rfl
  · exact fun h => absurd rfl h.free
  · exact fun _ => rfl
  · intro _ venv hvenv hid
    have hmem := List.mem_map_of_mem (f := Venv.id) hvenv
    rw [hid] at hmem
    change VenvId.uuid 7 ∈ [VenvId.uuid 1000, VenvId.uuid 1001] at hmem
    exact absurd hmem (by decide)

/-- The directory of a deleted venv stays. -/
theorem dir_without_row : ¬∀ requests, After (step host) Sync (World.sample 0 []) requests := by
  intro hall
  have hsync := (hall [creation "a" none, ⟨.deleteVenv (.uuid 1000), none⟩]).2.1
  obtain ⟨venv, hvenv, -⟩ := (hsync "/data/venvs/a").mp (List.mem_singleton_self _)
  change venv ∈ [] at hvenv
  exact absurd hvenv List.not_mem_nil

end VenvDirs

end Serverust
