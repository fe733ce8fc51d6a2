import Serverust.Model.JobService

/-!
# Job rows

What a whole-row write does to the table of jobs when it succeeds, and what deleting venvs does to the
jobs that have selected them.
-/

namespace Serverust

/-- What a whole-row write makes of a row. -/
def Job.over (job row : Job) : Job := { job with id := row.id, createdAt := row.createdAt }

/-- `venv_id REFERENCES venvs(id)` holds of every job. -/
def Db.Selects (db : Db) : Prop := ∀ job ∈ db.jobs, JobRepository.selectsUnstored job db = false

namespace JobRepository

variable {db db' : Db} {job row : Job} {gone : VenvId → Bool} {jobs : List Job}

/-! ### Writing rows -/

theorem selectsUnstored_eq_false :
    selectsUnstored job db = false ↔ ∀ id, job.venvId = some id → ∃ venv ∈ db.venvs, venv.id = id := by
  unfold selectsUnstored
  cases job.venvId with
  | none => simp
  | some id =>
      rw [Option.any_some, decide_eq_false_iff_not, ← ne_eq, Rows.hits_ne_zero]
      exact ⟨fun hstored _ heq => Option.some.inj heq ▸ hstored, fun h => h id rfl⟩

theorem writeJob_ok {affected : Nat} (h : writeJob job db = .ok (affected, db')) :
    affected = Rows.hits Job.id job.id db.jobs ∧
      db' = { db with jobs := Rows.modify Job.id job.id job.over db.jobs } := by
  simp only [writeJob] at h
  split at h
  · cases h
  · cases h
    exact ⟨rfl, rfl⟩

theorem insertJob_ok (h : insertJob job db = .ok ((), db')) :
    Rows.hits Job.id job.id db.jobs = 0 ∧ selectsUnstored job db = false ∧
      db' = { db with jobs := db.jobs ++ [job] } := by
  unfold insertJob at h
  split at h
  · cases h
  rename_i hnew
  split at h
  · cases h
  rename_i hstored
  cases h
  exact ⟨not_not.mp hnew, Bool.eq_false_iff.mpr hstored, rfl⟩

theorem writeJob_stored {affected : Nat} (h : writeJob job db = .ok (affected, db')) (haffected : affected ≠ 0) :
    selectsUnstored job db = false := by
  rw [(writeJob_ok h).1] at haffected
  simp only [writeJob] at h
  split at h
  · cases h
  · rename_i hstored
    exact Bool.eq_false_iff.mpr fun hselects => hstored ⟨haffected, hselects⟩

theorem writeJob_of_stored (h : selectsUnstored job db = false) :
    writeJob job db = .ok (Rows.hits Job.id job.id db.jobs,
      { db with jobs := Rows.modify Job.id job.id job.over db.jobs }) := by
  rw [writeJob, if_neg fun hselects => Bool.eq_false_iff.mp h hselects.2]
  rfl

theorem selectsUnstored_congr {job' : Job} (hvenv : job'.venvId = job.venvId) (hvenvs : db'.venvs = db.venvs) :
    selectsUnstored job' db' = selectsUnstored job db := by
  rw [selectsUnstored, selectsUnstored, hvenv, hvenvs]

/-- After a write of a job that selects no unstored venv, no job does. -/
theorem selects_modify (h : db.Selects) (hjob : selectsUnstored job db = false) :
    Db.Selects { db with jobs := Rows.modify Job.id job.id job.over db.jobs } := by
  intro row hrow
  obtain ⟨old, hold, rfl⟩ := Rows.mem_modify.mp hrow
  split
  · rw [← hjob]
    exact selectsUnstored_congr rfl rfl
  · rw [← h old hold]
    exact selectsUnstored_congr rfl rfl

/-! ### Losing a selection -/

theorem mem_deselect : row ∈ deselect gone jobs ↔
    ∃ job ∈ jobs, row = if job.venvId.any gone then { job with venvId := none } else job := by
  simp only [deselect, List.mem_map, eq_comm]

theorem map_deselect {κ : Type} {column : Job → κ} (hcolumn : ∀ job, column { job with venvId := none } = column job)
    (gone : VenvId → Bool) (jobs : List Job) : (deselect gone jobs).map column = jobs.map column := by
  rw [deselect, List.map_map]
  apply List.map_congr_left
  intro job _
  dsimp only [Function.comp_apply]
  split
  · exact hcolumn job
  · rfl

theorem exists_id_deselect {id : Uuid} :
    (∃ row ∈ deselect gone jobs, row.id = id) ↔ ∃ job ∈ jobs, job.id = id := by
  rw [← List.mem_map, ← List.mem_map, map_deselect fun _ => rfl]

/-- A job that still selects a venv selected it before, and the venv is not gone. -/
theorem selected_of_deselect (h : row ∈ deselect gone jobs) {id : VenvId} (hid : row.venvId = some id) :
    (∃ job ∈ jobs, job.venvId = some id) ∧ gone id = false := by
  obtain ⟨job, hjob, rfl⟩ := mem_deselect.mp h
  split at hid
  · cases hid
  · rename_i hkept
    refine ⟨⟨job, hjob, hid⟩, ?_⟩
    rw [hid, Option.any_some] at hkept
    exact Bool.eq_false_iff.mpr hkept

end JobRepository

end Serverust
