import Serverust.Proof.Footprints

/-!
# What no write changes

Rows of executions are added and written back whole from copies that may be stale. Every copy has the id, the
job and the retry count of its row, because no write has changed them since it was read. A task that adds and
writes back rows keeps any rules that allow this.
-/

namespace Serverust

namespace Signs

open Resumption

/-- What no write changes in the row of an execution. -/
structure Sign where
  id : Uuid
  jobId : Uuid
  count : Int
deriving DecidableEq, Repr

def sign (x : Execution) : Sign := ⟨x.id, x.jobId, x.retryCount⟩

def signs (w : World) : List Sign := w.db.executions.map sign

/-- The job has this maximum. -/
def Limited (j : Uuid) (m : Int) (w : World) : Prop := ∀ job ∈ w.db.jobs, job.id = j → job.maxRetries = m

section

variable {j : Uuid} {m : Int} {w u : World}

theorem unique_iff : Rows.Unique Execution.id w.db.executions ↔ ((signs w).map Sign.id).Nodup := by
  unfold Rows.Unique signs
  rw [List.map_map]
  rfl

theorem signs_insert (x : Execution) :
    signs { u with db := { u.db with executions := u.db.executions ++ [x] } } = signs u ++ [sign x] := by
  simp only [signs, List.map_append, List.map_cons, List.map_nil]

/-- A stale row is written over a row of the same retry count. -/
theorem signs_write {x : Execution} (hunique : Rows.Unique Execution.id u.db.executions) (hx : sign x ∈ signs u) :
    signs { u with db := writeExecution x u.db } = signs u := by
  obtain ⟨stored, hstored, hsign⟩ := List.mem_map.mp hx
  obtain ⟨hid, _, hcount⟩ :
      stored.id = x.id ∧ stored.jobId = x.jobId ∧ stored.retryCount = x.retryCount := by
    simpa only [sign, Sign.mk.injEq] using hsign
  show (u.db.executions.map _).map sign = u.db.executions.map sign
  rw [List.map_map]
  apply List.map_congr_left
  intro row hrow
  dsimp only [Function.comp_apply]
  split
  · rename_i hsame
    obtain rfl := hunique.eq_of_column hrow hstored (hsame.trans hid.symm)
    simp only [sign, Execution.over, hcount]
  · rfl

/-- A job that was read is written over a row of the same maximum. -/
theorem Limited.modify {job : Job} (h : Limited j m u) (hjob : job.id = j → job.maxRetries = m) :
    ∀ row ∈ Rows.modify Job.id job.id job.over u.db.jobs, row.id = j → row.maxRetries = m := by
  intro row hrow hid
  obtain ⟨old, hold, rfl⟩ := Rows.mem_modify.mp hrow
  split at hid
  · rename_i hsame
    rw [if_pos hsame]
    exact hjob (hsame ▸ hid)
  · rename_i hother
    rw [if_neg hother]
    exact h old hold hid

end

/-! ### Rules that allow it -/

/-- The tag lets its task add rows that no retry was made for and write back rows and jobs that it has read. -/
structure Orderly {τ : Type} (j : Uuid) (m : Int) (P : Protocol Event World τ) (t : τ) : Prop where
  tolerates : Tolerates P t
  grows : ∀ {u v}, P.grows u v → signs u <+: signs v
  limited : ∀ {u}, P.knows t u → Limited j m u
  write : ∀ {u : World} {x : Execution}, P.knows t u → sign x ∈ signs u →
    let v := { u with db := writeExecution x u.db }
    P.allows t (.sql (.updateExecution x)) u v ∧ P.next t (.sql (.updateExecution x)) = t ∧ P.grows u v
  enable : ∀ {u : World} {job : Job}, P.knows t u → (job.id = j → job.maxRetries = m) →
    let v := { u with db := { u.db with jobs := Rows.modify Job.id job.id job.over u.db.jobs } }
    P.allows t (.sql (.updateJob job)) u v ∧ P.next t (.sql (.updateJob job)) = t ∧ P.grows u v
  create : ∀ {u : World} {x : Execution}, P.knows t u → x.retryCount = 0 → (∀ y ∈ u.db.executions, y.id ≠ x.id) →
    let v := { u with db := { u.db with executions := u.db.executions ++ [x] } }
    P.allows t (.sql (.createExecution x)) u v ∧ P.next t (.sql (.createExecution x)) = t ∧ P.grows u v

section

variable {τ α β : Type} {P : Protocol Event World τ} {t : τ} {j : Uuid} {m : Int} {w : World} {stored : Sign}
  {p : Async α} {k : α → Async β}

/-- The program keeps the rules wherever the sign is stored. -/
def KeepsFor (P : Protocol Event World τ) (t : τ) (stored : Sign) (p : Async α) : Prop :=
  ∀ w, stored ∈ signs w → Task.Obeys P (fun _ t' s => t' = t ∧ P.grows w s ∧ True)
    (fun _ t' s => t' = t ∧ P.grows w s) p t w

theorem keepsFor_of_keeps (h : Task.Keeps P (fun _ => True) t p) : KeepsFor P t stored p := fun w _ => h w

variable [P.Lawful]

theorem obeys_from {u : World} (h : Task.Obeys P (fun _ t' s => t' = t ∧ P.grows u s ∧ True)
    (fun _ t' s => t' = t ∧ P.grows u s) p t u) (hgrows : P.grows w u) :
    Task.Obeys P (fun _ t' s => t' = t ∧ P.grows w s ∧ True) (fun _ t' s => t' = t ∧ P.grows w s) p t u := by
  apply h.mono
  · rintro a t s ⟨rfl, hlater, _⟩
    exact ⟨rfl, Protocol.Lawful.trans hgrows hlater, trivial⟩
  · rintro e t s ⟨rfl, hlater⟩
    exact ⟨rfl, Protocol.Lawful.trans hgrows hlater⟩

theorem KeepsFor.bind (hp : KeepsFor P t stored p) (hk : ∀ a, Task.Keeps P (fun _ => True) t (k a)) :
    KeepsFor P t stored (p >>= k) := by
  intro w hstored
  apply (hp w hstored).bind
  rintro a t u ⟨rfl, hgrows, _⟩
  exact obeys_from (hk a u) hgrows

namespace Orderly

variable (h : Orderly j m P t)

include h

theorem keepsFor_after (hp : Task.Keeps P (fun _ => True) t p) (hk : ∀ a, KeepsFor P t stored (k a)) :
    KeepsFor P t stored (p >>= k) := by
  intro w hstored
  apply hp.bind_obeys
  · exact fun a u hgrows _ => obeys_from (hk a u ((h.grows hgrows).subset hstored)) hgrows
  · exact fun e u hgrows => ⟨rfl, hgrows⟩

/-! ### Writing executions back -/

theorem keepsFor_update {x : Execution} (hx : sign x = stored) :
    KeepsFor P t stored (ExecutionRepository.update x) := by
  intro w hstored
  apply obeys_updateExecution h.tolerates
  · exact fun u hgrows hknows => h.write hknows (hx ▸ (h.grows hgrows).subset hstored)
  · intro u e hgrows hknows
    obtain ⟨hallows, hsame, _⟩ := Tolerates.failed h.tolerates hknows e
    exact ⟨hallows, hsame, hgrows⟩
  · exact fun _ _ hgrows => ⟨rfl, hgrows, trivial⟩
  · exact fun _ _ hgrows => ⟨rfl, hgrows⟩

theorem keeps_readExecution {id : Uuid} {k : Execution → Async β} (hk : ∀ x, KeepsFor P t (sign x) (k x)) :
    Task.Keeps P (fun _ => True) t (ExecutionRepository.getById id >>= k) := by
  intro w
  apply Task.obeys_bind.mpr
  apply obeys_getExecution
  · intro u x hgrows hknows hx
    have hbackground : Event.Background (.sql (.getExecution id (some x))) := trivial
    obtain ⟨hallows, hsame, _⟩ := h.tolerates hknows hbackground hx.symm .rfl .rfl
    refine ⟨hallows, ?_⟩
    rw [hsame]
    exact obeys_from (hk x u (List.mem_map_of_mem (Rows.mem_of_lookup hx))) hgrows
  · intro u hgrows hknows hnone
    have hbackground : Event.Background (.sql (.getExecution id none)) := trivial
    obtain ⟨hallows, hsame, _⟩ := h.tolerates hknows hbackground hnone.symm .rfl .rfl
    exact ⟨hallows, hsame, hgrows⟩
  · intro u e hgrows hknows
    obtain ⟨hallows, hsame, _⟩ := Tolerates.failed h.tolerates hknows e
    exact ⟨hallows, hsame, hgrows⟩

theorem keepsFor_stamp {f : String → Execution} (hf : ∀ now, sign (f now) = stored) :
    KeepsFor P t stored (do
      let now ← nowRfc3339
      let _ ← ExecutionRepository.update (f now)) :=
  h.keepsFor_after (keeps_nowRfc3339 h.tolerates) fun now => (h.keepsFor_update (hf now)).bind fun _ => .pure trivial

theorem keeps_setExecutionRunning (e : Uuid) (workerId : String) :
    Task.Keeps P (fun _ => True) t (WorkerPool.setExecutionRunning e workerId) :=
  h.keeps_readExecution fun _ => h.keepsFor_stamp fun _ => rfl

theorem keeps_finalizeExecution (e : Uuid) (status : ExecutionStatus) (message output : Option String) :
    Task.Keeps P (fun _ => True) t (WorkerPool.finalizeExecution e status message output) :=
  h.keeps_readExecution fun _ => h.keepsFor_stamp fun _ => rfl

theorem keeps_writeOutcome (e : Uuid) (result : ExecutionResult) :
    Task.Keeps P (fun _ => True) t (WorkerPool.writeOutcome e result) := by
  have hfinish : Task.Keeps P (fun _ => True) t (WorkerPool.writeOutcome.finish e result) :=
    (h.keeps_finalizeExecution e _ _ _).attempt.bind fun _ _ => .pure trivial
  have hread : Task.Keeps P (fun _ => True) t (ExecutionRepository.getById e) :=
    keeps_getExecution h.tolerates fun _ _ _ _ => trivial
  apply hread.attempt.bind
  rintro (_ | x) _
  · exact hfinish
  · dsimp only
    split
    · exact .pure trivial
    · exact hfinish

theorem keeps_process {pool : WorkerPool} {workerId : Nat} {e : Uuid} {result : ExecutionResult}
    (hfailed : Task.Keeps P (fun _ => True) t (QueueManager.markFailed e))
    (hexecuted : Task.Keeps P (fun _ => True) t (perform (fun _ => .executed e) fun w => ((), w)))
    (hreport : Task.Keeps P (fun _ => True) t (pool.updateQueueEntry e result.outcome.1))
    (hreleased : Task.Keeps P (fun _ => True) t (perform (fun _ => .released e) fun w => ((), w)))
    (hcallback : Task.Keeps P (fun _ => True) t (pool.dagCallback e)) :
    Task.Keeps P (fun _ => True) t (pool.process workerId e result) := by
  apply (h.keeps_setExecutionRunning e _).attempt.bind
  rintro (_ | _) _
  · exact hfailed.attempt.bind fun _ _ => .pure trivial
  · exact keeps_run h.tolerates hexecuted (h.keeps_writeOutcome e result) hreport hreleased hcallback

/-! ### Creating executions -/

theorem keeps_readJob {id : Uuid} :
    Task.Keeps P (fun job => job.id = id ∧ (job.id = j → job.maxRetries = m)) t (JobRepository.getById id) :=
  keeps_getJob h.tolerates fun _ job hknows hjob =>
    ⟨Rows.column_of_lookup hjob, h.limited hknows job (Rows.mem_of_lookup hjob)⟩

/-- Writing a job back that was read, with another field changed. -/
theorem keeps_enableJob {job : Job} (hjob : job.id = j → job.maxRetries = m) :
    Task.Keeps P (fun _ => True) t (JobRepository.update job) := by
  refine Task.Keeps.bind (φ := fun _ => True) ?_ fun affected _ => ?_
  · apply keeps_sql h.tolerates
    intro u value db hknows hquery
    obtain ⟨-, rfl⟩ := JobRepository.writeJob_ok (query_ok hquery).2
    obtain ⟨hallows, hnext, hgrows⟩ := h.enable hknows hjob
    exact ⟨hallows, hnext, hgrows, trivial⟩
  · split
    · exact .throw
    · exact keeps_getJob h.tolerates fun _ _ _ _ => trivial

theorem keeps_createExecution (jobId : Uuid) (input : Option String) :
    Task.Keeps P (fun _ => True) t (ExecutionService.createExecution jobId input) := by
  have hinsert (x : Execution) (hcount : x.retryCount = 0) :
      Task.Keeps P (fun _ => True) t (ExecutionRepository.create x) := by
    intro w
    apply obeys_insertExecution h.tolerates
    · exact fun u _ hknows _ hfresh => h.create hknows hcount hfresh
    · intro u e hgrows hknows
      obtain ⟨hallows, hsame, _⟩ := Tolerates.failed h.tolerates hknows e
      exact ⟨hallows, hsame, hgrows⟩
    · exact fun _ _ hgrows _ => ⟨rfl, hgrows, trivial⟩
    · exact fun _ _ hgrows => ⟨rfl, hgrows⟩
  have hrest : Task.Keeps P (fun _ => True) t (do
      let now ← nowRfc3339
      let id ← newV4
      ExecutionRepository.create (.new id jobId input now)) :=
    (keeps_nowRfc3339 h.tolerates).bind fun now _ => (keeps_newV4 h.tolerates).bind fun id _ => hinsert _ rfl
  apply h.keeps_readJob.bind fun job hjob => ?_
  have henable (now : String) : Task.Keeps P (fun _ => True) t
      (JobRepository.update { job with enabled := true, updatedAt := now }) := h.keeps_enableJob hjob.2
  split
  · exact (keeps_nowRfc3339 h.tolerates).bind fun now _ => (henable now).bind fun _ _ => hrest
  · exact hrest

end Orderly

end

end Signs

end Serverust
