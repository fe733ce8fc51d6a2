import Serverust.Library.Lineage
import Serverust.Library.Pool
import Serverust.Model.Api
import Serverust.Proof.Signs

/-!
# The retries of an execution

A retry inserts a row whose retry count is one higher than that of the execution it retries, and is refused
when that count has reached the maximum of the job. As long as no execution is retried twice, what descends
from an execution is a chain, and the count bounds its length. No path advances the count of the retried row,
so a second retry of it passes the same test.
-/

namespace Serverust

open Resumption Signs

namespace RetryTree

/-! ### The rules -/

/-- Where a task is, as far as the retries of one job go. A retry reads the row of its execution and inserts
the new one. -/
inductive Phase where
  | plain
  | asked
  | read (parent : Uuid) (count : Int)
  | made (parent child : Uuid) (count : Int)
deriving DecidableEq, Repr

def Phase.next (j : Uuid) : Phase → Event → Phase
  | .asked, .sql (.getExecution _ (some x)) => if x.jobId = j then .read x.id x.retryCount else .plain
  | .read parent _, .sql (.createExecution x) => .made parent x.id x.retryCount
  | phase, _ => phase

/-- The rows that a task may insert. -/
def Phase.Creates (j : Uuid) (m : Int) : Phase → Execution → Prop
  | .read _ count, x => x.jobId = j ∧ x.retryCount = count + 1 ∧ count < m
  | _, x => x.jobId = j → x.retryCount = 0

structure Allowed (j : Uuid) (m : Int) (phase : Phase) (ev : Event) (u v : World) : Prop where
  limited : Limited j m v
  created : ∀ x, ev = .sql (.createExecution x) →
    (∀ y ∈ u.db.executions, y.id ≠ x.id) ∧ v.db.executions = u.db.executions ++ [x] ∧ phase.Creates j m x
  read : ∀ id x, ev = .sql (.getExecution id (some x)) → x ∈ u.db.executions
  other : (∀ x, ev ≠ .sql (.createExecution x)) → signs v = signs u

/-- Rows are added, and keep their ids, jobs and retry counts. -/
def protocol (j : Uuid) (m : Int) : Protocol Event World Phase where
  next := Phase.next j
  knows _ w := Rows.Unique Execution.id w.db.executions ∧ Limited j m w
  grows u v := signs u <+: signs v
  allows := Allowed j m

instance (j : Uuid) (m : Int) : (protocol j m).Lawful := ⟨fun _ => List.prefix_refl _, List.IsPrefix.trans⟩

section

variable {j : Uuid} {m : Int} {phase : Phase} {w : World}

theorem Phase.next_eq {ev : Event} (hphase : phase ≠ .asked) (hcreate : ∀ x, ev ≠ .sql (.createExecution x)) :
    phase.next j ev = phase := by
  unfold Phase.next
  split
  · exact absurd rfl hphase
  · exact absurd rfl (hcreate _)
  · rfl

theorem Phase.next_ne_asked {ev : Event} (hphase : phase ≠ .asked) : phase.next j ev ≠ .asked := by
  unfold Phase.next
  split
  · exact absurd rfl hphase
  · exact Phase.noConfusion
  · exact hphase

theorem allowed_same {u v : World} {ev : Event} (hphase : phase ≠ .asked) (hknows : (protocol j m).knows phase u)
    (hcreate : ∀ x, ev ≠ .sql (.createExecution x))
    (hread : ∀ id x, ev = .sql (.getExecution id (some x)) → x ∈ u.db.executions)
    (hexecutions : v.db.executions = u.db.executions) (hjobs : v.db.jobs = u.db.jobs) :
    (protocol j m).allows phase ev u v ∧ (protocol j m).next phase ev = phase ∧ (protocol j m).grows u v := by
  have hsigns : signs v = signs u := congrArg (List.map sign) hexecutions
  refine ⟨⟨?_, fun x heq => absurd heq (hcreate x), hread, fun _ => hsigns⟩,
    Phase.next_eq hphase hcreate, ?_⟩
  · show Limited j m v
    unfold Limited
    rw [hjobs]
    exact hknows.2
  · show signs u <+: signs v
    rw [hsigns]

theorem tolerates (hphase : phase ≠ .asked) : Tolerates (protocol j m) phase := by
  intro u v ev hknows hbackground htrue hsame _
  apply allowed_same hphase hknows
  · rintro x rfl
    exact hbackground
  · rintro id x rfl
    exact Rows.mem_of_lookup (Eq.symm htrue)
  · exact hsame.executions
  · exact hsame.jobs

theorem toleratesDags (hphase : phase ≠ .asked) : ToleratesDags (protocol j m) phase := by
  intro u v stmt hknows hsame _
  apply allowed_same hphase hknows
  · intro x heq
    cases heq
  · intro id x heq
    cases heq
  · exact hsame.executions
  · exact hsame.jobs

theorem toleratesQueue (hphase : phase ≠ .asked) : ToleratesQueue (protocol j m) phase := by
  intro u v ev hknows hqueueing hbeside
  apply allowed_same hphase hknows
  · rintro x rfl
    exact hqueueing
  · rintro id x rfl
    exact hqueueing.elim
  · exact hbeside.executions
  · exact hbeside.jobs

/-! ### Creating executions -/

theorem allowed_create {u : World} {x : Execution} (hknows : (protocol j m).knows phase u)
    (hcreates : phase.Creates j m x) (hfresh : ∀ y ∈ u.db.executions, y.id ≠ x.id) :
    let v := { u with db := { u.db with executions := u.db.executions ++ [x] } }
    (protocol j m).allows phase (.sql (.createExecution x)) u v ∧ (protocol j m).grows u v := by
  refine ⟨⟨hknows.2, ?_, ?_, fun hother => absurd rfl (hother x)⟩, [sign x], (signs_insert x).symm⟩
  · rintro _ ⟨⟩
    exact ⟨hfresh, rfl, hcreates⟩
  · intro id y heq
    cases heq

theorem orderly : Orderly j m (protocol j m) .plain where
  tolerates := tolerates Phase.noConfusion
  grows := id
  limited hknows := hknows.2
  write := by
    intro u x hknows hx
    have hsigns := signs_write hknows.1 hx
    refine ⟨⟨hknows.2, ?_, ?_, fun _ => hsigns⟩, rfl, ?_⟩
    · intro y heq
      cases heq
    · intro id y heq
      cases heq
    · show signs u <+: _
      rw [hsigns]
  enable := by
    intro u job hknows hjob
    refine ⟨⟨Limited.modify hknows.2 hjob, ?_, ?_, fun _ => rfl⟩, rfl, List.prefix_refl _⟩
    · intro x heq
      cases heq
    · intro id x heq
      cases heq
  create := by
    intro u x hknows hcount hfresh
    have hcreates : Phase.plain.Creates j m x := fun _ => hcount
    obtain ⟨hallows, hgrows⟩ := allowed_create hknows hcreates hfresh
    exact ⟨hallows, rfl, hgrows⟩

/-! ### The other tasks -/

theorem keeps_cancelExecution (id : Uuid) :
    Task.Keeps (protocol j m) (fun _ => True) .plain (Api.cancelExecution id) := by
  have hcancel : Task.Keeps (protocol j m) (fun _ => True) .plain (ExecutionService.cancelExecution id) := by
    apply orderly.keeps_readExecution
    intro x
    have hwrite : KeepsFor (protocol j m) .plain (sign x)
        (nowRfc3339 >>= fun now => ExecutionRepository.update (x.markCancelled now)) :=
      orderly.keepsFor_after (keeps_nowRfc3339 orderly.tolerates) fun _ => orderly.keepsFor_update rfl
    split
    · exact hwrite
    · exact hwrite
    · exact hwrite
    · exact keepsFor_of_keeps .throw
  have hqueue : ToleratesQueue (protocol j m) .plain := toleratesQueue Phase.noConfusion
  exact hcancel.bind fun x _ => (hqueue.keeps_remove id).attempt.bind fun _ _ => .pure trivial

theorem keeps_pass (pool : WorkerPool) (workerId : Nat) (result : QueueItem → ExecutionResult) :
    Task.Keeps (protocol j m) (fun _ => True) .plain (pool.pass workerId result) := by
  have ht : Tolerates (protocol j m) .plain := tolerates Phase.noConfusion
  have hq : ToleratesQueue (protocol j m) .plain := toleratesQueue Phase.noConfusion
  have hd : ToleratesDags (protocol j m) .plain := toleratesDags Phase.noConfusion
  have hturn (ev : Event) (hcreate : ∀ x, ev ≠ .sql (.createExecution x))
      (hread : ∀ id x, ev ≠ .sql (.getExecution id (some x))) :
      Task.Keeps (protocol j m) (fun _ => True) .plain (perform (fun _ => ev) fun w => ((), w)) := by
    intro w
    apply obeys_perform
    intro u hgrows hknows
    obtain ⟨hallows, hnext, _⟩ := allowed_same Phase.noConfusion hknows hcreate
      (fun id x heq => absurd heq (hread id x)) (v := u) rfl rfl
    exact ⟨hallows, hnext, hgrows, trivial⟩
  have hprocess (e : Uuid) (result : ExecutionResult) :
      Task.Keeps (protocol j m) (fun _ => True) .plain (pool.process workerId e result) := by
    have hfailed := hq.keeps_markEntry .markFailed e
    have hreport := keeps_updateQueueEntry ht hq pool e result.outcome.1
    have hcallback := keeps_dagCallback ht hq hd orderly.keeps_createExecution pool e
    apply orderly.keeps_process hfailed (hturn _ ?_ ?_) hreport (hturn _ ?_ ?_) hcallback
    · exact fun _ => Event.noConfusion
    · exact fun _ _ => Event.noConfusion
    · exact fun _ => Event.noConfusion
    · exact fun _ _ => Event.noConfusion
  apply (keeps_dequeue ht hq).attempt.bind
  rintro (_ | _ | item) _
  · exact .pure trivial
  · exact .pure trivial
  · exact hprocess _ _

theorem keeps_enqueueNew (qm : QueueManager) (context : String) (hphase : phase ≠ .asked) (jobId : Uuid)
    (execution : Execution) (priority : Job → Int) : Task.Keeps (protocol j m) (fun _ => True) phase (do
      let job ← JobRepository.getById jobId
      Api.internal context (qm.enqueue (.new execution job (priority job)))
      return execution) := by
  have hqueue : ToleratesQueue (protocol j m) phase := toleratesQueue hphase
  apply (keeps_getJob (tolerates hphase) (φ := fun _ => True) fun _ _ _ _ => trivial).bind fun job _ => ?_
  refine Task.Keeps.bind (φ := fun _ => True) ?_ fun _ _ => .pure trivial
  apply (hqueue.keeps_enqueue qm _).attempt.bind
  rintro (_ | _) _
  · exact .throw
  · exact .pure trivial

theorem keeps_executeJob (qm : QueueManager) (jobId : Uuid) (req : Option ExecuteJobRequest) :
    Task.Keeps (protocol j m) (fun _ => True) .plain (Api.executeJob qm jobId req) :=
  (orderly.keeps_createExecution _ _).bind fun x _ => keeps_enqueueNew qm _ Phase.noConfusion _ x _

/-! ### Retrying -/

/-- A retry inserts one row, of a retry count within the maximum of the job. -/
theorem obeys_insertRetry (fromStr : String → Option JsonText.Value) {x : Execution} (hphase : phase ≠ .asked)
    (hcreates : ∀ y : Execution, y.jobId = x.jobId → y.retryCount = x.retryCount + 1 →
      (x.jobId = j → x.retryCount < m) → phase.Creates j m y) :
    Task.Obeys (protocol j m) (fun _ t _ => t ≠ .asked) (fun _ _ _ => True) (do
      let job ← JobRepository.getById x.jobId
      if job.maxRetries ≤ x.retryCount then
        Task.throw (.badRequest
          ("Execution has reached maximum retry count (" ++ toString job.maxRetries ++ ")"))
      else
        let inputData := (x.inputData.bind fromStr).map jsonText
        let now ← nowRfc3339
        let newId ← newV4
        ExecutionRepository.create
          { Execution.new newId x.jobId inputData now with retryCount := x.retryCount + 1 }) phase w := by
  have hread : Task.Keeps (protocol j m) (fun job => job.id = x.jobId ∧ (job.id = j → job.maxRetries = m)) phase
      (JobRepository.getById x.jobId) :=
    keeps_getJob (tolerates hphase) fun _ job hknows hjob =>
      ⟨Rows.column_of_lookup hjob, hknows.2 job (Rows.mem_of_lookup hjob)⟩
  apply hread.bind_obeys
  · rintro job u _ ⟨hid, hlimit⟩
    split
    · trivial
    · rename_i hbelow
      apply (keeps_nowRfc3339 (tolerates hphase)).bind_obeys
      · intro now u₁ _ _
        apply (keeps_newV4 (tolerates hphase)).bind_obeys
        · intro newId u₂ _ _
          have hfit : x.jobId = j → x.retryCount < m := by
            intro hjob
            have := hlimit (hid.trans hjob)
            omega
          apply obeys_insertExecution (tolerates (Phase.next_ne_asked hphase))
          · intro v _ hknows _ hfresh
            obtain ⟨hallows, hgrows⟩ := allowed_create hknows (hcreates _ (by rfl) (by rfl) hfit) hfresh
            exact ⟨hallows, rfl, hgrows⟩
          · intro v e _ hknows
            obtain ⟨hallows, _⟩ := Tolerates.failed (tolerates hphase) hknows e
            exact ⟨hallows, trivial⟩
          · exact fun _ _ _ _ => Phase.next_ne_asked hphase
          · exact fun _ _ _ => trivial
        · exact fun _ _ _ => trivial
      · exact fun _ _ _ => trivial
  · exact fun _ _ _ => trivial

/-- What a retry may insert once it has read its row. -/
theorem Phase.read_row (id : Uuid) (x : Execution) :
    Phase.next j .asked (.sql (.getExecution id (some x))) ≠ .asked ∧
      ∀ y : Execution, y.jobId = x.jobId → y.retryCount = x.retryCount + 1 →
        (x.jobId = j → x.retryCount < m) → (Phase.next j .asked (.sql (.getExecution id (some x)))).Creates j m y := by
  dsimp only [Phase.next]
  split
  · rename_i hjob
    exact ⟨Phase.noConfusion, fun y hy hcount hfit => ⟨hy.trans hjob, hcount, hfit hjob⟩⟩
  · rename_i hother
    exact ⟨Phase.noConfusion, fun y hy _ _ hjob => absurd (hy.symm.trans hjob) hother⟩

theorem obeys_retryExecution (qm : QueueManager) (fromStr : String → Option JsonText.Value) (id : Uuid) :
    Task.Obeys (protocol j m) (fun _ _ _ => True) (fun _ _ _ => True)
      (Api.retryExecution qm fromStr id) .asked w := by
  have hservice : Task.Obeys (protocol j m) (fun _ t _ => t ≠ .asked) (fun _ _ _ => True)
      (ExecutionService.retryExecution fromStr id) .asked w := by
    apply Task.obeys_bind.mpr
    apply obeys_getExecution
    · intro u x _ hknows hx
      refine ⟨⟨hknows.2, ?_, ?_, fun _ => rfl⟩, ?_⟩
      · intro y heq
        cases heq
      · rintro _ _ ⟨⟩
        exact Rows.mem_of_lookup hx
      · obtain ⟨hphase, hcreates⟩ := Phase.read_row (j := j) (m := m) id x
        split
        · exact obeys_insertRetry fromStr hphase hcreates
        · exact obeys_insertRetry fromStr hphase hcreates
        · exact obeys_insertRetry fromStr hphase hcreates
        · trivial
    · intro u _ hknows _
      refine ⟨⟨hknows.2, ?_, ?_, fun _ => rfl⟩, trivial⟩
      · intro y heq
        cases heq
      · intro _ y heq
        cases heq
    · intro u e _ hknows
      refine ⟨⟨hknows.2, ?_, ?_, fun _ => rfl⟩, trivial⟩
      · intro y heq
        cases heq
      · intro _ y heq
        cases heq
  apply Task.obeys_bind.mpr
  apply hservice.mono
  · intro x t u ht
    exact (keeps_enqueueNew qm _ ht _ x _).obeys.mono (fun _ _ _ _ => trivial) fun _ _ _ _ => trivial
  · exact fun _ _ _ _ => trivial

end

/-! ### The pool -/

inductive Call where
  | executeJob (jobId : Uuid) (req : Option ExecuteJobRequest)
  | cancel (id : Uuid)
  | retry (id : Uuid)
  | pass (workerId : Nat) (result : QueueItem → ExecutionResult)
  | requeue (index : Nat)

/-- What a call starts. A retry of the queue is a task that sleeps. -/
def Call.start (pool : WorkerPool) (fromStr : String → Option JsonText.Value) (w : World) :
    Call → Option (World × Phase × Async Unit)
  | .executeJob jobId req => some (w, .plain, do let _ ← Api.executeJob pool.queueManager jobId req)
  | .cancel id => some (w, .plain, do let _ ← Api.cancelExecution id)
  | .retry id => some (w, .asked, do let _ ← Api.retryExecution pool.queueManager fromStr id)
  | .pass workerId result => some (w, .plain, pool.pass workerId result)
  | .requeue index => (w.spawned[index]?).map fun task =>
      ({ w with spawned := w.spawned.eraseIdx index }, .plain, pool.queueManager.requeueTask task)

/-- What else may happen: anything, but of the executions only that there are new ones with no retry before
them, and that no other maximum is stored for the job. -/
structure Elsewhere (j : Uuid) (m : Int) where
  act : World → World
  rows : ∀ w, ∃ new, signs (act w) = signs w ++ new ∧ ∀ stored ∈ new, stored.count = 0
  unique : ∀ w, Rows.Unique Execution.id w.db.executions → Rows.Unique Execution.id (act w).db.executions
  limited : ∀ w, Limited j m w → Limited j m (act w)

def system (pool : WorkerPool) (fromStr : String → Option JsonText.Value) (j : Uuid) (m : Int) :
    System Event World Phase Call (Elsewhere j m) where
  next := Phase.next j
  spawn call w := (call.start pool fromStr w).map fun r => (r.1, ⟨r.2.1, r.2.2.detached .returned⟩)
  env change w := change.act w

/-- No retry inserts a row for an execution that another retry has inserted one for. -/
def Good (c : Config Event World Phase) (i : Nat) (ev : Event) : Prop :=
  ∀ parent count x, c.tags[i]? = some (.read parent count) → ev = .sql (.createExecution x) →
    ∀ child n, .made parent child n ∉ c.tags

/-- The execution was retried, and this is the one that was created. -/
def Retried (c : Config Event World Phase) (parent child : Uuid) : Prop := ∃ n, .made parent child n ∈ c.tags

/-! ### The invariant -/

structure Inv (j : Uuid) (m : Int) (w : World) (phases : List Phase) : Prop where
  unique : Rows.Unique Execution.id w.db.executions
  limited : Limited j m w
  counts : ∀ stored ∈ signs w, stored.jobId = j → 0 ≤ stored.count
  read : ∀ parent n, .read parent n ∈ phases → ⟨parent, j, n⟩ ∈ signs w
  made : ∀ parent child n, .made parent child n ∈ phases →
    ⟨parent, j, n - 1⟩ ∈ signs w ∧ ⟨child, j, n⟩ ∈ signs w ∧ n ≤ m
  once : ∀ parent child n child' n',
    .made parent child n ∈ phases → .made parent child' n' ∈ phases → child = child'

section

variable {j : Uuid} {m : Int} {w : World} {phases : List Phase}

theorem Inv.later {v : World} (h : Inv j m w phases) (hunique : Rows.Unique Execution.id v.db.executions)
    (hlimited : Limited j m v) (new : List Sign) (hsigns : signs v = signs w ++ new)
    (hnew : ∀ stored ∈ new, stored.jobId = j → 0 ≤ stored.count) : Inv j m v phases where
  unique := hunique
  limited := hlimited
  counts stored hstored hjob := by
    rw [hsigns] at hstored
    rcases List.mem_append.mp hstored with hold | hadded
    · exact h.counts stored hold hjob
    · exact hnew stored hadded hjob
  read parent n hread := hsigns ▸ List.mem_append_left _ (h.read parent n hread)
  made parent child n hmade := by
    obtain ⟨hparent, hchild, hle⟩ := h.made parent child n hmade
    rw [hsigns]
    exact ⟨List.mem_append_left _ hparent, List.mem_append_left _ hchild, hle⟩
  once := h.once

/-- Every task is in a phase that occurred, or in a new one. -/
theorem Inv.moved {phases' : List Phase} (h : Inv j m w phases) (phase : Phase)
    (hmem : ∀ p ∈ phases', p ∈ phases ∨ p = phase)
    (hread : ∀ parent n, phase = .read parent n → ⟨parent, j, n⟩ ∈ signs w)
    (hmade : ∀ parent child n, phase = .made parent child n →
      ⟨parent, j, n - 1⟩ ∈ signs w ∧ ⟨child, j, n⟩ ∈ signs w ∧ n ≤ m)
    (honce : ∀ parent child n, phase = .made parent child n →
      ∀ child' n', .made parent child' n' ∈ phases → child = child') :
    Inv j m w phases' where
  unique := h.unique
  limited := h.limited
  counts := h.counts
  read parent n hphase := (hmem _ hphase).elim (h.read parent n) fun heq => hread parent n heq.symm
  made parent child n hphase :=
    (hmem _ hphase).elim (h.made parent child n) fun heq => hmade parent child n heq.symm
  once := by
    intro parent child n child' n' hleft hright
    rcases hmem _ hleft with hl | hl <;> rcases hmem _ hright with hr | hr
    · exact h.once parent child n child' n' hl hr
    · exact (honce parent child' n' hr.symm child n hl).symm
    · exact honce parent child n hl.symm child' n' hr
    · cases hl.trans hr.symm
      rfl

theorem Inv.stays {i : Nat} {phase : Phase} (h : Inv j m w phases) (hphase : phase ∈ phases) :
    Inv j m w (phases.set i phase) := by
  apply h.moved phase fun p => List.mem_or_eq_of_mem_set
  · rintro parent n rfl
    exact h.read parent n hphase
  · rintro parent child n rfl
    exact h.made parent child n hphase
  · rintro parent child n rfl child' n' hmade
    exact h.once parent child n child' n' hphase hmade

theorem Inv.created {i : Nat} {phase : Phase} {v : World} {x : Execution} (h : Inv j m w phases)
    (hphase : phase ∈ phases) (hallows : Allowed j m phase (.sql (.createExecution x)) w v)
    (hgood : ∀ parent count, phase = .read parent count → ∀ child n, .made parent child n ∉ phases) :
    Inv j m v (phases.set i (phase.next j (.sql (.createExecution x)))) ∧ signs w <+: signs v := by
  obtain ⟨hfresh, hrows, hcreates⟩ := hallows.created x rfl
  have hsigns : signs v = signs w ++ [sign x] := by
    simp only [signs, hrows, List.map_append, List.map_cons, List.map_nil]
  have hunique : Rows.Unique Execution.id v.db.executions := by
    rw [hrows]
    exact h.unique.append (Rows.hits_eq_zero.mpr hfresh)
  have hcount : x.jobId = j → 0 ≤ x.retryCount := by
    intro hjob
    cases phase with
    | read parent n =>
        have hparent : 0 ≤ n := h.counts _ (h.read parent n hphase) rfl
        have := hcreates.2.1
        omega
    | _ => exact (hcreates hjob).ge
  have hlater : Inv j m v phases := by
    apply h.later hunique hallows.limited [sign x] hsigns
    intro stored hstored
    rw [List.mem_singleton.mp hstored]
    exact hcount
  refine ⟨?_, [sign x], hsigns.symm⟩
  cases phase with
  | read parent n =>
      obtain ⟨hjob, hnext, hbelow⟩ := hcreates
      apply hlater.moved (.made parent x.id x.retryCount) fun p => List.mem_or_eq_of_mem_set
      · exact fun _ _ => Phase.noConfusion
      · rintro _ _ _ ⟨⟩
        refine ⟨?_, ?_, by omega⟩
        · rw [hnext, add_sub_cancel_right]
          exact hlater.read parent n hphase
        · rw [hsigns, ← hjob]
          exact List.mem_append_right _ (List.mem_singleton_self _)
      · rintro _ _ _ ⟨⟩ child' n' hmade
        exact absurd hmade (hgood parent n rfl child' n')
  | plain => exact hlater.stays hphase
  | asked => exact hlater.stays hphase
  | made parent child n => exact hlater.stays hphase

theorem Phase.next_cases {phase : Phase} {ev : Event} (hcreate : ∀ x, ev ≠ .sql (.createExecution x)) :
    phase.next j ev = phase ∨ phase.next j ev = .plain ∨
      ∃ id x, ev = .sql (.getExecution id (some x)) ∧ x.jobId = j ∧
        phase.next j ev = .read x.id x.retryCount := by
  unfold Phase.next
  split
  · rename_i id x
    split
    · exact .inr (.inr ⟨id, x, rfl, ‹_›, rfl⟩)
    · exact .inr (.inl rfl)
  · exact absurd rfl (hcreate _)
  · exact .inl rfl

theorem obeys_start {pool : WorkerPool} {fromStr : String → Option JsonText.Value} {call : Call} {w' : World}
    {phase : Phase} {p : Async Unit} (h : call.start pool fromStr w = some (w', phase, p)) :
    (phase = .plain ∨ phase = .asked) ∧ w'.db = w.db ∧
      (protocol j m).Obeys (fun _ _ _ => True) (p.detached .returned) phase w' := by
  have hdone {t : Phase} {u : World} (hknows : (protocol j m).knows t u) :
      (protocol j m).allows t .returned u u :=
    { limited := hknows.2
      created := fun _ => Event.noConfusion
      read := fun _ _ => Event.noConfusion
      other := fun _ => rfl }
  have hkeeps {p : Async Unit} (h : Task.Keeps (protocol j m) (fun _ => True) .plain p) (u : World) :
      (protocol j m).Obeys (fun _ _ _ => True) (p.detached .returned) .plain u :=
    h.obeys.detached (fun _ _ _ _ _ _ => hdone) fun _ _ _ _ _ _ => hdone
  cases call with
  | executeJob jobId req =>
      cases h
      exact ⟨.inl rfl, rfl, hkeeps ((keeps_executeJob _ jobId req).bind fun _ _ => .pure trivial) w⟩
  | cancel id =>
      cases h
      exact ⟨.inl rfl, rfl, hkeeps ((keeps_cancelExecution id).bind fun _ _ => .pure trivial) w⟩
  | retry id =>
      cases h
      refine ⟨.inr rfl, rfl, ?_⟩
      have hretry : Task.Obeys (protocol j m) (fun _ _ _ => True) (fun _ _ _ => True) (do
          let _ ← Api.retryExecution pool.queueManager fromStr id) .asked w :=
        (obeys_retryExecution pool.queueManager fromStr id).bind fun _ _ _ _ => trivial
      exact hretry.detached (fun _ _ _ _ _ _ => hdone) fun _ _ _ _ _ _ => hdone
  | pass workerId result =>
      cases h
      exact ⟨.inl rfl, rfl, hkeeps (keeps_pass pool workerId result) w⟩
  | requeue index =>
      obtain ⟨task, _, heq⟩ := Option.map_eq_some_iff.mp h
      cases heq
      have hrequeue : Task.Keeps (protocol j m) (fun _ => True) .plain (pool.queueManager.requeueTask task) :=
        keeps_requeueTask (tolerates Phase.noConfusion) (toleratesQueue Phase.noConfusion) _ task
      exact ⟨.inl rfl, rfl, hkeeps hrequeue _⟩

theorem sound_inv (pool : WorkerPool) (fromStr : String → Option JsonText.Value) :
    Sound (system pool fromStr j m) (protocol j m) Good fun w phases _ => Inv j m w phases where
  next := rfl
  knows hinv _ := ⟨hinv.unique, hinv.limited⟩
  run := by
    intro c i phase ev v hinv hphase hgood hallows
    have hmem : phase ∈ c.tags := List.mem_of_getElem? hphase
    by_cases hcreate : ∃ x, ev = .sql (.createExecution x)
    · obtain ⟨x, rfl⟩ := hcreate
      refine hinv.created hmem hallows fun parent count heq => hgood parent count x ?_ rfl
      rw [← heq]
      exact hphase
    · have hsigns : signs v = signs c.world := hallows.other fun x heq => hcreate ⟨x, heq⟩
      have hlater : Inv j m v c.tags := by
        refine hinv.later ?_ hallows.limited [] (by rw [hsigns, List.append_nil]) fun _ hstored => ?_
        · rw [unique_iff, hsigns]
          exact unique_iff.mp hinv.unique
        · exact absurd hstored List.not_mem_nil
      refine ⟨?_, [], by rw [List.append_nil, hsigns]⟩
      have hother : ∀ x, ev ≠ .sql (.createExecution x) := fun x heq => hcreate ⟨x, heq⟩
      rcases phase.next_cases (j := j) hother with hsame | hplain | ⟨id, x, hread, hjob, hnext⟩
      · show Inv j m v (c.tags.set i (phase.next j ev))
        rw [hsame]
        exact hlater.stays hmem
      · apply hlater.moved .plain fun p hp => hplain ▸ List.mem_or_eq_of_mem_set hp
        · exact fun _ _ => Phase.noConfusion
        · exact fun _ _ _ => Phase.noConfusion
        · exact fun _ _ _ => Phase.noConfusion
      · apply hlater.moved (.read x.id x.retryCount) fun p hp => hnext ▸ List.mem_or_eq_of_mem_set hp
        · rintro _ _ ⟨⟩
          rw [hsigns, ← hjob]
          exact List.mem_map_of_mem (hallows.read id x hread)
        · exact fun _ _ _ => Phase.noConfusion
        · exact fun _ _ _ => Phase.noConfusion
  spawn := by
    intro w phases trace call w' th hinv hspawn
    obtain ⟨⟨u, phase, p⟩, hstart, heq⟩ := Option.map_eq_some_iff.mp hspawn
    cases heq
    obtain ⟨hphase, hdb, hobeys⟩ := obeys_start (j := j) (m := m) hstart
    have hsigns : signs u = signs w := congrArg (fun db => db.executions.map sign) hdb
    have hlater : Inv j m u phases := by
      refine hinv.later (hdb ▸ hinv.unique) ?_ [] (by rw [hsigns, List.append_nil]) fun _ hstored => ?_
      · unfold Limited
        rw [hdb]
        exact hinv.limited
      · exact absurd hstored List.not_mem_nil
    refine ⟨?_, ⟨[], by rw [List.append_nil, hsigns]⟩, ?_⟩
    · apply hlater.moved phase
      · exact fun p hp => (List.mem_append.mp hp).imp_right List.mem_singleton.mp
      · rintro parent n rfl
        exact hphase.elim Phase.noConfusion Phase.noConfusion
      · rintro parent child n rfl
        exact hphase.elim Phase.noConfusion Phase.noConfusion
      · rintro parent child n rfl
        exact hphase.elim Phase.noConfusion Phase.noConfusion
    · exact hobeys
  env := by
    intro w phases trace change hinv
    obtain ⟨new, hsigns, hcount⟩ := change.rows w
    refine ⟨hinv.later (change.unique w hinv.unique) (change.limited w hinv.limited) new hsigns
      fun stored hstored _ => ?_, ?_⟩
    · exact (hcount stored hstored).ge
    · exact ⟨new, hsigns.symm⟩

end

/-! ### Requests that are refused -/

section

variable {j : Uuid} {m : Int} {w : World}

theorem run_find {α : Type} {stmt : Option α → Stmt} {read : Db → Option α} {missing : AppError} :
    (∃ e, (select stmt read >>= fun row => okOr row missing).run w = some (.error e, w)) ∨
      ∃ a, read w.db = some a ∧ (select stmt read >>= fun row => okOr row missing).run w = some (.ok a, w) := by
  cases hfault : w.fault with
  | none =>
      rw [Task.run_bind, run_select hfault]
      cases hread : read w.db with
      | none => exact .inl ⟨missing, rfl⟩
      | some a => exact .inr ⟨a, rfl, rfl⟩
  | some text =>
      have hquery : (select stmt read).run w = some (.error (databaseError (.fault text)), w) := by
        simp only [select, sql, Task.run_action, World.query, hfault]
      rw [Task.run_bind, hquery]
      exact .inl ⟨_, rfl⟩

theorem run_readExecution (id : Uuid) : (∃ e, (ExecutionRepository.getById id).run w = some (.error e, w)) ∨
    ∃ x, Rows.lookup Execution.id id w.db.executions = some x ∧
      (ExecutionRepository.getById id).run w = some (.ok x, w) :=
  run_find

theorem run_readJob (id : Uuid) : (∃ e, (JobRepository.getById id).run w = some (.error e, w)) ∨
    ∃ job, Rows.lookup Job.id id w.db.jobs = some job ∧
      (JobRepository.getById id).run w = some (.ok job, w) :=
  run_find

/-- A retry of an execution whose count has reached the maximum. -/
theorem run_retryExecution_full (qm : QueueManager) (fromStr : String → Option JsonText.Value) {x : Execution}
    (hx : Rows.lookup Execution.id x.id w.db.executions = some x) (hlimited : Limited x.jobId m w)
    (hfull : m ≤ x.retryCount) : ∃ e, (Api.retryExecution qm fromStr x.id).run w = some (.error e, w) := by
  have hservice : ∃ e, (ExecutionService.retryExecution fromStr x.id).run w = some (.error e, w) := by
    unfold ExecutionService.retryExecution
    rcases run_readExecution (w := w) x.id with ⟨e, he⟩ | ⟨found, hfound, hrun⟩
    · exact ⟨e, by rw [Task.run_bind, he]⟩
    · obtain rfl := Option.some.inj (hfound.symm.trans hx)
      have hcheck (rest : Job → Async Execution) (message : Job → AppError) :
          ∃ e, (do
            let job ← JobRepository.getById found.jobId
            if job.maxRetries ≤ found.retryCount then Task.throw (message job) else rest job).run w =
              some (.error e, w) := by
        rcases run_readJob (w := w) found.jobId with ⟨e, he⟩ | ⟨job, hjob, hread⟩
        · exact ⟨e, by rw [Task.run_bind, he]⟩
        · have hmax := hlimited job (Rows.mem_of_lookup hjob) (Rows.column_of_lookup hjob)
          refine ⟨message job, ?_⟩
          rw [Task.run_bind, hread]
          dsimp only
          rw [if_pos (hmax ▸ hfull)]
          rfl
      rw [Task.run_bind, hrun]
      dsimp only
      split
      · exact hcheck _ _
      · exact hcheck _ _
      · exact hcheck _ _
      · exact ⟨_, rfl⟩
  obtain ⟨e, he⟩ := hservice
  refine ⟨e, ?_⟩
  unfold Api.retryExecution
  rw [Task.run_bind, he]

end

/-! ### The bound -/

section

variable {j : Uuid} {m : Int} {c : Config Event World Phase}

/-- The retry count of a stored execution. -/
def count (w : World) (id : Uuid) : Int :=
  ((Rows.lookup Execution.id id w.db.executions).map Execution.retryCount).getD 0

theorem count_eq {w : World} (hunique : Rows.Unique Execution.id w.db.executions) {id jobId : Uuid} {n : Int}
    (h : ⟨id, jobId, n⟩ ∈ signs w) : count w id = n := by
  obtain ⟨x, hx, heq⟩ := List.mem_map.mp h
  cases heq
  unfold count
  rw [hunique.lookup hx rfl]
  rfl

namespace Inv

variable (h : Inv j m c.world c.tags)

include h

theorem retried_unique : Relator.RightUnique (Retried c) := by
  rintro parent child child' ⟨n, hmade⟩ ⟨n', hmade'⟩
  exact h.once parent child n child' n' hmade hmade'

theorem count_retried (parent child : Uuid) (hretried : Retried c parent child) :
    count c.world child = count c.world parent + 1 := by
  obtain ⟨n, hmade⟩ := hretried
  obtain ⟨hparent, hchild, _⟩ := h.made parent child n hmade
  rw [count_eq h.unique hparent, count_eq h.unique hchild, sub_add_cancel]

theorem stored_of_descends {a b : Uuid} (hab : Relation.TransGen (Retried c) a b) :
    ∃ n, ⟨b, j, n⟩ ∈ signs c.world ∧ n ≤ m := by
  obtain ⟨parent, _, n, hmade⟩ := Relation.TransGen.tail'_iff.mp hab
  obtain ⟨_, hchild, hle⟩ := h.made parent b n hmade
  exact ⟨n, hchild, hle⟩

/-- An execution of the job that is retried nowhere, at the end of a chain of full length, is full. -/
theorem full_of_last {e : Execution} (he : e ∈ c.world.db.executions) (hjob : e.jobId = j) {below : List Uuid}
    (hnodup : below.Nodup) (hbelow : ∀ b ∈ below, Relation.TransGen (Retried c) e.id b)
    (hlength : below.length = m.toNat) {last : Uuid} (hlast : Relation.ReflTransGen (Retried c) e.id last)
    (hnone : ∀ b, ¬Retried c last b) : m ≤ count c.world last := by
  have hbound : below.length ≤ (count c.world last - count c.world e.id).toNat := by
    apply Lineage.length_le h.retried_unique h.count_retried hnodup hbelow
    exact fun b hb => Lineage.rank_le_last h.retried_unique h.count_retried hlast hnone (hbelow b hb)
  have hstored : ⟨e.id, j, e.retryCount⟩ ∈ signs c.world := hjob ▸ List.mem_map_of_mem he
  have hroot : 0 ≤ count c.world e.id := by
    rw [count_eq h.unique hstored]
    exact h.counts _ hstored rfl
  have hafter : count c.world e.id ≤ count c.world last := by
    rcases Relation.reflTransGen_iff_eq_or_transGen.mp hlast with heq | hlater
    · rw [heq]
    · exact (Lineage.rank_lt h.count_retried hlater).le
  omega

end Inv

/-- Along every run in which no execution is retried twice: from each execution of the job descend at most as
many as its maximum, and once there are as many, a retry of the last one is refused and changes nothing. -/
theorem retries_bounded (pool : WorkerPool) (fromStr : String → Option JsonText.Value) {w : World}
    (hunique : Rows.Unique Execution.id w.db.executions) (hlimited : Limited j m w)
    (hcounts : ∀ x ∈ w.db.executions, x.jobId = j → 0 ≤ x.retryCount)
    (hrun : (system pool fromStr j m).Run Good ⟨w, [], []⟩ c) :
    ∀ e ∈ c.world.db.executions, e.jobId = j → ∀ below : List Uuid, below.Nodup →
      (∀ b ∈ below, Relation.TransGen (Retried c) e.id b) →
        below.length ≤ m.toNat ∧
          (below.length = m.toNat →
            ∀ last, Relation.ReflTransGen (Retried c) e.id last → (∀ b, ¬Retried c last b) →
              ∃ error, (Api.retryExecution pool.queueManager fromStr last).run c.world =
                some (.error error, c.world)) := by
  have hinit : Sound.Holds (protocol j m) (fun w phases _ => Inv j m w phases) ⟨w, [], []⟩ := by
    refine ⟨⟨hunique, hlimited, ?_, ?_, ?_, ?_⟩, List.forall_mem_nil _⟩
    · intro stored hstored hjob
      obtain ⟨x, hx, rfl⟩ := List.mem_map.mp hstored
      exact hcounts x hx hjob
    · exact fun _ _ hread => absurd hread List.not_mem_nil
    · exact fun _ _ _ hmade => absurd hmade List.not_mem_nil
    · exact fun _ _ _ _ _ hmade => absurd hmade List.not_mem_nil
  obtain ⟨hinv, _⟩ := (sound_inv pool fromStr).invariant hrun hinit
  intro e he hjob below hnodup hbelow
  have hroot : ⟨e.id, j, e.retryCount⟩ ∈ signs c.world := hjob ▸ List.mem_map_of_mem he
  constructor
  · have hbound : below.length ≤ (m - count c.world e.id).toNat := by
      apply Lineage.length_le hinv.retried_unique hinv.count_retried hnodup hbelow
      intro b hb
      obtain ⟨n, hstored, hle⟩ := hinv.stored_of_descends (hbelow b hb)
      rw [count_eq hinv.unique hstored]
      exact hle
    have hcount : 0 ≤ count c.world e.id := by
      rw [count_eq hinv.unique hroot]
      exact hinv.counts _ hroot rfl
    omega
  · intro hlength last hlast hnone
    have hfull := hinv.full_of_last he hjob hnodup hbelow hlength hlast hnone
    obtain ⟨n, hstored⟩ : ∃ n, ⟨last, j, n⟩ ∈ signs c.world := by
      rcases Relation.reflTransGen_iff_eq_or_transGen.mp hlast with rfl | hlater
      · exact ⟨_, hroot⟩
      · obtain ⟨n, hstored, _⟩ := hinv.stored_of_descends hlater
        exact ⟨n, hstored⟩
    rw [count_eq hinv.unique hstored] at hfull
    obtain ⟨x, hx, hsign⟩ := List.mem_map.mp hstored
    cases hsign
    exact run_retryExecution_full _ fromStr (hinv.unique.lookup hx rfl) hinv.limited hfull

end

/-! ### A second retry -/

/-- `Good` as a test. -/
def check (c : Config Event World Phase) (i : Nat) (ev : Event) : Bool :=
  match c.tags[i]?, ev with
  | some (.read parent _), .sql (.createExecution _) =>
    c.tags.all fun phase => match phase with
      | .made first _ _ => first != parent
      | _ => true
  | _, _ => true

theorem good_of_check {c : Config Event World Phase} {i : Nat} {ev : Event} (h : check c i ev = true) :
    Good c i ev := by
  rintro parent count x hi rfl child n hmade
  simp only [check, hi, List.all_eq_true] at h
  simpa using h _ hmade

def onePool : WorkerPool := ⟨⟨1, 3⟩, none⟩

/-- A pool whose job is retried at most once. -/
def retriedOnce : System Event World Phase Call (Elsewhere 1 1) := system onePool (fun _ => none) 1 1

/-- No execution yet of the job. -/
def oneJob : Config Event World Phase := ⟨World.sample 1 [], [], []⟩

/-- An execution of the job is asked for, cancelled and retried. -/
def firstRetry : List (Choice Call (Elsewhere 1 1)) :=
  [.spawn (.executeJob 1 none)] ++ List.replicate 14 (.run 0) ++
    [.spawn (.cancel 1000)] ++ List.replicate 9 (.run 1) ++
    [.spawn (.retry 1000)] ++ List.replicate 15 (.run 2)

/-- It is retried again. -/
def secondRetry : List (Choice Call (Elsewhere 1 1)) := [.spawn (.retry 1000)] ++ List.replicate 14 (.run 3)

/-- Where every task is, and every execution of the job. -/
def summary (c : Config Event World Phase) : List Phase × List Sign := (c.tags, signs c.world)

theorem retries_bounded_once : ∃ c, retriedOnce.Run Good oneJob c ∧ Retried c 1000 1002 ∧
    ∃ error, (Api.retryExecution onePool.queueManager (fun _ => none) 1002).run c.world =
      some (.error error, c.world) := by
  have hexec : (retriedOnce.exec check firstRetry oneJob).map summary =
      some ([.plain, .plain, .made 1000 1002 1], [⟨1000, 1, 0⟩, ⟨1002, 1, 1⟩]) := by decide +kernel
  obtain ⟨c, hc, heq⟩ := Option.map_eq_some_iff.mp hexec
  obtain ⟨htags, hsigns⟩ := Prod.mk.inj heq
  have hrun := System.run_of_exec (fun _ _ _ => good_of_check) hc
  have hretried : Retried c 1000 1002 := by
    refine ⟨1, ?_⟩
    rw [htags]
    decide
  have hnone (b : Uuid) : ¬Retried c 1002 b := by
    rintro ⟨n, hmade⟩
    rw [htags] at hmade
    simp at hmade
  have hroot : ⟨1000, 1, 0⟩ ∈ signs c.world := by
    rw [hsigns]
    exact List.mem_cons_self
  obtain ⟨e, he, hsign⟩ := List.mem_map.mp hroot
  obtain ⟨hid, hjob, _⟩ := Sign.mk.inj hsign
  have hunique : Rows.Unique Execution.id (World.sample 1 []).db.executions := List.nodup_nil
  have hlimited : Limited 1 1 (World.sample 1 []) := by
    intro job hmem _
    rw [List.mem_singleton.mp hmem]
    rfl
  have hbelow : ∀ b ∈ [(1002 : Uuid)], Relation.TransGen (Retried c) e.id b := by
    intro b hb
    rw [List.mem_singleton.mp hb, hid]
    exact .single hretried
  have hlast : Relation.ReflTransGen (Retried c) e.id 1002 := hid ▸ .single hretried
  have hbounded := retries_bounded onePool (fun _ => none) hunique hlimited (List.forall_mem_nil _) hrun e he hjob
    [1002] (List.nodup_singleton _) hbelow
  exact ⟨c, hrun, hretried, hbounded.2 rfl 1002 hlast hnone⟩

/-- Two retries of one execution are accepted, although its job is retried at most once. -/
theorem second_retry_accepted : ¬∀ c, retriedOnce.Reaches oneJob c →
    ∀ e ∈ c.world.db.executions, e.jobId = 1 → ∀ below : List Uuid, below.Nodup →
      (∀ b ∈ below, Relation.TransGen (Retried c) e.id b) → below.length ≤ 1 := by
  intro hclaim
  have hexec : (retriedOnce.exec (fun _ _ _ => true) (firstRetry ++ secondRetry) oneJob).map summary =
      some ([.plain, .plain, .made 1000 1002 1, .made 1000 1004 1],
        [⟨1000, 1, 0⟩, ⟨1002, 1, 1⟩, ⟨1004, 1, 1⟩]) := by decide +kernel
  obtain ⟨c, hc, heq⟩ := Option.map_eq_some_iff.mp hexec
  obtain ⟨htags, hsigns⟩ := Prod.mk.inj heq
  have hroot : ⟨1000, 1, 0⟩ ∈ signs c.world := by
    rw [hsigns]
    exact List.mem_cons_self
  obtain ⟨e, he, hsign⟩ := List.mem_map.mp hroot
  obtain ⟨hid, hjob, _⟩ := Sign.mk.inj hsign
  have hbelow : ∀ b ∈ [(1002 : Uuid), 1004], Relation.TransGen (Retried c) e.id b := by
    intro b hb
    rw [hid]
    refine .single ⟨1, ?_⟩
    rw [htags]
    rcases List.mem_cons.mp hb with rfl | hb
    · decide
    · rw [List.mem_singleton.mp hb]
      decide
  have hle := hclaim c (System.reaches_of_exec hc) e he hjob [1002, 1004] (by decide) hbelow
  simp at hle

end RetryTree

end Serverust
