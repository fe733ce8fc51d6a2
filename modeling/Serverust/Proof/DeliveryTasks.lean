import Serverust.Model.Scheduler
import Serverust.Model.WorkerPool
import Serverust.Proof.Deliveries

/-!
# The tasks that queue and deliver executions

Each task of the process obeys the rules of deliveries: the handlers, the scheduler, the DAG engine, the
workers and the recovery.
-/

namespace Serverust

namespace Deliveries

open Calendar Resumption

variable {α : Type} {t : Tag}

/-! ### The callers -/

theorem advances_createAndEnqueue (qm : QueueManager) {jobId : Uuid} {x : Execution} {job : Job}
    (hx : Creates jobId x t) (hread : t.ReadJob job) (hjob : job.id = jobId ∨ job.id = x.jobId) {priority : Int}
    (hpriority : priority = t.origin.priority job) :
    Advances (fun _ _ => True) t (qm.enqueue (.new x job priority)) := by
  obtain ⟨hreadX, made, hmade, hid, rfl⟩ := hx
  exact advances_enqueue qm ⟨made, x, job, hmade, hreadX, hid, hread, hjob, hpriority ▸ rfl⟩

theorem advances_internal {context : String} {p : Async α} (h : Advances (fun _ _ => True) t p) :
    Advances (fun _ _ => True) t (Api.internal context p) := by
  apply h.attempt.bind
  rintro (_ | value) t₁ _ _
  · exact .throw
  · exact .pure trivial

theorem advances_executeJob (qm : QueueManager) (jobId : Uuid) (req : Option ExecuteJobRequest)
    (horigin : t.origin = .request (req.bind ExecuteJobRequest.priority)) :
    Advances (fun _ _ => True) t (Api.executeJob qm jobId req) := by
  apply (advances_createExecution jobId _).bind
  intro x t₁ h₁ hx
  apply (advances_getJob jobId).bind
  intro job t₂ h₂ hjob
  apply (advances_internal (advances_createAndEnqueue qm (hx.mono h₂) hjob.1 (.inl hjob.2) ?_)).bind
  · exact fun _ _ _ _ => .pure trivial
  · rw [(h₁.trans h₂).origin, horigin]
    rfl

theorem advances_retry (qm : QueueManager) (fromStr : String → Option JsonText.Value) (id : Uuid)
    (horigin : t.origin = .other) : Advances (fun _ _ => True) t (Api.retryExecution qm fromStr id) := by
  apply (advances_retryExecution fromStr id).bind
  rintro x t₁ h₁ ⟨jobId, hx⟩
  apply (advances_getJob x.jobId).bind
  intro job t₂ h₂ hjob
  apply (advances_internal (advances_createAndEnqueue qm (hx.mono h₂) hjob.1 (.inr hjob.2) ?_)).bind
  · exact fun _ _ _ _ => .pure trivial
  · rw [(h₁.trans h₂).origin, horigin]
    rfl

theorem advances_cancel (id : Uuid) : Advances (fun _ _ => True) t (Api.cancelExecution id) :=
  (advances_cancelExecution id).bind fun _ _ _ _ =>
    (advances_remove id).attempt.bind fun _ _ _ _ => .pure trivial

theorem advances_trigger (runner : SchedulerRunner) (schedule : JobSchedule) (horigin : t.origin = .other) :
    Advances (fun _ _ => True) t (runner.trigger schedule) := by
  apply (advances_getJob schedule.jobId).attempt.bind
  rintro (_ | job) t₁ h₁ hjob
  · exact .pure trivial
  dsimp only
  split
  · exact .pure trivial
  apply (advances_createExecution schedule.jobId none).attempt.bind
  rintro (_ | x) t₂ h₂ hx
  · exact .pure trivial
  obtain ⟨hread, hjobId⟩ := hjob job rfl
  apply (advances_createAndEnqueue runner.queueManager (hx x rfl) (hread.mono h₂) (.inl hjobId) ?_).attempt.bind
  · rintro (_ | _) t₃ _ _
    · exact .pure trivial
    apply advances_nowRfc3339.bind
    intro now t₄ _ _
    apply (advances_perform (fun _ => by trivial) fun u => .refl u).bind
    rintro (_ | next) t₅ _ _
    · exact .pure trivial
    have hmark : Advances (fun _ _ => True) t₅ (ScheduleRepository.markTriggered schedule.id now next) := by
      refine Task.Advances.bind (ψ := fun _ _ => True) (advances_write (fun _ _ => by trivial) ?_) fun _ _ _ _ =>
        .pure trivial
      intro u value db h
      cases h
      exact .of_db rfl rfl fun row hrow => ⟨row, hrow, rfl⟩
    exact hmark.attempt.bind fun _ _ _ _ => .pure trivial
  · rw [(h₁.trans h₂).origin, horigin]
    rfl

theorem advances_tick (runner : SchedulerRunner) (horigin : t.origin = .other) :
    Advances (fun _ _ => True) t runner.tick := by
  have hdue : Advances (fun _ _ => True) t ScheduleRepository.getDueSchedules := by
    apply advances_write (fun _ _ => by trivial)
    intro u value db h
    cases h
    exact .refl u
  apply hdue.bind
  intro schedules t₁ h₁ _
  exact Task.Advances.forM fun schedule _ t₂ h₂ => advances_trigger runner schedule ((h₁.trans h₂).origin.trans horigin)

/-! ### The DAG engine -/

theorem advances_startNode (engine : DagEngine) (node : DagNodeExecution) (horigin : t.origin = .other) :
    Advances (fun _ _ => True) t (engine.startNode node) := by
  have hfail (t : Tag) : Advances (fun _ _ => True) t (DagEngine.failNode node) :=
    advances_free (keeps_failNode tolerates toleratesDags node)
  apply (advances_getJob node.jobId).attempt.bind
  rintro (_ | job) t₁ h₁ hjob
  · exact hfail t₁
  apply (advances_createExecution node.jobId none).attempt.bind
  rintro (_ | x) t₂ h₂ hx
  · exact hfail t₂
  apply advances_nowRfc3339.bind
  intro now t₃ h₃ _
  apply (advances_free (keeps_updateNodeExecution tolerates toleratesDags _)).bind
  intro _ t₄ h₄ _
  obtain ⟨hread, hjobId⟩ := hjob job rfl
  have hlater := h₃.trans h₄
  apply (advances_createAndEnqueue engine.queueManager ((hx x rfl).mono hlater) (hread.mono (h₂.trans hlater))
    (.inl hjobId) ?_).attempt.bind
  · exact fun _ _ _ _ => .pure trivial
  · rw [(h₁.trans (h₂.trans hlater)).origin, horigin]
    rfl

theorem advances_advanceDagRun (engine : DagEngine) (runId : Uuid) (edges : List DagEdge) (dag : Dag)
    (horigin : t.origin = .other) : Advances (fun _ _ => True) t (engine.advanceDagRun runId edges dag) := by
  apply (advances_free (keeps_nodesOfRun tolerates toleratesDags runId)).bind
  intro nodes t₁ h₁ _
  exact Task.Advances.forM fun node _ t₂ h₂ => advances_startNode engine node ((h₁.trans h₂).origin.trans horigin)

theorem advances_triggerDag (engine : DagEngine) (dagId : Uuid) (triggerType : String) (horigin : t.origin = .other) :
    Advances (fun _ _ => True) t (engine.triggerDag dagId triggerType) := by
  apply (advances_free (keeps_getDag tolerates toleratesDags dagId)).bind
  intro dag t₁ h₁ _
  split
  · exact .throw
  apply (advances_free (keeps_readDag tolerates toleratesDags _ _)).bind
  intro edges t₂ h₂ _
  split
  · exact .throw
  split
  · exact .throw
  apply advances_newV4.bind
  intro runId t₃ h₃ _
  apply advances_nowRfc3339.bind
  intro createdAt t₄ h₄ _
  apply advances_nowRfc3339.bind
  intro startedAt t₅ h₅ _
  apply (advances_free (keeps_createRun tolerates toleratesDags _)).bind
  intro run t₆ h₆ _
  apply (Task.Advances.forM fun jobId _ t' _ =>
    advances_free (keeps_createNode tolerates toleratesDags run.id jobId)).bind
  intro _ t₇ h₇ _
  apply (advances_free (keeps_nodesOfRun tolerates toleratesDags run.id)).bind
  intro nodes t₈ h₈ _
  apply (Task.Advances.forM fun node _ t' _ => ?_).bind
  · intro _ t₉ h₉ _
    have hlater : t ≤ t₉ := h₁.trans (h₂.trans (h₃.trans (h₄.trans (h₅.trans (h₆.trans (h₇.trans (h₈.trans h₉)))))))
    apply (advances_advanceDagRun engine run.id edges dag (hlater.origin.trans horigin)).bind
    exact fun _ _ _ _ => advances_free (keeps_getRunById tolerates toleratesDags run.id)
  · exact (advances_free (keeps_updateNodeExecution tolerates toleratesDags _)).bind fun _ _ _ _ => .pure trivial

theorem advances_onExecutionComplete (engine : DagEngine) (executionId : Uuid) (horigin : t.origin = .other) :
    Advances (fun _ _ => True) t (engine.onExecutionComplete executionId) := by
  apply (advances_free (keeps_readDag tolerates toleratesDags _ _)).bind
  rintro (_ | node) t₁ h₁ _
  · exact .pure trivial
  apply (advances_getExecution executionId).bind
  intro x t₂ h₂ _
  apply advances_nowRfc3339.bind
  intro now t₃ h₃ _
  apply (advances_free (keeps_updateNodeExecution tolerates toleratesDags _)).bind
  intro _ t₄ h₄ _
  apply (advances_free (keeps_getRunById tolerates toleratesDags _)).bind
  intro run t₅ h₅ _
  apply (advances_free (keeps_updateRun tolerates toleratesDags _)).bind
  intro _ t₆ h₆ _
  apply (advances_free (keeps_getDag tolerates toleratesDags _)).bind
  intro dag t₇ h₇ _
  apply (advances_free (keeps_readDag tolerates toleratesDags _ _)).bind
  intro edges t₈ h₈ _
  split
  · exact advances_free (keeps_stopRun tolerates toleratesDags run.id)
  · have hlater : t ≤ t₈ := h₁.trans (h₂.trans (h₃.trans (h₄.trans (h₅.trans (h₆.trans (h₇.trans h₈))))))
    apply (advances_advanceDagRun engine run.id edges dag (hlater.origin.trans horigin)).bind
    exact fun _ _ _ _ => advances_free (keeps_finishRun tolerates toleratesDags run.id)

/-! ### The worker -/

theorem advances_log (execId : Uuid) (logType : LogType) (content : String) :
    Advances (fun _ _ => True) t (WorkerPool.log execId logType content) :=
  advances_free (keeps_log tolerates execId logType content)

theorem advances_logOutput (execId : Uuid) (logType : LogType) (content : String) :
    Advances (fun _ _ => True) t (WorkerPool.logOutput execId logType content) :=
  advances_free (keeps_logOutput tolerates execId logType content)

theorem advances_writeOutcome (execId : Uuid) (result : ExecutionResult) :
    Advances (fun _ _ => True) t (WorkerPool.writeOutcome execId result) := by
  have hfinish (t : Tag) : Advances (fun _ _ => True) t (WorkerPool.writeOutcome.finish execId result) := by
    have hfinal : Advances (fun _ _ => True) t (WorkerPool.finalizeExecution execId result.outcome.1
        result.outcome.2 (if result.success then some result.stdout else none)) := by
      apply (advances_getExecution execId).bind
      intro x t₁ _ _
      apply advances_nowRfc3339.bind
      exact fun now t₂ _ _ => (advances_updateExecution _).bind fun _ _ _ _ => .pure trivial
    exact hfinal.attempt.bind fun _ _ _ _ => .pure trivial
  apply (advances_getExecution execId).attempt.bind
  rintro (_ | x) t₁ _ _
  · exact hfinish t₁
  · dsimp only
    split
    · exact .pure trivial
    · exact hfinish t₁

theorem advances_updateQueueEntry (pool : WorkerPool) (execId : Uuid) (status : ExecutionStatus) :
    Advances (fun _ _ => True) t (pool.updateQueueEntry execId status) := by
  have hcount (t : Tag) : Advances (fun _ _ => True) t (WorkerPool.retryCountOf execId) := by
    apply (advances_getExecution execId).attempt.bind
    rintro (_ | x) t₁ _ _
    · exact .pure trivial
    · exact .pure trivial
  have hmax (t : Tag) : Advances (fun _ _ => True) t (WorkerPool.maxRetriesOf execId) := by
    apply (advances_getExecution execId).attempt.bind
    rintro (_ | x) t₁ _ _
    · exact .pure trivial
    · apply (advances_getJob x.jobId).attempt.bind
      rintro (_ | job) t₂ _ _
      · exact .pure trivial
      · exact .pure trivial
  unfold WorkerPool.updateQueueEntry
  split
  · exact (advances_markEntry _ execId).attempt.bind fun _ _ _ _ => .pure trivial
  · apply (hcount t).bind
    intro count t₁ _ _
    apply (hmax t₁).bind
    intro max t₂ _ _
    exact (advances_markFailedWithRetry pool.queueManager execId count max).attempt.bind fun _ _ _ _ => .pure trivial

theorem advances_process (pool : WorkerPool) (workerId : Nat) (execId : Uuid) (result : ExecutionResult)
    (horigin : t.origin = .other) : Advances (fun _ _ => True) t (pool.process workerId execId result) := by
  have hrunning (t : Tag) (worker : String) :
      Advances (fun _ _ => True) t (WorkerPool.setExecutionRunning execId worker) := by
    apply (advances_getExecution execId).bind
    intro x t₁ _ _
    apply advances_nowRfc3339.bind
    exact fun now t₂ _ _ => (advances_updateExecution _).bind fun _ _ _ _ => .pure trivial
  have hturn {event : Event} (hplain : Plain event) (t : Tag) :
      Advances (fun _ _ => True) t (perform (fun _ => event) fun w => ((), w)) :=
    advances_perform (fun _ => hplain) fun u => .refl u
  apply (hrunning t _).attempt.bind
  rintro (_ | _) t₁ h₁ _
  · exact (advances_markEntry _ execId).attempt.bind fun _ _ _ _ => .pure trivial
  have hexecute (t : Tag) : Advances (fun _ _ => True) t (WorkerPool.executeItem execId result) := by
    apply (advances_log execId .system _).bind
    intro _ t₁ _ _
    apply (advances_logOutput execId .stdout _).bind
    intro _ t₂ _ _
    apply (advances_logOutput execId .stderr _).bind
    exact fun _ t₃ _ _ => hturn (by trivial) t₃
  apply (hexecute t₁).bind
  intro _ t₂ h₂ _
  apply (advances_writeOutcome execId result).bind
  intro _ t₃ h₃ _
  apply (advances_updateQueueEntry pool execId result.outcome.1).bind
  intro _ t₄ h₄ _
  apply (hturn (by trivial) t₄).bind
  intro _ t₅ h₅ _
  have hlater : t ≤ t₅ := h₁.trans (h₂.trans (h₃.trans (h₄.trans h₅)))
  have hcallback : Advances (fun _ _ => True) t₅ (pool.dagCallback execId) := by
    unfold WorkerPool.dagCallback
    split
    · rename_i engine _
      apply (advances_onExecutionComplete engine execId (hlater.origin.trans horigin)).attempt.bind
      exact fun _ _ _ _ => .pure trivial
    · exact .pure trivial
  apply hcallback.bind
  exact fun _ t₆ _ _ => advances_log execId .system _

theorem advances_pass (pool : WorkerPool) (workerId : Nat) (result : QueueItem → ExecutionResult)
    (horigin : t.origin = .other) : Advances (fun _ _ => True) t (pool.pass workerId result) := by
  apply advances_dequeue.attempt.bind
  rintro (_ | _ | item) t₁ h₁ _
  · exact .pure trivial
  · exact .pure trivial
  · exact advances_process pool workerId item.executionId (result item) (h₁.origin.trans horigin)

end Deliveries

end Serverust
