import Serverust.Proof.Orphans

/-!
# The tasks that create and run executions

Each task pays what it owes before it returns, as long as no statement fails in between: the handlers,
the scheduler, the DAG engine, the workers, the tasks that queue an execution again and the recovery.
-/

namespace Serverust

namespace Orphans

open Calendar Resumption

variable {α : Type} {t : Phase} {w : World} {e : Uuid}

/-- The task is clear at the end. -/
abbrev Clears (p : Async α) (t : Phase) (w : World) : Prop := Tends (fun _ t' _ => t' = .clear) p t w

theorem clears_then {β : Type} {p : Async β} {value : α} (h : Clears p t w) :
    Clears (p >>= fun _ => pure value) t w := by
  apply h.bind
  rintro _ _ s _ rfl
  exact .pure rfl

theorem clears_attempt {β : Type} {p : Async β} {value : α} (h : Clears p t w) :
    Clears (p.attempt >>= fun _ => pure value) t w := by
  apply h.attempt.bind
  rintro (_ | _) _ s _ rfl
  · exact .pure rfl
  · exact .pure rfl

/-! ### Creating an execution -/

/-- The task owes an entry to this execution. -/
structure Owes (x : Execution) (t : Phase) (db : Db) : Prop where
  phase : t = .owes x.id
  stored : Stored x.id db
  job : HasJob x.jobId db

theorem Owes.mono {x : Execution} {db db' : Db} (h : Owes x t db) (hgrows : Grows db db') : Owes x t db' :=
  ⟨h.phase, hgrows.stored _ h.stored, hgrows.jobs _ h.job⟩

theorem tends_create (x : Execution) : Tends (fun y t' s => Owes y t' s.db ∧ HasJob x.jobId s.db)
    (ExecutionRepository.create x) .clear w := by
  have hinsert : Tends (fun _ t' s => t' = .owes x.id ∧ Stored x.id s.db ∧ HasJob x.jobId s.db)
      (sql (fun _ _ => .createExecution x) fun _ => ExecutionRepository.insertExecution x) .clear w := by
    apply leads_sql (by simp)
    · intro u value db _ _ h
      unfold ExecutionRepository.insertExecution at h
      split at h
      · cases h
      rename_i hnew
      split at h
      · cases h
      rename_i hhits
      cases h
      have hjob : HasJob x.jobId u.db := Rows.hits_ne_zero.mp hhits
      exact ⟨.create x (Rows.hits_eq_zero.mp (not_not.mp hnew)) hjob, rfl,
        ⟨x, List.mem_append_right _ (List.mem_singleton_self x), rfl⟩, hjob⟩
    · exact fun _ _ _ _ => rfl
  apply hinsert.bind
  rintro _ _ s _ ⟨rfl, hstored, hjob⟩
  apply (tends_getExecution (by simp) (.inr hstored)).mono
  · rintro y _ s' hgrows ⟨rfl, hid, hfound, hhas⟩
    exact ⟨⟨by rw [hid], hid ▸ hfound, hhas⟩, hgrows.jobs _ hjob⟩
  · exact fun _ _ _ _ h => h

theorem tends_updateJob (job : Job) :
    Clears (JobRepository.update job) .clear w := by
  have hwrite : Clears (sql (fun _ _ => .updateJob job) fun _ => JobRepository.writeJob job) .clear w := by
    apply leads_sql (by simp)
    · intro u value db _ _ h
      obtain ⟨-, rfl⟩ := JobRepository.writeJob_ok h
      refine ⟨.steady trivial ⟨fun id hjob => ?_, .of_eq rfl, rfl, fun x hx hstatus => ⟨x, hx, rfl, hstatus⟩, rfl,
        fun _ h => .inl h, fun _ h => .inl h⟩, rfl⟩
      obtain ⟨row, hrow, rfl⟩ := hjob
      refine ⟨_, Rows.mem_modify.mpr ⟨row, hrow, rfl⟩, ?_⟩
      split <;> rfl
    · exact fun _ _ _ _ => rfl
  apply hwrite.bind
  rintro affected _ s _ rfl
  split
  · exact .throw rfl
  · exact (tends_getJob (by simp) (.inl rfl)).mono (fun _ _ _ _ h => h.1) fun _ _ _ _ h => h

theorem tends_insertNew (jobId : Uuid) (inputData : Option String) (retryCount : Int) :
    Tends (fun y t' s => Owes y t' s.db ∧ HasJob jobId s.db) (do
      let now ← nowRfc3339
      let id ← newV4
      ExecutionRepository.create { Execution.new id jobId inputData now with retryCount := retryCount })
      .clear w := by
  apply tends_now.bind
  rintro now _ s _ rfl
  apply tends_newV4.bind
  rintro id _ s' _ rfl
  exact tends_create _

theorem tends_createExecution (jobId : Uuid) (inputData : Option String) :
    Tends (fun y t' s => Owes y t' s.db ∧ HasJob jobId s.db)
      (ExecutionService.createExecution jobId inputData) .clear w := by
  apply (tends_getJob (by simp) (.inl rfl)).bind
  rintro job _ s _ ⟨rfl, _⟩
  split
  · apply tends_now.bind
    rintro now _ s₁ _ rfl
    apply (tends_updateJob _).bind
    rintro _ _ s₂ _ rfl
    exact tends_insertNew jobId inputData 0
  · exact tends_insertNew jobId inputData 0

theorem tends_retryExecution (fromStr : String → Option JsonText.Value) (id : Uuid) :
    Tends (fun y t' s => Owes y t' s.db) (ExecutionService.retryExecution fromStr id) .clear w := by
  apply (tends_getExecution (by simp) (.inl rfl)).bind
  rintro execution _ s _ ⟨rfl, _⟩
  have hretry : Tends (fun y t' s => Owes y t' s.db) (do
      let job ← JobRepository.getById execution.jobId
      if job.maxRetries ≤ execution.retryCount then
        Task.throw (.badRequest
          ("Execution has reached maximum retry count (" ++ toString job.maxRetries ++ ")"))
      else
        let inputData := (execution.inputData.bind fromStr).map jsonText
        let now ← nowRfc3339
        let newId ← newV4
        ExecutionRepository.create
          { Execution.new newId execution.jobId inputData now with retryCount := execution.retryCount + 1 })
      .clear s := by
    apply (tends_getJob (by simp) (.inl rfl)).bind
    rintro job _ s₁ _ ⟨rfl, _⟩
    split
    · exact .throw rfl
    · exact (tends_insertNew _ _ _).mono (fun _ _ _ _ h => h.1) fun _ _ _ _ h => h
  split
  · exact hretry
  · exact hretry
  · exact hretry
  · exact .throw rfl

/-! ### Queueing an execution -/

theorem tends_pushIfRoom (qm : QueueManager) {item : QueueItem} (hstored : Stored item.executionId w.db) :
    Clears (qm.pushIfRoom item) .clear w := by
  apply tends_queueLen.bind
  rintro len _ s hgrows rfl
  split
  · apply leads_perform
    intro u hgrows' _
    refine ⟨.steady trivial (.of_tables rfl rfl rfl (.of_eq rfl) fun other hother => ?_), rfl⟩
    rcases MaxHeap.mem_push.mp hother with rfl | hold
    · exact .inr (hgrows'.stored _ (hgrows.stored _ hstored))
    · exact .inl hold
  · exact .pure rfl

/-- A program in a section that ends with the release of the mutex. -/
theorem tends_locked {body : Async α} (hbody : ∀ s, Grows w.db s.db → Clears body t s) :
    Clears (withLock (fun _ => .unlock) body) t w := by
  apply tends_withLock hbody
  · exact fun _ t' => by cases t' <;> trivial
  · exact fun _ => rfl
  · rintro _ _ _ _ rfl _
    rfl

/-- The caller that has created the execution queues it. -/
theorem tends_enqueue (qm : QueueManager) {item : QueueItem} (hstored : Stored item.executionId w.db) :
    Clears (qm.enqueue item) (.owes item.executionId) w := by
  apply tends_locked
  intro s hgrows
  apply tends_newV4.bind
  rintro id _ s₁ h₁ rfl
  apply tends_now.bind
  rintro now _ s₂ h₂ rfl
  have hnow : Stored item.executionId s₂.db := (hgrows.trans (h₁.trans h₂)).stored _ hstored
  have hinsert : Clears
      (QueueRepository.enqueue (.new id item.executionId item.jobId item.priority now))
      (.owes item.executionId) s₂ := by
    apply clears_then
    apply leads_sql (by simp) _ fun _ _ _ _ => rfl
    intro u value db hgrows' _ h
    obtain ⟨heq, hnew, _⟩ := insertEntry_ok h
    cases heq
    exact ⟨.enqueue _ rfl (Rows.hits_eq_zero.mp hnew) (hgrows'.stored _ hnow), rfl⟩
  apply hinsert.bind
  rintro _ _ s₃ h₃ rfl
  exact tends_pushIfRoom qm (h₃.stored _ hnow)

theorem tends_internal {context : String} {p : Async α} (h : Clears p t w) :
    Clears (Api.internal context p) t w := by
  apply h.attempt.bind
  rintro (_ | value) _ s _ hclear
  · obtain rfl := hclear
    exact .throw rfl
  · obtain rfl := hclear
    exact .pure rfl

/-- The item of an execution that the task owes an entry to. -/
theorem Owes.enqueue {x : Execution} (h : Owes x t w.db) (qm : QueueManager) (job : Job) (priority : Int) :
    Clears (qm.enqueue (.new x job priority)) t w := by
  obtain ⟨rfl, hstored, _⟩ := h
  have hitem : Stored (QueueItem.new x job priority).executionId w.db := hstored
  exact tends_enqueue qm hitem

/-! ### Handlers and scheduler -/

theorem tends_executeJob (qm : QueueManager) (jobId : Uuid) (req : Option ExecuteJobRequest) :
    Clears (Api.executeJob qm jobId req) .clear w := by
  apply (tends_createExecution jobId _).bind
  rintro x t₁ s _ ⟨howes, hjob⟩
  have hphase : t₁ ≠ .ended := by simp [howes.phase]
  apply (tends_getJob hphase (.inr hjob)).bind
  rintro job _ s₁ h₁ ⟨rfl, _⟩
  exact clears_then (tends_internal ((howes.mono h₁).enqueue qm job _))

theorem tends_retry (qm : QueueManager) (fromStr : String → Option JsonText.Value) (id : Uuid) :
    Clears (Api.retryExecution qm fromStr id) .clear w := by
  apply (tends_retryExecution fromStr id).bind
  rintro x t₁ s _ howes
  have hphase : t₁ ≠ .ended := by simp [howes.phase]
  apply (tends_getJob hphase (.inr howes.job)).bind
  rintro job _ s₁ h₁ ⟨rfl, _⟩
  exact clears_then (tends_internal ((howes.mono h₁).enqueue qm job _))

theorem tends_schedule {stmt : Db → α → ScheduleStmt} {statement : DateTime → Db → Except SqlError (α × Db)}
    (hsame : ∀ now db value db', statement now db = .ok (value, db') → ∃ rows, db' = { db with jobSchedules := rows }) :
    Clears (sql (fun db value => .schedule (stmt db value)) statement) .clear w := by
  apply leads_sql (by simp)
  · intro u value db _ _ h
    obtain ⟨rows, rfl⟩ := hsame _ _ _ _ h
    exact ⟨.steady trivial (.of_tables rfl rfl rfl (.of_eq rfl) fun _ h => .inl h), rfl⟩
  · exact fun _ _ _ _ => rfl

theorem tends_trigger (runner : SchedulerRunner) (schedule : JobSchedule) :
    Clears (runner.trigger schedule) .clear w := by
  apply (tends_getJob (by simp) (.inl rfl)).attempt.bind
  rintro (_ | job) t₁ s _ hjob
  · exact .pure hjob
  obtain ⟨rfl, _⟩ := hjob
  dsimp only
  split
  · exact .pure rfl
  apply (tends_createExecution schedule.jobId none).attempt.bind
  rintro (_ | x) t₂ s₁ _ hx
  · exact .pure hx
  apply (hx.1.enqueue runner.queueManager job job.priority).attempt.bind
  rintro (_ | _) t₃ s₂ _ rfl
  · exact .pure rfl
  apply tends_now.bind
  rintro now _ s₃ _ rfl
  have hnext : Clears (perform (fun _ => .quiet) fun w =>
      (SchedulerRunner.nextRun runner.cron schedule.cronExpression w.now, w)) .clear s₃ :=
    tends_local (fun _ => ⟨trivial, rfl⟩) fun _ => ⟨rfl, rfl⟩
  apply hnext.bind
  rintro (_ | next) _ s₄ _ rfl
  · exact .pure rfl
  have hmark : Clears (ScheduleRepository.markTriggered schedule.id now next) .clear s₄ := by
    apply (tends_schedule ?_).bind
    · rintro _ _ s₅ _ rfl
      exact .pure rfl
    · intro now db value db' h
      cases h
      exact ⟨_, rfl⟩
  exact clears_attempt hmark

theorem tends_tick (runner : SchedulerRunner) : Clears runner.tick .clear w := by
  have hdue : Clears ScheduleRepository.getDueSchedules .clear w := by
    apply tends_schedule
    intro now db value db' h
    cases h
    exact ⟨_, rfl⟩
  apply hdue.bind
  rintro schedules _ s _ rfl
  exact Task.Leads.forM fun schedule _ s' _ => tends_trigger runner schedule

/-! ### The DAG engine -/

theorem clear_of_keeps {p : Async α} (h : Task.Keeps protocol (fun _ => True) .clear p) :
    Clears p .clear w :=
  (tends_of_keeps h).mono (fun _ _ _ _ h => h.1) fun _ _ _ _ h => h

theorem tends_updateNode (ht : t ≠ .ended) {node : DagNodeExecution} (hnode : t = .clear ∨ HasNode node.id w.db) :
    Tends (fun _ t' _ => t' = t) (DagRepository.updateNodeExecution node) t w := by
  have hwrite : Tends (fun _ t' s => t' = t ∧ (t = .clear ∨ HasNode node.id s.db))
      (sql (fun _ _ => .dag (.updateNode node)) fun _ => DagRepository.writeNode node) t w := by
    apply leads_sql ht
    · intro u value db hgrows _ h
      unfold DagRepository.writeNode at h
      split at h
      · cases h
      cases h
      let written (row : DagNodeExecution) : DagNodeExecution := { row with
        executionId := node.executionId, status := node.status, startedAt := node.startedAt
        completedAt := node.completedAt }
      have hwritten : ∀ row, (written row).id = row.id := fun _ => rfl
      have hnodes : u.db.KeepsNodes { u.db with
          dagNodeExecutions := Rows.modify DagNodeExecution.id node.id written u.db.dagNodeExecutions } :=
        keepsNodes_modify node.id hwritten
      refine ⟨.steady (by cases t <;> trivial) (.of_tables rfl rfl rfl hnodes fun _ h => .inl h),
        by cases t <;> rfl, hnode.imp_right fun hstored => ?_⟩
      obtain ⟨row, hrow, hid⟩ := hgrows.nodes _ hstored
      obtain ⟨kept, hkept, hkeptId⟩ := hnodes row hrow
      exact ⟨kept, hkept, hkeptId.trans hid⟩
    · exact fun _ _ _ _ => rfl
  apply hwrite.bind
  rintro _ t s _ ⟨rfl, hnode⟩
  have hread : Reads (fun row t' _ => t' = t ∧ (row = none → t = .clear))
      (select (fun _ => .other) fun db => Rows.lookup DagNodeExecution.id node.id db.dagNodeExecutions) t s := by
    apply reads_select ht
    · intro value
      cases t <;> exact ⟨trivial, rfl⟩
    · intro u hgrows _
      refine ⟨rfl, fun hnone => hnode.resolve_right fun hstored => ?_⟩
      obtain ⟨row, hrow, hid⟩ := hgrows.nodes _ hstored
      exact Rows.lookup_eq_none.mp hnone row hrow hid
  apply hread.tends.bind
  rintro row t s' _ ⟨rfl, hnone⟩
  exact (reads_okOr hnone fun _ _ => rfl).tends

theorem tends_startNode (engine : DagEngine) {node : DagNodeExecution} (hnode : HasNode node.id w.db) :
    Clears (engine.startNode node) .clear w := by
  have hfail (s : World) : Clears (DagEngine.failNode node) .clear s :=
    clear_of_keeps (keeps_failNode tolerates_clear toleratesDags_clear node)
  apply (tends_getJob (by simp) (.inl rfl)).attempt.bind
  rintro (_ | job) t₁ s h₁ hjob
  · obtain rfl := hjob
    exact hfail s
  obtain ⟨rfl, _⟩ := hjob
  apply (tends_createExecution node.jobId none).attempt.bind
  rintro (_ | x) t₂ s₁ h₂ hx
  · obtain rfl := hx
    exact hfail s₁
  have hphase : t₂ ≠ .ended := by simp [hx.1.phase]
  apply tends_now.bind
  rintro now _ s₂ h₃ rfl
  have hlater : Grows w.db s₂.db := h₁.trans (h₂.trans h₃)
  refine Task.Leads.bind (tends_updateNode hphase (.inr (hlater.nodes _ hnode))) ?_
  rintro _ _ s₃ h₄ rfl
  exact clears_attempt ((hx.1.mono (h₃.trans h₄)).enqueue engine.queueManager job job.priority)

/-- Reading the nodes of a run, which are then known to be stored. -/
theorem tends_nodesOfRun (runId : Uuid) :
    Tends (fun nodes t' s => t' = .clear ∧ ∀ node ∈ nodes, HasNode node.id s.db)
      (DagRepository.getNodeExecutionsByRunId runId) .clear w := by
  apply Reads.tends
  apply reads_select
  · simp
  · exact fun _ => ⟨trivial, rfl⟩
  · intro u _ _
    refine ⟨rfl, fun node hnode => ⟨node, ?_, rfl⟩⟩
    exact (List.mem_filter.mp ((List.mem_insertionSort _).mp hnode)).1

theorem tends_advanceDagRun (engine : DagEngine) (runId : Uuid) (edges : List DagEdge) (dag : Dag) :
    Clears (engine.advanceDagRun runId edges dag) .clear w := by
  apply (tends_nodesOfRun runId).bind
  rintro nodes _ s _ ⟨rfl, hnodes⟩
  apply Task.Leads.forM
  intro node hnode s' hgrows
  have hlisted : node ∈ nodes := List.mem_of_mem_filter (List.mem_of_mem_take hnode)
  exact tends_startNode engine (hgrows.nodes _ (hnodes node hlisted))

theorem tends_triggerDag (engine : DagEngine) (dagId : Uuid) (triggerType : String) :
    Clears (engine.triggerDag dagId triggerType) .clear w := by
  apply (clear_of_keeps (keeps_getDag tolerates_clear toleratesDags_clear dagId)).bind
  rintro dag _ s _ rfl
  split
  · exact .throw rfl
  apply (clear_of_keeps (keeps_readDag tolerates_clear toleratesDags_clear _ _)).bind
  rintro edges _ s₁ _ rfl
  split
  · exact .throw rfl
  split
  · exact .throw rfl
  apply tends_newV4.bind
  rintro runId _ s₂ _ rfl
  apply tends_now.bind
  rintro createdAt _ s₃ _ rfl
  apply tends_now.bind
  rintro startedAt _ s₄ _ rfl
  apply (clear_of_keeps (keeps_createRun tolerates_clear toleratesDags_clear _)).bind
  rintro run _ s₅ _ rfl
  apply (clear_of_keeps (Task.Keeps.forM fun jobId _ =>
    keeps_createNode tolerates_clear toleratesDags_clear run.id jobId)).bind
  rintro _ _ s₆ _ rfl
  apply (tends_nodesOfRun run.id).bind
  rintro nodes _ s₇ _ ⟨rfl, _⟩
  apply (clear_of_keeps (Task.Keeps.forM fun node _ =>
    (keeps_updateNodeExecution tolerates_clear toleratesDags_clear _).bind fun _ _ => .pure trivial)).bind
  rintro _ _ s₈ _ rfl
  apply (tends_advanceDagRun engine run.id edges dag).bind
  rintro _ _ s₉ _ rfl
  exact clear_of_keeps (keeps_getRunById tolerates_clear toleratesDags_clear run.id)

theorem tends_onExecutionComplete (engine : DagEngine) (executionId : Uuid) :
    Clears (engine.onExecutionComplete executionId) .clear w := by
  apply (clear_of_keeps (keeps_readDag tolerates_clear toleratesDags_clear _ _)).bind
  rintro (_ | node) _ s _ rfl
  · exact .pure rfl
  apply (tends_getExecution (by simp) (.inl rfl)).bind
  rintro x _ s₁ _ ⟨rfl, _⟩
  apply tends_now.bind
  rintro now _ s₂ _ rfl
  apply (tends_updateNode (by simp) (.inl rfl)).bind
  rintro _ _ s₃ _ rfl
  apply (clear_of_keeps (keeps_getRunById tolerates_clear toleratesDags_clear _)).bind
  rintro run _ s₄ _ rfl
  apply (clear_of_keeps (keeps_updateRun tolerates_clear toleratesDags_clear _)).bind
  rintro _ _ s₅ _ rfl
  apply (clear_of_keeps (keeps_getDag tolerates_clear toleratesDags_clear _)).bind
  rintro dag _ s₆ _ rfl
  apply (clear_of_keeps (keeps_readDag tolerates_clear toleratesDags_clear _ _)).bind
  rintro edges _ s₇ _ rfl
  split
  · exact clear_of_keeps (keeps_stopRun tolerates_clear toleratesDags_clear run.id)
  · apply (tends_advanceDagRun engine run.id edges dag).bind
    rintro _ _ s₈ _ rfl
    exact clear_of_keeps (keeps_finishRun tolerates_clear toleratesDags_clear run.id)

/-! ### Entries -/

/-- The row of an execution that is known to be stored is found, and so is that of its job. -/
theorem reads_fetchItem (priority : Job → Int) (ht : t ≠ .ended) (hstored : t = .clear ∨ Stored e w.db) :
    Reads (fun r t' s => t' = t ∧ (r = none → t = .clear) ∧ ∀ item, r = some item → Stored item.executionId s.db)
      (QueueManager.fetchItem e priority) t w := by
  apply (reads_getExecution ht hstored).attempt.bind
  rintro (_ | x) t' s _ hx
  · obtain ⟨hclear, rfl⟩ := hx
    exact .pure ⟨hclear.symm, fun _ => hclear, nofun⟩
  obtain ⟨rfl, hid, hfound, hjob⟩ := hx
  apply (reads_getJob ht (.inr hjob)).attempt.bind
  rintro (_ | job) t'' s₁ h₁ hread
  · obtain ⟨hclear, rfl⟩ := hread
    exact .pure ⟨hclear.symm, fun _ => hclear, nofun⟩
  obtain ⟨rfl, _⟩ := hread
  refine .pure ⟨rfl, nofun, ?_⟩
  rintro _ ⟨⟩
  subst hid
  exact h₁.stored _ hfound

theorem tends_fetchItem (priority : Job → Int) :
    Tends (fun r t' s => t' = .clear ∧ ∀ item, r = some item → Stored item.executionId s.db)
      (QueueManager.fetchItem e priority) .clear w := by
  apply (reads_fetchItem priority (by simp) (.inl rfl)).mono
  · exact fun _ _ _ _ h => ⟨h.1, h.2.2⟩
  · exact fun _ _ _ _ h => h.2

theorem tends_getByExecution :
    Tends (fun row t' s => t' = .clear ∧ ∀ entry, row = some entry → HasEntry entry.id e s.db)
      (QueueRepository.getByExecution e) .clear w := by
  apply Reads.tends
  apply reads_select
  · simp
  · exact fun _ => ⟨trivial, rfl⟩
  · intro u _ _
    exact ⟨rfl, fun entry hentry => ⟨entry, Rows.mem_of_lookup hentry, rfl, Rows.column_of_lookup hentry⟩⟩

/-- A write back ends the entry only if its execution has run. -/
theorem tends_updateEntry {entry : QueueEntry} (h : (entry.status = .processing ∨ entry.status = .queued) ∨
    Ran e w.db ∧ HasEntry entry.id e w.db) :
    Clears (QueueRepository.update entry) .clear w := by
  apply clears_then
  apply leads_sql (by simp) _ fun _ _ _ _ => rfl
  intro u value db hgrows hwhole hquery
  cases hquery
  refine ⟨.steady trivial ?_, rfl⟩
  rcases h with hactive | ⟨hran, hentry⟩
  · exact .of_modify (fun _ => rfl) fun _ => hactive
  · have howner : ∀ row : QueueEntry, owner { row with
        status := entry.status, startedAt := entry.startedAt, completedAt := entry.completedAt } = owner row :=
      fun _ => rfl
    apply Steady.of_queue (Rows.map_modify howner _ _)
    rintro e' ⟨row, hrow, hid, hactive⟩
    by_cases hsame : row.id = entry.id
    · -- The only row with this id is that of the execution.
      obtain ⟨known, hknown, hknownId, heq⟩ := hgrows.entries _ _ hentry
      have hrowEq := hwhole.unique.eq_of_column hrow hknown (hsame.trans hknownId.symm)
      right
      rw [← hid, hrowEq, heq]
      exact hgrows.ran _ hran
    · exact .inl ⟨row, Rows.mem_modify_of_ne hrow hsame, hid, hactive⟩

theorem tends_markEntry {mark : QueueEntry → String → QueueEntry} {status : QueueStatus} (hmark : Marks mark status)
    (h : (status = .processing ∨ status = .queued) ∨ Ran e w.db) :
    Clears (QueueManager.markEntry mark e) .clear w := by
  apply tends_getByExecution.bind
  rintro (_ | entry) _ s h₁ ⟨rfl, hentry⟩
  · exact .pure rfl
  apply tends_now.bind
  rintro now _ s₁ h₂ rfl
  have hends : ((mark entry now).status = .processing ∨ (mark entry now).status = .queued) ∨
      Ran e s₁.db ∧ HasEntry (mark entry now).id e s₁.db := by
    rw [hmark.status, hmark.id]
    exact h.imp_right fun hran => ⟨h₂.ran _ (h₁.ran _ hran), h₂.entries _ _ (hentry entry rfl)⟩
  exact clears_then (tends_updateEntry hends)

theorem tends_dequeueAtomic : Tends (fun row t' s => match row with
    | some entry => t' = .holds ∧ Stored entry.executionId s.db
    | none => t' = .clear) QueueRepository.dequeueAtomic .clear w := by
  apply leads_sql (by simp)
  · intro u row db _ hwhole h
    obtain ⟨hrow, rfl⟩ : row = (QueueRepository.takeFirst u.now u.db.jobQueue).1 ∧
        db = { u.db with jobQueue := (QueueRepository.takeFirst u.now u.db.jobQueue).2 } := by
      cases h
      exact ⟨rfl, rfl⟩
    have hsteady : Steady u { u with db := { u.db with
        jobQueue := (QueueRepository.takeFirst u.now u.db.jobQueue).2 } } := by
      unfold QueueRepository.takeFirst
      split
      · exact .of_tables rfl rfl rfl (.of_eq rfl) fun _ h => .inl h
      · exact .of_modify (fun _ => rfl) fun _ => .inl rfl
    refine ⟨.steady trivial hsteady, ?_⟩
    have hmem : ∀ entry, (QueueRepository.takeFirst u.now u.db.jobQueue).1 = some entry →
        entry ∈ (QueueRepository.takeFirst u.now u.db.jobQueue).2 := by
      unfold QueueRepository.takeFirst
      split
      · exact nofun
      · exact fun entry hentry => Rows.mem_of_lookup hentry
    cases row with
    | none => rfl
    | some entry => exact ⟨rfl, (hsteady.whole hwhole).linked.entry entry (hmem entry hrow.symm)⟩
  · exact fun _ _ _ _ => rfl

/-- An item that a dequeue returns. -/
def Delivers (r : Option QueueItem) (t : Phase) (s : World) : Prop :=
  match r with
  | some item => (t = .clear ∨ t = .holds) ∧ Stored item.executionId s.db
  | none => t = .clear

theorem tends_dequeueOverflow : Tends Delivers QueueManager.dequeueOverflow .clear w := by
  apply tends_dequeueAtomic.bind
  rintro (_ | entry) t' s _ htaken
  · exact .pure htaken
  obtain ⟨rfl, hstored⟩ := htaken
  apply (reads_fetchItem (fun _ => entry.priority) (by simp) (.inr hstored)).tends.bind
  rintro (_ | item) t' s₁ _ ⟨rfl, hnone, hsome⟩
  · exact absurd (hnone rfl) (by simp)
  · exact .pure ⟨.inr rfl, hsome item rfl⟩

/-- What a worker has after a dequeue. -/
def Takes (r : Option QueueItem) (t : Phase) (s : World) : Prop :=
  match r with
  | some item => t = .holds ∧ Stored item.executionId s.db
  | none => t = .clear

theorem Delivers.takes {r : Option QueueItem} {s s' : World} (h : Delivers r t s) (hgrows : Grows s.db s'.db) :
    Takes r (t.next (.dequeued r)) s' := by
  cases r with
  | none =>
      obtain rfl := h
      rfl
  | some item =>
      obtain ⟨rfl | rfl, hstored⟩ := h
      · exact ⟨rfl, hgrows.stored _ hstored⟩
      · exact ⟨rfl, hgrows.stored _ hstored⟩

theorem tends_dequeue : Tends Takes QueueManager.dequeue .clear w := by
  have hpop (s : World) : Tends (fun r t' s' => t' = .clear ∧ ∀ item, r = some item → Stored item.executionId s'.db)
      queuePop .clear s := by
    apply leads_perform
    intro u _ hwhole
    refine ⟨.steady trivial (.of_tables rfl rfl rfl (.of_eq rfl) fun item hitem => ?_), rfl, fun item hitem => ?_⟩
    · exact .inl (List.mem_of_mem_tail (by simpa only [MaxHeap.items_pop] using hitem))
    · rw [MaxHeap.pop_fst] at hitem
      exact hwhole.items item (List.mem_of_mem_head? hitem)
  refine tends_withLock (fun s _ => ?_) ?_ (fun _ => rfl) fun r t s s' h hgrows => Delivers.takes h hgrows
  · apply (hpop s).bind
    rintro (_ | item) _ s₁ _ ⟨rfl, hstored⟩
    · exact tends_dequeueOverflow
    · apply (tends_markEntry marks_processing (.inl (.inl rfl))).bind
      rintro _ _ s₂ h₂ rfl
      exact .pure ⟨.inl rfl, h₂.stored _ (hstored item rfl)⟩
  · rintro (_ | _ | _) t' <;> trivial

theorem tends_requeue (id : Uuid) : Clears (QueueRepository.requeue id) .clear w := by
  apply clears_then
  apply leads_sql (by simp) _ fun _ _ _ _ => rfl
  intro u value db _ _ h
  cases h
  exact ⟨.steady trivial (.of_modify (fun _ => rfl) fun _ => .inr rfl), rfl⟩

theorem tends_requeueTask (qm : QueueManager) (task : RequeueTask) :
    Clears (qm.requeueTask task) .clear w := by
  apply (tends_requeue task.entryId).attempt.bind
  rintro (_ | _) _ s _ rfl
  · exact .pure rfl
  apply (tends_fetchItem Job.priority).bind
  rintro (_ | item) _ s₁ _ ⟨rfl, hstored⟩
  · exact .pure rfl
  · exact tends_locked fun s₂ h₂ => tends_pushIfRoom qm (h₂.stored _ (hstored item rfl))

theorem tends_loadEntries (qm : QueueManager) (entries : List QueueEntry) :
    Clears (qm.loadEntries entries) .clear w := by
  induction entries generalizing w with
  | nil => exact .pure rfl
  | cons entry rest ih =>
      apply tends_queueLen.bind
      rintro len _ s _ rfl
      split
      · exact .pure rfl
      apply (tends_fetchItem fun _ => entry.priority).bind
      rintro (_ | item) _ s₁ _ ⟨rfl, hstored⟩
      · exact ih
      have hpush : Clears (queuePush item) .clear s₁ := by
        apply leads_perform
        intro u hgrows _
        refine ⟨.steady trivial (.of_tables rfl rfl rfl (.of_eq rfl) fun other hother => ?_), rfl⟩
        rcases MaxHeap.mem_push.mp hother with rfl | hold
        · exact .inr (hgrows.stored _ (hstored other rfl))
        · exact .inl hold
      apply hpush.bind
      rintro _ _ s₂ _ rfl
      exact ih

theorem tends_recover (qm : QueueManager) : Clears qm.recover .clear w := by
  have hreset : Clears QueueRepository.resetProcessingToQueued .clear w := by
    unfold QueueRepository.resetProcessingToQueued execute
    apply leads_sql (by simp)
    · intro u value db _ _ h
      cases h
      exact ⟨.steady trivial (.of_modify (fun _ => rfl) fun _ => .inr rfl), rfl⟩
    · exact fun _ _ _ _ => rfl
  have hqueued (s : World) : Clears QueueRepository.getAllQueued .clear s := by
    apply Reads.tends
    apply reads_select
    · simp
    · exact fun _ => ⟨trivial, rfl⟩
    · exact fun _ _ _ => rfl
  apply hreset.bind
  rintro _ _ s _ rfl
  apply (hqueued s).bind
  rintro entries _ s₁ _ rfl
  apply tends_locked
  intro s₂ _
  exact clears_then (tends_loadEntries qm entries)

/-! ### Workers -/

/-- A whole-row write after which the execution is not pending. -/
theorem leads_updateExecution {x : Execution} (ht : t = .clear ∨ t = .holds) (hstatus : x.status ≠ .pending)
    (hid : x.id = e) (hstored : Stored e w.db) :
    Task.Leads protocol .torn (fun _ t' s => t' = .clear ∧ Ran e s.db)
      (fun _ t' s => t' = .clear ∧ (t = .clear ∨ Ran e s.db)) (ExecutionRepository.update x) t w := by
  subst hid
  have hwrite : Task.Leads protocol .torn
      (fun affected t' s => affected ≠ 0 ∧ t' = .clear ∧ Ran x.id s.db)
      (fun _ t' s => t' = .clear ∧ (t = .clear ∨ Ran x.id s.db))
      (execute (fun _ => .updateExecution x) fun db =>
        (Rows.hits Execution.id x.id db.executions, writeExecution x db)) t w := by
    apply leads_sql (by rcases ht with rfl | rfl <;> simp)
    · intro u value db hgrows _ h
      cases h
      have hover : ∀ row, ofJob (x.over row) = ofJob row := fun _ => rfl
      have hpending : ∀ y ∈ (writeExecution x u.db).executions, y.status = .pending → y ∈ u.db.executions ∧ y.id ≠ x.id := by
        intro y hy hpending
        obtain ⟨old, hold, rfl⟩ := Rows.mem_modify.mp hy
        split at hpending
        · exact absurd hpending hstatus
        · rename_i hne
          rw [if_neg hne]
          exact ⟨hold, hne⟩
      have hsteady : Steady u { u with db := writeExecution x u.db } :=
        ⟨fun _ h => h, .of_eq rfl, Rows.map_modify hover _ _,
          fun y hy hstatus => ⟨y, (hpending y hy hstatus).1, rfl, hstatus⟩, rfl, fun _ h => .inl h,
          fun _ h => .inl h⟩
      have hran : Ran x.id (writeExecution x u.db) :=
        ⟨hsteady.grows.stored _ (hgrows.stored _ hstored), fun y hy hid hstatus => (hpending y hy hstatus).2 hid⟩
      refine ⟨.steady ?_ hsteady, Rows.hits_ne_zero.mpr (hgrows.stored _ hstored), ?_, hran⟩
      · rcases ht with rfl | rfl <;> trivial
      · rcases ht with rfl | rfl <;> rfl
    · exact fun u e hclear _ => ⟨rfl, .inl hclear⟩
  apply hwrite.bind
  rintro affected _ s _ ⟨hne, rfl, hran⟩
  rw [if_neg hne]
  apply (reads_getExecution (by simp) (.inl rfl)).mono
  · rintro y _ s' hgrows ⟨rfl, _⟩
    exact ⟨rfl, hgrows.ran _ hran⟩
  · rintro e _ s' hgrows ⟨_, rfl⟩
    exact ⟨rfl, .inr (hgrows.ran _ hran)⟩

/-- Whatever its result, the execution is not pending afterwards. -/
theorem leads_setExecutionRunning (workerId : String) (hstored : Stored e w.db) :
    Task.Leads protocol .torn (fun _ t' s => t' = .clear ∧ Ran e s.db) (fun _ t' s => t' = .clear ∧ Ran e s.db)
      (WorkerPool.setExecutionRunning e workerId) .holds w := by
  have hread : Task.Leads protocol .torn (fun x t' s => t' = .holds ∧ x.id = e ∧ Stored e s.db ∧ HasJob x.jobId s.db)
      (fun _ t' s => t' = .clear ∧ Ran e s.db) (ExecutionRepository.getById e) .holds w :=
    (reads_getExecution (by simp) (.inr hstored)).mono (fun _ _ _ _ h => h) fun _ _ _ _ h => absurd h.1 (by simp)
  apply hread.bind
  rintro x _ s _ ⟨rfl, rfl, hfound, _⟩
  have hnow : Task.Leads protocol .torn (fun _ t' _ => t' = .holds) (fun _ t' s => t' = .clear ∧ Ran x.id s.db)
      nowRfc3339 .holds s := by
    apply leads_perform
    intro u _ _
    exact ⟨.steady trivial (.refl u), rfl⟩
  apply hnow.bind
  rintro now _ s₁ h₁ rfl
  have hupdate : Task.Leads protocol .torn (fun _ t' s => t' = .clear ∧ Ran x.id s.db)
      (fun _ t' s => t' = .clear ∧ Ran x.id s.db) (ExecutionRepository.update
        { x with status := .running, startedAt := some now, workerId := some workerId }) .holds s₁ := by
    refine (leads_updateExecution (.inr rfl) ?_ ?_ (h₁.stored _ hfound)).mono ?_ ?_
    · simp
    · rfl
    · exact fun _ _ _ _ h => h
    · exact fun _ _ _ _ h => ⟨h.1, h.2.resolve_left (by simp)⟩
  apply hupdate.bind
  rintro _ _ s₂ _ ⟨rfl, hran⟩
  exact .pure ⟨rfl, hran⟩

theorem tends_log (execId : Uuid) (logType : LogType) (content : String) :
    Clears (WorkerPool.log execId logType content) .clear w :=
  clear_of_keeps (keeps_log tolerates_clear execId logType content)

theorem outcome_ne_pending (result : ExecutionResult) : result.outcome.1 ≠ .pending := by
  unfold ExecutionResult.outcome
  repeat' split
  all_goals simp

theorem tends_writeOutcome (execId : Uuid) (result : ExecutionResult) :
    Clears (WorkerPool.writeOutcome execId result) .clear w := by
  have hfinalize (s : World) : Clears (WorkerPool.finalizeExecution execId
      result.outcome.1 result.outcome.2 (if result.success then some result.stdout else none)) .clear s := by
    apply (tends_getExecution (by simp) (.inl rfl)).bind
    rintro x _ s₁ _ ⟨rfl, rfl, hstored, _⟩
    apply tends_now.bind
    rintro now _ s₂ h₂ rfl
    have hupdate : Clears (ExecutionRepository.update { x with
        status := result.outcome.1, completedAt := some now
        outputData := if result.success then some result.stdout else none
        errorMessage := result.outcome.2 }) .clear s₂ := by
      refine (leads_updateExecution (.inl rfl) ?_ ?_ (h₂.stored _ hstored)).mono ?_ ?_
      · exact outcome_ne_pending result
      · rfl
      · exact fun _ _ _ _ h => h.1
      · exact fun _ _ _ _ h => h.1
    exact clears_then hupdate
  have hfinish (s : World) :
      Clears (WorkerPool.writeOutcome.finish execId result) .clear s := by
    exact clears_attempt (hfinalize s)
  apply (tends_getExecution (by simp) (.inl rfl)).attempt.bind
  rintro (_ | x) t₁ s _ hx
  · obtain rfl := hx
    exact hfinish s
  obtain ⟨rfl, _⟩ := hx
  dsimp only
  split
  · exact .pure rfl
  · exact hfinish s

/-- The entry of an execution that has run is ended, or queued again later. -/
theorem tends_updateQueueEntry (pool : WorkerPool) (hran : Ran e w.db) (status : ExecutionStatus) :
    Clears (pool.updateQueueEntry e status) .clear w := by
  have hcount (s : World) : Clears (WorkerPool.retryCountOf e) .clear s := by
    apply (tends_getExecution (by simp) (.inl rfl)).attempt.bind
    rintro (_ | x) t₁ s₁ _ hx
    · exact .pure hx
    · exact .pure hx.1
  have hmax (s : World) : Clears (WorkerPool.maxRetriesOf e) .clear s := by
    apply (tends_getExecution (by simp) (.inl rfl)).attempt.bind
    rintro (_ | x) t₁ s₁ _ hx
    · exact .pure hx
    obtain ⟨rfl, _⟩ := hx
    apply (tends_getJob (by simp) (.inl rfl)).attempt.bind
    rintro (_ | job) t₂ s₂ _ hjob
    · exact .pure hjob
    · exact .pure hjob.1
  unfold WorkerPool.updateQueueEntry
  split
  · apply (tends_markEntry marks_completed (.inr hran)).attempt.bind
    rintro (_ | _) _ s _ rfl
    · exact .pure rfl
    · exact .pure rfl
  apply (hcount w).bind
  rintro count _ s h₁ rfl
  apply (hmax s).bind
  rintro max _ s₁ h₂ rfl
  have hdead (s₂ : World) (h₃ : Grows s₁.db s₂.db) : Clears
      (QueueManager.moveToDeadLetter e >>= fun _ => pure false) .clear s₂ := by
    exact clears_then (tends_markEntry marks_deadLetter (.inr (h₃.ran _ (h₂.ran _ (h₁.ran _ hran)))))
  have hretry : Clears (pool.queueManager.markFailedWithRetry e count max) .clear s₁ := by
    unfold QueueManager.markFailedWithRetry
    dsimp only
    split
    · apply tends_getByExecution.bind
      rintro (_ | entry) _ s₂ h₃ ⟨rfl, _⟩
      · exact hdead s₂ h₃
      have hspawn : Clears (spawnRequeue { entryId := entry.id, executionId := e })
          .clear s₂ := tends_local (fun _ => ⟨trivial, rfl⟩) fun _ => ⟨rfl, rfl⟩
      exact clears_then hspawn
    · exact hdead s₁ (Protocol.Lawful.refl (P := protocol) s₁)
  exact clears_attempt hretry

theorem tends_process (pool : WorkerPool) (workerId : Nat) (result : ExecutionResult) (hstored : Stored e w.db) :
    Clears (pool.process workerId e result) .holds w := by
  have hrunning := (leads_setExecutionRunning ("worker-" ++ toString workerId) hstored).attempt
  have hstart : Tends (fun r t' s => t' = .clear ∧ Ran e s.db)
      (WorkerPool.setExecutionRunning e ("worker-" ++ toString workerId)).attempt .holds w := by
    apply hrunning.mono
    · rintro (_ | _) t' s _ h
      · exact h
      · exact h
    · exact fun _ _ _ _ h => h.1
  apply hstart.bind
  rintro (_ | _) _ s h₁ ⟨rfl, hran⟩
  · apply (tends_markEntry marks_failed (.inr hran)).attempt.bind
    rintro (_ | _) _ s₁ _ rfl
    · exact .pure rfl
    · exact .pure rfl
  have hturn {event : Event} (hplain : Plain .clear event ∧ Phase.clear.next event = .clear) (s : World) :
      Clears (perform (fun _ => event) fun w => ((), w)) .clear s :=
    tends_local (fun _ => hplain) fun _ => ⟨rfl, rfl⟩
  have hexecute : Clears (WorkerPool.executeItem e result) .clear s := by
    apply (tends_log e .system _).bind
    rintro _ _ s₁ _ rfl
    apply (clear_of_keeps (keeps_logOutput tolerates_clear e .stdout _)).bind
    rintro _ _ s₂ _ rfl
    apply (clear_of_keeps (keeps_logOutput tolerates_clear e .stderr _)).bind
    rintro _ _ s₃ _ rfl
    exact hturn (by exact ⟨trivial, rfl⟩) s₃
  apply hexecute.bind
  rintro _ _ s₁ h₂ rfl
  apply (tends_writeOutcome e result).bind
  rintro _ _ s₂ h₃ rfl
  apply (tends_updateQueueEntry pool (h₃.ran _ (h₂.ran _ hran)) result.outcome.1).bind
  rintro _ _ s₃ _ rfl
  apply (hturn (by exact ⟨trivial, rfl⟩) s₃).bind
  rintro _ _ s₄ _ rfl
  have hcallback : Clears (pool.dagCallback e) .clear s₄ := by
    unfold WorkerPool.dagCallback
    split
    · rename_i engine _
      exact clears_attempt (tends_onExecutionComplete engine e)
    · exact .pure rfl
  apply hcallback.bind
  rintro _ _ s₅ _ rfl
  exact tends_log e .system _

theorem tends_pass (pool : WorkerPool) (workerId : Nat) (result : QueueItem → ExecutionResult) :
    Clears (pool.pass workerId result) .clear w := by
  apply tends_dequeue.attempt.bind
  rintro (_ | _ | item) t' s _ hitem
  · exact .pure hitem
  · exact .pure hitem
  · obtain ⟨rfl, hstored⟩ := hitem
    exact tends_process pool workerId (result item) hstored

end Orphans

end Serverust
