import Serverust.Proof.DagNodes
import Serverust.Proof.QueueRun

/-!
# Progress of a DAG run

A run advances each time an execution of one of its nodes ends. Between two such calls either some node
runs, or the run has ended, unless the call that ends the last running node finds nodes that wait and
none that is ready. Then nothing will call the engine for this run again.
-/

namespace Serverust

open Resumption

namespace Progress

variable {engine : DagEngine} {runId : Uuid} {dag : Dag} {edges : List DagEdge} {w w' : World}

/-! ### Stored runs -/

/-- A run that is stored with its DAG and nodes, in a database that keeps its constraints, while no task
holds the mutex and no statement fails. -/
structure Stored (runId : Uuid) (dag : Dag) (edges : List DagEdge) (w : World) : Prop where
  idle : w.Idle
  dagRow : Rows.lookup Dag.id dag.id w.db.dags = some dag
  dagEdges : edgesOf dag.id w.db = edges
  uniqueNode : Rows.Unique DagNodeExecution.id w.db.dagNodeExecutions
  ownExecution : ∀ a ∈ w.db.dagNodeExecutions, ∀ b ∈ w.db.dagNodeExecutions, ∀ e,
    a.executionId = some e → b.executionId = some e → a = b
  execution : ∀ node ∈ w.db.dagNodeExecutions, ∀ e, node.executionId = some e →
    ∃ exec ∈ w.db.executions, exec.id = e
  job : ∀ node ∈ w.db.dagNodeExecutions, node.dagRunId = runId → ∃ job ∈ w.db.jobs, job.id = node.jobId
  selects : w.db.Selects
  fresh : ∀ exec ∈ w.db.executions, exec.id < w.nextUuid
  unready : ∀ node ∈ w.db.dagNodeExecutions, node.dagRunId = runId → node.status ≠ .ready

/-- The row of the run, with its status. -/
def HasStatus (runId : Uuid) (dag : Dag) (db : Db) (status : RunStatus) : Prop :=
  ∃ run, Rows.lookup DagRun.id runId db.dagRuns = some run ∧ run.dagId = dag.id ∧ run.status = status

/-- Some node of the run is running. -/
def Busy (runId : Uuid) (db : Db) : Prop :=
  ∃ node ∈ db.dagNodeExecutions, node.dagRunId = runId ∧ node.status = .running

/-- The tables of another state, as far as a stored run depends on them. -/
structure Extends (w w' : World) : Prop where
  idle : w'.Idle
  dags : w'.db.dags = w.db.dags
  dagEdges : w'.db.dagEdges = w.db.dagEdges
  executions : ∀ exec ∈ w.db.executions, ∃ exec' ∈ w'.db.executions, exec'.id = exec.id
  jobs : ∀ job ∈ w.db.jobs, ∃ job' ∈ w'.db.jobs, job'.id = job.id
  selects : w'.db.Selects
  fresh : ∀ exec ∈ w'.db.executions, exec.id < w'.nextUuid

namespace Stored

theorem of_extends (h : Stored runId dag edges w) (hext : Extends w w')
    (hnodes : w'.db.dagNodeExecutions = w.db.dagNodeExecutions) : Stored runId dag edges w' where
  idle := hext.idle
  dagRow := hext.dags ▸ h.dagRow
  dagEdges := by
    rw [← h.dagEdges, edgesOf, edgesOf, hext.dagEdges]
  uniqueNode := hnodes ▸ h.uniqueNode
  ownExecution := hnodes ▸ h.ownExecution
  execution := by
    rw [hnodes]
    intro node hnode e he
    obtain ⟨exec, hexec, rfl⟩ := h.execution node hnode e he
    exact hext.executions exec hexec
  job := by
    rw [hnodes]
    intro node hnode hof
    obtain ⟨job, hjob, heq⟩ := h.job node hnode hof
    obtain ⟨job', hjob', heq'⟩ := hext.jobs job hjob
    exact ⟨job', hjob', heq'.trans heq⟩
  selects := hext.selects
  fresh := hext.fresh
  unready := hnodes ▸ h.unready

theorem setNode (h : Stored runId dag edges w) {node : DagNodeExecution} (hstatus : node.status ≠ .ready)
    (hexec : ∀ e, node.executionId = some e → ∃ exec ∈ w.db.executions, exec.id = e)
    (hown : ∀ row ∈ w.db.dagNodeExecutions, ∀ e, row.executionId = some e →
      node.executionId = some e → row.id = node.id) :
    Stored runId dag edges { w with db := DagRepository.setNode node w.db } where
  idle := ⟨h.idle.free, h.idle.fault⟩
  dagRow := h.dagRow
  dagEdges := h.dagEdges
  uniqueNode := h.uniqueNode.modify (f := DagRepository.overNode node) (fun _ => rfl) node.id
  ownExecution := by
    intro a' ha' b' hb' e hae hbe
    obtain ⟨a, ha, rfl⟩ := Rows.mem_modify.mp ha'
    obtain ⟨b, hb, rfl⟩ := Rows.mem_modify.mp hb'
    suffices heq : a = b by rw [heq]
    by_cases haid : a.id = node.id <;> by_cases hbid : b.id = node.id
    · exact h.uniqueNode.eq_of_column ha hb (haid.trans hbid.symm)
    · rw [if_pos haid] at hae
      rw [if_neg hbid] at hbe
      exact absurd (hown b hb e hbe hae) hbid
    · rw [if_neg haid] at hae
      rw [if_pos hbid] at hbe
      exact absurd (hown a ha e hae hbe) haid
    · rw [if_neg haid] at hae
      rw [if_neg hbid] at hbe
      exact h.ownExecution a ha b hb e hae hbe
  execution := by
    intro row hrow e he
    obtain ⟨old, hold, rfl⟩ := Rows.mem_modify.mp hrow
    split at he
    · exact hexec e he
    · exact h.execution old hold e he
  job := by
    intro row hrow hof
    obtain ⟨old, hold, rfl⟩ := Rows.mem_modify.mp hrow
    split at hof
    · rw [if_pos ‹_›]
      exact h.job old hold hof
    · rw [if_neg ‹_›]
      exact h.job old hold hof
  selects := h.selects
  fresh := h.fresh
  unready := by
    intro row hrow hof
    obtain ⟨old, hold, rfl⟩ := Rows.mem_modify.mp hrow
    split at hof
    · rw [if_pos ‹_›]
      exact hstatus
    · rw [if_neg ‹_›]
      exact h.unready old hold hof

end Stored

/-! ### Starting nodes -/

/-- The row of this node. -/
def HasRow (runId : Uuid) (node : DagNodeExecution) (db : Db) : Prop :=
  ∃ row ∈ db.dagNodeExecutions, row.id = node.id ∧ row.dagRunId = runId ∧ row.jobId = node.jobId

theorem HasRow.setNode {node other : DagNodeExecution} {db : Db} (h : HasRow runId node db) :
    HasRow runId node (DagRepository.setNode other db) := by
  obtain ⟨row, hrow, hid, hof, hjob⟩ := h
  by_cases hother : row.id = other.id
  · exact ⟨_, Rows.mem_modify_of_eq hrow hother, hid, hof, hjob⟩
  · exact ⟨_, Rows.mem_modify_of_ne hrow hother, hid, hof, hjob⟩

theorem returns_updateJob (hfault : w.fault = none) (hselects : w.db.Selects) (job : Job)
    (hjob : ∃ row ∈ w.db.jobs, row.id = job.id) (hvenv : JobRepository.selectsUnstored job w.db = false) :
    Task.Returns (fun _ w' => ∃ jobs : List Job, w' = { w with db := { w.db with jobs } } ∧
        jobs.map Job.id = w.db.jobs.map Job.id ∧ w'.db.Selects)
      (JobRepository.update job) w := by
  obtain ⟨row, hrow, hid⟩ := hjob
  let jobs := Rows.modify Job.id job.id job.over w.db.jobs
  have hkept : jobs.map Job.id = w.db.jobs.map Job.id := Rows.map_modify (f := job.over) (fun _ => rfl) _ _
  have hmem : job.id ∈ jobs.map Job.id := hkept ▸ List.mem_map.mpr ⟨row, hrow, hid⟩
  obtain ⟨row', hrow', hid'⟩ := List.mem_map.mp hmem
  obtain ⟨found, _, _, hread⟩ :=
    run_getJob (w := { w with db := { w.db with jobs } }) hfault hrow'
  have hwrite : (sql (fun _ _ => .updateJob job) fun _ => JobRepository.writeJob job).run w =
      some (.ok (Rows.hits Job.id job.id w.db.jobs), { w with db := { w.db with jobs } }) := by
    rw [run_sql hfault, JobRepository.writeJob_of_stored hvenv]
  apply Task.Returns.after hwrite
  rw [if_neg (Rows.hits_ne_zero.mpr ⟨row, hrow, hid⟩)]
  rw [hid'] at hread
  exact .of_run hread ⟨jobs, rfl, hkept, JobRepository.selects_modify hselects hvenv⟩

theorem returns_createExecution_row (hidle : w.Idle) (hfresh : ∀ exec ∈ w.db.executions, exec.id < w.nextUuid)
    (hselects : w.db.Selects) {job : Job} (hjob : job ∈ w.db.jobs) (input : Option String) :
    Task.Returns (fun execution w' => execution.id = w.nextUuid ∧
        ∃ jobs : List Job, jobs.map Job.id = w.db.jobs.map Job.id ∧ Db.Selects { w.db with jobs } ∧ w' = { w with
          nextUuid := w.nextUuid + 1
          db := { w.db with
            jobs
            executions := w.db.executions ++ [.new w.nextUuid job.id input (toRfc3339 w.now)] } })
      (ExecutionService.createExecution job.id input) w := by
  let new : Execution := .new w.nextUuid job.id input (toRfc3339 w.now)
  let after (jobs : List Job) : World := { w with
    nextUuid := w.nextUuid + 1
    db := { w.db with jobs, executions := w.db.executions ++ [new] } }
  have hrest (jobs : List Job) (hjobs : jobs.map Job.id = w.db.jobs.map Job.id) :
      Task.Returns (fun execution w' => execution.id = w.nextUuid ∧ w' = after jobs)
        (do
          let now ← nowRfc3339
          let id ← newV4
          ExecutionRepository.create (.new id job.id input now))
        { w with db := { w.db with jobs } } := by
    have hinsert : ExecutionRepository.insertExecution new { w.db with jobs } = .ok ((), (after jobs).db) := by
      unfold ExecutionRepository.insertExecution
      rw [if_neg, if_neg]
      · intro hzero
        have hmem : job.id ∈ jobs.map Job.id := hjobs ▸ List.mem_map_of_mem hjob
        obtain ⟨row, hrow, hid⟩ := List.mem_map.mp hmem
        exact Rows.hits_eq_zero.mp hzero row hrow hid
      · rw [not_not, Rows.hits_eq_zero]
        exact fun exec hexec => (hfresh exec hexec).ne
    have hsql : (sql (fun _ _ => .createExecution new) fun _ =>
        ExecutionRepository.insertExecution new).run
        { w with db := { w.db with jobs }, nextUuid := w.nextUuid + 1 } = some (.ok (), after jobs) := by
      rw [run_sql (by exact hidle.fault), hinsert]
    have hlast : new ∈ (after jobs).db.executions := List.mem_append_right _ (List.mem_singleton.mpr rfl)
    obtain ⟨found, _, hid, hread⟩ := run_getExecution (w := after jobs) hidle.fault hlast
    apply Task.Returns.after run_nowRfc3339
    apply Task.Returns.after run_newV4
    apply Task.Returns.after hsql
    exact .of_run hread ⟨hid, rfl⟩
  obtain ⟨found, hfound, hid, hread⟩ := run_getJob hidle.fault hjob
  apply Task.Returns.after hread
  split
  · apply Task.Returns.after run_nowRfc3339
    refine Task.Returns.bind (returns_updateJob hidle.fault hselects _ ?_ ?_) ?_
    · exact ⟨found, hfound, rfl⟩
    · exact hselects found hfound
    · rintro _ _ ⟨jobs, rfl, hjobs, hselects'⟩
      exact (hrest jobs hjobs).mono fun _ _ ⟨hid, hw⟩ => ⟨hid, jobs, hjobs, hselects', hw⟩
  · exact (hrest w.db.jobs rfl).mono fun _ _ ⟨hid, hw⟩ => ⟨hid, w.db.jobs, rfl, hselects, hw⟩

theorem returns_createExecution (hidle : w.Idle) (hfresh : ∀ exec ∈ w.db.executions, exec.id < w.nextUuid)
    (hselects : w.db.Selects) {job : Job} (hjob : job ∈ w.db.jobs) (input : Option String) :
    Task.Returns (fun execution w' => Extends w w' ∧ w'.db.dagNodeExecutions = w.db.dagNodeExecutions ∧
        w'.db.dagRuns = w.db.dagRuns ∧ (∃ exec ∈ w'.db.executions, exec.id = execution.id) ∧
        ∀ exec ∈ w.db.executions, exec.id ≠ execution.id)
      (ExecutionService.createExecution job.id input) w := by
  apply (returns_createExecution_row hidle hfresh hselects hjob input).mono
  rintro execution _ ⟨hid, jobs, hjobs, hselects', rfl⟩
  refine ⟨⟨⟨hidle.free, hidle.fault⟩, rfl, rfl, ?_, ?_, hselects', ?_⟩, rfl, rfl, ?_, ?_⟩
  · exact fun exec hexec => ⟨exec, List.mem_append_left _ hexec, rfl⟩
  · intro row hrow
    have hrow : row.id ∈ jobs.map Job.id := hjobs ▸ List.mem_map_of_mem hrow
    exact List.mem_map.mp hrow
  · intro exec hexec
    rcases List.mem_append.mp hexec with hold | hnew
    · exact (hfresh exec hold).trans (Nat.lt_succ_self _)
    · rw [List.mem_singleton.mp hnew]
      exact Nat.lt_succ_self _
  · exact ⟨_, List.mem_append_right _ (List.mem_singleton.mpr rfl), hid.symm⟩
  · intro exec hexec
    rw [hid]
    exact (hfresh exec hexec).ne

theorem HasRow.of_nodes {node : DagNodeExecution} {db db' : Db} (h : HasRow runId node db)
    (hnodes : db'.dagNodeExecutions = db.dagNodeExecutions) : HasRow runId node db' := by
  rw [HasRow, hnodes]
  exact h

theorem Busy.of_nodes {db db' : Db} (h : Busy runId db)
    (hnodes : db'.dagNodeExecutions = db.dagNodeExecutions) : Busy runId db' := by
  rw [Busy, hnodes]
  exact h

theorem returns_enqueue (qm : QueueManager) (hidle : w.Idle) (hselects : w.db.Selects)
    (hfresh : ∀ exec ∈ w.db.executions, exec.id < w.nextUuid) (item : QueueItem) :
    Task.Returns (fun _ w' => Extends w w' ∧ w'.db.dagNodeExecutions = w.db.dagNodeExecutions ∧
        w'.db.dagRuns = w.db.dagRuns)
      (qm.enqueue item).attempt w := by
  have hlater : ∀ exec ∈ w.db.executions, exec.id < w.nextUuid + 1 :=
    fun exec hexec => (hfresh exec hexec).trans (Nat.lt_succ_self _)
  have hkept {α : Type} (rows : List α) (id : α → Uuid) : ∀ row ∈ rows, ∃ row' ∈ rows, id row' = id row :=
    fun row hrow => ⟨row, hrow, rfl⟩
  rcases run_enqueue qm hidle item with ⟨e, hrun⟩ | ⟨entry, _, _, _, _, hrun⟩
  · apply Task.Returns.of_run (a := .error e)
    · rw [Task.run_attempt, hrun]
      rfl
    · exact ⟨⟨⟨rfl, hidle.fault⟩, rfl, rfl, hkept _ _, hkept _ _, hselects, hlater⟩, rfl, rfl⟩
  · apply Task.Returns.of_run (a := .ok ())
    · rw [Task.run_attempt, hrun]
      rfl
    · exact ⟨⟨⟨rfl, hidle.fault⟩, rfl, rfl, hkept _ _, hkept _ _, hselects, hlater⟩, rfl, rfl⟩

theorem returns_startNode (h : Stored runId dag edges w) {node : DagNodeExecution}
    (hnode : HasRow runId node w.db) :
    Task.Returns (fun _ w' => Stored runId dag edges w' ∧ Busy runId w'.db ∧ w'.db.dagRuns = w.db.dagRuns ∧
        ∀ other, HasRow runId other w.db → HasRow runId other w'.db)
      (engine.startNode node) w := by
  obtain ⟨row, hrow, hid, hof, hjobId⟩ := hnode
  obtain ⟨job, hjob, heq⟩ := h.job row hrow hof
  rw [hjobId] at heq
  obtain ⟨found, hfound, hfoundId, hread⟩ := run_getJob h.idle.fault hjob
  rw [heq] at hread hfoundId
  have hattempt : (JobRepository.getById node.jobId).attempt.run w = some (.ok (.ok found), w) := by
    rw [Task.run_attempt, hread]
    rfl
  apply Task.Returns.after hattempt
  have hcreate := returns_createExecution h.idle h.fresh h.selects hfound none
  rw [hfoundId] at hcreate
  apply hcreate.attempt.bind
  rintro _ u ⟨execution, rfl, hext, hnodes, hruns, ⟨exec, hexec, hexecId⟩, hnew⟩
  have hu : Stored runId dag edges u := h.of_extends hext hnodes
  apply Task.Returns.after run_nowRfc3339
  let started : DagNodeExecution :=
    { node with executionId := some execution.id, status := .running, startedAt := some (toRfc3339 u.now) }
  have hstarted : Stored runId dag edges { u with db := DagRepository.setNode started u.db } := by
    apply hu.setNode
    · intro hready
      cases hready
    · rintro _ ⟨⟩
      exact ⟨exec, hexec, hexecId⟩
    · rintro other hother _ he ⟨⟩
      rw [hnodes] at hother
      obtain ⟨old, hold, hid⟩ := h.execution other hother _ he
      exact absurd hid (hnew old hold)
  have hrefers : DagRepository.refers started.executionId u.db = true := by
    simp only [started, DagRepository.refers, decide_eq_true_eq]
    exact Rows.hits_ne_zero.mpr ⟨exec, hexec, hexecId⟩
  have hrow' : row ∈ u.db.dagNodeExecutions := hnodes ▸ hrow
  obtain ⟨_, hupdate⟩ : ∃ found, (DagRepository.updateNodeExecution started).run u = some (.ok found, _) :=
    DagRepository.run_updateNodeExecution hu.idle.fault hrow' hid hrefers
  apply Task.Returns.after hupdate
  apply (returns_enqueue engine.queueManager hstarted.idle hstarted.selects hstarted.fresh _).bind
  rintro _ v ⟨hext', hnodes', hruns'⟩
  refine .of_run rfl ⟨hstarted.of_extends hext' hnodes', ?_, hruns'.trans hruns, ?_⟩
  · exact Busy.of_nodes ⟨DagRepository.overNode started row, Rows.mem_modify_of_eq hrow' hid,
      hof, rfl⟩ hnodes'
  · intro other hother
    exact (hother.of_nodes hnodes).setNode.of_nodes hnodes'

/-! ### Advancing -/

/-- What advancing a run leaves: the run as it was, and a running node if any was ready to start. -/
theorem returns_advanceDagRun (h : Stored runId dag edges w) :
    Task.Returns (fun _ w' => Stored runId dag edges w' ∧ w'.db.dagRuns = w.db.dagRuns ∧
        (DagEngine.newlyReady (DagRepository.nodesOfRun runId w.db) edges dag = [] → w' = w) ∧
        (DagEngine.newlyReady (DagRepository.nodesOfRun runId w.db) edges dag ≠ [] → Busy runId w'.db))
      (engine.advanceDagRun runId edges dag) w := by
  apply Task.Returns.after (run_select h.idle.fault)
  cases hready : DagEngine.newlyReady (DagRepository.nodesOfRun runId w.db) edges dag with
  | nil => exact .of_run rfl ⟨h, rfl, fun _ => rfl, fun hne => absurd rfl hne⟩
  | cons first rest =>
      have hrows : ∀ node ∈ first :: rest, HasRow runId node w.db := by
        intro node hnode
        rw [← hready] at hnode
        have hmem := (List.mem_filter.mp (List.mem_of_mem_take hnode)).1
        obtain ⟨hnode, hof⟩ := DagRepository.mem_nodesOfRun.mp hmem
        exact ⟨node, hnode, rfl, hof, rfl⟩
      change Task.Returns _ (engine.startNode first >>= fun _ => rest.forM engine.startNode) w
      apply (returns_startNode h (hrows first List.mem_cons_self)).bind
      rintro _ u ⟨hu, hbusy, hruns, hkept⟩
      have hloop : Task.Returns (fun _ v => Stored runId dag edges v ∧ Busy runId v.db ∧
          v.db.dagRuns = w.db.dagRuns ∧ ∀ node ∈ rest, HasRow runId node v.db)
          (rest.forM engine.startNode) u := by
        apply Task.Returns.forM
        · rintro node hnode v ⟨hv, _, hruns, hrest⟩
          apply (returns_startNode hv (hrest node hnode)).mono
          rintro _ v' ⟨hv', hbusy', hruns', hkept'⟩
          exact ⟨hv', hbusy', hruns'.trans hruns, fun other hother => hkept' other (hrest other hother)⟩
        · exact ⟨hu, hbusy, hruns, fun node hnode => hkept node (hrows node (List.mem_cons_of_mem first hnode))⟩
      apply hloop.mono
      rintro _ w' ⟨hw', hbusy', hruns', _⟩
      exact ⟨hw', hruns', nofun, fun _ => hbusy'⟩

/-! ### Ending -/

theorem Stored.setRun (h : Stored runId dag edges w) (run : DagRun) :
    Stored runId dag edges { w with db := DagRepository.setRun run w.db } :=
  ⟨⟨h.idle.free, h.idle.fault⟩, h.dagRow, h.dagEdges, h.uniqueNode, h.ownExecution, h.execution, h.job,
    h.selects, h.fresh, h.unready⟩

theorem returns_updateRun (h : Stored runId dag edges w) {status : RunStatus}
    (hrun : HasStatus runId dag w.db status) {run : DagRun} (hid : run.id = runId) :
    Task.Returns (fun _ w' => Stored runId dag edges w' ∧ HasStatus runId dag w'.db run.status ∧
        w'.db.dagNodeExecutions = w.db.dagNodeExecutions)
      (DagRepository.updateRun run) w := by
  subst hid
  obtain ⟨row, hrow, hdag, _⟩ := hrun
  obtain ⟨_, hupdate⟩ := DagRepository.run_updateRun h.idle.fault hrow
  exact .of_run hupdate ⟨h.setRun run, ⟨_, DagRepository.lookup_setRun hrow, hdag, rfl⟩, rfl⟩

theorem run_getRunById (h : Stored runId dag edges w) {status : RunStatus}
    (hrun : HasStatus runId dag w.db status) :
    ∃ run, run.id = runId ∧ run.dagId = dag.id ∧ run.status = status ∧
      (DagRepository.getRunById runId).run w = some (.ok run, w) := by
  obtain ⟨run, hrow, hdag, hstatus⟩ := hrun
  have hid : run.id = runId := Rows.column_of_lookup hrow
  subst hid
  exact ⟨run, rfl, hdag, hstatus, DagRepository.run_getRunById h.idle.fault hrow⟩

theorem isTerminal_finalStatus (nodes : List DagNodeExecution) :
    (DagEngine.finalStatus nodes).isTerminal = true := by
  unfold DagEngine.finalStatus
  split
  · split <;> rfl
  · rfl

/-- A run whose nodes have all ended is ended, any other run is left as it is. -/
theorem returns_finishRun (h : Stored runId dag edges w) {status : RunStatus}
    (hrun : HasStatus runId dag w.db status) :
    Task.Returns (fun _ w' => Stored runId dag edges w' ∧
        w'.db.dagNodeExecutions = w.db.dagNodeExecutions ∧
        ((∀ node ∈ DagRepository.nodesOfRun runId w.db, node.status.isTerminal = true) →
          ∃ final, final.isTerminal = true ∧ HasStatus runId dag w'.db final) ∧
        (¬ (∀ node ∈ DagRepository.nodesOfRun runId w.db, node.status.isTerminal = true) → w' = w))
      (DagEngine.finishRun runId) w := by
  apply Task.Returns.after (run_select h.idle.fault)
  split
  · rename_i hall
    obtain ⟨run, hid, _, _, hread⟩ := run_getRunById h hrun
    apply Task.Returns.after hread
    apply Task.Returns.after run_nowRfc3339
    refine Task.Returns.bind (returns_updateRun h hrun ?_) ?_
    · exact hid
    · rintro _ w' ⟨hw', hstatus, hnodes⟩
      refine .of_run rfl ⟨hw', hnodes, fun _ => ⟨_, ?_, hstatus⟩, fun hno => ?_⟩
      · exact isTerminal_finalStatus _
      · exact absurd (List.all_eq_true.mp hall) hno
  · rename_i hall
    exact .of_run rfl ⟨h, rfl, fun hyes => absurd (List.all_eq_true.mpr hyes) hall, fun _ => rfl⟩

/-- What skipping nodes that have not started keeps of the state `w` it started from. -/
structure Skipping (runId : Uuid) (dag : Dag) (edges : List DagEdge) (w v : World) : Prop where
  stored : Stored runId dag edges v
  runs : v.db.dagRuns = w.db.dagRuns
  executions : v.db.executions = w.db.executions
  running : ∀ row ∈ w.db.dagNodeExecutions, row.status = .running → row ∈ v.db.dagNodeExecutions
  ran : ∀ row ∈ v.db.dagNodeExecutions, row.status = .running → row ∈ w.db.dagNodeExecutions
  source : ∀ row ∈ v.db.dagNodeExecutions, ∃ old ∈ w.db.dagNodeExecutions,
    old.id = row.id ∧ old.executionId = row.executionId
  target : ∀ row ∈ w.db.dagNodeExecutions, ∃ new ∈ v.db.dagNodeExecutions, new.id = row.id

namespace Skipping

variable {v : World}

theorem refl (h : Stored runId dag edges w) : Skipping runId dag edges w w :=
  ⟨h, rfl, rfl, fun _ h _ => h, fun _ h _ => h, fun row h => ⟨row, h, rfl, rfl⟩, fun row h => ⟨row, h, rfl⟩⟩

theorem returns_skip (hw : Stored runId dag edges w) (h : Skipping runId dag edges w v)
    {node : DagNodeExecution} (hnode : node ∈ w.db.dagNodeExecutions) (hidle : node.status ≠ .running) :
    Task.Returns (fun _ => Skipping runId dag edges w)
      (do
        let now ← nowRfc3339
        let _ ← DagRepository.updateNodeExecution { node with status := .skipped, completedAt := some now }) v := by
  let skipped : DagNodeExecution :=
    { node with status := .skipped, completedAt := some (toRfc3339 v.now) }
  have hexec : ∀ e, skipped.executionId = some e → ∃ exec ∈ v.db.executions, exec.id = e :=
    h.executions ▸ hw.execution node hnode
  have hrefers : DagRepository.refers skipped.executionId v.db = true := by
    cases he : skipped.executionId with
    | none => rfl
    | some e =>
        obtain ⟨exec, hexec, hid⟩ := hexec e he
        simp only [DagRepository.refers, decide_eq_true_eq]
        exact Rows.hits_ne_zero.mpr ⟨exec, hexec, hid⟩
  obtain ⟨row, hrow, hid⟩ := h.target node hnode
  obtain ⟨_, hupdate⟩ : ∃ found, (DagRepository.updateNodeExecution skipped).run v = some (.ok found, _) :=
    DagRepository.run_updateNodeExecution h.stored.idle.fault hrow hid hrefers
  apply Task.Returns.after run_nowRfc3339
  apply Task.Returns.after hupdate
  refine .of_run rfl ⟨?_, h.runs, h.executions, ?_, ?_, ?_, ?_⟩
  · apply h.stored.setNode
    · intro hready
      cases hready
    · exact hexec
    · intro row hrow e hrowExec hnodeExec
      obtain ⟨old, hold, hid, hsame⟩ := h.source row hrow
      rw [← hid, hw.ownExecution old hold node hnode e (hsame.trans hrowExec) hnodeExec]
  · intro row hrow hrunning
    apply Rows.mem_modify_of_ne (h.running row hrow hrunning)
    intro hsame
    rw [hw.uniqueNode.eq_of_column hrow hnode hsame] at hrunning
    exact hidle hrunning
  · intro row hrow hrunning
    obtain ⟨old, hold, rfl⟩ := Rows.mem_modify.mp hrow
    split at hrunning
    · cases hrunning
    · rw [if_neg ‹_›]
      exact h.ran old hold hrunning
  · intro row hrow
    obtain ⟨old, hold, rfl⟩ := Rows.mem_modify.mp hrow
    split
    · exact ⟨node, hnode, Eq.symm ‹_›, rfl⟩
    · exact h.source old hold
  · intro row hrow
    obtain ⟨new, hnew, hid⟩ := h.target row hrow
    by_cases hsame : new.id = skipped.id
    · exact ⟨_, Rows.mem_modify_of_eq hnew hsame, hid⟩
    · exact ⟨_, Rows.mem_modify_of_ne hnew hsame, hid⟩

theorem busy_iff (h : Skipping runId dag edges w v) : Busy runId v.db ↔ Busy runId w.db := by
  constructor
  · rintro ⟨row, hrow, hof, hrunning⟩
    exact ⟨row, h.ran row hrow hrunning, hof, hrunning⟩
  · rintro ⟨row, hrow, hof, hrunning⟩
    exact ⟨row, h.running row hrow hrunning, hof, hrunning⟩

end Skipping

theorem busy_iff_any {db : Db} : Busy runId db ↔
    ((DagRepository.nodesOfRun runId db).any fun node => node.status = .running) = true := by
  simp only [Busy, List.any_eq_true, DagRepository.mem_nodesOfRun, decide_eq_true_eq, and_assoc]

/-- A run that stops after a failure goes on while a node runs, and is failed otherwise. -/
theorem returns_stopRun (h : Stored runId dag edges w) {status : RunStatus}
    (hrun : HasStatus runId dag w.db status) :
    Task.Returns (fun _ w' => Stored runId dag edges w' ∧ (Busy runId w'.db ↔ Busy runId w.db) ∧
        (Busy runId w.db → HasStatus runId dag w'.db status) ∧
        (¬ Busy runId w.db → HasStatus runId dag w'.db .failed))
      (DagEngine.stopRun runId) w := by
  apply Task.Returns.after (run_select h.idle.fault)
  have hskip : Task.Returns (fun _ => Skipping runId dag edges w)
      (((DagRepository.nodesOfRun runId w.db).filter fun n =>
        n.status = .waiting ∨ n.status = .ready).forM fun n => do
          let now ← nowRfc3339
          let _ ← DagRepository.updateNodeExecution { n with status := .skipped, completedAt := some now }) w := by
    apply Task.Returns.forM
    · intro node hnode v hv
      obtain ⟨hnode, hstatus⟩ := List.mem_filter.mp hnode
      apply hv.returns_skip h (DagRepository.mem_nodesOfRun.mp hnode).1
      intro hrunning
      rw [hrunning] at hstatus
      revert hstatus
      decide
    · exact .refl h
  apply hskip.bind
  intro _ v hv
  have hstatus : HasStatus runId dag v.db status := by
    rw [HasStatus, hv.runs]
    exact hrun
  split
  · rename_i hany
    have hbusy := busy_iff_any.mpr hany
    exact .of_run rfl ⟨hv.stored, hv.busy_iff, fun _ => hstatus, fun hno => absurd hbusy hno⟩
  · rename_i hany
    have hidle : ¬ Busy runId w.db := fun hbusy => hany (busy_iff_any.mp hbusy)
    obtain ⟨run, hid, _, _, hread⟩ := run_getRunById hv.stored hstatus
    apply Task.Returns.after hread
    apply Task.Returns.after run_nowRfc3339
    apply Task.Returns.after (run_select hv.stored.idle.fault)
    refine Task.Returns.bind (returns_updateRun hv.stored hstatus ?_) ?_
    · exact hid
    · rintro _ w' ⟨hw', hfailed, hnodes⟩
      refine .of_run rfl ⟨hw', ?_, fun hbusy => absurd hbusy hidle, fun _ => hfailed⟩
      rw [← hv.busy_iff, Busy, hnodes]
      rfl

/-! ### The call -/

/-- The node as the call writes it once its execution has ended. -/
def ended (node : DagNodeExecution) (status : ExecutionStatus) (w : World) : DagNodeExecution :=
  { node with status := DagEngine.completedStatus status, completedAt := some (toRfc3339 w.now) }

/-- The nodes of the run with the outcome written. -/
def nodesAfter (runId : Uuid) (node : DagNodeExecution) (status : ExecutionStatus) (w : World) :
    List DagNodeExecution :=
  DagRepository.nodesOfRun runId (DagRepository.setNode (ended node status w) w.db)

/-- Whether a run with these nodes goes on after one of them ended with this outcome: the run stops on
the failure, another node runs, none waits, or one that waits is ready. -/
def Proceeds (dag : Dag) (edges : List DagEdge) (outcome : NodeStatus)
    (nodes : List DagNodeExecution) : Prop :=
  (DagEngine.isFailure outcome = true ∧ dag.onFailure = .stop) ∨
  (∃ node ∈ nodes, node.status = .running) ∨
  (∀ node ∈ nodes, node.status ≠ .waiting) ∨
  ∃ node ∈ nodes, node.status = .waiting ∧
    DagEngine.isNodeReady node.jobId edges (DagEngine.statusOf nodes) = true

/-- A run in which a node runs, or that has ended. -/
def Alive (runId : Uuid) (dag : Dag) (w : World) : Prop :=
  (Busy runId w.db ∧ HasStatus runId dag w.db .running) ∨
  (¬ Busy runId w.db ∧ ∃ status, status.isTerminal = true ∧ HasStatus runId dag w.db status)

/-- A run that nothing will advance again, and that has not ended. -/
def Stuck (runId : Uuid) (dag : Dag) (w : World) : Prop :=
  ¬ Busy runId w.db ∧ HasStatus runId dag w.db .running

theorem newlyReady_ne_nil {nodes : List DagNodeExecution} (hlimit : 1 ≤ dag.maxConcurrentNodes)
    (hidle : ∀ node ∈ nodes, node.status ≠ .running) {node : DagNodeExecution} (hnode : node ∈ nodes)
    (hwaiting : node.status = .waiting)
    (hready : DagEngine.isNodeReady node.jobId edges (DagEngine.statusOf nodes) = true) :
    DagEngine.newlyReady nodes edges dag ≠ [] := by
  have hcount : nodes.countP (fun node => node.status = .running) = 0 := by
    apply List.countP_eq_zero.mpr
    intro other hother
    simpa only [decide_eq_true_eq] using hidle other hother
  have hmem : node ∈ nodes.filter fun node => node.status = .waiting &&
      DagEngine.isNodeReady node.jobId edges (DagEngine.statusOf nodes) :=
    List.mem_filter.mpr ⟨hnode, by rw [hready, Bool.and_true, decide_eq_true hwaiting]⟩
  intro hnil
  rcases List.take_eq_nil_iff.mp hnil with hzero | hempty
  · rw [hcount] at hzero
    omega
  · rw [hempty] at hmem
    cases hmem

theorem mem_of_newlyReady {nodes : List DagNodeExecution}
    (h : DagEngine.newlyReady nodes edges dag ≠ []) :
    ∃ node ∈ nodes, node.status = .waiting ∧
      DagEngine.isNodeReady node.jobId edges (DagEngine.statusOf nodes) = true := by
  obtain ⟨node, hnode⟩ := List.exists_mem_of_ne_nil _ h
  obtain ⟨hnode, hready⟩ := List.mem_filter.mp (List.mem_of_mem_take hnode)
  obtain ⟨hwaiting, hready⟩ := Bool.and_eq_true_iff.mp hready
  exact ⟨node, hnode, of_decide_eq_true hwaiting, hready⟩

theorem NodeStatus.cases_unready {status : NodeStatus} (hready : status ≠ .ready) :
    status = .waiting ∨ status = .running ∨ status.isTerminal = true := by
  cases status with
  | waiting => exact .inl rfl
  | ready => exact absurd rfl hready
  | running => exact .inr (.inl rfl)
  | success | failed | skipped | cancelled => exact .inr (.inr rfl)

theorem busy_iff_nodes {db : Db} :
    Busy runId db ↔ ∃ node ∈ DagRepository.nodesOfRun runId db, node.status = .running := by
  simp only [Busy, DagRepository.mem_nodesOfRun, and_assoc]

/-- What is left to do once the outcome is written: stop, or advance and finish. -/
theorem returns_rest (h : Stored runId dag edges w) (hrun : HasStatus runId dag w.db .running)
    (hlimit : 1 ≤ dag.maxConcurrentNodes) (outcome : NodeStatus) :
    Task.Returns (fun _ w' => Stored runId dag edges w' ∧
        (Proceeds dag edges outcome (DagRepository.nodesOfRun runId w.db) → Alive runId dag w') ∧
        (¬ Proceeds dag edges outcome (DagRepository.nodesOfRun runId w.db) → Stuck runId dag w'))
      (if DagEngine.isFailure outcome ∧ dag.onFailure = .stop then DagEngine.stopRun runId
        else engine.advanceDagRun runId edges dag >>= fun _ => DagEngine.finishRun runId) w := by
  split
  · rename_i hstop
    apply (returns_stopRun h hrun).mono
    rintro _ w' ⟨hw', hbusy, hgoes, hfails⟩
    refine ⟨hw', fun _ => ?_, fun hno => absurd (.inl hstop) hno⟩
    by_cases hwas : Busy runId w.db
    · exact .inl ⟨hbusy.mpr hwas, hgoes hwas⟩
    · exact .inr ⟨fun hnow => hwas (hbusy.mp hnow), .failed, rfl, hfails hwas⟩
  · rename_i hgo
    apply (returns_advanceDagRun h).bind
    rintro _ u ⟨hu, hruns, hsame, hstarted⟩
    have hstatus : HasStatus runId dag u.db .running := by
      rw [HasStatus, hruns]
      exact hrun
    apply (returns_finishRun hu hstatus).mono
    rintro _ w' ⟨hw', hnodes, hfinished, hkept⟩
    refine ⟨hw', fun hproceeds => ?_, fun hno => ?_⟩
    · by_cases hall : ∀ node ∈ DagRepository.nodesOfRun runId u.db, node.status.isTerminal = true
      · refine .inr ⟨fun hbusy => ?_, hfinished hall⟩
        obtain ⟨node, hnode, hrunning⟩ := busy_iff_nodes.mp (hbusy.of_nodes hnodes.symm)
        have hterminal := hall node hnode
        rw [hrunning] at hterminal
        cases hterminal
      · rw [hkept hall]
        refine .inl ⟨?_, hstatus⟩
        by_cases hready : DagEngine.newlyReady (DagRepository.nodesOfRun runId w.db) edges dag = []
        · -- Nothing was started, so a node that has not ended is running.
          obtain rfl := hsame hready
          by_contra hidle
          have hnone : ∀ node ∈ DagRepository.nodesOfRun runId u.db, node.status ≠ .running :=
            fun node hnode hrunning => hidle (busy_iff_nodes.mpr ⟨node, hnode, hrunning⟩)
          rcases hproceeds with hstop | ⟨node, hnode, hrunning⟩ | hwaits | ⟨node, hnode, hwaiting, hnode'⟩
          · exact hgo hstop
          · exact hnone node hnode hrunning
          · apply hall
            intro node hnode
            obtain ⟨hrow, hof⟩ := DagRepository.mem_nodesOfRun.mp hnode
            rcases NodeStatus.cases_unready (hu.unready node hrow hof) with heq | heq | hterminal
            · exact absurd heq (hwaits node hnode)
            · exact absurd heq (hnone node hnode)
            · exact hterminal
          · exact newlyReady_ne_nil hlimit hnone hnode hwaiting hnode' hready
        · exact hstarted hready
    · -- Some node waits, none is ready and none runs.
      simp only [Proceeds, not_or, not_exists, not_and, not_forall, not_not] at hno
      obtain ⟨_, hnone, ⟨waiting, hwaiting, hstatus'⟩, hunready⟩ := hno
      have hready : DagEngine.newlyReady (DagRepository.nodesOfRun runId w.db) edges dag = [] := by
        by_contra hne
        obtain ⟨node, hnode, hwaits, hready⟩ := mem_of_newlyReady hne
        exact hunready node hnode hwaits hready
      obtain rfl := hsame hready
      have hidle : ¬ Busy runId u.db := by
        rw [busy_iff_nodes]
        rintro ⟨node, hnode, hrunning⟩
        exact hnone node hnode hrunning
      rw [hkept fun hall => ?_]
      · exact ⟨hidle, hstatus⟩
      · have hterminal := hall waiting hwaiting
        rw [hstatus'] at hterminal
        cases hterminal

/-- The call for an ended execution returns, and leaves the run alive exactly if it proceeds. -/
theorem returns_onExecutionComplete (engine : DagEngine) (h : Stored runId dag edges w)
    (hrun : HasStatus runId dag w.db .running) (hlimit : 1 ≤ dag.maxConcurrentNodes)
    {node : DagNodeExecution} (hnode : node ∈ w.db.dagNodeExecutions) (hof : node.dagRunId = runId)
    {e : Uuid} (he : node.executionId = some e) {exec : Execution}
    (hexec : Rows.lookup Execution.id e w.db.executions = some exec) :
    Task.Returns (fun _ w' => Stored runId dag edges w' ∧
        (Proceeds dag edges (DagEngine.completedStatus exec.status) (nodesAfter runId node exec.status w) →
          Alive runId dag w') ∧
        (¬ Proceeds dag edges (DagEngine.completedStatus exec.status)
          (nodesAfter runId node exec.status w) → Stuck runId dag w'))
      (engine.onExecutionComplete e) w := by
  have hfind : (DagRepository.findNodeByExecutionId e).run w = some (.ok (some node), w) := by
    obtain ⟨found, hfound⟩ : ∃ found, Rows.lookup DagNodeExecution.executionId (some e)
        w.db.dagNodeExecutions = some found := Rows.lookup_isSome hnode he
    have hsame := h.ownExecution found (Rows.mem_of_lookup hfound) node hnode e
      (Rows.column_of_lookup hfound) he
    rw [DagRepository.findNodeByExecutionId, run_select h.idle.fault, hfound, hsame]
  have hread : (ExecutionRepository.getById e).run w = some (.ok exec, w) := by
    simp only [ExecutionRepository.getById, Task.run_bind, run_select h.idle.fault, hexec, run_okOr_some]
  apply Task.Returns.after hfind
  apply Task.Returns.after hread
  apply Task.Returns.after run_nowRfc3339
  -- The node's row.
  have hstored : ∀ e, (ended node exec.status w).executionId = some e → ∃ exec ∈ w.db.executions, exec.id = e :=
    h.execution node hnode
  have hrefers : DagRepository.refers (ended node exec.status w).executionId w.db = true := by
    obtain ⟨row, hrow, hid⟩ := h.execution node hnode e he
    simp only [ended, he, DagRepository.refers, decide_eq_true_eq]
    exact Rows.hits_ne_zero.mpr ⟨row, hrow, hid⟩
  obtain ⟨_, hupdate⟩ : ∃ found, (DagRepository.updateNodeExecution (ended node exec.status w)).run w =
      some (.ok found, _) := DagRepository.run_updateNodeExecution h.idle.fault hnode rfl hrefers
  apply Task.Returns.after hupdate
  have hu : Stored runId dag edges
      { w with db := DagRepository.setNode (ended node exec.status w) w.db } := by
    apply h.setNode
    · simp only [ended]
      cases exec.status <;> decide
    · exact hstored
    · intro row hrow e' hrow' hnode'
      rw [h.ownExecution row hrow node hnode e' hrow' hnode']
      rfl
  -- The run's row.
  obtain ⟨run, hid, hdag, hstatus, hgetRun⟩ := run_getRunById hu (by exact hrun)
  rw [hof]
  apply Task.Returns.after hgetRun
  refine Task.Returns.bind (returns_updateRun hu (by exact hrun) ?_) ?_
  · exact hid
  rintro _ v ⟨hv, hrun', hnodes⟩
  have hgetDag : (DagRepository.getById run.dagId).run v = some (.ok dag, v) := by
    simp only [DagRepository.getById, Task.run_bind, run_select hv.idle.fault, hdag, hv.dagRow, run_okOr_some]
  have hgetEdges : (DagRepository.getEdgesByDagId run.dagId).run v = some (.ok edges, v) := by
    rw [hdag, ← hv.dagEdges]
    exact run_select hv.idle.fault
  apply Task.Returns.after hgetDag
  apply Task.Returns.after hgetEdges
  have hafter : DagRepository.nodesOfRun runId v.db = nodesAfter runId node exec.status w := by
    rw [DagRepository.nodesOfRun, hnodes]
    rfl
  rw [hid, ← hafter]
  apply returns_rest hv ?_ hlimit
  rw [← hstatus]
  exact hrun'

/-! ### Runs -/

/-- A run as it is launched: as many of its root nodes as may run at once are running, and its other
nodes wait. -/
structure Launched (runId : Uuid) (dag : Dag) (edges : List DagEdge) (w : World) : Prop where
  stored : Stored runId dag edges w
  status : HasStatus runId dag w.db .running
  limit : 1 ≤ dag.maxConcurrentNodes
  acyclic : Acyclic.On (Leads edges)
  nonempty : edges ≠ []
  nodes : ∀ node ∈ DagRepository.nodesOfRun runId w.db,
    node.status = .waiting ∨ node.status = .running ∧ node.jobId ∈ rootJobs edges
  count : (runningNodes runId w.db).length = min dag.maxConcurrentNodes.toNat (rootJobs edges).length

/-- The call for the execution of a running node, which has ended with this status. -/
structure Completes (engine : DagEngine) (runId : Uuid) (node : DagNodeExecution)
    (status : ExecutionStatus) (w w' : World) : Prop where
  running : node ∈ runningNodes runId w.db
  terminal : status.isTerminal = true
  call : ∃ e, node.executionId = some e ∧
    (Rows.lookup Execution.id e w.db.executions).map Execution.status = some status ∧
    ∃ r, (engine.onExecutionComplete e).run w = some (r, w')

/-- The states a launched run reaches by good calls, one at a time. Between calls anything may happen
that leaves the run and its nodes alone; in particular executions end. -/
inductive Reached (engine : DagEngine) (runId : Uuid) (dag : Dag) (edges : List DagEdge)
    (good : DagNodeExecution → ExecutionStatus → World → Prop) : World → Prop
  | launched {w : World} (hlaunched : Launched runId dag edges w) : Reached engine runId dag edges good w
  | elsewhere {w w' : World} (hreached : Reached engine runId dag edges good w)
      (hstored : Stored runId dag edges w')
      (hnodes : w'.db.dagNodeExecutions = w.db.dagNodeExecutions)
      (hruns : w'.db.dagRuns = w.db.dagRuns) : Reached engine runId dag edges good w'
  | complete {w w' : World} {node : DagNodeExecution} {status : ExecutionStatus}
      (hreached : Reached engine runId dag edges good w)
      (hstep : Completes engine runId node status w w') (hgood : good node status w) :
      Reached engine runId dag edges good w'

/-- If no node of the run is running, the run has ended. -/
def Settled (runId : Uuid) (dag : Dag) (w : World) : Prop :=
  ¬ Busy runId w.db → ∃ status, status.isTerminal = true ∧ HasStatus runId dag w.db status

theorem Launched.busy (h : Launched runId dag edges w) : Busy runId w.db := by
  obtain ⟨root, hroot⟩ := exists_rootJob h.acyclic h.nonempty
  have hpos := List.length_pos_of_mem hroot
  have hlimit := h.limit
  have hcount := h.count
  obtain ⟨node, hnode⟩ := List.exists_mem_of_length_pos (l := runningNodes runId w.db) (by omega)
  obtain ⟨hnode, hrunning⟩ := List.mem_filter.mp hnode
  exact busy_iff_nodes.mpr ⟨node, hnode, of_decide_eq_true hrunning⟩

theorem Alive.settled (h : Alive runId dag w) : Settled runId dag w := by
  intro hidle
  rcases h with ⟨hbusy, _⟩ | ⟨_, hended⟩
  · exact absurd hbusy hidle
  · exact hended

theorem Stuck.not_settled (h : Stuck runId dag w) : ¬ Settled runId dag w := by
  intro hsettled
  obtain ⟨hidle, run, hrow, _, hstatus⟩ := h
  obtain ⟨status, hterminal, run', hrow', _, rfl⟩ := hsettled hidle
  rw [hrow] at hrow'
  cases hrow'
  rw [hstatus] at hterminal
  cases hterminal

/-- What one call does to a run that is alive. -/
theorem Completes.outcome {node : DagNodeExecution} {status : ExecutionStatus}
    (hstep : Completes engine runId node status w w') (h : Stored runId dag edges w)
    (halive : Alive runId dag w) (hlimit : 1 ≤ dag.maxConcurrentNodes) :
    Stored runId dag edges w' ∧
      (Proceeds dag edges (DagEngine.completedStatus status) (nodesAfter runId node status w) →
        Alive runId dag w') ∧
      (¬ Proceeds dag edges (DagEngine.completedStatus status) (nodesAfter runId node status w) →
        Stuck runId dag w') := by
  obtain ⟨hnode, hrunning⟩ := List.mem_filter.mp hstep.running
  obtain ⟨hrow, hof⟩ := DagRepository.mem_nodesOfRun.mp hnode
  have hbusy : Busy runId w.db := ⟨node, hrow, hof, of_decide_eq_true hrunning⟩
  have hrun : HasStatus runId dag w.db .running := by
    rcases halive with ⟨_, hrun⟩ | ⟨hidle, _⟩
    · exact hrun
    · exact absurd hbusy hidle
  obtain ⟨e, he, hread, r, hcall⟩ := hstep.call
  obtain ⟨exec, hexec, rfl⟩ := Option.map_eq_some_iff.mp hread
  obtain ⟨_, u, hcall', hu⟩ := returns_onExecutionComplete engine h hrun hlimit hrow hof he hexec
  rw [hcall] at hcall'
  cases hcall'
  exact hu

variable {good : DagNodeExecution → ExecutionStatus → World → Prop}

/-- Calls after which the run proceeds keep it alive. -/
theorem Reached.alive
    (hgood : ∀ node status w, good node status w →
      Proceeds dag edges (DagEngine.completedStatus status) (nodesAfter runId node status w))
    (h : Reached engine runId dag edges good w) :
    Stored runId dag edges w ∧ Alive runId dag w ∧ 1 ≤ dag.maxConcurrentNodes := by
  induction h with
  | launched hlaunched => exact ⟨hlaunched.stored, .inl ⟨hlaunched.busy, hlaunched.status⟩, hlaunched.limit⟩
  | elsewhere _ hstored hnodes hruns ih =>
      obtain ⟨_, halive, hlimit⟩ := ih
      refine ⟨hstored, ?_, hlimit⟩
      rw [Alive, Busy, hnodes]
      simp only [HasStatus, hruns]
      exact halive
  | complete _ hstep hthis ih =>
      obtain ⟨hstored, halive, hlimit⟩ := ih
      obtain ⟨hstored', hlives, _⟩ := hstep.outcome hstored halive hlimit
      exact ⟨hstored', hlives (hgood _ _ _ hthis), hlimit⟩

/-- Along every run whose calls all let it proceed, the run has ended whenever no node is running; and a
further call keeps it so exactly if it lets the run proceed. -/
theorem never_stuck_iff (engine : DagEngine) (runId : Uuid) (dag : Dag) (edges : List DagEdge)
    (h : Reached engine runId dag edges (fun node status w =>
      Proceeds dag edges (DagEngine.completedStatus status) (nodesAfter runId node status w)) w) :
    Settled runId dag w ∧ ∀ node status w', Completes engine runId node status w w' →
      (Settled runId dag w' ↔
        Proceeds dag edges (DagEngine.completedStatus status) (nodesAfter runId node status w)) := by
  obtain ⟨hstored, halive, hlimit⟩ := h.alive fun _ _ _ hgood => hgood
  refine ⟨halive.settled, ?_⟩
  intro node status w' hstep
  obtain ⟨_, hlives, hsticks⟩ := hstep.outcome hstored halive hlimit
  constructor
  · intro hsettled
    by_contra hno
    exact (hsticks hno).not_settled hsettled
  · exact fun hyes => (hlives hyes).settled

/-! ### The sample DAG -/

def rootNode : DagNodeExecution :=
  { DagNodeExecution.new 11 10 1 "" with status := .running, executionId := some 7 }

/-- The sample DAG, launched, after the execution of its root node ended with this status. -/
def launched (status : ExecutionStatus) : World :=
  .start { Db.sampleDag with
    executions := [{ Execution.new 7 1 none "" with status := status }]
    dagRuns := [{ DagRun.new 10 5 "manual" 2 "" with status := .running }]
    dagNodeExecutions := [rootNode, .new 12 10 2 ""] } Calendar.epoch 1000

theorem launched_stored (status : ExecutionStatus) : Stored 10 .sample [.sample] (launched status) where
  idle := ⟨rfl, rfl⟩
  dagRow := rfl
  dagEdges := rfl
  uniqueNode := by
    show [11, 12].Nodup
    decide
  ownExecution := by
    intro a ha b hb e hae hbe
    rcases List.mem_pair.mp ha with rfl | rfl
    · rcases List.mem_pair.mp hb with rfl | rfl
      · rfl
      · cases hbe
    · cases hae
  execution := by
    intro node hnode e he
    rcases List.mem_pair.mp hnode with rfl | rfl
    · cases he
      exact ⟨_, List.mem_singleton.mpr rfl, rfl⟩
    · cases he
  job := by
    intro node hnode _
    rcases List.mem_pair.mp hnode with rfl | rfl
    · exact ⟨_, List.mem_cons_self, rfl⟩
    · exact ⟨_, List.mem_cons_of_mem _ (List.mem_singleton.mpr rfl), rfl⟩
  selects := by
    intro job hjob
    rcases List.mem_pair.mp hjob with rfl | rfl <;> rfl
  fresh := by
    intro exec hexec
    rw [List.mem_singleton.mp hexec]
    show 7 < 1000
    decide
  unready := by
    intro node hnode _
    rcases List.mem_pair.mp hnode with rfl | rfl <;> decide

theorem launched_sample (status : ExecutionStatus) :
    Launched 10 .sample [.sample] (launched status) where
  stored := launched_stored status
  status := ⟨_, rfl, rfl, rfl⟩
  limit := le_rfl
  acyclic := acyclic_sample
  nonempty := nofun
  nodes := by
    intro node hnode
    rcases List.mem_pair.mp (DagRepository.mem_nodesOfRun.mp hnode).1 with rfl | rfl
    · exact .inr ⟨rfl, by decide⟩
    · exact .inl rfl
  count := rfl

theorem root_completes (status : ExecutionStatus) (hterminal : status.isTerminal = true) :
    ∃ w', Completes .sample 10 rootNode status (launched status) w' ∧
      (Proceeds .sample [.sample] (DagEngine.completedStatus status)
        (nodesAfter 10 rootNode status (launched status)) → Alive 10 .sample w') ∧
      (¬ Proceeds .sample [.sample] (DagEngine.completedStatus status)
        (nodesAfter 10 rootNode status (launched status)) → Stuck 10 .sample w') := by
  have hnode : rootNode ∈ (launched status).db.dagNodeExecutions := List.mem_cons_self
  obtain ⟨r, w', hcall, _, houtcome⟩ := returns_onExecutionComplete .sample (launched_stored status)
    (launched_sample status).status le_rfl hnode rfl rfl rfl
  refine ⟨w', ⟨?_, hterminal, 7, rfl, rfl, _, hcall⟩, houtcome⟩
  exact List.mem_filter.mpr ⟨DagRepository.mem_nodesOfRun.mpr ⟨hnode, rfl⟩, rfl⟩

/-- Job 1 succeeds, which makes job 2 ready. -/
theorem never_stuck_iff_success : ∃ w', Completes .sample 10 rootNode .success (launched .success) w' ∧
    Settled 10 .sample w' ∧ ∀ node status w'', Completes .sample 10 node status w' w'' →
      (Settled 10 .sample w'' ↔ Proceeds .sample [.sample] (DagEngine.completedStatus status)
        (nodesAfter 10 node status w')) := by
  obtain ⟨w', hstep, _⟩ := root_completes .success rfl
  refine ⟨w', hstep, never_stuck_iff .sample 10 .sample [.sample] ?_⟩
  apply Reached.complete (.launched (launched_sample .success)) hstep
  unfold Proceeds
  decide

/-- Job 1 fails, so job 2 waits for ever. -/
theorem stuck_after_failure : ¬ ∀ w,
    Reached .sample 10 .sample [.sample] (fun _ _ _ => True) w → Settled 10 .sample w := by
  intro hclaim
  obtain ⟨w', hstep, _, hsticks⟩ := root_completes .failed rfl
  have hsettled := hclaim w' (.complete (.launched (launched_sample .failed)) hstep trivial)
  apply (hsticks ?_).not_settled hsettled
  unfold Proceeds
  decide

end Progress

end Serverust
