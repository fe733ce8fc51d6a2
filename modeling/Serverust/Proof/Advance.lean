import Serverust.Proof.Progress

/-!
# What an advance starts

`advance_dag_run` collects ready nodes until the free slots are used up, and starts each of them. With
every job stored, the nodes it starts are the first of the nodes that wait and are ready, each gets one
execution and one queue entry, and nothing else of the run changes.
-/

namespace Serverust

open Calendar Resumption

namespace Advance

/-! ### Collecting -/

/-- The loop over the nodes, which breaks once the free slots are used up. -/
def collectReady (ready : DagNodeExecution → Bool) (slots : Nat) :
    List DagNodeExecution → List DagNodeExecution → List DagNodeExecution
  | [], newlyReady => newlyReady
  | node :: rest, newlyReady =>
    if node.status ≠ .waiting then collectReady ready slots rest newlyReady
    else if ready node then
      if slots ≤ (newlyReady ++ [node]).length then newlyReady ++ [node]
      else collectReady ready slots rest (newlyReady ++ [node])
    else collectReady ready slots rest newlyReady

theorem collectReady_eq (ready : DagNodeExecution → Bool) {slots : Nat}
    (nodes newlyReady : List DagNodeExecution) (hroom : newlyReady.length < slots) : collectReady ready slots nodes newlyReady = newlyReady ++
      (nodes.filter fun node => node.status = .waiting && ready node).take (slots - newlyReady.length) := by
  induction nodes generalizing newlyReady with
  | nil => simp [collectReady]
  | cons node rest ih =>
      obtain ⟨free, hfree⟩ : ∃ free, slots - newlyReady.length = free + 1 :=
        ⟨slots - newlyReady.length - 1, by omega⟩
      by_cases hwaiting : node.status = .waiting
      · by_cases hready : ready node = true
        · have hkeep : (decide (node.status = .waiting) && ready node) = true := by simp [hwaiting, hready]
          rw [collectReady, if_neg (not_not.mpr hwaiting), if_pos hready, List.filter_cons, if_pos hkeep,
            hfree, List.take_succ_cons]
          by_cases hfull : slots ≤ (newlyReady ++ [node]).length
          · rw [if_pos hfull]
            have hlast : free = 0 := by
              rw [List.length_append, List.length_singleton] at hfull
              omega
            rw [hlast, List.take_zero]
          · rw [if_neg hfull, ih _ (not_le.mp hfull), List.append_assoc, List.length_append,
              List.length_singleton, show slots - (newlyReady.length + 1) = free by omega]
            rfl
        · have hskip : ¬ (decide (node.status = .waiting) && ready node) = true := by simp [hready]
          rw [collectReady, if_neg (not_not.mpr hwaiting), if_neg hready, List.filter_cons, if_neg hskip]
          exact ih newlyReady hroom
      · have hskip : ¬ (decide (node.status = .waiting) && ready node) = true := by simp [hwaiting]
        rw [collectReady, if_pos hwaiting, List.filter_cons, if_neg hskip]
        exact ih newlyReady hroom

/-- What the loop collects, with its guard on the slots, is what the engine starts. -/
theorem newlyReady_eq_collect (nodes : List DagNodeExecution) (edges : List DagEdge) (dag : Dag) :
    DagEngine.newlyReady nodes edges dag =
      let slots := max (dag.maxConcurrentNodes - nodes.countP fun node => node.status = .running) 0
      if slots ≤ 0 then []
      else collectReady (fun node => DagEngine.isNodeReady node.jobId edges (DagEngine.statusOf nodes))
        slots.toNat nodes [] := by
  dsimp only [DagEngine.newlyReady]
  split
  · rename_i hnone
    rw [Int.toNat_of_nonpos hnone, List.take_zero]
  · rename_i hsome
    rw [collectReady_eq _ nodes [] (by rw [List.length_nil]; omega)]
    rfl

section

variable {nodes : List DagNodeExecution} {edges : List DagEdge} {dag : Dag}

/-- The node waits, and for each of its edges the upstream job has a node that meets the condition. -/
def Waits (edges : List DagEdge) (nodes : List DagNodeExecution) (node : DagNodeExecution) : Prop :=
  node.status = .waiting ∧ ∀ edge ∈ edges, edge.downstreamJobId = node.jobId →
    ∃ upstream ∈ nodes, upstream.jobId = edge.upstreamJobId ∧ upstream.status ∈ edge.condition.meeting

instance (edges : List DagEdge) (nodes : List DagNodeExecution) (node : DagNodeExecution) :
    Decidable (Waits edges nodes node) :=
  inferInstanceAs (Decidable (_ ∧ ∀ edge ∈ edges, edge.downstreamJobId = node.jobId →
    ∃ upstream ∈ nodes, upstream.jobId = edge.upstreamJobId ∧ upstream.status ∈ edge.condition.meeting))

/-- The first of the nodes that wait and are ready, as many as slots are free. -/
def starting (nodes : List DagNodeExecution) (edges : List DagEdge) (dag : Dag) : List DagNodeExecution :=
  (nodes.filter fun node => Waits edges nodes node).take
    (max 0 (dag.maxConcurrentNodes - nodes.countP fun node => node.status = .running)).toNat

theorem statusOf_iff (hjobs : Rows.Unique DagNodeExecution.jobId nodes) {job : Uuid} {status : NodeStatus} :
    DagEngine.statusOf nodes job = some status ↔ ∃ node ∈ nodes, node.jobId = job ∧ node.status = status := by
  constructor
  · exact DagEngine.statusOf_eq_some
  · rintro ⟨node, hnode, hjob, rfl⟩
    have hjobs' : Rows.Unique DagNodeExecution.jobId nodes.reverse := by
      rw [Rows.Unique, List.map_reverse, List.nodup_reverse]
      exact hjobs
    rw [DagEngine.statusOf, hjobs'.lookup (List.mem_reverse.mpr hnode) hjob]
    rfl

theorem isNodeReady_iff (hjobs : Rows.Unique DagNodeExecution.jobId nodes) {job : Uuid} :
    DagEngine.isNodeReady job edges (DagEngine.statusOf nodes) = true ↔
      ∀ edge ∈ edges, edge.downstreamJobId = job → ∃ upstream ∈ nodes, upstream.jobId = edge.upstreamJobId ∧
        upstream.status ∈ edge.condition.meeting := by
  constructor
  · intro hready edge hedge hdown
    obtain ⟨status, hstatus, hsatisfied⟩ := DagEngine.satisfied_of_ready hready hedge hdown
    obtain ⟨upstream, hupstream, hjob, rfl⟩ := DagEngine.statusOf_eq_some hstatus
    exact ⟨upstream, hupstream, hjob, DagEngine.satisfied_iff.mp hsatisfied⟩
  · intro hall
    apply List.all_eq_true.mpr
    intro edge hedge
    obtain ⟨hedge, hdown⟩ := List.mem_filter.mp hedge
    obtain ⟨upstream, hupstream, hjob, hmeeting⟩ := hall edge hedge (of_decide_eq_true hdown)
    rw [(statusOf_iff hjobs).mpr ⟨upstream, hupstream, hjob, rfl⟩]
    exact DagEngine.satisfied_iff.mpr hmeeting

theorem newlyReady_eq (hjobs : Rows.Unique DagNodeExecution.jobId nodes) :
    DagEngine.newlyReady nodes edges dag = starting nodes edges dag := by
  have hfilter : (nodes.filter fun node => node.status = .waiting &&
      DagEngine.isNodeReady node.jobId edges (DagEngine.statusOf nodes)) =
        nodes.filter fun node => Waits edges nodes node := by
    apply List.filter_congr
    intro node _
    rw [Bool.eq_iff_iff, Bool.and_eq_true, isNodeReady_iff hjobs, decide_eq_true_eq, decide_eq_true_eq, Waits]
  rw [DagEngine.newlyReady, starting, max_comm]
  exact congrArg (List.take _) hfilter

end

/-! ### Starting -/

/-- No id is handed out twice. -/
structure Fresh (w : World) : Prop where
  executions : ∀ exec ∈ w.db.executions, exec.id < w.nextUuid
  entries : ∀ entry ∈ w.db.jobQueue, entry.id < w.nextUuid
  queued : ∀ entry ∈ w.db.jobQueue, entry.executionId < w.nextUuid

/-- A node's row once it runs. -/
def launch (executionId : Uuid) (time : String) (node : DagNodeExecution) : DagNodeExecution :=
  { node with executionId := some executionId, status := .running, startedAt := some time }

/-- What starting one node does. -/
structure Started (node : DagNodeExecution) (w w' : World) : Prop where
  idle : w'.Idle
  fresh : Fresh w'
  now : w'.now = w.now
  later : w.nextUuid < w'.nextUuid
  jobs : w'.db.jobs.map Job.id = w.db.jobs.map Job.id
  selects : w'.db.Selects
  executions : w'.db.executions = w.db.executions ++ [.new w.nextUuid node.jobId none (toRfc3339 w.now)]
  nodes : w'.db.dagNodeExecutions = Rows.modify DagNodeExecution.id node.id
    (launch w.nextUuid (toRfc3339 w.now)) w.db.dagNodeExecutions
  entry : ∃ entry : QueueEntry, w'.db.jobQueue = w.db.jobQueue ++ [entry] ∧
    entry.executionId = w.nextUuid ∧ entry.jobId = node.jobId ∧ entry.status = .queued
  runs : w'.db.dagRuns = w.db.dagRuns

section

variable {w w' : World} {engine : DagEngine} {node : DagNodeExecution}

theorem setNode_launch (hunique : Rows.Unique DagNodeExecution.id w.db.dagNodeExecutions)
    (hnode : node ∈ w.db.dagNodeExecutions) (executionId : Uuid) (time : String) :
    (DagRepository.setNode (launch executionId time node) w.db).dagNodeExecutions =
      Rows.modify DagNodeExecution.id node.id (launch executionId time) w.db.dagNodeExecutions := by
  apply List.map_congr_left
  intro row hrow
  by_cases hid : row.id = node.id
  · rw [if_pos hid, hunique.eq_of_column hrow hnode hid]
    exact if_pos rfl
  · rw [if_neg hid]
    exact if_neg hid

theorem insertEntry_of_fresh {entry : QueueEntry} {db : Db} (hid : ∀ row ∈ db.jobQueue, row.id ≠ entry.id)
    (hexecution : ∀ row ∈ db.jobQueue, row.executionId ≠ entry.executionId)
    (hexec : ∃ exec ∈ db.executions, exec.id = entry.executionId)
    (hjob : ∃ job ∈ db.jobs, job.id = entry.jobId) :
    QueueRepository.insertEntry entry db = .ok ((), db.setQueue (db.jobQueue ++ [entry])) := by
  rw [QueueRepository.insertEntry, if_neg (not_not.mpr (Rows.hits_eq_zero.mpr hid)),
    if_neg (not_not.mpr (Rows.hits_eq_zero.mpr hexecution)), if_neg (Rows.hits_ne_zero.mpr hexec),
    if_neg (Rows.hits_ne_zero.mpr hjob)]
  rfl

/-- What creating the execution of a node does. -/
structure Created (jobId : Uuid) (w u : World) : Prop where
  idle : u.Idle
  now : u.now = w.now
  nextUuid : u.nextUuid = w.nextUuid + 1
  jobs : u.db.jobs.map Job.id = w.db.jobs.map Job.id
  selects : u.db.Selects
  executions : u.db.executions = w.db.executions ++ [.new w.nextUuid jobId none (toRfc3339 w.now)]
  nodes : u.db.dagNodeExecutions = w.db.dagNodeExecutions
  entries : u.db.jobQueue = w.db.jobQueue
  runs : u.db.dagRuns = w.db.dagRuns

theorem returns_createExecution (hidle : w.Idle) (hfresh : Fresh w) (hselects : w.db.Selects) {job : Job}
    (hjob : job ∈ w.db.jobs) :
    Task.Returns (fun execution u => execution.id = w.nextUuid ∧ Created job.id w u)
      (ExecutionService.createExecution job.id none) w := by
  apply (Progress.returns_createExecution_row hidle hfresh.executions hselects hjob none).mono
  rintro execution _ ⟨hid, jobs, hjobs, hselects', rfl⟩
  exact ⟨hid, ⟨hidle.free, hidle.fault⟩, rfl, rfl, hjobs, hselects', rfl, rfl, rfl, rfl⟩

theorem insertEntry_created {u : World} {jobId : Uuid} (hfresh : Fresh w) (h : Created jobId w u)
    (item : QueueItem) (hexecution : item.executionId = w.nextUuid)
    (hjob : ∃ job ∈ w.db.jobs, job.id = item.jobId) (db : Db) (hqueue : db.jobQueue = u.db.jobQueue)
    (hjobs : db.jobs = u.db.jobs) (hexecutions : db.executions = u.db.executions) :
    QueueRepository.insertEntry (entryOf item u) db =
      .ok ((), db.setQueue (db.jobQueue ++ [entryOf item u])) := by
  rw [h.entries] at hqueue
  apply insertEntry_of_fresh
  · intro row hrow
    have hlt := hfresh.entries row (hqueue ▸ hrow)
    show row.id ≠ u.nextUuid
    rw [h.nextUuid]
    exact (hlt.trans (Nat.lt_succ_self _)).ne
  · intro row hrow
    show row.executionId ≠ item.executionId
    rw [hexecution]
    exact (hfresh.queued row (hqueue ▸ hrow)).ne
  · rw [hexecutions, h.executions]
    exact ⟨_, List.mem_append_right _ (List.mem_singleton.mpr rfl), hexecution.symm⟩
  · obtain ⟨job, hjob, hid⟩ := hjob
    have hmem : item.jobId ∈ db.jobs.map Job.id := by
      rw [hjobs, h.jobs, ← hid]
      exact List.mem_map_of_mem hjob
    exact List.mem_map.mp hmem

theorem Created.fresh {u : World} {jobId : Uuid} (hfresh : Fresh w) (h : Created jobId w u) : Fresh u where
  executions := by
    intro exec hexec
    rw [h.nextUuid]
    rcases List.mem_append.mp (h.executions ▸ hexec) with hold | hlast
    · exact (hfresh.executions exec hold).trans (Nat.lt_succ_self _)
    · rw [List.mem_singleton.mp hlast]
      exact Nat.lt_succ_self w.nextUuid
  entries := by
    rw [h.entries, h.nextUuid]
    exact fun entry hentry => (hfresh.entries entry hentry).trans (Nat.lt_succ_self _)
  queued := by
    rw [h.entries, h.nextUuid]
    exact fun entry hentry => (hfresh.queued entry hentry).trans (Nat.lt_succ_self _)

theorem Fresh.entry (h : Fresh w) (entry : QueueEntry) (hid : entry.id = w.nextUuid)
    (hexecution : entry.executionId < w.nextUuid) (hexecutions : w'.db.executions = w.db.executions)
    (hqueue : w'.db.jobQueue = w.db.jobQueue ++ [entry]) (hnext : w'.nextUuid = w.nextUuid + 1) : Fresh w' where
  executions := by
    rw [hexecutions, hnext]
    exact fun exec hexec => (h.executions exec hexec).trans (Nat.lt_succ_self _)
  entries := by
    rw [hqueue, hnext]
    intro row hrow
    rcases List.mem_append.mp hrow with hold | hlast
    · exact (h.entries row hold).trans (Nat.lt_succ_self _)
    · rw [List.mem_singleton.mp hlast, hid]
      exact Nat.lt_succ_self _
  queued := by
    rw [hqueue, hnext]
    intro row hrow
    rcases List.mem_append.mp hrow with hold | hlast
    · exact (h.queued row hold).trans (Nat.lt_succ_self _)
    · rw [List.mem_singleton.mp hlast]
      exact hexecution.trans (Nat.lt_succ_self _)

theorem returns_startNode (hidle : w.Idle) (hfresh : Fresh w) (hselects : w.db.Selects)
    (hunique : Rows.Unique DagNodeExecution.id w.db.dagNodeExecutions) (hnode : node ∈ w.db.dagNodeExecutions)
    (hjob : ∃ job ∈ w.db.jobs, job.id = node.jobId) :
    Task.Returns (fun _ w' => Started node w w') (engine.startNode node) w := by
  obtain ⟨job, hjob, heq⟩ := hjob
  obtain ⟨found, hfound, hfoundId, hread⟩ := run_getJob hidle.fault hjob
  rw [heq] at hread hfoundId
  have hattempt : (JobRepository.getById node.jobId).attempt.run w = some (.ok (.ok found), w) := by
    rw [Task.run_attempt, hread]
    rfl
  apply Task.Returns.after hattempt
  have hcreate := returns_createExecution hidle hfresh hselects hfound
  rw [hfoundId] at hcreate
  apply hcreate.attempt.bind
  rintro _ u ⟨execution, rfl, hid, hu⟩
  apply Task.Returns.after run_nowRfc3339
  -- The node's row.
  let started := launch execution.id (toRfc3339 u.now) node
  have hrefers : DagRepository.refers started.executionId u.db = true := by
    simp only [started, launch, DagRepository.refers, decide_eq_true_eq, hu.executions]
    exact Rows.hits_ne_zero.mpr ⟨_, List.mem_append_right _ (List.mem_singleton.mpr rfl), hid.symm⟩
  have hnode' : node ∈ u.db.dagNodeExecutions := hu.nodes ▸ hnode
  obtain ⟨_, hupdate⟩ : ∃ row, (DagRepository.updateNodeExecution started).run u = some (.ok row, _) :=
    DagRepository.run_updateNodeExecution hu.idle.fault hnode' rfl hrefers
  apply Task.Returns.after hupdate
  -- The entry of the new execution.
  let v : World := { u with db := DagRepository.setNode started u.db }
  let item : QueueItem := .new execution found found.priority
  have hinsert := insertEntry_created hfresh hu item hid ⟨found, hfound, rfl⟩ v.db rfl rfl rfl
  have henqueue := run_enqueue_ok engine.queueManager (w := v) ⟨hu.idle.free, hu.idle.fault⟩ item hinsert
  let w' : World := { v with
    db := v.db.setQueue (v.db.jobQueue ++ [entryOf item u])
    memoryQueue := pushed engine.queueManager v.memoryQueue item
    nextUuid := v.nextUuid + 1
    locked := false }
  have hdone : (engine.queueManager.enqueue item).attempt.run v = some (.ok (.ok ()), w') := by
    rw [Task.run_attempt, henqueue]
    rfl
  apply Task.Returns.after hdone
  apply Task.Returns.of_run rfl
  have hentry : execution.id < u.nextUuid := by
    rw [hid, hu.nextUuid]
    exact Nat.lt_succ_self _
  have hlater : w.nextUuid < u.nextUuid + 1 := by
    rw [hu.nextUuid]
    exact (Nat.lt_succ_self _).trans (Nat.lt_succ_self _)
  refine ⟨⟨rfl, hu.idle.fault⟩, ?_, hu.now, hlater, hu.jobs, hu.selects, hu.executions, ?_,
    ⟨entryOf item u, ?_, hid, hfoundId, rfl⟩, hu.runs⟩
  · exact (hu.fresh hfresh).entry (entryOf item u) rfl hentry rfl rfl rfl
  · have hmodify := setNode_launch (hu.nodes ▸ hunique) hnode' execution.id (toRfc3339 u.now)
    rw [hu.nodes, hid, hu.now] at hmodify
    show (DagRepository.setNode started u.db).dagNodeExecutions = _
    rw [← hmodify]
    simp only [started, hid, hu.now]
  · rw [← hu.entries]
    rfl

end

/-! ### Advancing -/

/-- The row of a node, running if it is one of those started. -/
def launchIn (started : List DagNodeExecution) (exec : Uuid → Uuid) (time : String) (row : DagNodeExecution) :
    DagNodeExecution :=
  if row.id ∈ started.map DagNodeExecution.id then launch (exec row.id) time row else row

/-- What starting these nodes does, each with the execution that `exec` gives it. -/
structure Launches (started : List DagNodeExecution) (exec : Uuid → Uuid) (w w' : World) : Prop where
  distinct : (started.map fun node => exec node.id).Nodup
  new : ∀ node ∈ started, ∀ x ∈ w.db.executions, x.id ≠ exec node.id
  executions : w'.db.executions =
    w.db.executions ++ started.map fun node => .new (exec node.id) node.jobId none (toRfc3339 w.now)
  nodes : w'.db.dagNodeExecutions = w.db.dagNodeExecutions.map (launchIn started exec (toRfc3339 w.now))
  entries : ∃ entries : List QueueEntry, w'.db.jobQueue = w.db.jobQueue ++ entries ∧
    entries.map (fun entry => (entry.executionId, entry.jobId, entry.status)) =
      started.map fun node => (exec node.id, node.jobId, .queued)
  runs : w'.db.dagRuns = w.db.dagRuns

section

variable {w w' : World} {node : DagNodeExecution} {todo : List DagNodeExecution}

theorem Launches.nil (exec : Uuid → Uuid) (w : World) : Launches [] exec w w where
  distinct := List.nodup_nil
  new _ h := nomatch h
  executions := (List.append_nil _).symm
  nodes := by
    have hid : launchIn [] exec (toRfc3339 w.now) = id := by
      funext row
      simp [launchIn]
    rw [hid, List.map_id]
  entries := ⟨[], (List.append_nil _).symm, rfl⟩
  runs := rfl

theorem Launches.cons {u : World} {exec : Uuid → Uuid} (hfresh : Fresh w) (hfirst : Started node w u)
    (hrest : Launches todo exec u w') (hlater : ∀ other ∈ todo, u.nextUuid ≤ exec other.id)
    (hid : node.id ∉ todo.map DagNodeExecution.id) :
    Launches (node :: todo) (Function.update exec node.id w.nextUuid) w w' := by
  have hother : ∀ other ∈ todo, Function.update exec node.id w.nextUuid other.id = exec other.id := by
    intro other hother
    apply Function.update_of_ne
    rintro heq
    exact hid (List.mem_map.mpr ⟨other, hother, heq⟩)
  have hself : Function.update exec node.id w.nextUuid node.id = w.nextUuid := Function.update_self ..
  refine ⟨?_, ?_, ?_, ?_, ?_, hrest.runs.trans hfirst.runs⟩
  · rw [List.map_cons, hself, List.map_congr_left hother, List.nodup_cons]
    refine ⟨?_, hrest.distinct⟩
    intro hmem
    obtain ⟨other, hother, heq⟩ := List.mem_map.mp hmem
    have hle := hlater other hother
    rw [heq] at hle
    exact absurd hfirst.later (not_lt.mpr hle)
  · intro other hmem x hx
    rcases List.mem_cons.mp hmem with rfl | hmem
    · rw [hself]
      exact (hfresh.executions x hx).ne
    · rw [hother other hmem]
      apply hrest.new other hmem x
      rw [hfirst.executions]
      exact List.mem_append_left _ hx
  · have hmap : ∀ other ∈ todo,
        Execution.new (Function.update exec node.id w.nextUuid other.id) other.jobId none (toRfc3339 w.now) =
          .new (exec other.id) other.jobId none (toRfc3339 w.now) := by
      intro other hmem
      rw [hother other hmem]
    rw [hrest.executions, hfirst.executions, hfirst.now, List.map_cons, hself, List.map_congr_left hmap,
      List.append_assoc]
    rfl
  · rw [hrest.nodes, hfirst.nodes, hfirst.now, Rows.modify, List.map_map]
    apply List.map_congr_left
    intro row _
    by_cases heq : row.id = node.id
    · have hnot : (launch w.nextUuid (toRfc3339 w.now) row).id ∉ todo.map DagNodeExecution.id := by
        rw [← heq] at hid
        exact hid
      have hmem : row.id ∈ (node :: todo).map DagNodeExecution.id := by
        rw [heq]
        exact List.mem_cons_self
      rw [Function.comp_apply, if_pos heq, launchIn, if_neg hnot, launchIn, if_pos hmem, heq, hself]
    · have hiff : row.id ∈ (node :: todo).map DagNodeExecution.id ↔ row.id ∈ todo.map DagNodeExecution.id := by
        rw [List.map_cons, List.mem_cons, or_iff_right heq]
      rw [Function.comp_apply, if_neg heq, launchIn, launchIn, Function.update_of_ne heq]
      exact if_congr hiff.symm rfl rfl
  · obtain ⟨entry, hentry, hexecution, hjob, hstatus⟩ := hfirst.entry
    obtain ⟨entries, hentries, hall⟩ := hrest.entries
    have hmap : ∀ other ∈ todo,
        (Function.update exec node.id w.nextUuid other.id, other.jobId, QueueStatus.queued) =
          (exec other.id, other.jobId, .queued) := by
      intro other hmem
      rw [hother other hmem]
    refine ⟨entry :: entries, ?_, ?_⟩
    · rw [hentries, hentry, List.append_assoc]
      rfl
    · rw [List.map_cons, List.map_cons, hall, hexecution, hjob, hstatus, hself, List.map_congr_left hmap]

theorem returns_startAll (engine : DagEngine) (hidle : w.Idle) (hfresh : Fresh w) (hselects : w.db.Selects)
    (hunique : Rows.Unique DagNodeExecution.id w.db.dagNodeExecutions)
    (hstored : ∀ node ∈ todo, node ∈ w.db.dagNodeExecutions) (hdistinct : Rows.Unique DagNodeExecution.id todo)
    (hjobs : ∀ node ∈ todo, ∃ job ∈ w.db.jobs, job.id = node.jobId) :
    Task.Returns (fun _ w' => ∃ exec, Launches todo exec w w' ∧ ∀ node ∈ todo, w.nextUuid ≤ exec node.id)
      (todo.forM engine.startNode) w := by
  induction todo generalizing w with
  | nil => exact .of_run rfl ⟨id, .nil id w, nofun⟩
  | cons node todo ih =>
      obtain ⟨hnot, hrest⟩ := List.nodup_cons.mp hdistinct
      change Task.Returns _ (engine.startNode node >>= fun _ => todo.forM engine.startNode) w
      apply (returns_startNode hidle hfresh hselects hunique (hstored node List.mem_cons_self)
        (hjobs node List.mem_cons_self)).bind
      intro _ u hu
      have huniqueU : Rows.Unique DagNodeExecution.id u.db.dagNodeExecutions := by
        rw [hu.nodes]
        exact hunique.modify (f := launch w.nextUuid (toRfc3339 w.now)) (fun _ => rfl) node.id
      have hstoredU : ∀ other ∈ todo, other ∈ u.db.dagNodeExecutions := by
        intro other hother
        rw [hu.nodes]
        apply Rows.mem_modify_of_ne (hstored other (List.mem_cons_of_mem node hother))
        exact fun heq => hnot (List.mem_map.mpr ⟨other, hother, heq⟩)
      have hjobsU : ∀ other ∈ todo, ∃ job ∈ u.db.jobs, job.id = other.jobId := by
        intro other hother
        obtain ⟨job, hjob, hid⟩ := hjobs other (List.mem_cons_of_mem node hother)
        have hmem : other.jobId ∈ u.db.jobs.map Job.id := by
          rw [hu.jobs, ← hid]
          exact List.mem_map_of_mem hjob
        exact List.mem_map.mp hmem
      apply (ih hu.idle hu.fresh hu.selects huniqueU hstoredU hrest hjobsU).mono
      rintro _ w' ⟨exec, hlaunches, hlater⟩
      refine ⟨Function.update exec node.id w.nextUuid, hlaunches.cons hfresh hu hlater hnot, ?_⟩
      intro other hother
      by_cases heq : other.id = node.id
      · rw [heq]
        exact (Function.update_self node.id w.nextUuid exec).ge
      · rw [Function.update_of_ne heq]
        rcases List.mem_cons.mp hother with rfl | hother
        · exact absurd rfl heq
        · exact hu.later.le.trans (hlater other hother)

/-- A row that satisfies `p` after a change satisfied it before, or is one of those that `q` selects. -/
theorem countP_map_le {ρ : Type} {p q : ρ → Bool} {f : ρ → ρ}
    (h : ∀ row, p (f row) = true → p row = true ∨ q row = true) (rows : List ρ) : (rows.map f).countP p ≤ rows.countP p + rows.countP q := by
  induction rows with
  | nil => exact Nat.zero_le _
  | cons row rows ih =>
      simp only [List.map_cons, List.countP_cons]
      by_cases hafter : p (f row) = true
      · rcases h row hafter with hbefore | hselected
        · simp only [hafter, hbefore, if_true]
          omega
        · simp only [hafter, hselected, if_true]
          omega
      · simp only [hafter, Bool.false_eq_true, if_false]
        omega

theorem Launches.length_running (runId : Uuid) {exec : Uuid → Uuid} (h : Launches todo exec w w')
    (hunique : Rows.Unique DagNodeExecution.id w.db.dagNodeExecutions) :
    (runningNodes runId w'.db).length ≤ (runningNodes runId w.db).length + todo.length := by
  have hcount (db : Db) : (runningNodes runId db).length =
      db.dagNodeExecutions.countP fun node => node.status = .running && node.dagRunId = runId := by
    rw [runningNodes, ← List.countP_eq_length_filter, DagRepository.nodesOfRun,
      (List.perm_insertionSort _ _).countP_eq, List.countP_filter]
  have hstarted : w.db.dagNodeExecutions.countP (fun row => row.id ∈ todo.map DagNodeExecution.id) ≤
      todo.length := by
    have hsubset : (w.db.dagNodeExecutions.filter fun row => row.id ∈ todo.map DagNodeExecution.id).map
        DagNodeExecution.id ⊆ todo.map DagNodeExecution.id := by
      intro id hid
      obtain ⟨row, hrow, rfl⟩ := List.mem_map.mp hid
      exact of_decide_eq_true (List.mem_filter.mp hrow).2
    have hle := (List.Nodup.subperm (hunique.sublist (List.filter_sublist.map _)) hsubset).length_le
    rwa [List.length_map, List.length_map, ← List.countP_eq_length_filter] at hle
  rw [hcount, hcount, h.nodes]
  apply (countP_map_le (q := fun row => row.id ∈ todo.map DagNodeExecution.id) ?_ _).trans
  · omega
  · intro row hrow
    by_cases hmem : row.id ∈ todo.map DagNodeExecution.id
    · exact .inr (decide_eq_true hmem)
    · rw [launchIn, if_neg hmem] at hrow
      exact .inl hrow

end

theorem length_starting_le (nodes : List DagNodeExecution) (edges : List DagEdge) (dag : Dag) :
    (nodes.countP (fun node => node.status = .running) + (starting nodes edges dag).length : Int) ≤
      max dag.maxConcurrentNodes (nodes.countP fun node => node.status = .running) := by
  have htake : (starting nodes edges dag).length ≤
      (max 0 (dag.maxConcurrentNodes - nodes.countP fun node => node.status = .running)).toNat :=
    List.length_take_le _ _
  omega

/-- An advance returns, has started the first of the nodes that wait and are ready, and leaves no more
nodes running than the limit or than ran before. -/
theorem advanceDagRun_starts (engine : DagEngine) (runId : Uuid) (edges : List DagEdge) (dag : Dag) {w : World}
    (hidle : w.Idle) (hfresh : Fresh w) (hselects : w.db.Selects)
    (hunique : Rows.Unique DagNodeExecution.id w.db.dagNodeExecutions)
    (honePerJob : Rows.Unique DagNodeExecution.jobId (DagRepository.nodesOfRun runId w.db))
    (hjobs : ∀ node ∈ DagRepository.nodesOfRun runId w.db, ∃ job ∈ w.db.jobs, job.id = node.jobId) :
    ∃ w' exec, (engine.advanceDagRun runId edges dag).run w = some (.ok (), w') ∧
      Launches (starting (DagRepository.nodesOfRun runId w.db) edges dag) exec w w' ∧
      ((runningNodes runId w'.db).length : Int) ≤
        max dag.maxConcurrentNodes (runningNodes runId w.db).length := by
  let nodes := DagRepository.nodesOfRun runId w.db
  have hmem : ∀ node ∈ starting nodes edges dag, node ∈ nodes := fun node hnode =>
    (List.mem_filter.mp (List.mem_of_mem_take hnode)).1
  have hdistinct : Rows.Unique DagNodeExecution.id (starting nodes edges dag) := by
    have hnodes : Rows.Unique DagNodeExecution.id nodes := by
      apply ((List.perm_insertionSort _ _).map DagNodeExecution.id).nodup_iff.mpr
      exact hunique.sublist (List.filter_sublist.map _)
    exact hnodes.sublist (((List.take_sublist _ _).trans List.filter_sublist).map _)
  obtain ⟨_, w', hrun, exec, hlaunches, _⟩ := returns_startAll engine hidle hfresh hselects hunique
    (fun node hnode => (DagRepository.mem_nodesOfRun.mp (hmem node hnode)).1) hdistinct
    fun node hnode => hjobs node (hmem node hnode)
  refine ⟨w', exec, ?_, hlaunches, ?_⟩
  · simp only [DagEngine.advanceDagRun, Task.run_bind, DagRepository.getNodeExecutionsByRunId,
      run_select hidle.fault, newlyReady_eq honePerJob]
    exact hrun
  · have hlength := hlaunches.length_running runId hunique
    have hlimit := length_starting_le nodes edges dag
    have hcount : (runningNodes runId w.db).length = nodes.countP fun node => node.status = .running :=
      List.countP_eq_length_filter.symm
    rw [← hcount] at hlimit
    omega

/-- Job 1 of the sample DAG has succeeded. -/
def halfway : World :=
  .start { Db.sampleDag with
    executions := [{ Execution.new 7 1 none "" with status := .success }]
    dagRuns := [{ DagRun.new 10 5 "manual" 2 "" with status := .running }]
    dagNodeExecutions := [{ Progress.rootNode with status := .success }, .new 12 10 2 ""] } epoch 1000

/-- Job 2 is started. -/
theorem advanceDagRun_starts_halfway : ∃ w' exec,
    (DagEngine.sample.advanceDagRun 10 [.sample] .sample).run halfway = some (.ok (), w') ∧
      Launches (starting (DagRepository.nodesOfRun 10 halfway.db) [.sample] .sample) exec halfway w' ∧
      ((runningNodes 10 w'.db).length : Int) ≤
        max Dag.sample.maxConcurrentNodes (runningNodes 10 halfway.db).length := by
  have hfresh : Fresh halfway := ⟨by decide, by decide, by decide⟩
  have hselects : halfway.db.Selects := by
    unfold Db.Selects
    decide
  apply advanceDagRun_starts .sample 10 [.sample] .sample ⟨rfl, rfl⟩ hfresh hselects
  · show [11, 12].Nodup
    decide
  · show [1, 2].Nodup
    decide
  · decide

example : (starting (DagRepository.nodesOfRun 10 halfway.db) [.sample] .sample).map DagNodeExecution.id =
    [12] := by
  decide

end Advance

end Serverust
