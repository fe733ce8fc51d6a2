import Serverust.Proof.Levels
import Serverust.Proof.ServerRuns
import Serverust.Proof.TriggerFaults

/-!
# What the check of a DAG foretells

`validate_dag` shows a DAG to the user: whether it is valid, how many nodes it has, and in which levels they are.
Whether it can be triggered, and what the new run looks like, follows from what is shown.
-/

namespace Serverust

open Resumption

/-! ### The levels -/

namespace DagService

variable {edges : List DagEdge} {hash : HashOrder} {levels : List (List Uuid)} {job : Uuid}

theorem IsDepth.unique {m n : Nat} (hm : IsDepth edges job m) (hn : IsDepth edges job n) : m = n :=
  IsGreatest.unique hm hn

/-- A job is at depth zero exactly if no edge leads to it. -/
theorem isDepth_zero_iff : IsDepth edges job 0 ↔ job ∉ edges.map DagEdge.downstreamJobId := by
  constructor
  · intro hdepth hdown
    obtain ⟨edge, hedge, hjob⟩ := List.mem_map.mp hdown
    have hleads : Leads edges edge.upstreamJobId job := ⟨edge, hedge, rfl, hjob⟩
    have hpath : Acyclic.PathTo (Leads edges) 1 job := .step (.start edge.upstreamJobId) hleads
    have hle : 1 ≤ 0 := hdepth.2 hpath
    omega
  · intro hnot
    apply Acyclic.isDepth_zero
    rintro up ⟨edge, hedge, -, hjob⟩
    exact hnot (List.mem_map.mpr ⟨edge, hedge, hjob⟩)

/-- The edges that have levels form no cycle. Each job is in one level, and the first level are the root jobs. -/
structure Layered (edges : List DagEdge) (levels : List (List Uuid)) : Prop where
  acyclic : Acyclic.On (Leads edges)
  perm : levels.flatten.Perm (allNodes edges)
  first : ∀ job, job ∈ levels.head?.getD [] ↔ job ∈ rootJobs edges

theorem layered_of_levels (h : topologicalLevels hash edges = .ok levels) : Layered edges levels := by
  obtain ⟨s, shown, hlayers, hqueue, heq⟩ := topologicalLevels_eq hash edges
  have hsound := hlayers.layer.sound
  have hsorted : (Kahn.after shown.flatten { s with sorted := [] }).sorted = shown.flatten := List.append_nil _
  rw [heq] at h
  split at h
  · cases h
  rename_i hlength
  cases h
  obtain ⟨hperm, hacyclic⟩ := hsound.acyclic (by rw [hsorted, not_not.mp hlength])
  rw [hsorted] at hperm
  refine ⟨hacyclic, hperm, fun job => ?_⟩
  rw [mem_rootJobs, ← isDepth_zero_iff, List.head?_eq_getElem?]
  constructor
  · intro hjob
    cases hlevel : levels[0]? with
    | none =>
        rw [hlevel] at hjob
        cases hjob
    | some level =>
        rw [hlevel] at hjob
        have hmem : level ∈ levels := List.mem_of_getElem? hlevel
        refine ⟨hperm.mem_iff.mp (List.mem_flatten.mpr ⟨level, hmem, hjob⟩), ?_⟩
        exact (hlayers.level 0 level hlevel).2 job hjob
  · rintro ⟨hjob, hzero⟩
    obtain ⟨level, hmem, hin⟩ := List.mem_flatten.mp (hperm.mem_iff.mpr hjob)
    obtain ⟨i, hi⟩ := List.mem_iff_getElem?.mp hmem
    obtain rfl : i = 0 := ((hlayers.level i level hi).2 job hin).unique hzero
    rw [hi]
    exact hin

theorem levels_of_acyclic (hash : HashOrder) (hacyclic : Acyclic.On (Leads edges)) :
    ∃ levels, topologicalLevels hash edges = .ok levels := by
  obtain ⟨s, levels, hlayers, hqueue, heq⟩ := topologicalLevels_eq hash edges
  have hperm := hlayers.layer.sound.perm_of_acyclic hlayers.layer.complete hqueue hacyclic
  have hsorted : (Kahn.after levels.flatten { s with sorted := [] }).sorted = levels.flatten := List.append_nil _
  rw [hsorted] at hperm
  exact ⟨levels, by rw [heq, if_neg (not_not.mpr hperm.length_eq)]⟩

/-! ### What is shown -/

variable {w : World} {dagId : Uuid} {dag : Dag}

/-- What a response says about the edges. -/
structure Shows (edges : List DagEdge) (response : DagValidationResponse) : Prop where
  totalEdges : response.totalEdges = edges.length
  totalNodes : response.totalNodes = response.levels.flatten.length
  valid : response.valid = true → Layered edges response.levels
  invalid : response.valid = false → ¬ Acyclic.On (Leads edges)

theorem run_getById (hfault : w.fault = none) (hdag : Rows.lookup Dag.id dagId w.db.dags = some dag) :
    (DagRepository.getById dagId).run w = some (.ok dag, w) := by
  simp only [DagRepository.getById, Task.run_bind, run_select hfault, hdag, run_okOr_some]

theorem run_getEdgesByDagId (hfault : w.fault = none) :
    (DagRepository.getEdgesByDagId dagId).run w = some (.ok (edgesOf dagId w.db), w) := run_select hfault

theorem run_validateDag (hash : HashOrder) (hfault : w.fault = none)
    (hdag : Rows.lookup Dag.id dagId w.db.dags = some dag) :
    ∃ response, (validateDag hash dagId).run w = some (.ok response, w) ∧
      Shows (edgesOf dagId w.db) response := by
  simp only [validateDag, Task.run_bind, run_getById hfault hdag, run_getEdgesByDagId hfault]
  split
  · rename_i hempty
    have hnil := List.isEmpty_iff.mp hempty
    have hlevels : topologicalLevels hash [] = .ok [] := rfl
    refine ⟨_, rfl, ?_⟩
    rw [hnil]
    exact { totalEdges := rfl, totalNodes := rfl, invalid := Bool.noConfusion
            valid := fun _ => layered_of_levels hlevels }
  · cases hlevels : topologicalLevels hash (edgesOf dagId w.db) with
    | ok levels =>
        refine ⟨_, rfl, ?_⟩
        exact { totalEdges := rfl, totalNodes := sum_length levels, invalid := Bool.noConfusion
                valid := fun _ => layered_of_levels hlevels }
    | error e =>
        refine ⟨_, rfl, ?_⟩
        refine { totalEdges := rfl, totalNodes := rfl, valid := Bool.noConfusion, invalid := fun _ hacyclic => ?_ }
        obtain ⟨levels, hok⟩ := levels_of_acyclic hash hacyclic
        rw [hlevels] at hok
        cases hok

end DagService

/-! ### The run of a trigger -/

namespace Trigger

variable {w : World} {runId id jobId : Uuid} {now : String} {jobs ids : List Uuid} {node : DagNodeExecution}
  {old new nodes : List DagNodeExecution}

def setNodes (nodes : List DagNodeExecution) (w : World) : World :=
  { w with db := { w.db with dagNodeExecutions := nodes } }

/-- The nodes that are created for these jobs, the first with this id. -/
def newNodes (runId : Uuid) (now : String) : Uuid → List Uuid → List DagNodeExecution
  | _, [] => []
  | id, jobId :: jobs => .new id runId jobId now :: newNodes runId now (id + 1) jobs

/-- The node, set to ready if its id is one of these. -/
def mark (ids : List Uuid) (node : DagNodeExecution) : DagNodeExecution :=
  if node.id ∈ ids then { node with status := .ready } else node

@[simp] theorem mark_id : (mark ids node).id = node.id := by
  unfold mark
  split <;> rfl

@[simp] theorem mark_jobId : (mark ids node).jobId = node.jobId := by
  unfold mark
  split <;> rfl

@[simp] theorem mark_dagRunId : (mark ids node).dagRunId = node.dagRunId := by
  unfold mark
  split <;> rfl

theorem mark_status : (mark ids node).status = if node.id ∈ ids then .ready else node.status := by
  unfold mark
  split <;> rfl

theorem map_mark_nil : new.map (mark []) = new := List.map_id' new

@[simp] theorem map_jobId_newNodes : (newNodes runId now id jobs).map DagNodeExecution.jobId = jobs := by
  induction jobs generalizing id with
  | nil => rfl
  | cons jobId jobs ih => exact congrArg (jobId :: ·) ih

theorem eq_new_of_mem (h : node ∈ newNodes runId now id jobs) :
    id ≤ node.id ∧ node = .new node.id runId node.jobId now := by
  induction jobs generalizing id with
  | nil => cases h
  | cons jobId jobs ih =>
      rcases List.mem_cons.mp h with rfl | hrest
      · exact ⟨le_rfl, rfl⟩
      · obtain ⟨hle, hnew⟩ := ih hrest
        exact ⟨(Nat.le_succ id).trans hle, hnew⟩

theorem unique_newNodes : Rows.Unique DagNodeExecution.id (newNodes runId now id jobs) := by
  induction jobs generalizing id with
  | nil => exact List.nodup_nil
  | cons jobId jobs ih =>
      refine List.nodup_cons.mpr ⟨fun hmem => ?_, ih⟩
      obtain ⟨node, hnode, hid⟩ := List.mem_map.mp hmem
      have hle := (eq_new_of_mem hnode).1
      rw [show node.id = id from hid] at hle
      exact Nat.not_succ_le_self id hle

/-! ### Creating the nodes -/

theorem run_createNode (hfault : w.fault = none) (hfresh : ∀ row ∈ w.db.dagNodeExecutions, row.id < w.nextUuid)
    (hrun : ∃ run ∈ w.db.dagRuns, run.id = runId) (hjob : ∃ job ∈ w.db.jobs, job.id = jobId) :
    (DagEngine.createNode runId jobId).run w = some (.ok (), { setNodes (w.db.dagNodeExecutions ++
      [.new w.nextUuid runId jobId (toRfc3339 w.now)]) w with nextUuid := w.nextUuid + 1 }) := by
  set node : DagNodeExecution := .new w.nextUuid runId jobId (toRfc3339 w.now) with hnode
  set u : World := { w with nextUuid := w.nextUuid + 1 } with hu
  have hunused : ∀ row ∈ w.db.dagNodeExecutions, row.id ≠ node.id := fun row hrow => (hfresh row hrow).ne
  have hinsert : DagRepository.insertNode node u.db =
      .ok ((), { w.db with dagNodeExecutions := w.db.dagNodeExecutions ++ [node] }) :=
    (if_neg (not_not.mpr (Rows.hits_eq_zero.mpr hunused))).trans <|
      (if_neg (Rows.hits_ne_zero.mpr hrun)).trans <| (if_neg (Rows.hits_ne_zero.mpr hjob)).trans rfl
  obtain ⟨found, hfound⟩ : ∃ found, Rows.lookup DagNodeExecution.id node.id
      (w.db.dagNodeExecutions ++ [node]) = some found :=
    Rows.lookup_isSome (List.mem_append_right _ (List.mem_singleton.mpr rfl)) rfl
  have hcreate : (DagRepository.createNodeExecution node).run u =
      some (.ok found, setNodes (w.db.dagNodeExecutions ++ [node]) u) := by
    simp only [DagRepository.createNodeExecution, DagRepository.getNodeExecutionById, Task.run_bind,
      run_sql (w := u) hfault, hinsert]
    rw [run_select (by exact hfault)]
    dsimp only
    rw [hfound, run_okOr_some]
    rfl
  simp only [DagEngine.createNode, Task.run_bind, run_newV4, run_nowRfc3339]
  rw [← hu, ← hnode, hcreate]
  rfl

theorem run_fill (hfault : w.fault = none) (hfresh : ∀ row ∈ w.db.dagNodeExecutions, row.id < w.nextUuid)
    (hrun : ∃ run ∈ w.db.dagRuns, run.id = runId) (hjobs : ∀ jobId ∈ jobs, ∃ job ∈ w.db.jobs, job.id = jobId) :
    (jobs.forM (DagEngine.createNode runId)).run w = some (.ok (), { setNodes (w.db.dagNodeExecutions ++
      newNodes runId (toRfc3339 w.now) w.nextUuid jobs) w with nextUuid := w.nextUuid + jobs.length }) := by
  induction jobs generalizing w with
  | nil =>
      rw [newNodes, List.append_nil]
      rfl
  | cons jobId jobs ih =>
      change (DagEngine.createNode runId jobId >>= fun _ => jobs.forM (DagEngine.createNode runId)).run w = _
      rw [Task.run_bind, run_createNode hfault hfresh hrun (hjobs jobId List.mem_cons_self)]
      set u : World := { setNodes (w.db.dagNodeExecutions ++ [.new w.nextUuid runId jobId (toRfc3339 w.now)]) w with
        nextUuid := w.nextUuid + 1 } with hu
      have hlater : ∀ row ∈ u.db.dagNodeExecutions, row.id < u.nextUuid := by
        intro row hrow
        rcases List.mem_append.mp hrow with hold | hlast
        · exact (hfresh row hold).trans (Nat.lt_succ_self _)
        · rw [List.mem_singleton.mp hlast]
          exact Nat.lt_succ_self _
      have hrest := ih (w := u) hfault hlater hrun fun other hother => hjobs other (List.mem_cons_of_mem _ hother)
      refine hrest.trans ?_
      simp only [hu, setNodes, newNodes, List.append_assoc, List.singleton_append, List.length_cons,
        Nat.add_assoc, Nat.add_comm 1]

/-! ### Setting the root nodes to ready -/

theorem modify_mark (hunused : ∀ row ∈ old, row.id ≠ node.id) (hunique : Rows.Unique DagNodeExecution.id new)
    (hnode : node ∈ new) :
    Rows.modify DagNodeExecution.id node.id (DagRepository.overNode { node with status := .ready })
      (old ++ new.map (mark ids)) = old ++ new.map (mark (node.id :: ids)) := by
  have hold : Rows.modify DagNodeExecution.id node.id (DagRepository.overNode { node with status := .ready }) old =
      old := Rows.modify_of_ne hunused
  unfold Rows.modify at hold ⊢
  rw [List.map_append, hold, List.map_map]
  congr 1
  apply List.map_congr_left
  intro other hother
  simp only [Function.comp_apply, mark_id]
  by_cases heq : other.id = node.id
  · obtain rfl := hunique.eq_of_column hother hnode heq
    rw [if_pos rfl, mark, mark, if_pos List.mem_cons_self]
    split <;> rfl
  · rw [if_neg heq, mark, mark]
    simp only [List.mem_cons, heq, false_or]

theorem run_setReady (hfault : w.fault = none) (hnodes : w.db.dagNodeExecutions = old ++ new.map (mark ids))
    (hunused : ∀ row ∈ old, row.id ≠ node.id) (hunique : Rows.Unique DagNodeExecution.id new) (hnode : node ∈ new)
    (hnone : node.executionId = none) :
    (setReady node).run w = some (.ok (), setNodes (old ++ new.map (mark (node.id :: ids))) w) := by
  have hrow : mark ids node ∈ w.db.dagNodeExecutions := by
    rw [hnodes]
    exact List.mem_append_right _ (List.mem_map_of_mem hnode)
  have hrefers : DagRepository.refers node.executionId w.db = true := by
    rw [hnone]
    rfl
  obtain ⟨found, hupdate⟩ : ∃ found, (DagRepository.updateNodeExecution { node with status := .ready }).run w =
      some (.ok found, { w with db := DagRepository.setNode { node with status := .ready } w.db }) :=
    DagRepository.run_updateNodeExecution hfault hrow mark_id hrefers
  simp only [setReady, Task.run_bind, hupdate, DagRepository.setNode, hnodes,
    modify_mark hunused hunique hnode]
  rfl

/-- Of the nodes that are new, those that are passed are set to ready. -/
theorem run_ready (hfault : w.fault = none) (hnodes : w.db.dagNodeExecutions = old ++ new.map (mark ids))
    (hunused : ∀ row ∈ old, ∀ node ∈ new, row.id ≠ node.id) (hunique : Rows.Unique DagNodeExecution.id new)
    (hnone : ∀ node ∈ new, node.executionId = none) (hsub : ∀ node ∈ nodes, node ∈ new) :
    ∃ ids', (∀ id, id ∈ ids' ↔ id ∈ ids ∨ id ∈ nodes.map DagNodeExecution.id) ∧
      (nodes.forM setReady).run w = some (.ok (), setNodes (old ++ new.map (mark ids')) w) := by
  induction nodes generalizing w ids with
  | nil =>
      refine ⟨ids, by simp, ?_⟩
      rw [← hnodes]
      rfl
  | cons node nodes ih =>
      have hnode := hsub node List.mem_cons_self
      have hset := run_setReady hfault hnodes (fun row hrow => hunused row hrow node hnode) hunique hnode
        (hnone node hnode)
      obtain ⟨ids', hids, hrun⟩ := ih (w := setNodes (old ++ new.map (mark (node.id :: ids))) w) hfault rfl
        fun other hother => hsub other (List.mem_cons_of_mem _ hother)
      refine ⟨ids', fun id => ?_, ?_⟩
      · rw [hids id, List.mem_cons, List.map_cons, List.mem_cons, or_assoc, or_left_comm]
      · change (setReady node >>= fun _ => nodes.forM setReady).run w = _
        simp only [Task.run_bind, hset, hrun]
        rfl

/-! ### The call -/

variable {dagId : Uuid} {dag : Dag} {edges : List DagEdge}

/-- Ids that are given out are not in use. -/
structure Unused (w : World) : Prop where
  run : ∀ run ∈ w.db.dagRuns, run.id < w.nextUuid
  node : ∀ node ∈ w.db.dagNodeExecutions, node.id < w.nextUuid

theorem lookup_append_new {run : DagRun} {runs : List DagRun} (hunused : ∀ row ∈ runs, row.id ≠ run.id) :
    Rows.lookup DagRun.id run.id (runs ++ [run]) = some run := by
  rw [Rows.lookup, List.find?_append]
  have hnone : runs.find? (fun row => row.id = run.id) = none := Rows.lookup_eq_none.mpr hunused
  simp [hnone]

theorem run_createRun {run : DagRun} (hfault : w.fault = none) (hunused : ∀ row ∈ w.db.dagRuns, row.id ≠ run.id)
    (hdag : ∃ dag ∈ w.db.dags, dag.id = run.dagId) : (DagRepository.createRun run).run w =
      some (.ok run, { w with db := { w.db with dagRuns := w.db.dagRuns ++ [run] } }) := by
  have hinsert : DagRepository.insertRun run w.db = .ok ((), { w.db with dagRuns := w.db.dagRuns ++ [run] }) :=
    (if_neg (not_not.mpr (Rows.hits_eq_zero.mpr hunused))).trans (if_neg (Rows.hits_ne_zero.mpr hdag))
  simp only [DagRepository.createRun, Task.run_bind, run_sql hfault, hinsert]
  exact DagRepository.run_getRunById
    (w := { w with db := { w.db with dagRuns := w.db.dagRuns ++ [run] } }) hfault (lookup_append_new hunused)

/-- A run of which no node has started, and whose root nodes are all ready, is advanced without a change. -/
theorem run_advanceDagRun (engine : DagEngine) (hfault : w.fault = none)
    (hunstarted : ∀ node ∈ DagRepository.nodesOfRun runId w.db, node.status = .waiting ∨ node.status = .ready)
    (hjobs : ∀ node ∈ DagRepository.nodesOfRun runId w.db, node.jobId ∈ DagService.allNodes edges)
    (hroots : ∀ node ∈ DagRepository.nodesOfRun runId w.db, node.status = .waiting → node.jobId ∉ rootJobs edges) :
    (engine.advanceDagRun runId edges dag).run w = some (.ok (), w) := by
  simp only [DagEngine.advanceDagRun, DagRepository.getNodeExecutionsByRunId, Task.run_bind, run_select hfault,
    newlyReady_eq_nil hunstarted hjobs hroots]
  rfl

theorem nodesOfRun_perm {db : Db} (hnodes : db.dagNodeExecutions = old ++ new)
    (hold : ∀ node ∈ old, node.dagRunId ≠ runId) (hnew : ∀ node ∈ new, node.dagRunId = runId) :
    (DagRepository.nodesOfRun runId db).Perm new := by
  have hnone : old.filter (fun node => node.dagRunId = runId) = [] :=
    List.filter_eq_nil_iff.mpr fun node hnode => by simpa using hold node hnode
  have hall : new.filter (fun node => node.dagRunId = runId) = new :=
    List.filter_eq_self.mpr fun node hnode => decide_eq_true (hnew node hnode)
  unfold DagRepository.nodesOfRun
  rw [hnodes, List.filter_append, hnone, hall]
  exact List.perm_insertionSort _ _

section

variable {run : DagRun} {jobIds : List Uuid} (engine : DagEngine)

/-- Once the run is stored, its nodes are created and the root nodes set to ready, and nothing is started. -/
theorem run_populate (dag : Dag) (hfault : w.fault = none) (hrun : Rows.lookup DagRun.id run.id w.db.dagRuns = some run)
    (hfresh : ∀ node ∈ w.db.dagNodeExecutions, node.id < w.nextUuid)
    (hold : ∀ node ∈ w.db.dagNodeExecutions, node.dagRunId ≠ run.id)
    (hperm : jobIds.Perm (DagService.allNodes edges))
    (hjobs : ∀ jobId ∈ jobIds, ∃ job ∈ w.db.jobs, job.id = jobId) :
    ∃ w', (TriggerFaults.populate engine dag edges jobIds run).run w = some (.ok run, w') ∧
      ((DagRepository.nodesOfRun run.id w'.db).map DagNodeExecution.jobId).Perm jobIds ∧
      ∀ node ∈ DagRepository.nodesOfRun run.id w'.db,
        node.status = if node.jobId ∈ rootJobs edges then .ready else .waiting := by
  set new := newNodes run.id (toRfc3339 w.now) w.nextUuid jobIds with hnew
  set filled : World := { setNodes (w.db.dagNodeExecutions ++ new) w with
    nextUuid := w.nextUuid + jobIds.length } with hfilled
  have hstored : ∃ row ∈ w.db.dagRuns, row.id = run.id := ⟨run, Rows.mem_of_lookup hrun, rfl⟩
  have hfill : (jobIds.forM (DagEngine.createNode run.id)).run w = some (.ok (), filled) :=
    run_fill hfault hfresh hstored hjobs
  have hread : (DagRepository.nodesOfRun run.id filled.db).Perm new :=
    nodesOfRun_perm rfl hold fun node hnode => by rw [(eq_new_of_mem hnode).2]; rfl
  -- the root nodes are those of the jobs that no edge leads to
  set passes := (DagRepository.nodesOfRun run.id filled.db).filter fun node =>
    node.jobId ∈ DagEngine.findRootNodes edges jobIds with hpasses
  have hroots (jobId : Uuid) : jobId ∈ DagEngine.findRootNodes edges jobIds ↔ jobId ∈ rootJobs edges := by
    simp only [DagEngine.findRootNodes, mem_rootJobs, List.mem_filter, decide_eq_true_eq, hperm.mem_iff]
  have hpass (node : DagNodeExecution) (hnode : node ∈ new) :
      node.id ∈ passes.map DagNodeExecution.id ↔ node.jobId ∈ rootJobs edges := by
    rw [List.mem_map, ← hroots]
    constructor
    · rintro ⟨other, hother, hid⟩
      obtain ⟨hin, hroot⟩ := List.mem_filter.mp hother
      obtain rfl := unique_newNodes.eq_of_column (hread.mem_iff.mp hin) hnode hid
      exact of_decide_eq_true hroot
    · exact fun hroot => ⟨node, List.mem_filter.mpr ⟨hread.mem_iff.mpr hnode, decide_eq_true hroot⟩, rfl⟩
  have hsub : ∀ node ∈ passes, node ∈ new := fun node hnode => hread.mem_iff.mp (List.mem_filter.mp hnode).1
  obtain ⟨ids, hids, hready⟩ := run_ready (w := filled) hfault (congrArg _ map_mark_nil.symm)
    (fun row hrow node hnode => ((hfresh row hrow).trans_le (eq_new_of_mem hnode).1).ne) unique_newNodes
    (fun node hnode => by rw [(eq_new_of_mem hnode).2]; rfl) hsub
  set readied : World := setNodes (w.db.dagNodeExecutions ++ new.map (mark ids)) filled with hreadied
  have hnodes : (DagRepository.nodesOfRun run.id readied.db).Perm (new.map (mark ids)) := by
    refine nodesOfRun_perm rfl hold fun node hnode => ?_
    obtain ⟨other, hother, rfl⟩ := List.mem_map.mp hnode
    rw [mark_dagRunId, (eq_new_of_mem hother).2]
    rfl
  have hstatus : ∀ node ∈ DagRepository.nodesOfRun run.id readied.db, node.jobId ∈ jobIds ∧
      node.status = if node.jobId ∈ rootJobs edges then .ready else .waiting := by
    intro node hnode
    obtain ⟨other, hother, rfl⟩ := List.mem_map.mp (hnodes.mem_iff.mp hnode)
    have hjobId := List.mem_map_of_mem (f := DagNodeExecution.jobId) hother
    rw [map_jobId_newNodes] at hjobId
    have hid : other.id ∈ ids ↔ other.jobId ∈ rootJobs edges := by
      rw [hids, ← hpass other hother]
      simp only [List.not_mem_nil, false_or]
    have hwaiting : other.status = .waiting := by
      rw [(eq_new_of_mem hother).2]
      rfl
    refine ⟨mark_jobId.symm ▸ hjobId, ?_⟩
    simp only [mark_jobId, mark_status, hid, hwaiting]
  have hadvance : (engine.advanceDagRun run.id edges dag).run readied = some (.ok (), readied) := by
    apply run_advanceDagRun (w := readied) engine hfault
    · intro node hnode
      rw [(hstatus node hnode).2]
      split
      · exact .inr rfl
      · exact .inl rfl
    · exact fun node hnode => hperm.mem_iff.mp (hstatus node hnode).1
    · intro node hnode hwaiting hroot
      rw [(hstatus node hnode).2, if_pos hroot] at hwaiting
      cases hwaiting
  refine ⟨readied, ?_, ?_, fun node hnode => (hstatus node hnode).2⟩
  · simp only [TriggerFaults.populate, DagRepository.getNodeExecutionsByRunId, Task.run_bind, hfill]
    rw [run_select (by exact hfault)]
    dsimp only
    rw [← hpasses, hready]
    dsimp only
    rw [hadvance]
    exact DagRepository.run_getRunById (w := readied) hfault hrun
  · have hmap := hnodes.map DagNodeExecution.jobId
    rw [List.map_map] at hmap
    have hjobId : (DagNodeExecution.jobId ∘ mark ids) = DagNodeExecution.jobId := by
      funext node
      exact mark_jobId
    rwa [hjobId, map_jobId_newNodes] at hmap

theorem run_triggerDag (triggerType : String) (hfault : w.fault = none) (hunused : Unused w)
    (hlinked : NodesLinked w.db) (hdag : Rows.lookup Dag.id dagId w.db.dags = some dag) (henabled : dag.enabled = true)
    (hne : edgesOf dagId w.db ≠ []) (hacyclic : Acyclic.On (Leads (edgesOf dagId w.db)))
    (hjobs : ∀ jobId ∈ DagService.allNodes (edgesOf dagId w.db), ∃ job ∈ w.db.jobs, job.id = jobId) :
    ∃ run w', (engine.triggerDag dagId triggerType).run w = some (.ok run, w') ∧ run.status = .running ∧
      run.totalNodes = (DagService.allNodes (edgesOf dagId w.db)).length ∧
      ((DagRepository.nodesOfRun run.id w'.db).map DagNodeExecution.jobId).Perm
        (DagService.allNodes (edgesOf dagId w.db)) ∧
      ∀ node ∈ DagRepository.nodesOfRun run.id w'.db,
        node.status = if node.jobId ∈ rootJobs (edgesOf dagId w.db) then .ready else .waiting := by
  set edges := edgesOf dagId w.db with hedges
  have hperm : (engine.jobOrder.order (DagService.allNodes edges)).Perm (DagService.allNodes edges) :=
    engine.jobOrder.perm _
  set run := TriggerFaults.newRun engine dagId triggerType edges w.nextUuid (toRfc3339 w.now) (toRfc3339 w.now)
    with hrun
  set created : World := { w with nextUuid := w.nextUuid + 1, db := { w.db with dagRuns := w.db.dagRuns ++ [run] } }
    with hcreated
  have hunusedRun : ∀ row ∈ w.db.dagRuns, row.id ≠ run.id := fun row hrow => (hunused.run row hrow).ne
  have hcreate : (DagRepository.createRun run).run { w with nextUuid := w.nextUuid + 1 } = some (.ok run, created) :=
    run_createRun (w := { w with nextUuid := w.nextUuid + 1 }) hfault hunusedRun
      ⟨dag, Rows.mem_of_lookup hdag, Rows.column_of_lookup hdag⟩
  have hold : ∀ node ∈ w.db.dagNodeExecutions, node.dagRunId ≠ run.id := by
    intro node hnode hid
    obtain ⟨row, hrow, hof⟩ := hlinked node hnode
    exact hunusedRun row hrow (hof.trans hid)
  obtain ⟨w', hpopulate, hmap, hstatus⟩ := run_populate (w := created) engine dag hfault
    (lookup_append_new hunusedRun) (fun node hnode => (hunused.node node hnode).trans (Nat.lt_succ_self _)) hold hperm
    fun jobId hjobId => hjobs jobId (hperm.mem_iff.mp hjobId)
  obtain ⟨sorted, hsorted⟩ := DagService.validate_of_acyclic engine.degreeOrder hacyclic
  refine ⟨run, w', ?_, rfl, congrArg Nat.cast hperm.length_eq, hmap.trans hperm, hstatus⟩
  have hstart : (TriggerFaults.startRun engine dagId triggerType dag edges).run w = some (.ok run, w') := by
    simp only [TriggerFaults.startRun, Task.run_bind, run_newV4, run_nowRfc3339]
    rw [← hrun, hcreate]
    exact hpopulate
  have hdisabled : ¬ (!dag.enabled) = true := by simp [henabled]
  have hempty : ¬ edges.isEmpty = true := fun h => hne (List.isEmpty_iff.mp h)
  rw [DagEngine.triggerDag, Task.run_bind, DagService.run_getById hfault hdag]
  dsimp only
  rw [if_neg hdisabled, Task.run_bind, DagService.run_getEdgesByDagId hfault]
  dsimp only
  rw [← hedges, if_neg hempty, hsorted]
  exact hstart

theorem run_triggerDag_refused (triggerType : String) (hfault : w.fault = none)
    (hdag : Rows.lookup Dag.id dagId w.db.dags = some dag) (henabled : dag.enabled = true)
    (hrefused : edgesOf dagId w.db = [] ∨ ¬ Acyclic.On (Leads (edgesOf dagId w.db))) :
    ∃ e, (engine.triggerDag dagId triggerType).run w = some (.error e, w) := by
  have hdisabled : ¬ (!dag.enabled) = true := by simp [henabled]
  rw [DagEngine.triggerDag, Task.run_bind, DagService.run_getById hfault hdag]
  dsimp only
  rw [if_neg hdisabled, Task.run_bind, DagService.run_getEdgesByDagId hfault]
  dsimp only
  split
  · exact ⟨_, rfl⟩
  rename_i hempty
  cases hvalidated : DagService.validateNoCycles engine.degreeOrder (edgesOf dagId w.db) with
  | error e => exact ⟨e, rfl⟩
  | ok sorted =>
      rcases hrefused with hnil | hcyclic
      · rw [hnil] at hempty
        exact absurd rfl hempty
      · exact absurd (DagService.acyclic_of_validate hvalidated) hcyclic

end

end Trigger

/-! ### In the server -/

namespace Server

open Trigger

variable {server : Server} {w : World} {c : Config Event World Unit} {dagId : Uuid} {dag : Dag}

theorem mem_edgesOf {edge : DagEdge} {db : Db} (h : edge ∈ edgesOf dagId db) : edge ∈ db.dagEdges :=
  (List.mem_filter.mp ((List.mem_insertionSort _).mp h)).1

theorem stored_of_mem_allNodes {db : Db} (h : db.Referenced) :
    ∀ jobId ∈ DagService.allNodes (edgesOf dagId db), ∃ job ∈ db.jobs, job.id = jobId := by
  intro jobId hjobId
  obtain ⟨edge, hedge, hup | hdown⟩ := mem_allNodes.mp hjobId
  · exact hup ▸ h.edgeUpstream edge (mem_edgesOf hedge) _ rfl
  · exact hdown ▸ h.edgeDownstream edge (mem_edgesOf hedge) _ rfl

/-- In every configuration of every life, an enabled DAG can be triggered exactly if the check shows it valid and
with an edge. The new run has the jobs that are shown, those of the first level are ready, and the others wait.
A trigger that is refused changes nothing. -/
theorem trigger_follows_validation (hstart : server.Starts w) (hrun : server.Reached w c)
    (hfault : c.world.fault = none) (hunused : Unused c.world) (hash : HashOrder)
    (hdag : Rows.lookup Dag.id dagId c.world.db.dags = some dag) (henabled : dag.enabled = true)
    (triggerType : String) :
    ∃ response, (DagService.validateDag hash dagId).run c.world = some (.ok response, c.world) ∧
      (response.valid = true ∧ 0 < response.totalEdges →
        ∃ run w', (server.engine.triggerDag dagId triggerType).run c.world = some (.ok run, w') ∧
          run.status = .running ∧ run.totalNodes = response.totalNodes ∧
          ((DagRepository.nodesOfRun run.id w'.db).map DagNodeExecution.jobId).Perm response.levels.flatten ∧
          ∀ node ∈ DagRepository.nodesOfRun run.id w'.db,
            node.status = if node.jobId ∈ response.levels.head?.getD [] then .ready else .waiting) ∧
      (¬ (response.valid = true ∧ 0 < response.totalEdges) →
        ∃ e, (server.engine.triggerDag dagId triggerType).run c.world = some (.error e, c.world)) := by
  have hreferenced := (hrun.holds hstart).inv.1.referenced
  have hlinked : NodesLinked c.world.db := fun node hnode => hreferenced.nodeRun node hnode _ rfl
  obtain ⟨response, hvalidate, hshows⟩ := DagService.run_validateDag hash hfault hdag
  refine ⟨response, hvalidate, ?_, ?_⟩
  · rintro ⟨hvalid, hedges⟩
    have hlayered := hshows.valid hvalid
    have hne : edgesOf dagId c.world.db ≠ [] := List.ne_nil_of_length_pos (hshows.totalEdges ▸ hedges)
    obtain ⟨run, w', htrigger, hrunning, htotal, hjobs, hstatus⟩ := run_triggerDag server.engine triggerType hfault
      hunused hlinked hdag henabled hne hlayered.acyclic (stored_of_mem_allNodes hreferenced)
    refine ⟨run, w', htrigger, hrunning, ?_, hjobs.trans hlayered.perm.symm, fun node hnode => ?_⟩
    · rw [htotal, hshows.totalNodes, hlayered.perm.length_eq]
    · rw [hstatus node hnode]
      simp only [hlayered.first]
  · intro hno
    apply run_triggerDag_refused server.engine triggerType hfault hdag henabled
    by_contra hboth
    obtain ⟨hne, hacyclic⟩ := not_or.mp hboth
    rw [not_not] at hacyclic
    apply hno
    constructor
    · by_contra hinvalid
      exact hshows.invalid (Bool.eq_false_iff.mpr hinvalid) hacyclic
    · rw [hshows.totalEdges]
      exact List.length_pos_of_ne_nil hne

/-- A job is cloned, and an edge leads from it to its clone. -/
theorem trigger_follows_validation_sample : ∃ c, sample.Reached (.sample 0 []) c ∧
    c.world.db.dagEdges.map DagEdge.ends = [(1001, 1, 1000)] ∧
    ∃ response, (DagService.validateDag .unchanged 1001).run c.world = some (.ok response, c.world) ∧
      (response.valid = true ∧ 0 < response.totalEdges →
        ∃ run w', (sample.engine.triggerDag 1001 "manual").run c.world = some (.ok run, w')) := by
  have hexec : (sample.system.exec (fun _ _ _ => true)
      ([.spawn (.request (.cloneJob 1 none)), .spawn (.request (.createDag { name := "d" })),
        .spawn (.request (.addEdge 1001 ⟨1, 1000, .success⟩))] ++ List.replicate 7 (.run 0) ++
          List.replicate 4 (.run 1) ++ List.replicate 7 (.run 2)) (initial (.sample 0 []))).map
        (fun c => (c.world.db.dagEdges.map DagEdge.ends, (c.world.db.dags.map fun dag => (dag.id, dag.enabled)),
          c.world.db.dagRuns.length + c.world.db.dagNodeExecutions.length, c.world.fault)) =
      some ([(1001, 1, 1000)], [(1001, true)], 0, none) := by decide +kernel
  obtain ⟨c, hrun, heq⟩ := reached_sample hexec
  simp only [Prod.mk.injEq] at heq
  obtain ⟨hedges, hdags, hcount, hfault⟩ := heq
  obtain ⟨hruns, hnodes⟩ := Nat.add_eq_zero_iff.mp hcount
  obtain ⟨dag, hdag, hcolumns⟩ := List.map_eq_singleton_iff.mp hdags
  obtain ⟨hid, henabled⟩ := Prod.mk.inj hcolumns
  have hlookup : Rows.lookup Dag.id 1001 c.world.db.dags = some dag := by
    rw [hdag, Rows.lookup, List.find?_singleton, if_pos (decide_eq_true hid)]
  have hunused : Unused c.world := by
    constructor
    · rw [List.eq_nil_of_length_eq_zero hruns]
      exact List.forall_mem_nil _
    · rw [List.eq_nil_of_length_eq_zero hnodes]
      exact List.forall_mem_nil _
  obtain ⟨response, hvalidate, haccepted, _⟩ :=
    trigger_follows_validation starts_sample hrun hfault hunused .unchanged hlookup henabled "manual"
  refine ⟨c, hrun, hedges, response, hvalidate, fun h => ?_⟩
  obtain ⟨run, w', htrigger, _⟩ := haccepted h
  exact ⟨run, w', htrigger⟩

end Server

end Serverust
