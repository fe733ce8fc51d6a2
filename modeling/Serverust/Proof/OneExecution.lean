import Serverust.Proof.DagSteps

/-!
# One execution for each node

A call that advances a run chooses waiting nodes from a snapshot, and only later creates their executions
and writes them. Another call may choose the same node in between, and then creates another execution for
it. A node that no two calls hold at once gets one execution at most.
-/

namespace Serverust

open Resumption

namespace DagCalls

open DagRepository

/-- The number of executions created for a job. -/
def created (jobId : Uuid) (trace : List Event) : Nat :=
  trace.countP fun
    | .sql (.createExecution x) => x.jobId = jobId
    | _ => false

/-- When a call chooses the nodes to start, no call has chosen one of them before and not written it. -/
def Unchosen (run : RunOf) (c : Config Event World Tag) (i : Nat) (ev : Event) : Prop :=
  ∀ t nodes, c.tags[i]? = some t → t.phase = .advancing → ev = .sql (.dag (.getNodes run.id nodes)) →
    ∀ n ∈ DagEngine.newlyReady nodes run.edges run.dag, ∀ other ∈ c.tags,
      n.id ∉ other.phase.chosen.map DagNodeExecution.id

/-- How often a call holds a node that it has chosen. -/
def held (id : Uuid) (t : Tag) : Nat := Rows.hits DagNodeExecution.id id t.phase.chosen

/-- How many executions a call may still create for a node. -/
def uncreated (id : Uuid) (t : Tag) : Nat :=
  match t.phase with
  | .starting todo none => Rows.hits DagNodeExecution.id id todo
  | .starting todo (some _) => Rows.hits DagNodeExecution.id id todo.tail
  | _ => 0

/-- The node is waiting. -/
def Waits (id : Uuid) (db : Db) : Prop := ∃ row ∈ db.dagNodeExecutions, row.id = id ∧ row.status = .waiting

/-- The executions made for a node and those still to come number at most `bound`, and fewer while the
node waits and no call holds it. -/
structure Single (id jobId : Uuid) (bound : Nat) (db : Db) (tags : List Tag) (trace : List Event) : Prop where
  made : created jobId trace + total (uncreated id) tags ≤ bound
  free : Waits id db → total (held id) tags = 0 → created jobId trace + total (uncreated id) tags + 1 ≤ bound

section

variable {run : RunOf} {t : Tag} {ev : Event} {db db' : Db} {tags : List Tag} {i : Nat}
  {node n : DagNodeExecution} {id jobId : Uuid} {bound : Nat} {trace : List Event}

theorem waits_of_setNode (h : Waits id (setNode node db)) (hstatus : node.status ≠ .waiting) :
    Waits id db ∧ node.id ≠ id := by
  obtain ⟨row, hrow, hid, hwaiting⟩ := h
  obtain ⟨old, hold, rfl⟩ := Rows.mem_modify.mp hrow
  split at hwaiting
  · exact absurd hwaiting hstatus
  · rename_i hne
    rw [if_neg hne] at hid
    exact ⟨⟨old, hold, hid, hwaiting⟩, fun heq => hne (hid.trans heq.symm)⟩

theorem waits_of_nodes (hnodes : db'.dagNodeExecutions = db.dagNodeExecutions) :
    Waits id db' ↔ Waits id db := by
  rw [Waits, hnodes, Waits]

theorem hits_newlyReady (hunique : Rows.Unique DagNodeExecution.id db.dagNodeExecutions) (id : Uuid) :
    Rows.hits DagNodeExecution.id id (DagEngine.newlyReady (nodesOfRun run.id db) run.edges run.dag) ≤ 1 := by
  calc Rows.hits DagNodeExecution.id id (DagEngine.newlyReady (nodesOfRun run.id db) run.edges run.dag)
      ≤ Rows.hits DagNodeExecution.id id (nodesOfRun run.id db) := (newlyReady_sublist _ _ _).countP_le
    _ = Rows.hits DagNodeExecution.id id (db.dagNodeExecutions.filter fun node => node.dagRunId = run.id) :=
        (List.perm_insertionSort _ _).countP_eq _
    _ ≤ Rows.hits DagNodeExecution.id id db.dagNodeExecutions := List.filter_sublist.countP_le
    _ ≤ 1 := hunique.hits_le_one id

@[simp] theorem created_append (trace : List Event) (ev : Event) :
    created jobId (trace ++ [ev]) = created jobId trace + created jobId [ev] :=
  List.countP_append

theorem created_of_not_creates (h : ¬ Creates ev) : created jobId [ev] = 0 := by
  apply List.countP_eq_zero.mpr
  intro other hother
  rw [List.mem_singleton.mp hother]
  split
  · exact absurd trivial h
  · exact Bool.false_ne_true

theorem job_iff (hbase : Base run db tags) (ht : t ∈ tags) (hn : n ∈ t.phase.nodes)
    (hnode : node ∈ db.dagNodeExecutions) (hof : node.dagRunId = run.id) :
    n.jobId = node.jobId ↔ n.id = node.id := by
  obtain ⟨row, hrow, hid, hrowOf, hjob⟩ := hbase.listed t ht n hn
  rw [← hid, ← hjob]
  constructor
  · intro heq
    rw [hbase.stored.uniqueJob row hrow node hnode hrowOf hof heq]
  · intro heq
    rw [hbase.stored.uniqueNode.eq_of_column hrow hnode heq]

theorem held_of_chosen {todo : List DagNodeExecution} (h : t.phase.chosen = todo) :
    held id t = Rows.hits DagNodeExecution.id id todo := by
  rw [held, h]

theorem uncreated_of_chosen_nil (h : t.phase.chosen = []) : uncreated id t = 0 := by
  unfold uncreated
  split
  · rename_i hphase
    rw [hphase] at h
    cases h
    rfl
  · rename_i hphase
    rw [hphase] at h
    cases h
    rfl
  · rfl

theorem hits_cons (n : DagNodeExecution) (todo : List DagNodeExecution) :
    Rows.hits DagNodeExecution.id id (n :: todo) =
      Rows.hits DagNodeExecution.id id todo + if n.id = id then 1 else 0 := by
  simp only [Rows.hits, List.countP_cons, decide_eq_true_eq]

theorem created_execution (x : Execution) :
    created jobId [.sql (.createExecution x)] = if x.jobId = jobId then 1 else 0 := by
  simp only [created, List.countP_cons, List.countP_nil, decide_eq_true_eq, Nat.zero_add]

/-- A step after which no more executions are made or still to come, and which frees no waiting node. -/
theorem Single.mono (h : Single id jobId bound db tags trace) {tags' : List Tag} {trace' : List Event}
    (hmade : created jobId trace' + total (uncreated id) tags' ≤
      created jobId trace + total (uncreated id) tags)
    (hfree : Waits id db' → total (held id) tags' = 0 → Waits id db ∧ total (held id) tags = 0) :
    Single id jobId bound db' tags' trace' where
  made := hmade.trans h.made
  free hwaits hzero := by
    obtain ⟨hwaits, hzero⟩ := hfree hwaits hzero
    have := h.free hwaits hzero
    omega

/-- A step that chooses no node that a call holds keeps a node single. -/
theorem Single.step (h : Single node.id node.jobId bound db tags trace) (hbase : Base run db tags)
    (hnode : node ∈ db.dagNodeExecutions) (hof : node.dagRunId = run.id) (ht : tags[i]? = some t)
    (hgood : t.phase = .advancing → ev = .sql (.dag (.getNodes run.id (nodesOfRun run.id db))) →
      ∀ n ∈ DagEngine.newlyReady (nodesOfRun run.id db) run.edges run.dag, ∀ other ∈ tags,
        n.id ∉ other.phase.chosen.map DagNodeExecution.id)
    (hacts : Acts run t ev db db') :
    Single node.id node.jobId bound db' (tags.set i (t.next run ev)) (trace ++ [ev]) := by
  have hheld := total_set (held node.id) ht (t.next run ev)
  have huncreated := total_set (uncreated node.id) ht (t.next run ev)
  have hmem := List.mem_of_getElem? ht
  have htrace : created node.jobId (trace ++ [ev]) = created node.jobId trace + created node.jobId [ev] :=
    created_append trace ev
  cases hacts.turn with
  | choose hphase hev hdb hnext =>
      subst hdb
      have hnot : created node.jobId [ev] = 0 := created_of_not_creates (hev ▸ id)
      rw [held, held, hphase, hnext] at hheld
      rw [uncreated, uncreated, hphase, hnext] at huncreated
      simp only [Phase.chosen, Rows.hits, List.countP_nil] at hheld huncreated
      have hone : Rows.hits DagNodeExecution.id node.id
          (DagEngine.newlyReady (nodesOfRun run.id db') run.edges run.dag) ≤ 1 :=
        hits_newlyReady hbase.stored.uniqueNode node.id
      rw [Rows.hits] at hone
      by_cases hchosen : Rows.hits DagNodeExecution.id node.id
          (DagEngine.newlyReady (nodesOfRun run.id db') run.edges run.dag) = 0
      · rw [Rows.hits] at hchosen
        exact h.mono (by omega) fun hwaits hzero => ⟨hwaits, by omega⟩
      · -- The node waits and is free: the execution to come takes the spare one.
        obtain ⟨n, hn, hid⟩ := Rows.hits_ne_zero.mp hchosen
        obtain ⟨hrow, _, hwaiting, _⟩ := waiting_of_newlyReady hn
        have hunheld : total (held node.id) tags = 0 := by
          apply (total_eq_zero _).mpr
          intro other hother
          apply Rows.hits_eq_zero.mpr
          intro m hm heq
          exact hgood hphase hev n hn other hother (List.mem_map.mpr ⟨m, hm, heq.trans hid.symm⟩)
        have hspare := h.free ⟨n, hrow, hid, hwaiting⟩ hunheld
        rw [Rows.hits] at hchosen
        exact ⟨by omega, fun _ hzero => by omega⟩
  | @create n todo x hphase hev hjob hsame hnext =>
      subst hev
      have hiff : x.jobId = node.jobId ↔ n.id = node.id := by
        rw [hjob]
        refine job_iff hbase hmem ?_ hnode hof
        rw [hphase]
        exact List.mem_cons_self
      have hcreated : created node.jobId [.sql (.createExecution x)] = if x.jobId = node.jobId then 1 else 0 :=
        created_execution x
      rw [held, held, hphase, hnext] at hheld
      rw [uncreated, uncreated, hphase, hnext] at huncreated
      simp only [Phase.chosen, List.tail_cons, hits_cons] at hheld huncreated
      simp only [hiff] at hcreated
      exact h.mono (by omega) fun hwaits hzero => ⟨(waits_of_nodes hsame.nodes).mp hwaits, by omega⟩
  | @launch n todo e time hphase hev hdb hnext =>
      subst hdb
      have hnot : created node.jobId [ev] = 0 := created_of_not_creates (hev ▸ id)
      rw [held, held, hphase, hnext] at hheld
      rw [uncreated, uncreated, hphase, hnext] at huncreated
      simp only [Phase.chosen, List.tail_cons, hits_cons] at hheld huncreated
      refine h.mono (by omega) fun hwaits hzero => ?_
      obtain ⟨hwaits, hne⟩ := waits_of_setNode hwaits (show NodeStatus.running ≠ .waiting by decide)
      rw [if_neg (by exact hne)] at hheld
      exact ⟨hwaits, by omega⟩
  | @giveUp n todo execution time hphase hev hdb hnext =>
      subst hdb
      have hnot : created node.jobId [ev] = 0 := created_of_not_creates (hev ▸ id)
      have hless : uncreated node.id (t.next run ev) ≤ uncreated node.id t := by
        rw [uncreated, uncreated, hphase, hnext]
        cases execution with
        | none => exact (List.sublist_cons_self n todo).countP_le
        | some e => exact le_rfl
      rw [held, held, hphase, hnext] at hheld
      simp only [Phase.chosen, hits_cons] at hheld
      refine h.mono (by omega) fun hwaits hzero => ?_
      obtain ⟨hwaits, hne⟩ := waits_of_setNode hwaits (show NodeStatus.failed ≠ .waiting by decide)
      rw [if_neg (by exact hne)] at hheld
      exact ⟨hwaits, by omega⟩
  | retire hev hsame hnext =>
      have hnot : created node.jobId [ev] = 0 := created_of_not_creates (hev ▸ id)
      have hgone : uncreated node.id (t.next run ev) = 0 := by
        rw [uncreated, hnext]
      have hsameHeld : held node.id (t.next run ev) = held node.id t := by
        rw [held, held, hnext]
        rfl
      exact h.mono (by omega) fun hwaits hzero => ⟨(waits_of_nodes hsame.nodes).mp hwaits, by omega⟩
  | close time hn hstatus hev hdb hchosen hnext =>
      subst hdb
      have hnot : created node.jobId [ev] = 0 := created_of_not_creates (hev ▸ id)
      rw [held_of_chosen hnext, held_of_chosen hchosen] at hheld
      rw [uncreated_of_chosen_nil hnext, uncreated_of_chosen_nil hchosen] at huncreated
      refine h.mono (by omega) fun hwaits hzero => ?_
      obtain ⟨hwaits, _⟩ := waits_of_setNode hwaits (by rintro ⟨⟩; exact absurd hstatus Bool.false_ne_true)
      exact ⟨hwaits, by omega⟩
  | count hev hdb hchosen hnext =>
      subst hdb
      have hnot : created node.jobId [ev] = 0 := created_of_not_creates (hev ▸ id)
      rw [held_of_chosen hnext, held_of_chosen hchosen] at hheld
      rw [uncreated_of_chosen_nil hnext, uncreated_of_chosen_nil hchosen] at huncreated
      exact h.mono (by omega) fun hwaits hzero => ⟨hwaits, by omega⟩
  | read hev hsame hnext =>
      have hnot : created node.jobId [ev] = 0 := created_of_not_creates hev
      have hkept : held node.id (t.next run ev) = held node.id t ∧
          uncreated node.id (t.next run ev) = uncreated node.id t := by
        rcases hnext with heq | ⟨hnone, hnext⟩
        · rw [held, held, uncreated, uncreated, heq]
          exact ⟨rfl, rfl⟩
        · rw [held, held, uncreated_of_chosen_nil hnone, uncreated_of_chosen_nil hnext, hnone, hnext]
          exact ⟨rfl, rfl⟩
      exact h.mono (by omega) fun hwaits hzero => ⟨(waits_of_nodes hsame.nodes).mp hwaits, by omega⟩

end

/-! ### Runs -/

theorem node_kept {run : RunOf} {t : Tag} {ev : Event} {db db' : Db} {node : DagNodeExecution}
    (h : Listed run db node) (hacts : Acts run t ev db db') : Listed run db' node := by
  rcases hacts.effect with hsame | ⟨other, _, _, _, rfl⟩ | ⟨row, rfl⟩
  · exact h.of_nodes hsame.nodes
  · exact h.setNode other
  · exact h

theorem sound_single (engine : DagEngine) (run : RunOf) (node : DagNodeExecution) (bound : Nat) :
    Sound (system engine run) (protocol run) (Unchosen run) fun w tags trace =>
      Base run w.db tags ∧ Listed run w.db node ∧ Single node.id node.jobId bound w.db tags trace where
  next := rfl
  knows h ht := ⟨h.1.stored, h.1.owned _ ht⟩
  run h ht hgood hacts := by
    obtain ⟨hbase, hlisted, hsingle⟩ := h
    refine ⟨⟨hbase.step ht hacts, node_kept hlisted hacts, ?_⟩, trivial⟩
    obtain ⟨row, hrow, hid, hof, hjob⟩ := hlisted
    rw [← hid, ← hjob] at hsingle ⊢
    exact hsingle.step hbase hrow hof ht (fun hphase hev => hgood _ _ ht hphase hev) hacts
  spawn := by
    intro w tags trace call w' th h hspawn
    obtain ⟨hbase, hlisted, hsingle⟩ := h
    simp only [system] at hspawn
    split at hspawn
    · rename_i hof
      cases hspawn
      have hnone : (call.thread engine run).tag.phase.chosen = [] := by
        cases call <;> rfl
      refine ⟨⟨hbase.spawn (Call.ofRun_iff.mp hof) engine, hlisted, ?_⟩, trivial, obeys_thread engine call⟩
      refine hsingle.mono ?_ fun hwaits hzero => ⟨hwaits, ?_⟩
      · rw [total_append, total_singleton, uncreated_of_chosen_nil hnone]
        exact le_rfl
      · rw [total_append] at hzero
        omega
    · cases hspawn
  env change h := ⟨⟨h.1.elsewhere change, h.2.1, h.2.2.made, h.2.2.free⟩, trivial⟩

/-- Along every run in which no call chooses a node that a call holds, a node gets one execution at most,
and none if it does not wait at the start. -/
theorem one_execution (engine : DagEngine) (run : RunOf) {w : World} (hstored : run.Stored w.db)
    {c : Config Event World Tag} (hrun : (system engine run).Run (Unchosen run) (initial w) c)
    {node : DagNodeExecution} (hnode : node ∈ w.db.dagNodeExecutions) (hof : node.dagRunId = run.id) :
    created node.jobId c.trace ≤ if node.status = .waiting then 1 else 0 := by
  have hinit : Sound.Holds (protocol run) (fun w tags trace => Base run w.db tags ∧ Listed run w.db node ∧
      Single node.id node.jobId (if node.status = .waiting then 1 else 0) w.db tags trace) (initial w) := by
    refine ⟨⟨.initial hstored, ⟨node, hnode, rfl, hof, rfl⟩, Nat.zero_le _, ?_⟩, List.forall_mem_nil _⟩
    rintro ⟨row, hrow, hid, hwaiting⟩ _
    obtain rfl := hstored.uniqueNode.eq_of_column hrow hnode hid
    rw [if_pos hwaiting]
    exact le_rfl
  obtain ⟨⟨_, _, hsingle⟩, _⟩ := (sound_single engine run node _).invariant hrun hinit
  have := hsingle.made
  omega

/-! ### Two calls at a join -/

/-- `Unchosen` as a test. -/
def unchosen (run : RunOf) (c : Config Event World Tag) (i : Nat) (ev : Event) : Bool :=
  match c.tags[i]?, ev with
  | some t, .sql (.dag (.getNodes _ nodes)) => t.phase ≠ .advancing ||
      (DagEngine.newlyReady nodes run.edges run.dag).all fun n => c.tags.all fun other =>
        n.id ∉ other.phase.chosen.map DagNodeExecution.id
  | _, _ => true

theorem unchosen_of_check {run : RunOf} {c : Config Event World Tag} {i : Nat} {ev : Event}
    (h : unchosen run c i ev = true) : Unchosen run c i ev := by
  rintro t nodes ht hphase rfl n hn other hother
  simp only [unchosen, ht, hphase, ne_eq, not_true_eq_false, decide_false, Bool.false_or, List.all_eq_true,
    decide_eq_true_eq] at h
  exact h n hn other hother

/-- Both calls write their outcomes before either reads the nodes. -/
def bothEnd : List (Choice Call World) :=
  [.spawn (.complete 7), .spawn (.complete 8)] ++ List.replicate 10 (.run 0) ++ List.replicate 10 (.run 1)

/-- One call starts job 3 before the other reads the nodes. -/
theorem one_execution_join : ∃ c, (system .sample joinRun).Run (Unchosen joinRun) (initial joinWorld) c ∧
    created 3 c.trace = 1 ∧ created (sampleNode 3 .waiting none).jobId c.trace ≤ 1 := by
  have hexec : ((system .sample joinRun).exec (unchosen joinRun)
      (bothEnd ++ List.replicate 9 (.run 0) ++ [.run 1]) (initial joinWorld)).map
        (fun c => created 3 c.trace) = some 1 := rfl
  obtain ⟨c, hc, heq⟩ := Option.map_eq_some_iff.mp hexec
  have hrun := System.run_of_exec (fun _ _ _ => unchosen_of_check) hc
  refine ⟨c, hrun, heq, ?_⟩
  apply one_execution .sample joinRun joinWorld_stored hrun
  · exact List.mem_cons_of_mem _ (List.mem_cons_of_mem _ (List.mem_singleton.mpr rfl))
  · rfl

/-- Both calls read the nodes, and both create an execution for job 3. -/
theorem two_executions : ¬ ∀ c, (system .sample joinRun).Reaches (initial joinWorld) c →
    created 3 c.trace ≤ 1 := by
  intro hclaim
  have hexec : ((system .sample joinRun).exec (fun _ _ _ => true)
      (bothEnd ++ [.run 0, .run 1] ++ List.replicate 5 (.run 0) ++ List.replicate 5 (.run 1))
        (initial joinWorld)).map (fun c => created 3 c.trace) = some 2 := rfl
  obtain ⟨c, hc, heq⟩ := Option.map_eq_some_iff.mp hexec
  have := hclaim c (System.reaches_of_exec hc)
  omega

end DagCalls

end Serverust
