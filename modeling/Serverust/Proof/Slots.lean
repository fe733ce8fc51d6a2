import Serverust.Proof.DagSteps

/-!
# The limit on running nodes

A call computes its free slots from one snapshot and fills them one by one. The limit holds as long as the
running nodes and the nodes that calls have chosen and not yet written fit into it together.
-/

namespace Serverust

open Resumption

namespace DagCalls

open DagRepository

/-- How many nodes a call has chosen and may still start. -/
def claimed (t : Tag) : Nat :=
  match t.phase with
  | .starting todo _ => todo.length
  | _ => 0

def isRunning (run : RunOf) (node : DagNodeExecution) : Bool := node.dagRunId = run.id ∧ node.status = .running

/-- When a call chooses the nodes to start, they fit into the limit together with the nodes that are
running and those that other calls have chosen and not yet started. -/
def Roomy (run : RunOf) (c : Config Event World Tag) (i : Nat) (ev : Event) : Prop :=
  ∀ t nodes, c.tags[i]? = some t → t.phase = .advancing → ev = .sql (.dag (.getNodes run.id nodes)) →
    ((nodes.countP (isRunning run) + total claimed c.tags +
      (DagEngine.newlyReady nodes run.edges run.dag).length : Nat) : Int) ≤ run.dag.maxConcurrentNodes

/-- The running nodes and the claimed ones fit into the limit. -/
def Fits (run : RunOf) (db : Db) (tags : List Tag) : Prop :=
  ((db.dagNodeExecutions.countP (isRunning run) + total claimed tags : Nat) : Int) ≤ run.dag.maxConcurrentNodes

section

variable {run : RunOf} {t : Tag} {ev : Event} {db db' : Db} {tags : List Tag} {i : Nat}
  {node : DagNodeExecution}

theorem length_runningNodes :
    (runningNodes run.id db).length = db.dagNodeExecutions.countP (isRunning run) := by
  rw [runningNodes, ← List.countP_eq_length_filter, nodesOfRun, (List.perm_insertionSort _ _).countP_eq,
    List.countP_filter]
  apply List.countP_congr
  intro n _
  simp only [isRunning, Bool.and_eq_true, decide_eq_true_eq, and_comm]

theorem countP_nodesOfRun :
    (nodesOfRun run.id db).countP (isRunning run) = db.dagNodeExecutions.countP (isRunning run) := by
  rw [nodesOfRun, (List.perm_insertionSort _ _).countP_eq, List.countP_filter]
  apply List.countP_congr
  intro n _
  simp only [isRunning, Bool.and_eq_true, decide_eq_true_eq, and_iff_left_iff_imp]
  exact fun h => h.1

theorem countP_setNode_le (hstatus : node.status ≠ .running) :
    (setNode node db).dagNodeExecutions.countP (isRunning run) ≤
      db.dagNodeExecutions.countP (isRunning run) := by
  apply Rows.countP_modify_le_of_not
  intro row
  simp only [isRunning, overNode, hstatus, and_false, decide_false]

theorem countP_setNode_le_succ (hunique : Rows.Unique DagNodeExecution.id db.dagNodeExecutions) :
    (setNode node db).dagNodeExecutions.countP (isRunning run) ≤
      db.dagNodeExecutions.countP (isRunning run) + 1 := by
  apply (Rows.countP_modify_le _ _ _).trans
  have := hunique.hits_le_one node.id
  omega

theorem claimed_starting {todo : List DagNodeExecution} {created : Option Uuid}
    (h : t.phase = .starting todo created) : claimed t = todo.length := by
  rw [claimed, h]

theorem claimed_of_chosen_nil (h : t.phase.chosen = []) : claimed t = 0 := by
  unfold claimed
  split
  · rename_i hphase
    rw [hphase] at h
    cases h
    rfl
  · rfl

/-- A step after which no more nodes are running or claimed keeps the limit. -/
theorem Fits.mono (h : Fits run db tags) {tags' : List Tag}
    (hle : db'.dagNodeExecutions.countP (isRunning run) + total claimed tags' ≤
      db.dagNodeExecutions.countP (isRunning run) + total claimed tags) : Fits run db' tags' :=
  (Int.ofNat_le.mpr hle).trans h

theorem Fits.step (h : Fits run db tags) (hunique : Rows.Unique DagNodeExecution.id db.dagNodeExecutions)
    (ht : tags[i]? = some t)
    (hgood : t.phase = .advancing → ev = .sql (.dag (.getNodes run.id (nodesOfRun run.id db))) →
      (((nodesOfRun run.id db).countP (isRunning run) + total claimed tags +
        (DagEngine.newlyReady (nodesOfRun run.id db) run.edges run.dag).length : Nat) : Int) ≤
          run.dag.maxConcurrentNodes)
    (hacts : Acts run t ev db db') : Fits run db' (tags.set i (t.next run ev)) := by
  have htotal := total_set claimed ht (t.next run ev)
  cases hacts.turn with
  | choose hphase hev hdb hnext =>
      subst hdb
      have hroom := hgood hphase hev
      have hnone : claimed t = 0 := by
        rw [claimed, hphase]
      rw [claimed_starting hnext, hnone] at htotal
      rw [countP_nodesOfRun] at hroom
      apply le_trans ?_ hroom
      apply Int.ofNat_le.mpr
      omega
  | create hphase hev hjob hsame hnext =>
      rw [claimed_starting hphase, claimed_starting hnext] at htotal
      apply h.mono
      rw [hsame.nodes]
      omega
  | @launch n todo e time hphase hev hdb hnext =>
      subst hdb
      rw [claimed_starting hphase, claimed_starting hnext, List.length_cons] at htotal
      have hmore : (setNode (n.launch e time) db).dagNodeExecutions.countP (isRunning run) ≤
          db.dagNodeExecutions.countP (isRunning run) + 1 := countP_setNode_le_succ hunique
      apply h.mono
      omega
  | @giveUp n todo created time hphase hev hdb hnext =>
      subst hdb
      rw [claimed_starting hphase, claimed_starting hnext, List.length_cons] at htotal
      have hless : (setNode (n.close .failed time) db).dagNodeExecutions.countP (isRunning run) ≤
          db.dagNodeExecutions.countP (isRunning run) := countP_setNode_le (by exact nofun)
      apply h.mono
      omega
  | retire hev hsame hnext =>
      have hgone : claimed (t.next run ev) = 0 := by
        rw [claimed, hnext]
      apply h.mono
      rw [hsame.nodes]
      omega
  | @close n status time hn hstatus hev hdb hchosen hnext =>
      subst hdb
      rw [claimed_of_chosen_nil hchosen, claimed_of_chosen_nil hnext] at htotal
      have hless : (setNode (n.close status time) db).dagNodeExecutions.countP (isRunning run) ≤
          db.dagNodeExecutions.countP (isRunning run) := by
        apply countP_setNode_le
        rintro ⟨⟩
        exact absurd hstatus Bool.false_ne_true
      apply h.mono
      omega
  | count hev hdb hchosen hnext =>
      subst hdb
      rw [claimed_of_chosen_nil hchosen, claimed_of_chosen_nil hnext] at htotal
      apply h.mono
      show db.dagNodeExecutions.countP (isRunning run) + _ ≤ _
      omega
  | read hev hsame hnext =>
      have hkept : claimed (t.next run ev) = claimed t := by
        rcases hnext with heq | ⟨hnone, hnext⟩
        · rw [claimed, heq, claimed]
        · rw [claimed_of_chosen_nil hnone, claimed_of_chosen_nil hnext]
      apply h.mono
      rw [hsame.nodes]
      omega

end

/-! ### Runs -/

theorem sound_fits (engine : DagEngine) (run : RunOf) :
    Sound (system engine run) (protocol run) (Roomy run) fun w tags _ => Base run w.db tags ∧ Fits run w.db tags where
  next := rfl
  knows h ht := ⟨h.1.stored, h.1.owned _ ht⟩
  run h ht hgood hacts :=
    ⟨⟨h.1.step ht hacts, h.2.step h.1.stored.uniqueNode ht (fun hphase hev => hgood _ _ ht hphase hev) hacts⟩, trivial⟩
  spawn := by
    intro w tags trace call w' th h hspawn
    simp only [system] at hspawn
    split at hspawn
    · rename_i hof
      cases hspawn
      refine ⟨⟨h.1.spawn (Call.ofRun_iff.mp hof) engine, ?_⟩, trivial, obeys_thread engine call⟩
      apply h.2.mono
      have hnone : claimed (call.thread engine run).tag = 0 := by
        cases call <;> rfl
      rw [total_append, total_singleton, hnone]
      exact le_rfl
    · cases hspawn
  env change h := ⟨⟨h.1.elsewhere change, h.2⟩, trivial⟩

/-- Along every run in which the nodes that a call chooses fit into the limit, the running nodes do. -/
theorem running_le_limit (engine : DagEngine) (run : RunOf) {w : World} (hstored : run.Stored w.db)
    (hlimit : ((runningNodes run.id w.db).length : Int) ≤ run.dag.maxConcurrentNodes)
    {c : Config Event World Tag} (hrun : (system engine run).Run (Roomy run) (initial w) c) :
    ((runningNodes run.id c.world.db).length : Int) ≤ run.dag.maxConcurrentNodes := by
  have hinit : Sound.Holds (protocol run) (fun w tags _ => Base run w.db tags ∧ Fits run w.db tags) (initial w) := by
    refine ⟨⟨.initial hstored, ?_⟩, List.forall_mem_nil _⟩
    rw [length_runningNodes] at hlimit
    exact hlimit
  obtain ⟨⟨_, hfits⟩, _⟩ := (sound_fits engine run).invariant hrun hinit
  rw [length_runningNodes]
  apply le_trans ?_ hfits
  exact Int.ofNat_le.mpr (Nat.le_add_right _ _)

/-! ### Two calls that share the slots -/

/-- `Roomy` as a test. -/
def roomy (run : RunOf) (c : Config Event World Tag) (i : Nat) (ev : Event) : Bool :=
  match c.tags[i]?, ev with
  | some t, .sql (.dag (.getNodes _ nodes)) => t.phase ≠ .advancing ||
      ((nodes.countP (isRunning run) + total claimed c.tags +
        (DagEngine.newlyReady nodes run.edges run.dag).length : Nat) : Int) ≤ run.dag.maxConcurrentNodes
  | _, _ => true

theorem roomy_of_check {run : RunOf} {c : Config Event World Tag} {i : Nat} {ev : Event}
    (h : roomy run c i ev = true) : Roomy run c i ev := by
  rintro t nodes ht hphase rfl
  simpa only [roomy, ht, hphase, ne_eq, not_true_eq_false, decide_false, Bool.false_or, decide_eq_true_eq] using h

/-- Job 3 runs after job 1, and jobs 4 and 5 run after job 2. -/
def forkRun : RunOf where
  id := 10
  dag := { Dag.sample with maxConcurrentNodes := 2 }
  edges := [sampleEdge 1 3 .success, sampleEdge 2 4 .success, sampleEdge 2 5 .success]

/-- Jobs 1 and 2 are running, and their executions have succeeded. -/
def forkWorld : World :=
  sampleWorld forkRun.dag forkRun.edges [1, 2, 3, 4, 5] [sampleExecution 7 1 .success, sampleExecution 8 2 .success]
    [sampleNode 1 .running (some 7), sampleNode 2 .running (some 8), sampleNode 4 .waiting none,
      sampleNode 5 .waiting none, sampleNode 3 .waiting none]

theorem forkWorld_stored : forkRun.Stored forkWorld.db :=
  stored_sample _ _ rfl (by decide) (by decide)

/-- The first call starts job 3 before the second one ends, which then starts job 4. -/
theorem running_le_limit_fork : ∃ c, (system .sample forkRun).Run (Roomy forkRun) (initial forkWorld) c ∧
    (runningNodes 10 c.world.db).length = 2 ∧ ((runningNodes forkRun.id c.world.db).length : Int) ≤ 2 := by
  have hexec : ((system .sample forkRun).exec (roomy forkRun)
      ([.spawn (.complete 7), .spawn (.complete 8)] ++ List.replicate 27 (.run 0) ++ List.replicate 19 (.run 1))
        (initial forkWorld)).map (fun c => (runningNodes 10 c.world.db).length) = some 2 := rfl
  obtain ⟨c, hc, heq⟩ := Option.map_eq_some_iff.mp hexec
  have hrun := System.run_of_exec (fun _ _ _ => roomy_of_check) hc
  exact ⟨c, hrun, heq, running_le_limit .sample forkRun forkWorld_stored (by decide) hrun⟩

/-- The first call has chosen job 3 when the second one finds two free slots. -/
theorem running_exceeds_limit : ¬ ∀ c, (system .sample forkRun).Reaches (initial forkWorld) c →
    ((runningNodes 10 c.world.db).length : Int) ≤ 2 := by
  intro hclaim
  have hexec : ((system .sample forkRun).exec (fun _ _ _ => true)
      ([.spawn (.complete 7), .spawn (.complete 8)] ++ List.replicate 11 (.run 0) ++ List.replicate 11 (.run 1) ++
        List.replicate 8 (.run 0) ++ List.replicate 24 (.run 1))
        (initial forkWorld)).map (fun c => (runningNodes 10 c.world.db).length) = some 3 := rfl
  obtain ⟨c, hc, heq⟩ := Option.map_eq_some_iff.mp hexec
  have := hclaim c (System.reaches_of_exec hc)
  omega

end DagCalls

end Serverust
