import Serverust.Proof.DagSerial

/-!
# The counters of a run

A call adds its node to the run's counters after it has written the outcome, from a row that it has read;
a call that ends the run counts the nodes anew. The counters are right whenever no call is in progress, as
long as no call adds to a row that another one has written since, and no node ends in another way than by
one callback.
-/

namespace Serverust

open Resumption

namespace DagCalls

open DagRepository

/-- The nodes of the run in some status. -/
def tally (run : RunOf) (db : Db) (p : NodeStatus → Bool) : Nat :=
  (nodesOfRun run.id db).countP fun node => p node.status

/-- A call may return: it has written no outcome, or it has done all it has to. -/
def Phase.mayReturn : Phase → Bool
  | .calling | .found _ | .ending .. | .skipping _ true | .leaving | .exited _ => true
  | _ => false

/-- All rows of a node's id have such a status. -/
def storedAs (db : Db) (node : DagNodeExecution) (p : NodeStatus → Bool) : Bool :=
  db.dagNodeExecutions.all fun row => row.id ≠ node.id || p row.status

/-- The run's row has such counters. -/
def counted (run : RunOf) (db : Db) (p : DagRun → Bool) : Bool :=
  (Rows.lookup DagRun.id run.id db.dagRuns).all p

/-- What a step of a call may be. A call that has written its outcome returns only at its end. An outcome
is written to a node that has not ended. A node starts if it has not ended, and none fails to start. Nodes
are skipped only if none was running when the call looked, and not if they have failed. The row that a call
writes still has the counters it has read; only the number of completed nodes may be old, if all nodes have
ended. -/
def regular (run : RunOf) (db : Db) (t : Tag) : Event → Bool
  | .returned => t.phase.mayReturn
  | .sql (.dag (.updateNode node)) =>
    match t.phase with
    | .ending .. => storedAs db node fun status => !status.isTerminal
    | .starting .. => node.status = .running && storedAs db node fun status => !status.isTerminal
    | .skipping _ busy => !busy && storedAs db node fun status => !DagEngine.isFailure status
    | _ => true
  | .sql (.dag (.updateRun _)) =>
    match t.phase with
    | .adding row => counted run db fun stored => row.failedNodes = stored.failedNodes &&
        (row.completedNodes = stored.completedNodes || (nodesOfRun run.id db).all fun n => n.status.isTerminal)
    | .recounted row _ | .closing _ row => counted run db fun stored => row.failedNodes = stored.failedNodes
    | _ => true
  | _ => true

/-- The call that acts is a callback, and its step is regular. -/
def Regular (run : RunOf) (c : Config Event World Tag) (i : Nat) (ev : Event) : Prop :=
  ∀ t, c.tags[i]? = some t → t.call ≠ .cancel ∧ regular run c.world.db t ev = true

/-- The counters agree with the nodes. -/
structure Agree (run : RunOf) (db : Db) (row : DagRun) : Prop where
  completed : row.completedNodes = tally run db NodeStatus.isTerminal
  failed : row.failedNodes = tally run db DagEngine.isFailure

/-! ### What calls still owe -/

/-- A call has written its outcome and not yet added its node. -/
def owed (t : Tag) : Nat :=
  match t.phase with
  | .counting | .adding _ => 1
  | _ => 0

/-- The same, if the outcome is a failure. -/
def owedFailure (t : Tag) : Nat :=
  match t.phase with
  | .counting | .adding _ => if t.outcome.any DagEngine.isFailure then 1 else 0
  | _ => 0

/-- The call skips the nodes that have not started, and will then count all nodes anew. -/
def Phase.recounts : Phase → Bool
  | .skipping _ false | .failing _ | .recounted .. => true
  | _ => false

/-- The call will find that all nodes have ended if they have, and will then count them anew. -/
def Phase.finishes : Phase → Bool
  | .counting | .adding _ | .branching | .stopping | .advancing | .starting [] _ | .finishing _ | .closing .. => true
  | _ => false

/-- The call will count all nodes anew. -/
def Recounts (run : RunOf) (db : Db) (phase : Phase) : Prop :=
  phase.recounts = true ∨ phase.finishes = true ∧ Ended run db

/-- The snapshot of the nodes from which the call ends the run. -/
def Phase.snapshot : Phase → Option (List DagNodeExecution)
  | .recounted _ nodes | .finishing nodes | .closing nodes _ => some nodes
  | _ => none

/-- The row of the run that the call is about to write. -/
def Phase.row : Phase → Option DagRun
  | .adding row | .failing row | .recounted row _ | .closing _ row => some row
  | _ => none

/-- The call is a cancellation under way. -/
def Phase.cancels : Phase → Bool
  | .cancelling _ | .sweeping .. => true
  | _ => false

/-- What a callback knows. -/
structure Knows (run : RunOf) (db : Db) (phase : Phase) : Prop where
  callback : phase.cancels = false
  rest : Rest run db phase
  row : ∀ row, phase.row = some row → row.id = run.id
  snapshot : ∀ nodes, phase.snapshot = some nodes →
    nodes.length = tally run db (fun _ => true) ∧ ∀ n ∈ nodes, n.status.isTerminal = true

/-- The counters are right up to what the calls owe, or a call will count anew. -/
structure Right (run : RunOf) (db : Db) (tags : List Tag) (row : DagRun) : Prop where
  all : row.totalNodes = tally run db (fun _ => true)
  failed : row.failedNodes + total owedFailure tags = tally run db DagEngine.isFailure
  completed : row.completedNodes + total owed tags = tally run db NodeStatus.isTerminal ∨
    ∃ t ∈ tags, Recounts run db t.phase

structure Counted (run : RunOf) (db : Db) (tags : List Tag) : Prop where
  knows : ∀ t ∈ tags, Knows run db t.phase
  right : ∃ row, Rows.lookup DagRun.id run.id db.dagRuns = some row ∧ Right run db tags row

section

variable {run : RunOf} {t t' : Tag} {ev : Event} {db db' : Db} {tags : List Tag} {i : Nat}
  {n m old : DagNodeExecution} {row : DagRun} {phase : Phase} {p : NodeStatus → Bool}

/-! ### Counting nodes -/

theorem tally_eq : tally run db p =
    db.dagNodeExecutions.countP fun node => p node.status && node.dagRunId = run.id := by
  rw [tally, nodesOfRun, (List.perm_insertionSort _ _).countP_eq, List.countP_filter]

theorem tally_of_nodes (h : db'.dagNodeExecutions = db.dagNodeExecutions) : tally run db' p = tally run db p := by
  rw [tally_eq, h, tally_eq]

theorem tally_setNode (hunique : Rows.Unique DagNodeExecution.id db.dagNodeExecutions)
    (hold : old ∈ db.dagNodeExecutions) (hof : old.dagRunId = run.id) (hid : old.id = m.id) :
    tally run (setNode m db) p + (if p old.status then 1 else 0) =
      tally run db p + (if p m.status then 1 else 0) := by
  have hcount := hunique.countP_modify (f := overNode m) hold hid fun node => p node.status && node.dagRunId = run.id
  simp only [hof, decide_true, Bool.and_true] at hcount
  have hwritten : (overNode m old).dagRunId = run.id := hof
  rw [hwritten] at hcount
  simp only [decide_true, Bool.and_true] at hcount
  rw [tally_eq, tally_eq]
  exact hcount

theorem tally_le : tally run db p ≤ tally run db fun _ => true :=
  List.countP_mono_left fun _ _ _ => rfl

theorem tally_ended (h : Ended run db) : tally run db NodeStatus.isTerminal = tally run db fun _ => true := by
  apply List.countP_congr
  intro node hnode
  obtain ⟨hrow, hof⟩ := mem_nodesOfRun.mp hnode
  rw [h node hrow hof]

theorem length_nodesOfRun : (nodesOfRun run.id db).length = tally run db fun _ => true := by
  rw [tally, List.countP_true]

/-! ### What steps of other calls leave -/

/-- No node that has ended starts again. -/
def Shrinks (run : RunOf) (db db' : Db) : Prop :=
  ∀ node ∈ db'.dagNodeExecutions, node.dagRunId = run.id → node.status.isTerminal = false →
    ∃ before ∈ db.dagNodeExecutions, before.dagRunId = run.id ∧ before.status.isTerminal = false ∧
      before.id = node.id

theorem Shrinks.of_nodes (h : db'.dagNodeExecutions = db.dagNodeExecutions) : Shrinks run db db' :=
  fun node hnode hof hopen => ⟨node, h ▸ hnode, hof, hopen, rfl⟩

theorem Shrinks.setNode (h : m.status.isTerminal = true ∨
    ∀ row ∈ db.dagNodeExecutions, row.id = m.id → row.status.isTerminal = false) :
    Shrinks run db (setNode m db) := by
  intro node hnode hof hopen
  obtain ⟨before, hbefore, rfl⟩ := Rows.mem_modify.mp hnode
  by_cases hid : before.id = m.id
  · rw [if_pos hid] at hof hopen ⊢
    rcases h with hterminal | hstored
    · exact absurd hterminal (Bool.eq_false_iff.mp hopen)
    · exact ⟨before, hbefore, hof, hstored before hbefore hid, rfl⟩
  · rw [if_neg hid] at hof hopen ⊢
    exact ⟨before, hbefore, hof, hopen, rfl⟩

theorem Ended.shrinks (h : Ended run db) (hshrinks : Shrinks run db db') : Ended run db' := by
  intro node hnode hof
  by_contra hopen
  obtain ⟨before, hbefore, hbeforeOf, hbeforeOpen, _⟩ :=
    hshrinks node hnode hof (Bool.eq_false_of_not_eq_true hopen)
  rw [h before hbefore hbeforeOf] at hbeforeOpen
  cases hbeforeOpen

theorem Recounts.shrinks (h : Recounts run db phase) (hshrinks : Shrinks run db db') :
    Recounts run db' phase :=
  h.imp_right fun h => ⟨h.1, h.2.shrinks hshrinks⟩

theorem Recounts.false (h : Recounts run db phase) (hrecounts : phase.recounts = false)
    (hfinishes : phase.finishes = false) : False := by
  rcases h with h | ⟨h, _⟩
  · rw [hrecounts] at h
    cases h
  · rw [hfinishes] at h
    cases h

theorem Knows.shrinks (h : Knows run db phase) (hshrinks : Shrinks run db db')
    (hall : tally run db' (fun _ => true) = tally run db fun _ => true) : Knows run db' phase where
  callback := h.callback
  rest todo htodo node hnode hof hopen := by
    obtain ⟨before, hbefore, hbeforeOf, hbeforeOpen, hid⟩ := hshrinks node hnode hof hopen
    exact hid ▸ h.rest todo htodo before hbefore hbeforeOf hbeforeOpen
  row := h.row
  snapshot nodes hnodes := by
    rw [hall]
    exact h.snapshot nodes hnodes

/-! ### Steps -/

theorem Knows.of_rest (hrest : Rest run db phase) (hcancels : phase.cancels = false) (hrow : phase.row = none)
    (hsnapshot : phase.snapshot = none) : Knows run db phase where
  callback := hcancels
  rest := hrest
  row row h := by
    rw [hrow] at h
    cases h
  snapshot nodes h := by
    rw [hsnapshot] at h
    cases h

theorem Knows.next (h : Knows run db t.phase) (hstage : Stage run t db ev db' t') (hcall : t.call ≠ .cancel)
    (hall : tally run db' (fun _ => true) = tally run db fun _ => true) : Knows run db' t'.phase := by
  have hrest := hstage.rest h.rest
  cases hstage with
  | stay => exact ⟨h.callback, hrest, h.row, by rw [hall]; exact h.snapshot⟩
  | readRow hrow | readFail hrow =>
      refine ⟨rfl, hrest, ?_, (fun _ h => nomatch h)⟩
      rintro _ ⟨⟩
      exact Rows.column_of_lookup hrow
  | recount =>
      refine ⟨rfl, hrest, h.row, ?_⟩
      rintro _ ⟨⟩
      refine ⟨length_nodesOfRun, ?_⟩
      intro n hn
      obtain ⟨hnode, hof⟩ := mem_nodesOfRun.mp hn
      exact h.rest.ended rfl n hnode hof
  | review =>
      dsimp only at hrest ⊢
      split at hrest
      · rename_i hended
        rw [if_pos hended]
        refine ⟨rfl, hrest, (fun _ h => nomatch h), ?_⟩
        rintro _ ⟨⟩
        exact ⟨length_nodesOfRun, List.all_eq_true.mp hended⟩
      · rename_i hended
        rw [if_neg hended]
        exact .of_rest hrest rfl rfl rfl
  | readFinish hrow =>
      refine ⟨rfl, hrest, ?_, h.snapshot⟩
      rintro _ ⟨⟩
      exact Rows.column_of_lookup hrow
  | branch =>
      apply Knows.of_rest hrest
      · dsimp only
        split <;> rfl
      · dsimp only
        split <;> rfl
      · dsimp only
        split <;> rfl
  | readCancel => exact absurd rfl hcall
  | list | cancelNode | cancelRun => cases h.callback
  | _ => exact .of_rest hrest rfl rfl rfl

/-- A step that writes nothing and after which the call owes as much as before. -/
theorem Right.read (h : Right run db tags row) (ht : tags[i]? = some t)
    (hnodes : db'.dagNodeExecutions = db.dagNodeExecutions) (howed : owed t' = owed t)
    (hfailure : owedFailure t' = owedFailure t) (hnext : Recounts run db t.phase → Recounts run db t'.phase) :
    Right run db' (tags.set i t') row := by
  have htotal := total_set owed ht t'
  have htotalFailure := total_set owedFailure ht t'
  have htallies (p : NodeStatus → Bool) : tally run db' p = tally run db p := tally_of_nodes hnodes
  refine ⟨?_, ?_, ?_⟩
  · rw [htallies]
    exact h.all
  · have hfailed := h.failed
    rw [htallies]
    omega
  · rcases h.completed with hcompleted | hrecounts
    · left
      rw [htallies]
      omega
    · right
      obtain ⟨other, hother, hlater⟩ := exists_mem_set hrecounts ht hnext
      exact ⟨other, hother, hlater.shrinks (.of_nodes hnodes)⟩

theorem Right.setNode (h : Right run db tags row) (ht : tags[i]? = some t)
    (hunique : Rows.Unique DagNodeExecution.id db.dagNodeExecutions) (hold : old ∈ db.dagNodeExecutions)
    (hof : old.dagRunId = run.id) (hid : old.id = m.id) (hshrinks : Shrinks run db (setNode m db))
    (hfailure : (if DagEngine.isFailure m.status then 1 else 0) + owedFailure t =
      (if DagEngine.isFailure old.status then 1 else 0) + owedFailure t')
    (hcompleted : (if m.status.isTerminal then 1 else 0) + owed t =
      (if old.status.isTerminal then 1 else 0) + owed t' ∧ ¬ Recounts run db t.phase ∨ t'.phase.recounts = true) :
    Right run (setNode m db) (tags.set i t') row := by
  have htotal := total_set owed ht t'
  have htotalFailure := total_set owedFailure ht t'
  have hall : tally run (DagRepository.setNode m db) (fun _ => true) + 1 = tally run db (fun _ => true) + 1 :=
    tally_setNode hunique hold hof hid
  have hfailures := tally_setNode (p := DagEngine.isFailure) hunique hold hof hid
  have hends := tally_setNode (p := NodeStatus.isTerminal) hunique hold hof hid
  refine ⟨?_, ?_, ?_⟩
  · have := h.all
    omega
  · have hfailed := h.failed
    omega
  · rcases hcompleted with ⟨hcompleted, hnot⟩ | hrecounts
    · rcases h.completed with hright | hothers
      · left
        omega
      · right
        obtain ⟨other, hother, hlater⟩ := exists_mem_set hothers ht fun h => absurd h hnot
        exact ⟨other, hother, hlater.shrinks hshrinks⟩
    · obtain ⟨hlength, _⟩ := List.getElem?_eq_some_iff.mp ht
      exact .inr ⟨t', List.mem_set hlength t', .inl hrecounts⟩

/-- Once all nodes have ended, a call that owes something will count them anew. -/
theorem Right.completed_of_ended (hended : Ended run db)
    (hcompleted : row.completedNodes = tally run db NodeStatus.isTerminal) :
    row.completedNodes + total owed tags = tally run db NodeStatus.isTerminal ∨
      ∃ t ∈ tags, Recounts run db t.phase := by
  by_cases hnone : total owed tags = 0
  · left
    omega
  · right
    rw [total_eq_zero] at hnone
    push Not at hnone
    obtain ⟨other, hother, howes⟩ := hnone
    refine ⟨other, hother, .inr ⟨?_, hended⟩⟩
    unfold owed at howes
    split at howes
    · rename_i hphase
      rw [hphase]
      rfl
    · rename_i hphase
      rw [hphase]
      rfl
    · exact absurd rfl howes

theorem Right.setRun (h : Right run db tags row) (ht : tags[i]? = some t)
    (hrow : Rows.lookup DagRun.id run.id db.dagRuns = some row) {written : DagRun} (hid : written.id = run.id)
    (hfailed : written.failedNodes + owedFailure t' = row.failedNodes + owedFailure t)
    (hcompleted : written.completedNodes + total owed (tags.set i t') = tally run db NodeStatus.isTerminal ∨
      ∃ t ∈ tags.set i t', Recounts run db t.phase) :
    ∃ row, Rows.lookup DagRun.id run.id (setRun written db).dagRuns = some row ∧
      Right run (setRun written db) (tags.set i t') row := by
  refine ⟨overRun written row, hid ▸ lookup_setRun (hid.symm ▸ hrow), h.all, ?_, hcompleted⟩
  have htotal := total_set owedFailure ht t'
  have hright := h.failed
  show written.failedNodes + total owedFailure (tags.set i t') = tally run db DagEngine.isFailure
  omega

theorem of_counted {p : DagRun → Bool} (h : counted run db p = true)
    (hrow : Rows.lookup DagRun.id run.id db.dagRuns = some row) : p row = true := by
  rw [counted, hrow] at h
  exact h

theorem of_storedAs (h : storedAs db m p = true) (hold : old ∈ db.dagNodeExecutions) (hid : old.id = m.id) :
    p old.status = true := by
  have hthis := List.all_eq_true.mp h old hold
  simpa only [hid, ne_eq, not_true_eq_false, decide_false, Bool.false_or] using hthis

theorem isFailure_of_open {status : NodeStatus} (h : status.isTerminal = false) :
    DagEngine.isFailure status = false := by
  cases status with
  | waiting | ready | running => rfl
  | _ => cases h

theorem tally_all (hbase : Base run db tags) (ht : t ∈ tags) (hacts : Acts run t ev db db') :
    tally run db' (fun _ => true) = tally run db fun _ => true := by
  rcases hacts.effect with hsame | ⟨node, n, hn, hid, rfl⟩ | ⟨row, rfl⟩
  · exact tally_of_nodes hsame.nodes
  · obtain ⟨old, hold, holdId, hof, _⟩ := hbase.listed t ht n hn
    have hall : tally run (setNode node db) (fun _ => true) + 1 = tally run db (fun _ => true) + 1 :=
      tally_setNode hbase.stored.uniqueNode hold hof (holdId.trans hid.symm)
    omega
  · rfl

theorem Stage.shrinks (h : Stage run t db ev db' t') (hregular : regular run db t ev = true)
    (hcancels : t.phase.cancels = false) : Shrinks run db db' := by
  cases h with
  | stay _ hsame | retire hsame | observe hsame | branch hsame | create _ hsame => exact .of_nodes hsame.nodes
  | @endNode _ _ node status => exact .setNode (.inl (isTerminal_completedStatus status))
  | skip => exact .setNode (.inl rfl)
  | giveUp => cases hregular
  | @launch _ _ n _ e _ time =>
      have hstored : storedAs db (n.launch e time) (fun status => !status.isTerminal) = true := hregular
      apply Shrinks.setNode
      right
      intro old hold hid
      exact (Bool.not_eq_true' _).mp (of_storedAs hstored hold hid)
  | cancelNode => cases hcancels
  | _ => exact .of_nodes rfl

/-- A regular step of a callback keeps the counters right up to what is owed. -/
theorem Right.step (h : Right run db tags row) (hrow : Rows.lookup DagRun.id run.id db.dagRuns = some row)
    (hknows : Knows run db t.phase) (hbase : Base run db tags) (ht : tags[i]? = some t) (hcall : t.call ≠ .cancel)
    (hregular : regular run db t ev = true) (hstage : Stage run t db ev db' t') (hshrinks : Shrinks run db db') :
    ∃ row, Rows.lookup DagRun.id run.id db'.dagRuns = some row ∧ Right run db' (tags.set i t') row := by
  have hmem := List.mem_of_getElem? ht
  have hunique := hbase.stored.uniqueNode
  cases hstage with
  | stay _ hsame => exact ⟨row, hsame.dagRuns ▸ hrow, h.read ht hsame.nodes rfl rfl id⟩
  | @retire call outcome phase _ _ hsame =>
      have hphase : phase.mayReturn = true := hregular
      refine ⟨row, hsame.dagRuns ▸ hrow, ?_⟩
      cases phase with
      | calling | found | ending | leaving | exited =>
          exact h.read ht hsame.nodes rfl rfl fun h => (h.false rfl rfl).elim
      | skipping todo busy =>
          cases busy with
          | true => exact h.read ht hsame.nodes rfl rfl fun h => (h.false rfl rfl).elim
          | false => cases hphase
      | _ => cases hphase
  | observe hsame =>
      exact ⟨row, hsame.dagRuns ▸ hrow, h.read ht hsame.nodes rfl rfl fun h => (h.false rfl rfl).elim⟩
  | create _ hsame =>
      exact ⟨row, hsame.dagRuns ▸ hrow, h.read ht hsame.nodes rfl rfl fun h => (h.false rfl rfl).elim⟩
  | branch hsame =>
      refine ⟨row, hsame.dagRuns ▸ hrow, ?_⟩
      split
      · exact h.read ht hsame.nodes rfl rfl fun h => .inr ⟨rfl, (h.resolve_left nofun).2⟩
      · exact h.read ht hsame.nodes rfl rfl fun h => .inr ⟨rfl, (h.resolve_left nofun).2⟩
  | find => exact ⟨row, hrow, h.read ht rfl rfl rfl fun h => (h.false rfl rfl).elim⟩
  | readRow | readFail | recount | readFinish => exact ⟨row, hrow, h.read ht rfl rfl rfl id⟩
  | survey =>
      refine ⟨row, hrow, h.read ht rfl rfl rfl ?_⟩
      intro hrecounts
      obtain ⟨_, hended⟩ := hrecounts.resolve_left nofun
      have hbusy : ((nodesOfRun run.id db).any fun n => n.status = .running) = false := by
        apply List.any_eq_false.mpr
        intro n hn hrunning
        obtain ⟨hnode, hof⟩ := mem_nodesOfRun.mp hn
        have hterminal := hended n hnode hof
        rw [of_decide_eq_true hrunning] at hterminal
        cases hterminal
      rw [hbusy]
      exact .inl rfl
  | choose =>
      refine ⟨row, hrow, h.read ht rfl rfl rfl ?_⟩
      intro hrecounts
      obtain ⟨_, hended⟩ := hrecounts.resolve_left nofun
      have hnone : DagEngine.newlyReady (nodesOfRun run.id db) run.edges run.dag = [] := by
        apply List.eq_nil_iff_forall_not_mem.mpr
        intro n hn
        obtain ⟨hnode, hof, hwaiting, _⟩ := waiting_of_newlyReady hn
        have hterminal := hended n hnode hof
        rw [hwaiting] at hterminal
        cases hterminal
      rw [hnone]
      exact .inr ⟨rfl, hended⟩
  | review =>
      refine ⟨row, hrow, ?_⟩
      split
      · exact h.read ht rfl rfl rfl fun h => .inr ⟨rfl, (h.resolve_left nofun).2⟩
      · rename_i hopen
        refine h.read ht rfl rfl rfl fun hrecounts => (hopen ?_).elim
        obtain ⟨_, hended⟩ := hrecounts.resolve_left nofun
        apply List.all_eq_true.mpr
        intro n hn
        obtain ⟨hnode, hof⟩ := mem_nodesOfRun.mp hn
        exact hended n hnode hof
  | @endNode call outcome node status _ time =>
      obtain ⟨old, hold, hid, hof, _⟩ := hbase.listed _ hmem node (List.mem_singleton.mpr rfl)
      have hstored : storedAs db (node.close (DagEngine.completedStatus status) time)
        (fun status => !status.isTerminal) = true := hregular
      have hopen := (Bool.not_eq_true' _).mp (of_storedAs hstored hold hid)
      refine ⟨row, hrow, h.setNode ht hunique hold hof (by exact hid) hshrinks ?_ (.inl ⟨?_, ?_⟩)⟩
      · rw [isFailure_of_open hopen]
        simp only [owedFailure, Option.any_some, Bool.false_eq_true, if_false, Nat.zero_add, Nat.add_zero]
        rfl
      · have hterminal : (node.close (DagEngine.completedStatus status) time).status.isTerminal = true :=
          isTerminal_completedStatus status
        rw [hopen, hterminal]
        rfl
      · exact fun h => h.false rfl rfl
  | @skip call outcome n todo busy _ time =>
      obtain ⟨old, hold, hid, hof, _⟩ := hbase.listed _ hmem n List.mem_cons_self
      cases busy with
      | true => cases hregular
      | false =>
          have hstored : storedAs db (n.close .skipped time) (fun status => !DagEngine.isFailure status) = true :=
            hregular
          have hfailure := (Bool.not_eq_true' _).mp (of_storedAs hstored hold hid)
          refine ⟨row, hrow, h.setNode ht hunique hold hof (by exact hid) hshrinks ?_ (.inr rfl)⟩
          rw [hfailure]
          rfl
  | @launch call outcome n todo e _ time =>
      obtain ⟨old, hold, hid, hof, _⟩ := hbase.listed _ hmem n List.mem_cons_self
      have hstored : storedAs db (n.launch e time) (fun status => !status.isTerminal) = true := hregular
      have hopen := (Bool.not_eq_true' _).mp (of_storedAs hstored hold hid)
      refine ⟨row, hrow, h.setNode ht hunique hold hof (by exact hid) hshrinks ?_ (.inl ⟨?_, ?_⟩)⟩
      · rw [isFailure_of_open hopen]
        rfl
      · rw [hopen]
        rfl
      · exact fun h => h.false rfl rfl
  | giveUp => cases hregular
  | @addRun call outcome read =>
      have hread := of_counted hregular hrow
      simp only [Bool.and_eq_true, Bool.or_eq_true, decide_eq_true_eq] at hread
      obtain ⟨hfailed, hcompleted⟩ := hread
      have htotal := total_set owed ht ⟨call, some outcome, .branching⟩
      have howed : owed ⟨call, some outcome, .adding read⟩ = 1 := rfl
      have hpaid : owed ⟨call, some outcome, .branching⟩ = 0 := rfl
      refine h.setRun ht hrow (by exact hknows.row read rfl) ?_ ?_
      · simp only [DagRun.count, owedFailure, Option.any_some]
        split <;> omega
      · rcases hcompleted with hcompleted | hall
        · rcases h.completed with hright | hothers
          · left
            simp only [DagRun.count]
            omega
          · exact .inr (exists_mem_set hothers ht fun h => .inr ⟨rfl, (h.resolve_left nofun).2⟩)
        · right
          obtain ⟨hlength, _⟩ := List.getElem?_eq_some_iff.mp ht
          refine ⟨_, List.mem_set hlength _, .inr ⟨rfl, ?_⟩⟩
          exact fun node hnode hof => List.all_eq_true.mp hall node (mem_nodesOfRun.mpr ⟨hnode, hof⟩)
  | @failRun call outcome read nodes _ time =>
      have hfailed := of_decide_eq_true (of_counted hregular hrow)
      have hended := hknows.rest.ended rfl
      obtain ⟨hlength, hterminal⟩ := hknows.snapshot nodes rfl
      refine h.setRun ht hrow (by exact hknows.row read rfl) ?_ (Right.completed_of_ended hended ?_)
      · exact congrArg (· + _) hfailed
      · rw [tally_ended hended, ← hlength]
        apply congrArg Nat.cast
        apply List.countP_eq_length.mpr
        intro n hn
        have hended := hterminal n hn
        apply decide_eq_true
        refine ⟨?_, ?_, ?_⟩ <;> rintro heq <;> rw [heq] at hended <;> cases hended
  | @finishRun call outcome nodes read =>
      have hfailed := of_decide_eq_true (of_counted hregular hrow)
      have hended := hknows.rest.ended rfl
      obtain ⟨hlength, _⟩ := hknows.snapshot nodes rfl
      refine h.setRun ht hrow (by exact hknows.row read rfl) ?_ (Right.completed_of_ended hended ?_)
      · exact congrArg (· + _) hfailed
      · rw [tally_ended hended, ← hlength]
        rfl
  | readCancel => exact absurd rfl hcall
  | list | cancelNode | cancelRun => cases hknows.callback

theorem Counted.step (h : Counted run db tags) (hbase : Base run db tags) (ht : tags[i]? = some t)
    (hcall : t.call ≠ .cancel) (hregular : regular run db t ev = true) (hacts : Acts run t ev db db') :
    Counted run db' (tags.set i (t.next run ev)) := by
  have hmem := List.mem_of_getElem? ht
  have hall := tally_all hbase hmem hacts
  have hshrinks := hacts.stage.shrinks hregular (h.knows t hmem).callback
  obtain ⟨row, hrow, hright⟩ := h.right
  refine ⟨?_, hright.step hrow (h.knows t hmem) hbase ht hcall hregular hacts.stage hshrinks⟩
  intro other hother
  rcases List.mem_or_eq_of_mem_set hother with hold | rfl
  · exact (h.knows other hold).shrinks hshrinks hall
  · exact (h.knows t hmem).next hacts.stage hcall hall

theorem Counted.spawn (h : Counted run db tags) (call : Call) :
    Counted run db (tags ++ [⟨call, none, .calling⟩]) := by
  obtain ⟨row, hrow, hright⟩ := h.right
  refine ⟨?_, row, hrow, hright.all, ?_, ?_⟩
  · intro other hother
    rcases List.mem_append.mp hother with hold | hlast
    · exact h.knows other hold
    · rw [List.mem_singleton.mp hlast]
      exact .of_rest (.of_none rfl) rfl rfl rfl
  · rw [total_append, total_singleton]
    exact hright.failed
  · rw [total_append, total_singleton]
    refine hright.completed.imp_right ?_
    rintro ⟨other, hother, hrecounts⟩
    exact ⟨other, List.mem_append_left _ hother, hrecounts⟩

theorem Counted.of_same (h : Counted run db tags) (hsame : db.SameDags db') : Counted run db' tags := by
  have hshrinks : Shrinks run db db' := .of_nodes hsame.nodes
  have htallies (p : NodeStatus → Bool) : tally run db' p = tally run db p := tally_of_nodes hsame.nodes
  obtain ⟨row, hrow, hright⟩ := h.right
  refine ⟨fun t ht => (h.knows t ht).shrinks hshrinks (htallies _), row, hsame.dagRuns ▸ hrow, ?_, ?_, ?_⟩
  · rw [htallies]
    exact hright.all
  · rw [htallies]
    exact hright.failed
  · rw [htallies]
    refine hright.completed.imp_right ?_
    rintro ⟨other, hother, hrecounts⟩
    exact ⟨other, hother, hrecounts.shrinks hshrinks⟩

theorem owed_of_idle (h : t.phase.idle = true) : owed t = 0 ∧ owedFailure t = 0 := by
  obtain ⟨call, outcome, phase⟩ := t
  cases phase with
  | calling | exited => exact ⟨rfl, rfl⟩
  | _ => cases h

theorem not_recounts_of_idle (h : phase.idle = true) : ¬ Recounts run db phase := by
  intro hrecounts
  cases phase with
  | calling | exited => exact hrecounts.false rfl rfl
  | _ => cases h

/-- While no call is in progress the counters are right. -/
theorem Counted.agree (h : Counted run db tags) (hidle : ∀ t ∈ tags, t.phase.idle = true) :
    ∃ row, Rows.lookup DagRun.id run.id db.dagRuns = some row ∧ Agree run db row ∧
      row.completedNodes ≤ row.totalNodes := by
  obtain ⟨row, hrow, hright⟩ := h.right
  have hnothing : total owed tags = 0 := by
    apply (total_eq_zero _).mpr
    intro t ht
    exact (owed_of_idle (hidle t ht)).1
  have hnoFailure : total owedFailure tags = 0 := by
    apply (total_eq_zero _).mpr
    intro t ht
    exact (owed_of_idle (hidle t ht)).2
  have hfailed := hright.failed
  have hcompleted : row.completedNodes + total owed tags = tally run db NodeStatus.isTerminal := by
    apply hright.completed.resolve_right
    rintro ⟨t, ht, hrecounts⟩
    exact not_recounts_of_idle (hidle t ht) hrecounts
  have hle : tally run db NodeStatus.isTerminal ≤ tally run db fun _ => true := tally_le
  have hall := hright.all
  exact ⟨row, hrow, ⟨by omega, by omega⟩, by omega⟩

end

/-! ### Runs -/

theorem sound_counted (engine : DagEngine) (run : RunOf) :
    Sound (system engine run) (protocol run) (Regular run) fun w tags _ =>
      Base run w.db tags ∧ Counted run w.db tags where
  next := rfl
  knows h ht := ⟨h.1.stored, h.1.owned _ ht⟩
  run := by
    rintro c i t ev w ⟨hbase, hcounted⟩ ht hgood hacts
    obtain ⟨hcall, hregular⟩ := hgood t ht
    exact ⟨⟨hbase.step ht hacts, hcounted.step hbase ht hcall hregular hacts⟩, trivial⟩
  spawn := by
    rintro w tags trace call w' th ⟨hbase, hcounted⟩ hspawn
    simp only [system] at hspawn
    split at hspawn
    · rename_i hof
      cases hspawn
      refine ⟨⟨hbase.spawn (Call.ofRun_iff.mp hof) engine, ?_⟩, trivial, obeys_thread engine call⟩
      rw [tag_thread]
      exact hcounted.spawn call
    · cases hspawn
  env change h := ⟨⟨h.1.elsewhere change, h.2.of_same (sameDags_elsewhere change _)⟩, trivial⟩

/-- Along every run of regular steps that starts with right counters, the counters are right whenever no
call is in progress. -/
theorem counters_agree (engine : DagEngine) (run : RunOf) {w : World} (hstored : run.Stored w.db)
    (hstart : ∃ row, Rows.lookup DagRun.id run.id w.db.dagRuns = some row ∧ Agree run w.db row ∧
      row.totalNodes = (nodesOfRun run.id w.db).length) {c : Config Event World Tag}
    (hrun : (system engine run).Run (Regular run) (initial w) c)
    (hidle : ∀ t ∈ c.tags, t.phase.idle = true) :
    ∃ row, Rows.lookup DagRun.id run.id c.world.db.dagRuns = some row ∧ Agree run c.world.db row ∧
      row.completedNodes ≤ row.totalNodes := by
  obtain ⟨row, hrow, hagree, hall⟩ := hstart
  have hcounted : Counted run w.db [] := by
    refine ⟨List.forall_mem_nil _, row, hrow, ?_, ?_, .inl ?_⟩
    · rw [hall, length_nodesOfRun]
    · rw [total_nil, hagree.failed]
      omega
    · rw [total_nil, hagree.completed]
      omega
  have hinit : Sound.Holds (protocol run) (fun w tags _ => Base run w.db tags ∧ Counted run w.db tags)
      (initial w) := ⟨⟨.initial hstored, hcounted⟩, List.forall_mem_nil _⟩
  obtain ⟨⟨_, hlater⟩, _⟩ := (sound_counted engine run).invariant hrun hinit
  exact hlater.agree hidle

/-! ### Nodes skipped while another runs -/

/-- `Regular` as a test. -/
def regularly (run : RunOf) (c : Config Event World Tag) (i : Nat) (ev : Event) : Bool :=
  (c.tags[i]?).all fun t => t.call ≠ .cancel && regular run c.world.db t ev

theorem regular_of_check {run : RunOf} {c : Config Event World Tag} {i : Nat} {ev : Event}
    (h : regularly run c i ev = true) : Regular run c i ev := by
  intro t ht
  rw [regularly, ht] at h
  simpa only [Option.all_some, Bool.and_eq_true, decide_eq_true_eq] using h

/-- The counters of a run. -/
def counters (runId : Uuid) (db : Db) : Option (Int × Int) :=
  (Rows.lookup DagRun.id runId db.dagRuns).map fun row => (row.completedNodes, row.failedNodes)

/-- Jobs 1 and 2 end, in calls that overlap. -/
theorem counters_agree_join : ∃ c, (system .sample joinRun).Run (Regular joinRun) (initial joinWorld) c ∧
    counters 10 c.world.db = some (2, 0) ∧
      ∃ row, Rows.lookup DagRun.id 10 c.world.db.dagRuns = some row ∧ Agree joinRun c.world.db row ∧
        row.completedNodes ≤ row.totalNodes := by
  have hexec : ((system .sample joinRun).exec (regularly joinRun)
      ([.spawn (.complete 7), .spawn (.complete 8)] ++ List.replicate 10 (.run 0) ++ List.replicate 10 (.run 1) ++
        List.replicate 19 (.run 0) ++ List.replicate 3 (.run 1)) (initial joinWorld)).map
          (fun c => (c.tags.all fun t => t.phase.idle, counters 10 c.world.db)) = some (true, some (2, 0)) := rfl
  obtain ⟨c, hc, heq⟩ := Option.map_eq_some_iff.mp hexec
  obtain ⟨hidle, hcounters⟩ := Prod.mk.inj heq
  have hrun := System.run_of_exec (fun _ _ _ => regular_of_check) hc
  refine ⟨c, hrun, hcounters, counters_agree .sample joinRun joinWorld_stored ?_ hrun (List.all_eq_true.mp hidle)⟩
  exact ⟨_, rfl, ⟨rfl, rfl⟩, rfl⟩

/-- Job 2 fails while job 1 runs, and jobs 3 and 4 are skipped and not counted. -/
theorem skipped_uncounted : ¬ ∀ c, (system .sample haltRun).Reaches (initial haltWorld) c →
    (∀ t ∈ c.tags, t.phase.idle = true) →
      ∃ row, Rows.lookup DagRun.id 10 c.world.db.dagRuns = some row ∧ Agree haltRun c.world.db row ∧
        row.completedNodes ≤ row.totalNodes := by
  intro hclaim
  have hexec : ((system .sample haltRun).exec (fun _ _ _ => true)
      ([.spawn (.complete 8)] ++ List.replicate 18 (.run 0)) (initial haltWorld)).map
        (fun c => (c.tags.all fun t => t.phase.idle, counters 10 c.world.db,
          tally haltRun c.world.db NodeStatus.isTerminal)) = some (true, some (1, 1), 3) := rfl
  obtain ⟨c, hc, heq⟩ := Option.map_eq_some_iff.mp hexec
  simp only [Prod.mk.injEq] at heq
  obtain ⟨hidle, hcounters, htally⟩ := heq
  obtain ⟨row, hrow, hagree, _⟩ := hclaim c (System.reaches_of_exec hc) (List.all_eq_true.mp hidle)
  have hcompleted := hagree.completed
  rw [counters, hrow, Option.map_some, Option.some.injEq, Prod.mk.injEq] at hcounters
  rw [htally, hcounters.1] at hcompleted
  exact absurd hcompleted (by decide)

end DagCalls

end Serverust
