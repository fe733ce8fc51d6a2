import Serverust.Proof.DagCalls

/-!
# Steps of a DAG run

The pool of calls for one run, and what every step keeps: the run stays stored, and every node a call
holds is a node of the run. What the run's nodes and row are, each invariant adds to this.
-/

namespace Serverust

open Resumption

namespace DagCalls

open DagRepository

/-! ### The pool -/

/-- The execution of a call, if any node has it, is one of the run's. -/
def Call.ofRun (run : RunOf) (db : Db) : Call → Bool
  | .complete e => db.dagNodeExecutions.all fun node => node.executionId ≠ some e ∨ node.dagRunId = run.id
  | .cancel => true

/-- Everything but the tables of the DAGs may change in any way: executions end, jobs are changed or
deleted, statements fail, the queue and the clock move. -/
def elsewhere (change w : World) : World :=
  { change with
    db := { change.db with
      dags := w.db.dags
      dagEdges := w.db.dagEdges
      dagRuns := w.db.dagRuns
      dagNodeExecutions := w.db.dagNodeExecutions } }

def Call.thread (engine : DagEngine) (run : RunOf) : Call → Thread Event World Tag
  | .complete e => ⟨⟨.complete e, none, .calling⟩, (engine.onExecutionComplete e).detached .returned⟩
  | .cancel => ⟨⟨.cancel, none, .calling⟩, (DagEngine.cancelDagRun run.id).detached .returned⟩

def system (engine : DagEngine) (run : RunOf) : System Event World Tag Call World where
  next := Tag.next run
  spawn call w := if call.ofRun run w.db then some (w, call.thread engine run) else none
  env := elsewhere

/-- The run before any call. -/
def initial (w : World) : Config Event World Tag := ⟨w, [], []⟩

/-! ### Stages of a call -/

/-- The action creates an execution. -/
def Creates : Event → Prop
  | .sql (.createExecution _) => True
  | _ => False

/-- A step of a call: the tag and the tables before it, its event, and the tables and the tag after it. A
step that does not move the call only reads, or fails, or touches no table of the DAGs. -/
inductive Stage (run : RunOf) : Tag → Db → Event → Db → Tag → Prop
  | stay {t db ev db'} (hev : ¬ Creates ev) (hsame : db.SameDags db') : Stage run t db ev db' t
  | retire {call outcome phase db db'} (hsame : db.SameDags db') :
      Stage run ⟨call, outcome, phase⟩ db .returned db' ⟨call, outcome, .exited phase.chosen⟩
  | find {e outcome node db} (hnode : node ∈ db.dagNodeExecutions) (hexecution : node.executionId = some e) :
      Stage run ⟨.complete e, outcome, .calling⟩ db (.sql (.dag (.findNode e (some node)))) db
        ⟨.complete e, outcome, .found node⟩
  | observe {call outcome node id x db db'} (hsame : db.SameDags db') :
      Stage run ⟨call, outcome, .found node⟩ db (.sql (.getExecution id (some x))) db'
        ⟨call, outcome, .ending node x.status⟩
  | endNode {call outcome node status db} (time : String) : Stage run ⟨call, outcome, .ending node status⟩ db
      (.sql (.dag (.updateNode (node.close (DagEngine.completedStatus status) time))))
      (setNode (node.close (DagEngine.completedStatus status) time) db)
      ⟨call, some (DagEngine.completedStatus status), .counting⟩
  | readRow {call outcome row db} (hrow : Rows.lookup DagRun.id run.id db.dagRuns = some row) :
      Stage run ⟨call, outcome, .counting⟩ db (.sql (.dag (.getRun run.id (some row)))) db
        ⟨call, outcome, .adding row⟩
  | addRun {call outcome row db} : Stage run ⟨call, some outcome, .adding row⟩ db
      (.sql (.dag (.updateRun (row.count outcome)))) (setRun (row.count outcome) db)
      ⟨call, some outcome, .branching⟩
  | branch {call outcome id edges db db'} (hsame : db.SameDags db') :
      Stage run ⟨call, outcome, .branching⟩ db (.sql (.dag (.getEdges id edges))) db'
        ⟨call, outcome, if run.stops outcome then .stopping else .advancing⟩
  | survey {call outcome db} : Stage run ⟨call, outcome, .stopping⟩ db
      (.sql (.dag (.getNodes run.id (nodesOfRun run.id db)))) db
      ⟨call, outcome, .skipping (unstarted (nodesOfRun run.id db))
        ((nodesOfRun run.id db).any fun n => n.status = .running)⟩
  | skip {call outcome n todo busy db} (time : String) : Stage run ⟨call, outcome, .skipping (n :: todo) busy⟩ db
      (.sql (.dag (.updateNode (n.close .skipped time)))) (setNode (n.close .skipped time) db)
      ⟨call, outcome, .skipping todo busy⟩
  | readFail {call outcome row db} (hrow : Rows.lookup DagRun.id run.id db.dagRuns = some row) :
      Stage run ⟨call, outcome, .skipping [] false⟩ db (.sql (.dag (.getRun run.id (some row)))) db
        ⟨call, outcome, .failing row⟩
  | recount {call outcome row db} : Stage run ⟨call, outcome, .failing row⟩ db
      (.sql (.dag (.getNodes run.id (nodesOfRun run.id db)))) db
      ⟨call, outcome, .recounted row (nodesOfRun run.id db)⟩
  | failRun {call outcome row nodes db} (time : String) : Stage run ⟨call, outcome, .recounted row nodes⟩ db
      (.sql (.dag (.updateRun (row.fail nodes time)))) (setRun (row.fail nodes time) db) ⟨call, outcome, .leaving⟩
  | choose {call outcome db} : Stage run ⟨call, outcome, .advancing⟩ db
      (.sql (.dag (.getNodes run.id (nodesOfRun run.id db)))) db
      ⟨call, outcome, .starting (DagEngine.newlyReady (nodesOfRun run.id db) run.edges run.dag) none⟩
  | create {call outcome n todo x db db'} (hjob : x.jobId = n.jobId) (hsame : db.SameDags db') :
      Stage run ⟨call, outcome, .starting (n :: todo) none⟩ db (.sql (.createExecution x)) db'
        ⟨call, outcome, .starting (n :: todo) (some x.id)⟩
  | giveUp {call outcome n todo created db} (time : String) :
      Stage run ⟨call, outcome, .starting (n :: todo) created⟩ db
        (.sql (.dag (.updateNode (n.close .failed time)))) (setNode (n.close .failed time) db)
        ⟨call, outcome, .starting todo none⟩
  | launch {call outcome n todo e db} (time : String) :
      Stage run ⟨call, outcome, .starting (n :: todo) (some e)⟩ db
        (.sql (.dag (.updateNode (n.launch e time)))) (setNode (n.launch e time) db)
        ⟨call, outcome, .starting todo none⟩
  | review {call outcome created db} : Stage run ⟨call, outcome, .starting [] created⟩ db
      (.sql (.dag (.getNodes run.id (nodesOfRun run.id db)))) db
      ⟨call, outcome, if (nodesOfRun run.id db).all fun n => n.status.isTerminal then
        .finishing (nodesOfRun run.id db) else .leaving⟩
  | readFinish {call outcome nodes row db} (hrow : Rows.lookup DagRun.id run.id db.dagRuns = some row) :
      Stage run ⟨call, outcome, .finishing nodes⟩ db (.sql (.dag (.getRun run.id (some row)))) db
        ⟨call, outcome, .closing nodes row⟩
  | finishRun {call outcome nodes row db} (time : String) : Stage run ⟨call, outcome, .closing nodes row⟩ db
      (.sql (.dag (.updateRun (row.finish nodes time)))) (setRun (row.finish nodes time) db)
      ⟨call, outcome, .leaving⟩
  | readCancel {outcome row db} (hrow : Rows.lookup DagRun.id run.id db.dagRuns = some row) :
      Stage run ⟨.cancel, outcome, .calling⟩ db (.sql (.dag (.getRun run.id (some row)))) db
        ⟨.cancel, outcome, if row.status = .running ∨ row.status = .pending then .cancelling row else .leaving⟩
  | list {call outcome row db} : Stage run ⟨call, outcome, .cancelling row⟩ db
      (.sql (.dag (.getNodes run.id (nodesOfRun run.id db)))) db
      ⟨call, outcome, .sweeping row (unended (nodesOfRun run.id db))⟩
  | cancelNode {call outcome row n todo db} (time : String) :
      Stage run ⟨call, outcome, .sweeping row (n :: todo)⟩ db
        (.sql (.dag (.updateNode (n.close .cancelled time)))) (setNode (n.close .cancelled time) db)
        ⟨call, outcome, .sweeping row todo⟩
  | cancelRun {call outcome row db} (time : String) : Stage run ⟨call, outcome, .sweeping row []⟩ db
      (.sql (.dag (.updateRun (row.cancel time)))) (setRun (row.cancel time) db) ⟨call, outcome, .leaving⟩

section

variable {run : RunOf} {t : Tag} {ev : Event} {db db' : Db} {w : World} {tags : List Tag} {i : Nat}
  {node n row : DagNodeExecution}

theorem Call.ofRun_iff {call : Call} : call.ofRun run db = true ↔ call.Owned run db := by
  cases call with
  | cancel => exact ⟨fun _ => nofun, fun _ => rfl⟩
  | complete e =>
      simp only [Call.ofRun, Call.Owned, List.all_eq_true, decide_eq_true_eq, Call.complete.injEq, forall_eq']
      exact forall_congr' fun node => imp_congr_right fun _ => imp_iff_not_or.symm

theorem obeys_thread (engine : DagEngine) (call : Call) :
    (protocol run).Obeys (fun _ _ _ => True) (call.thread engine run).prog (call.thread engine run).tag w := by
  cases call with
  | complete e =>
      refine Task.Obeys.detached (obeys_onExecutionComplete engine e) ?_ ?_
      · exact fun _ _ _ _ _ _ _ => .plain trivial .rfl
      · exact fun _ _ _ _ _ _ _ => .plain trivial .rfl
  | cancel =>
      refine Task.Obeys.detached obeys_cancelDagRun ?_ ?_
      · exact fun _ _ _ _ _ _ _ => .plain trivial .rfl
      · exact fun _ _ _ _ _ _ _ => .plain trivial .rfl

/-! ### The nodes of the run -/

/-- A node of the run with this id and job. -/
def Listed (run : RunOf) (db : Db) (node : DagNodeExecution) : Prop :=
  ∃ row ∈ db.dagNodeExecutions, row.id = node.id ∧ row.dagRunId = run.id ∧ row.jobId = node.jobId

/-- The nodes a call has read and may write. -/
def Phase.nodes : Phase → List DagNodeExecution
  | .found node | .ending node _ => [node]
  | .skipping todo _ | .starting todo _ | .sweeping _ todo | .exited todo => todo
  | _ => []

/-- What every step keeps. -/
structure Base (run : RunOf) (db : Db) (tags : List Tag) : Prop where
  stored : run.Stored db
  owned : ∀ t ∈ tags, t.call.Owned run db
  listed : ∀ t ∈ tags, ∀ n ∈ t.phase.nodes, Listed run db n

theorem RunOf.Stored.of_sameDags (h : run.Stored db) (hsame : db.SameDags db') : run.Stored db' where
  row := hsame.dagRuns ▸ h.row
  dag := hsame.dags ▸ h.dag
  edges := by
    rw [← h.edges, edgesOf, edgesOf, hsame.dagEdges]
  uniqueNode := hsame.nodes ▸ h.uniqueNode
  uniqueJob := hsame.nodes ▸ h.uniqueJob

theorem RunOf.Stored.setNode (h : run.Stored db) (node : DagNodeExecution) : run.Stored (setNode node db) where
  row := h.row
  dag := h.dag
  edges := h.edges
  uniqueNode := h.uniqueNode.modify (f := overNode node) (fun _ => rfl) node.id
  uniqueJob := by
    intro a' ha' b' hb' haof hbof hjob
    obtain ⟨a, ha, rfl⟩ := Rows.mem_modify.mp ha'
    obtain ⟨b, hb, rfl⟩ := Rows.mem_modify.mp hb'
    have hkept (row : DagNodeExecution) :
        (if row.id = node.id then overNode node row else row).dagRunId = row.dagRunId ∧
          (if row.id = node.id then overNode node row else row).jobId = row.jobId := by
      split <;> exact ⟨rfl, rfl⟩
    rw [(hkept a).1] at haof
    rw [(hkept b).1] at hbof
    rw [(hkept a).2, (hkept b).2] at hjob
    rw [h.uniqueJob a ha b hb haof hbof hjob]

theorem RunOf.Stored.setRun (h : run.Stored db) (row : DagRun) : run.Stored (setRun row db) where
  row := by
    obtain ⟨old, hold, hdag⟩ := h.row
    simp only [DagRepository.setRun]
    rw [Rows.lookup_modify (f := overRun row) fun _ => rfl, hold]
    split
    · exact ⟨_, rfl, hdag⟩
    · exact ⟨old, rfl, hdag⟩
  dag := h.dag
  edges := h.edges
  uniqueNode := h.uniqueNode
  uniqueJob := h.uniqueJob

theorem Listed.setNode (h : Listed run db n) (node : DagNodeExecution) : Listed run (setNode node db) n := by
  obtain ⟨row, hrow, hid, hof, hjob⟩ := h
  by_cases heq : row.id = node.id
  · exact ⟨_, Rows.mem_modify_of_eq hrow heq, hid, hof, hjob⟩
  · exact ⟨row, Rows.mem_modify_of_ne hrow heq, hid, hof, hjob⟩

theorem Listed.of_nodes (h : Listed run db n) (hnodes : db'.dagNodeExecutions = db.dagNodeExecutions) :
    Listed run db' n := by
  rw [Listed, hnodes]
  exact h

theorem Call.Owned.of_nodes {call : Call} (h : call.Owned run db)
    (hnodes : db'.dagNodeExecutions = db.dagNodeExecutions) : call.Owned run db' := by
  rw [Call.Owned, hnodes]
  exact h

theorem Call.Owned.setNode {call : Call} (h : call.Owned run db) (hunique : Rows.Unique DagNodeExecution.id db.dagNodeExecutions)
    (hn : Listed run db n) (hid : node.id = n.id) : call.Owned run (setNode node db) := by
  intro e hcall row hrow he
  obtain ⟨old, hold, rfl⟩ := Rows.mem_modify.mp hrow
  split at he
  · obtain ⟨found, hfound, hfoundId, hof, _⟩ := hn
    rw [if_pos ‹_›]
    show old.dagRunId = run.id
    rw [hunique.eq_of_column hold hfound ((‹old.id = node.id›.trans hid).trans hfoundId.symm)]
    exact hof
  · rw [if_neg ‹_›]
    exact h e hcall old hold he

/-! ### What a step does -/

/-- Every step that a call may take is one of these. -/
theorem Acts.stage (h : Acts run t ev db db') : Stage run t db ev db' (t.next run ev) := by
  cases h with
  | plain hev hsame =>
      obtain ⟨call, outcome, phase⟩ := t
      cases ev with
      | sql stmt =>
          cases stmt with
          | dag stmt =>
              cases stmt with
              | getDag => exact .stay id hsame
              | getEdges =>
                  cases phase with
                  | branching => exact .branch hsame
                  | _ => exact .stay id hsame
              | _ => exact hev.elim
          | getExecution _ row =>
              cases row with
              | none => exact .stay id hsame
              | some x =>
                  cases phase with
                  | found => exact .observe hsame
                  | _ => exact .stay id hsame
          | createExecution => exact hev.elim
          | _ => exact .stay id hsame
      | returned => exact .retire hsame
      | _ => exact .stay id hsame
  | @find e outcome =>
      cases hfound : Rows.lookup DagNodeExecution.executionId (some e) db.dagNodeExecutions with
      | none => exact .stay id .rfl
      | some node => exact .find (Rows.mem_of_lookup hfound) (Rows.column_of_lookup hfound)
  | getRun hcall =>
      obtain ⟨call, outcome, phase⟩ := t
      cases hrow : Rows.lookup DagRun.id run.id db.dagRuns with
      | none => exact .stay id .rfl
      | some row =>
          cases phase with
          | calling =>
              obtain rfl : call = .cancel := hcall rfl
              exact .readCancel hrow
          | counting => exact .readRow hrow
          | finishing => exact .readFinish hrow
          | skipping todo busy =>
              rcases todo with _ | ⟨first, todo⟩
              · cases busy with
                | false => exact .readFail hrow
                | true => exact .stay id .rfl
              · exact .stay id .rfl
          | _ => exact .stay id .rfl
  | getNodes =>
      obtain ⟨call, outcome, phase⟩ := t
      cases phase with
      | stopping => exact .survey
      | failing => exact .recount
      | advancing => exact .choose
      | cancelling => exact .list
      | starting todo created =>
          cases todo with
          | nil => exact .review
          | cons => exact .stay id .rfl
      | _ => exact .stay id .rfl
  | endNode time => exact .endNode time
  | addRun => exact .addRun
  | skip time => exact .skip time
  | failRun time => exact .failRun time
  | create hjob hsame => exact .create hjob hsame
  | failNode time => exact .giveUp time
  | start time => exact .launch time
  | finishRun time => exact .finishRun time
  | cancelNode time => exact .cancelNode time
  | cancelRun time => exact .cancelRun time

/-- A step writes a node the call holds, or the run's row, or nothing. -/
theorem Acts.effect (h : Acts run t ev db db') :
    db.SameDags db' ∨ (∃ node, ∃ n ∈ t.phase.nodes, node.id = n.id ∧ db' = setNode node db) ∨
      ∃ row, db' = setRun row db := by
  cases h with
  | plain hev hsame => exact .inl hsame
  | find | getRun | getNodes => exact .inl .rfl
  | create hjob hsame => exact .inl hsame
  | @endNode _ _ node => exact .inr (.inl ⟨node.close _ _, node, List.mem_singleton.mpr rfl, rfl, rfl⟩)
  | @skip _ _ n | @failNode _ _ n => exact .inr (.inl ⟨n.close _ _, n, List.mem_cons_self, rfl, rfl⟩)
  | @start _ _ n => exact .inr (.inl ⟨n.launch _ _, n, List.mem_cons_self, rfl, rfl⟩)
  | @cancelNode _ _ _ n => exact .inr (.inl ⟨n.close _ _, n, List.mem_cons_self, rfl, rfl⟩)
  | addRun | failRun | finishRun | cancelRun => exact .inr (.inr ⟨_, rfl⟩)

theorem newlyReady_sublist (nodes : List DagNodeExecution) (edges : List DagEdge) (dag : Dag) :
    (DagEngine.newlyReady nodes edges dag).Sublist nodes :=
  (List.take_sublist _ _).trans List.filter_sublist

theorem waiting_of_newlyReady
    (h : n ∈ DagEngine.newlyReady (nodesOfRun run.id db) run.edges run.dag) :
    n ∈ db.dagNodeExecutions ∧ n.dagRunId = run.id ∧ n.status = .waiting ∧
      DagEngine.isNodeReady n.jobId run.edges (DagEngine.statusOf (nodesOfRun run.id db)) = true := by
  obtain ⟨hmem, hready⟩ := List.mem_filter.mp (List.mem_of_mem_take h)
  obtain ⟨hnode, hof⟩ := mem_nodesOfRun.mp hmem
  obtain ⟨hwaiting, hready⟩ := Bool.and_eq_true_iff.mp hready
  exact ⟨hnode, hof, of_decide_eq_true hwaiting, hready⟩

theorem nodes_chosen (phase : Phase) : phase.chosen ⊆ phase.nodes := by
  cases phase <;> first | exact List.Subset.refl _ | exact List.nil_subset _

/-- The nodes a call holds after a step were held before or are read from the table. -/
theorem Stage.nodes {t' : Tag} (h : Stage run t db ev db' t') (howned : t.call.Owned run db) :
    ∀ n ∈ t'.phase.nodes, n ∈ t.phase.nodes ∨ n ∈ db.dagNodeExecutions ∧ n.dagRunId = run.id := by
  have hread {nodes : List DagNodeExecution} (hsub : nodes ⊆ nodesOfRun run.id db) :
      ∀ n ∈ nodes, n ∈ t.phase.nodes ∨ n ∈ db.dagNodeExecutions ∧ n.dagRunId = run.id :=
    fun n hn => .inr (mem_nodesOfRun.mp (hsub hn))
  cases h with
  | stay | observe | create => exact fun n hn => .inl hn
  | retire => exact fun n hn => .inl (nodes_chosen _ hn)
  | @find e outcome node _ hnode hexecution =>
      intro n hn
      obtain rfl := List.mem_singleton.mp hn
      exact .inr ⟨hnode, howned e rfl _ hnode hexecution⟩
  | survey | list => exact hread (List.filter_subset_self _)
  | choose => exact hread (newlyReady_sublist _ _ _).subset
  | branch | review | readCancel =>
      dsimp only
      split <;> exact List.forall_mem_nil _
  | skip | giveUp | launch | cancelNode => exact fun n hn => .inl (List.mem_cons_of_mem _ hn)
  | _ => exact List.forall_mem_nil _

/-- Every step keeps the base. -/
theorem Base.step (h : Base run db tags) (ht : tags[i]? = some t) (hacts : Acts run t ev db db') :
    Base run db' (tags.set i (t.next run ev)) := by
  have hmem := List.mem_of_getElem? ht
  have hlisted : ∀ n ∈ (t.next run ev).phase.nodes, Listed run db n := by
    intro n hn
    rcases hacts.stage.nodes (h.owned t hmem) n hn with hold | ⟨hrow, hof⟩
    · exact h.listed t hmem n hold
    · exact ⟨n, hrow, rfl, hof, rfl⟩
  have hkept : (∀ n, Listed run db n → Listed run db' n) ∧
      (∀ call : Call, call.Owned run db → call.Owned run db') ∧ run.Stored db' := by
    rcases hacts.effect with hsame | ⟨node, n, hn, hid, rfl⟩ | ⟨row, rfl⟩
    · exact ⟨fun _ hl => hl.of_nodes hsame.nodes, fun _ ho => ho.of_nodes hsame.nodes,
        h.stored.of_sameDags hsame⟩
    · exact ⟨fun _ hl => hl.setNode node,
        fun _ ho => ho.setNode h.stored.uniqueNode (h.listed t hmem n hn) hid, h.stored.setNode node⟩
    · exact ⟨fun _ hl => hl, fun _ ho => ho, h.stored.setRun row⟩
  refine ⟨hkept.2.2, ?_, ?_⟩
  · intro other hother
    rcases List.mem_or_eq_of_mem_set hother with hold | rfl
    · exact hkept.2.1 _ (h.owned other hold)
    · exact hkept.2.1 _ (h.owned t hmem)
  · intro other hother n hn
    rcases List.mem_or_eq_of_mem_set hother with hold | rfl
    · exact hkept.1 n (h.listed other hold n hn)
    · exact hkept.1 n (hlisted n hn)

/-! ### Choosing and starting nodes -/

/-- An action as far as the starting of nodes goes: a call chooses nodes to start, creates an execution
for the first of them, writes it running or failed, or ends and leaves them; it closes some other node,
or writes the run's row; or it only reads. -/
inductive Turn (run : RunOf) (t : Tag) (ev : Event) (db db' : Db) : Prop
  | choose (hphase : t.phase = .advancing) (hev : ev = .sql (.dag (.getNodes run.id (nodesOfRun run.id db))))
      (hdb : db' = db) (hnext : (t.next run ev).phase =
        .starting (DagEngine.newlyReady (nodesOfRun run.id db) run.edges run.dag) none)
  | create {n : DagNodeExecution} {todo : List DagNodeExecution} {x : Execution} (hphase : t.phase = .starting (n :: todo) none) (hev : ev = .sql (.createExecution x))
      (hjob : x.jobId = n.jobId) (hsame : db.SameDags db')
      (hnext : (t.next run ev).phase = .starting (n :: todo) (some x.id))
  | launch {n : DagNodeExecution} {todo : List DagNodeExecution} {e : Uuid} (time : String) (hphase : t.phase = .starting (n :: todo) (some e))
      (hev : ev = .sql (.dag (.updateNode (n.launch e time)))) (hdb : db' = setNode (n.launch e time) db)
      (hnext : (t.next run ev).phase = .starting todo none)
  | giveUp {n : DagNodeExecution} {todo : List DagNodeExecution} {created : Option Uuid} (time : String)
      (hphase : t.phase = .starting (n :: todo) created)
      (hev : ev = .sql (.dag (.updateNode (n.close .failed time)))) (hdb : db' = setNode (n.close .failed time) db)
      (hnext : (t.next run ev).phase = .starting todo none)
  | retire (hev : ev = .returned) (hsame : db.SameDags db')
      (hnext : (t.next run ev).phase = .exited t.phase.chosen)
  | close {n : DagNodeExecution} {status : NodeStatus} (time : String) (hn : n ∈ t.phase.nodes)
      (hstatus : status.isTerminal = true)
      (hev : ev = .sql (.dag (.updateNode (n.close status time)))) (hdb : db' = setNode (n.close status time) db)
      (hchosen : t.phase.chosen = []) (hnext : (t.next run ev).phase.chosen = [])
  | count {row : DagRun} (hev : ev = .sql (.dag (.updateRun row))) (hdb : db' = setRun row db)
      (hchosen : t.phase.chosen = []) (hnext : (t.next run ev).phase.chosen = [])
  | read (hev : ¬ Creates ev) (hsame : db.SameDags db')
      (hnext : (t.next run ev).phase = t.phase ∨
        t.phase.chosen = [] ∧ (t.next run ev).phase.chosen = [])

theorem isTerminal_completedStatus (status : ExecutionStatus) :
    (DagEngine.completedStatus status).isTerminal = true := by
  cases status <;> rfl

theorem Acts.turn (h : Acts run t ev db db') : Turn run t ev db db' := by
  have hstage := h.stage
  generalize hnext : t.next run ev = t' at hstage
  cases hstage with
  | stay hev hsame => exact .read hev hsame (.inl (congrArg Tag.phase hnext))
  | retire hsame => exact .retire rfl hsame (congrArg Tag.phase hnext)
  | choose => exact .choose rfl rfl rfl (congrArg Tag.phase hnext)
  | create hjob hsame => exact .create rfl rfl hjob hsame (congrArg Tag.phase hnext)
  | giveUp time => exact .giveUp time rfl rfl rfl (congrArg Tag.phase hnext)
  | launch time => exact .launch time rfl rfl rfl (congrArg Tag.phase hnext)
  | endNode time =>
      exact .close time (List.mem_singleton.mpr rfl) (isTerminal_completedStatus _) rfl rfl rfl rfl
  | skip time | cancelNode time => exact .close time List.mem_cons_self rfl rfl rfl rfl rfl
  | addRun | failRun | finishRun | cancelRun => exact .count rfl rfl rfl rfl
  | find | readRow | survey | readFail | recount | readFinish | list =>
      exact .read id .rfl (.inr ⟨rfl, by rw [hnext]; rfl⟩)
  | observe hsame => exact .read id hsame (.inr ⟨rfl, by rw [hnext]; rfl⟩)
  | branch hsame =>
      refine .read id hsame (.inr ⟨rfl, ?_⟩)
      rw [hnext]
      dsimp only
      split <;> rfl
  | review | readCancel =>
      refine .read id .rfl (.inr ⟨rfl, ?_⟩)
      rw [hnext]
      dsimp only
      split <;> rfl

theorem Base.initial (h : run.Stored db) : Base run db [] :=
  ⟨h, List.forall_mem_nil _, List.forall_mem_nil _⟩

theorem Base.spawn (h : Base run db tags) {call : Call} (hcall : call.Owned run db) (engine : DagEngine) :
    Base run db (tags ++ [(call.thread engine run).tag]) := by
  refine ⟨h.stored, ?_, ?_⟩
  · intro other hother
    rcases List.mem_append.mp hother with hold | hlast
    · exact h.owned other hold
    · rw [List.mem_singleton.mp hlast]
      cases call <;> exact hcall
  · intro other hother
    rcases List.mem_append.mp hother with hold | hlast
    · exact h.listed other hold
    · rw [List.mem_singleton.mp hlast]
      cases call <;> exact nofun

theorem sameDags_elsewhere (change w : World) : w.db.SameDags (elsewhere change w).db := ⟨rfl, rfl, rfl, rfl⟩

theorem tag_thread (engine : DagEngine) (call : Call) : (call.thread engine run).tag =
    ⟨call, none, .calling⟩ := by
  cases call <;> rfl

theorem Base.elsewhere (h : Base run w.db tags) (change : World) : Base run (elsewhere change w).db tags :=
  ⟨⟨h.stored.row, h.stored.dag, h.stored.edges, h.stored.uniqueNode, h.stored.uniqueJob⟩, h.owned, h.listed⟩

end

/-! ### Nodes that have not ended -/

/-- All nodes of the run have ended. -/
def Ended (run : RunOf) (db : Db) : Prop :=
  ∀ node ∈ db.dagNodeExecutions, node.dagRunId = run.id → node.status.isTerminal = true

/-- The nodes that may not have ended when the call has come this far, if it knows. -/
def Phase.rest : Phase → Option (List DagNodeExecution)
  | .skipping todo false | .sweeping _ todo => some todo
  | .failing _ | .recounted .. | .finishing _ | .closing .. => some []
  | _ => none

/-- No node but these has not ended. -/
def Rest (run : RunOf) (db : Db) (phase : Phase) : Prop :=
  ∀ todo, phase.rest = some todo → ∀ node ∈ db.dagNodeExecutions, node.dagRunId = run.id →
    node.status.isTerminal = false → node.id ∈ todo.map DagNodeExecution.id

section

variable {run : RunOf} {t t' : Tag} {ev : Event} {db db' : Db} {n : DagNodeExecution} {phase : Phase}

theorem Rest.of_none (h : phase.rest = none) : Rest run db phase := by
  intro todo htodo
  rw [h] at htodo
  cases htodo

theorem Rest.of_nodes (h : Rest run db phase) (hnodes : db'.dagNodeExecutions = db.dagNodeExecutions) :
    Rest run db' phase :=
  fun todo hrest node hnode => h todo hrest node (hnodes ▸ hnode)

theorem Rest.ended (h : Rest run db phase) (hrest : phase.rest = some []) : Ended run db := by
  intro node hnode hof
  by_contra hopen
  exact absurd (h [] hrest node hnode hof (Bool.eq_false_of_not_eq_true hopen)) List.not_mem_nil

theorem Ended.rest (h : Ended run db) : Rest run db phase := by
  intro todo _ node hnode hof hopen
  rw [h node hnode hof] at hopen
  cases hopen

/-- The rest of the nodes after one of them has been closed. -/
theorem rest_setNode {todo : List DagNodeExecution} {status : NodeStatus} {time : String}
    (h : ∀ node ∈ db.dagNodeExecutions, node.dagRunId = run.id → node.status.isTerminal = false →
      node.id ∈ (n :: todo).map DagNodeExecution.id) (hstatus : status.isTerminal = true) :
    ∀ node ∈ (setNode (n.close status time) db).dagNodeExecutions, node.dagRunId = run.id →
      node.status.isTerminal = false → node.id ∈ todo.map DagNodeExecution.id := by
  intro node hnode hof hopen
  obtain ⟨old, hold, rfl⟩ := Rows.mem_modify.mp hnode
  by_cases hid : old.id = n.id
  · rw [if_pos (by exact hid)] at hopen
    exact absurd hstatus (Bool.eq_false_iff.mp hopen)
  · rw [if_neg (by exact hid)] at hof hopen ⊢
    exact (List.mem_cons.mp (h old hold hof hopen)).resolve_left hid

/-- What a call knows of the nodes that have not ended, after its step. -/
theorem Stage.rest (h : Stage run t db ev db' t') (hrest : Rest run db t.phase) : Rest run db' t'.phase := by
  cases h with
  | stay _ hsame => exact hrest.of_nodes hsame.nodes
  | survey =>
      intro todo htodo node hnode hof hopen
      have hmem := mem_nodesOfRun.mpr ⟨hnode, hof⟩
      cases hbusy : (nodesOfRun run.id db).any fun n => n.status = .running with
      | true =>
          rw [hbusy] at htodo
          cases htodo
      | false =>
          rw [hbusy] at htodo
          obtain rfl := Option.some.inj htodo
          have hnot := List.any_eq_false.mp hbusy node hmem
          apply List.mem_map_of_mem
          apply List.mem_filter.mpr
          refine ⟨hmem, decide_eq_true ?_⟩
          cases hstatus : node.status with
          | waiting => exact .inl rfl
          | ready => exact .inr rfl
          | running => exact absurd (decide_eq_true hstatus) hnot
          | success | failed | skipped | cancelled =>
              rw [hstatus] at hopen
              cases hopen
  | @skip _ _ _ _ busy =>
      cases busy with
      | true => exact .of_none rfl
      | false =>
          rintro _ ⟨⟩
          exact rest_setNode (hrest _ rfl) rfl
  | readFail | recount | readFinish => exact hrest
  | review =>
      dsimp only
      split
      · rename_i hall
        have hended : Ended run db :=
          fun node hnode hof => List.all_eq_true.mp hall node (mem_nodesOfRun.mpr ⟨hnode, hof⟩)
        exact hended.rest
      · exact .of_none rfl
  | list =>
      rintro _ ⟨⟩ node hnode hof hopen
      apply List.mem_map_of_mem
      apply List.mem_filter.mpr
      refine ⟨mem_nodesOfRun.mpr ⟨hnode, hof⟩, ?_⟩
      rw [hopen]
      rfl
  | cancelNode =>
      rintro _ ⟨⟩
      exact rest_setNode (hrest _ rfl) rfl
  | branch | readCancel =>
      apply Rest.of_none
      dsimp only
      split <;> rfl
  | _ => exact .of_none rfl

end

/-! ### Sample runs -/

/-- The node of a job, in the run 10. -/
def sampleNode (jobId : Uuid) (status : NodeStatus) (executionId : Option Uuid) : DagNodeExecution :=
  { DagNodeExecution.new (10 + jobId) 10 jobId "" with status := status, executionId := executionId }

def sampleEdge (upstream downstream : Uuid) (condition : EdgeCondition) : DagEdge :=
  { DagEdge.sample with
    id := 100 + 10 * upstream + downstream, upstreamJobId := upstream, downstreamJobId := downstream
    condition := condition }

def sampleExecution (id jobId : Uuid) (status : ExecutionStatus) : Execution :=
  { Execution.new id jobId none "" with status := status }

/-- A run that is under way. -/
def sampleWorld (dag : Dag) (edges : List DagEdge) (jobs : List Uuid) (executions : List Execution)
    (nodes : List DagNodeExecution) : World :=
  .start { Db.empty with
    jobs := jobs.map fun id => { Job.sample 0 with id := id }
    executions := executions
    dags := [dag]
    dagEdges := edges
    dagRuns := [{ DagRun.new 10 dag.id "manual" nodes.length "" with status := .running }]
    dagNodeExecutions := nodes } Calendar.epoch 1000

theorem stored_sample {dag : Dag} {edges : List DagEdge} (jobs : List Uuid) (executions : List Execution)
    {nodes : List DagNodeExecution} (hedges : edgesOf dag.id { Db.empty with dagEdges := edges } = edges)
    (hids : (nodes.map DagNodeExecution.id).Nodup) (hjobs : (nodes.map DagNodeExecution.jobId).Nodup) :
    (⟨10, dag, edges⟩ : RunOf).Stored (sampleWorld dag edges jobs executions nodes).db where
  row := ⟨_, rfl, rfl⟩
  dag := by
    show List.find? _ [dag] = some dag
    rw [List.find?_cons_of_pos (by simp only [decide_true])]
  edges := hedges
  uniqueNode := hids
  uniqueJob a ha b hb _ _ hjob := List.inj_on_of_nodup_map hjobs ha hb hjob

/-- Job 3 runs after jobs 1 and 2 have succeeded. -/
def joinRun : RunOf where
  id := 10
  dag := { Dag.sample with maxConcurrentNodes := 2 }
  edges := [sampleEdge 1 3 .success, sampleEdge 2 3 .success]

/-- Jobs 1 and 2 are running, and their executions have succeeded. -/
def joinWorld : World :=
  sampleWorld joinRun.dag joinRun.edges [1, 2, 3] [sampleExecution 7 1 .success, sampleExecution 8 2 .success]
    [sampleNode 1 .running (some 7), sampleNode 2 .running (some 8), sampleNode 3 .waiting none]

theorem joinWorld_stored : joinRun.Stored joinWorld.db :=
  stored_sample _ _ rfl (by decide) (by decide)

/-- Job 3 runs after job 1, and job 4 after job 2; a failure stops the run. -/
def haltRun : RunOf where
  id := 10
  dag := { Dag.sample with maxConcurrentNodes := 2, onFailure := .stop }
  edges := [sampleEdge 1 3 .success, sampleEdge 2 4 .success]

/-- Jobs 1 and 2 are running; the execution of job 1 has succeeded and that of job 2 has failed. -/
def haltWorld : World :=
  sampleWorld haltRun.dag haltRun.edges [1, 2, 3, 4] [sampleExecution 7 1 .success, sampleExecution 8 2 .failed]
    [sampleNode 1 .running (some 7), sampleNode 2 .running (some 8), sampleNode 3 .waiting none,
      sampleNode 4 .waiting none]

theorem haltWorld_stored : haltRun.Stored haltWorld.db :=
  stored_sample _ _ rfl (by decide) (by decide)

end DagCalls

end Serverust
