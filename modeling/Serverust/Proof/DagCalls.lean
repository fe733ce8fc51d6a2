import Serverust.Library.Pool
import Serverust.Proof.Background
import Serverust.Proof.DagNodes

/-!
# Calls of the DAG engine, interleaved

Any number of `on_execution_complete` and `cancel_dag_run` calls for one run, cut at their statements. A
call works on what it has read: the node of its execution, the run's row, and snapshots of the run's
nodes. Its phase says which of these it holds and what it will write from them, so `Acts` can say what
one statement does to the tables without looking at the program again.
-/

namespace Serverust

open Resumption

namespace DagCalls

/-- A run of a DAG: its id, the DAG's row, and the DAG's edges. -/
structure RunOf where
  id : Uuid
  dag : Dag
  edges : List DagEdge

/-- The run is stored with its DAG and its edges, and has one node for each of its jobs. -/
structure RunOf.Stored (run : RunOf) (db : Db) : Prop where
  row : ∃ row, Rows.lookup DagRun.id run.id db.dagRuns = some row ∧ row.dagId = run.dag.id
  dag : Rows.lookup Dag.id run.dag.id db.dags = some run.dag
  edges : edgesOf run.dag.id db = run.edges
  uniqueNode : Rows.Unique DagNodeExecution.id db.dagNodeExecutions
  uniqueJob : ∀ a ∈ db.dagNodeExecutions, ∀ b ∈ db.dagNodeExecutions, a.dagRunId = run.id →
    b.dagRunId = run.id → a.jobId = b.jobId → a = b

inductive Call where
  | complete (executionId : Uuid)
  | cancel
deriving DecidableEq

/-- What a call has read and not yet used. A call for an execution finds its node, writes its outcome
(`ending`), adds to the run's counters (`adding`), and then stops the run or advances it. Stopping skips
the nodes of `todo`, and ends the run unless one of the nodes was running (`busy`). Advancing starts the
nodes of `todo`; `created` is the execution made for the first of them. Then it ends the run if all nodes
are terminal. A cancellation sweeps the nodes of `todo`. A call that has `exited` leaves unstarted the nodes
of `todo`. -/
inductive Phase where
  | calling
  | found (node : DagNodeExecution)
  | ending (node : DagNodeExecution) (status : ExecutionStatus)
  | counting
  | adding (row : DagRun)
  | branching
  | stopping
  | skipping (todo : List DagNodeExecution) (busy : Bool)
  | failing (row : DagRun)
  | recounted (row : DagRun) (nodes : List DagNodeExecution)
  | advancing
  | starting (todo : List DagNodeExecution) (created : Option Uuid)
  | finishing (nodes : List DagNodeExecution)
  | closing (nodes : List DagNodeExecution) (row : DagRun)
  | leaving
  | cancelling (row : DagRun)
  | sweeping (row : DagRun) (todo : List DagNodeExecution)
  | exited (todo : List DagNodeExecution)
deriving DecidableEq

/-- A call, the outcome it has written to its node, and its phase. -/
structure Tag where
  call : Call
  outcome : Option NodeStatus
  phase : Phase
deriving DecidableEq

/-- The nodes a call has chosen to start and not yet written. -/
def Phase.chosen : Phase → List DagNodeExecution
  | .starting todo _ | .exited todo => todo
  | _ => []

/-- The nodes the stop policy skips. -/
def unstarted (nodes : List DagNodeExecution) : List DagNodeExecution :=
  nodes.filter fun n => n.status = .waiting ∨ n.status = .ready

/-- The nodes a cancellation closes. -/
def unended (nodes : List DagNodeExecution) : List DagNodeExecution :=
  nodes.filter fun n => !n.status.isTerminal

/-- Whether a written outcome stops the run. -/
def RunOf.stops (run : RunOf) (outcome : Option NodeStatus) : Bool :=
  outcome.any DagEngine.isFailure && run.dag.onFailure = .stop

/-- Where a statement on the tables of the DAGs leads. -/
def Phase.nextDag (run : RunOf) (outcome : Option NodeStatus) (phase : Phase) : DagStmt → Phase
  | .findNode _ (some node) =>
    match phase with
    | .calling => .found node
    | _ => phase
  | .getRun _ (some row) =>
    match phase with
    | .calling => if row.status = .running ∨ row.status = .pending then .cancelling row else .leaving
    | .counting => .adding row
    | .skipping [] false => .failing row
    | .finishing nodes => .closing nodes row
    | _ => phase
  | .getEdges .. =>
    match phase with
    | .branching => if run.stops outcome then .stopping else .advancing
    | _ => phase
  | .getNodes _ nodes =>
    match phase with
    | .stopping => .skipping (unstarted nodes) (nodes.any fun n => n.status = .running)
    | .failing row => .recounted row nodes
    | .advancing => .starting (DagEngine.newlyReady nodes run.edges run.dag) none
    | .starting [] _ => if nodes.all fun n => n.status.isTerminal then .finishing nodes else .leaving
    | .cancelling row => .sweeping row (unended nodes)
    | _ => phase
  | .updateNode _ =>
    match phase with
    | .ending _ _ => .counting
    | .skipping (_ :: todo) busy => .skipping todo busy
    | .starting (_ :: todo) _ => .starting todo none
    | .sweeping row (_ :: todo) => .sweeping row todo
    | _ => phase
  | .updateRun _ =>
    match phase with
    | .adding _ => .branching
    | .recounted .. | .closing .. | .sweeping _ [] => .leaving
    | _ => phase
  | _ => phase

def Phase.next (run : RunOf) (outcome : Option NodeStatus) (phase : Phase) : Event → Phase
  | .sql (.dag stmt) => phase.nextDag run outcome stmt
  | .sql (.getExecution _ (some x)) =>
    match phase with
    | .found node => .ending node x.status
    | _ => phase
  | .sql (.createExecution x) =>
    match phase with
    | .starting todo _ => .starting todo (some x.id)
    | _ => phase
  | .returned => .exited phase.chosen
  | _ => phase

/-- The outcome a call has written. -/
def Phase.written (phase : Phase) (outcome : Option NodeStatus) : Event → Option NodeStatus
  | .sql (.dag (.updateNode _)) =>
    match phase with
    | .ending _ status => some (DagEngine.completedStatus status)
    | _ => outcome
  | _ => outcome

def Tag.next (run : RunOf) (t : Tag) (ev : Event) : Tag where
  call := t.call
  outcome := t.phase.written t.outcome ev
  phase := t.phase.next run t.outcome ev

/-! ### What a statement does -/

end DagCalls

namespace DagNodeExecution

/-- A node as it is written when it ends, is skipped, fails to start or is cancelled. -/
def close (node : DagNodeExecution) (status : NodeStatus) (time : String) : DagNodeExecution :=
  { node with status := status, completedAt := some time }

/-- A node as it is written when its execution has been created. -/
def launch (node : DagNodeExecution) (executionId : Uuid) (time : String) : DagNodeExecution :=
  { node with executionId := some executionId, status := .running, startedAt := some time }

end DagNodeExecution

namespace DagRun

/-- The run's row with one more node ended. -/
def count (row : DagRun) (outcome : NodeStatus) : DagRun :=
  { row with
    completedNodes := row.completedNodes + 1
    failedNodes := if DagEngine.isFailure outcome then row.failedNodes + 1 else row.failedNodes }

/-- The run's row when the stop policy ends it. -/
def fail (row : DagRun) (nodes : List DagNodeExecution) (time : String) : DagRun :=
  { row with
    status := .failed, completedAt := some time
    completedNodes := (nodes.countP fun n => n.status ≠ .waiting ∧ n.status ≠ .ready ∧ n.status ≠ .running : Nat) }

/-- The run's row when all its nodes are terminal. -/
def finish (row : DagRun) (nodes : List DagNodeExecution) (time : String) : DagRun :=
  { row with
    status := DagEngine.finalStatus nodes, completedAt := some time, completedNodes := nodes.length }

def cancel (row : DagRun) (time : String) : DagRun :=
  { row with status := .cancelled, completedAt := some time }

end DagRun

namespace DagCalls

open DagRepository

/-- Events that neither read nor write what a call works on, nor create an execution. -/
def Plain : Event → Prop
  | .sql (.dag (.getDag ..)) | .sql (.dag (.getEdges ..)) => True
  | .sql (.dag _) | .sql (.createExecution _) => False
  | _ => True

/-- What a call may do to the tables of the DAGs in one action. -/
inductive Acts (run : RunOf) : Tag → Event → Db → Db → Prop
  | plain {t ev db db'} (hev : Plain ev) (hsame : db.SameDags db') : Acts run t ev db db'
  | find {e outcome db} : Acts run ⟨.complete e, outcome, .calling⟩
      (.sql (.dag (.findNode e (Rows.lookup DagNodeExecution.executionId (some e) db.dagNodeExecutions)))) db db
  | getRun {t db} (hcall : t.phase = .calling → t.call = .cancel) :
      Acts run t (.sql (.dag (.getRun run.id (Rows.lookup DagRun.id run.id db.dagRuns)))) db db
  | getNodes {t db} : Acts run t (.sql (.dag (.getNodes run.id (nodesOfRun run.id db)))) db db
  | endNode {call outcome node status db} (time : String) : Acts run ⟨call, outcome, .ending node status⟩
      (.sql (.dag (.updateNode (node.close (DagEngine.completedStatus status) time)))) db
      (setNode (node.close (DagEngine.completedStatus status) time) db)
  | addRun {call outcome row db} : Acts run ⟨call, some outcome, .adding row⟩
      (.sql (.dag (.updateRun (row.count outcome)))) db (setRun (row.count outcome) db)
  | skip {call outcome n todo busy db} (time : String) : Acts run ⟨call, outcome, .skipping (n :: todo) busy⟩
      (.sql (.dag (.updateNode (n.close .skipped time)))) db (setNode (n.close .skipped time) db)
  | failRun {call outcome row nodes db} (time : String) : Acts run ⟨call, outcome, .recounted row nodes⟩
      (.sql (.dag (.updateRun (row.fail nodes time)))) db (setRun (row.fail nodes time) db)
  | create {call outcome n todo x db db'} (hjob : x.jobId = n.jobId) (hsame : db.SameDags db') :
      Acts run ⟨call, outcome, .starting (n :: todo) none⟩ (.sql (.createExecution x)) db db'
  | failNode {call outcome n todo created db} (time : String) :
      Acts run ⟨call, outcome, .starting (n :: todo) created⟩
        (.sql (.dag (.updateNode (n.close .failed time)))) db (setNode (n.close .failed time) db)
  | start {call outcome n todo e db} (time : String) :
      Acts run ⟨call, outcome, .starting (n :: todo) (some e)⟩
        (.sql (.dag (.updateNode (n.launch e time)))) db (setNode (n.launch e time) db)
  | finishRun {call outcome nodes row db} (time : String) : Acts run ⟨call, outcome, .closing nodes row⟩
      (.sql (.dag (.updateRun (row.finish nodes time)))) db (setRun (row.finish nodes time) db)
  | cancelNode {call outcome row n todo db} (time : String) : Acts run ⟨call, outcome, .sweeping row (n :: todo)⟩
      (.sql (.dag (.updateNode (n.close .cancelled time)))) db (setNode (n.close .cancelled time) db)
  | cancelRun {call outcome row db} (time : String) : Acts run ⟨call, outcome, .sweeping row []⟩
      (.sql (.dag (.updateRun (row.cancel time)))) db (setRun (row.cancel time) db)

/-- The execution of a call, if any node has it, is one of the run's. -/
def Call.Owned (run : RunOf) (call : Call) (db : Db) : Prop :=
  ∀ e, call = .complete e → ∀ node ∈ db.dagNodeExecutions, node.executionId = some e → node.dagRunId = run.id

def protocol (run : RunOf) : Protocol Event World Tag where
  next := Tag.next run
  knows t u := run.Stored u.db ∧ t.call.Owned run u.db
  grows _ _ := True
  allows t ev u v := Acts run t ev u.db v.db

instance (run : RunOf) : (protocol run).Lawful := ⟨fun _ => trivial, fun _ _ => trivial⟩

/-! ### The programs -/

section

variable {run : RunOf} {t : Tag} {w : World} {α : Type}

/-- The call is about to read its execution. -/
def Phase.Reads : Phase → Prop
  | .found _ => True
  | _ => False

theorem tolerates (h : ¬ t.phase.Reads) : Tolerates (protocol run) t := by
  intro u v ev _ hbackground htrue _ hdags
  clear htrue
  refine ⟨.plain ?_ hdags, ?_, trivial⟩
  · unfold Event.Background at hbackground
    split at hbackground
    all_goals trivial
  · obtain ⟨call, outcome, phase⟩ := t
    unfold Event.Background at hbackground
    split at hbackground
    · rfl
    · rfl
    · rfl
    · rename_i row
      cases row with
      | none => rfl
      | some x =>
          cases phase with
          | found => exact (h trivial).elim
          | _ => rfl
    · rfl
    · rfl
    · exact hbackground.elim

theorem toleratesQueue : ToleratesQueue (protocol run) t := by
  intro u v ev _ hqueueing hbeside
  refine ⟨.plain ?_ hbeside.dags, ?_, trivial⟩
  · unfold Event.Queueing at hqueueing
    split at hqueueing
    all_goals trivial
  · unfold Event.Queueing at hqueueing
    split at hqueueing <;> first | rfl | exact hqueueing.elim

theorem obeys_readDag (ht : Tolerates (protocol run) t) {ok : α → Tag → World → Prop}
    {err : AppError → Tag → World → Prop} {stmt : α → DagStmt} {read : Db → α}
    (hok : ∀ u, run.Stored u.db → t.call.Owned run u.db →
      Acts run t (.sql (.dag (stmt (read u.db)))) u.db u.db ∧
        ok (read u.db) (t.next run (.sql (.dag (stmt (read u.db))))) u)
    (herr : ∀ e u, err e t u) :
    Task.Obeys (protocol run) ok err (select (fun value => .dag (stmt value)) read) t w := by
  apply obeys_sql
  · intro u value db _ hknows hquery
    cases (query_ok hquery).2
    exact hok u hknows.1 hknows.2
  · intro u e _ hknows _
    obtain ⟨hallows, hnext, _⟩ := ht.failed hknows e
    refine ⟨hallows, ?_⟩
    rw [hnext]
    exact herr _ u

theorem obeys_getRunById (ht : Tolerates (protocol run) t) (hcall : t.phase = .calling → t.call = .cancel)
    {ok : DagRun → Tag → World → Prop} {err : AppError → Tag → World → Prop}
    (hok : ∀ row u, row.id = run.id → row.dagId = run.dag.id →
      ok row (t.next run (.sql (.dag (.getRun run.id (some row))))) u)
    (herr : ∀ e u, err e t u) :
    Task.Obeys (protocol run) ok err (getRunById run.id) t w := by
  apply Task.obeys_bind.mpr
  apply obeys_readDag ht
  · intro u hstored _
    refine ⟨.getRun hcall, ?_⟩
    obtain ⟨row, hrow, hdag⟩ := hstored.row
    rw [hrow]
    exact hok row u (Rows.column_of_lookup hrow) hdag
  · exact herr

theorem obeys_getNodes (ht : Tolerates (protocol run) t) {ok : List DagNodeExecution → Tag → World → Prop}
    {err : AppError → Tag → World → Prop}
    (hok : ∀ nodes u, ok nodes (t.next run (.sql (.dag (.getNodes run.id nodes)))) u)
    (herr : ∀ e u, err e t u) :
    Task.Obeys (protocol run) ok err (getNodeExecutionsByRunId run.id) t w := by
  apply obeys_readDag ht
  · exact fun u _ _ => ⟨.getNodes, hok _ u⟩
  · exact herr

/-- A write of a node, and the read of the written node. -/
theorem obeys_updateNode (ht : Tolerates (protocol run) t) {t' : Tag} (ht' : Tolerates (protocol run) t')
    {node : DagNodeExecution} {err : AppError → Tag → World → Prop}
    (hwrite : ∀ u : World, Acts run t (.sql (.dag (.updateNode node))) u.db (setNode node u.db))
    (hnext : t.next run (.sql (.dag (.updateNode node))) = t') (herr : ∀ e t u, err e t u) :
    Task.Obeys (protocol run) (fun _ t _ => t = t') err (updateNodeExecution node) t w := by
  apply Task.obeys_bind.mpr
  apply obeys_sql
  · intro u value db _ hknows hquery
    have hwritten := (query_ok hquery).2
    unfold writeNode at hwritten
    split at hwritten
    · cases hwritten
    · cases hwritten
      refine ⟨hwrite u, ?_⟩
      show Task.Obeys _ _ _ _ (t.next run _) _
      rw [hnext]
      apply ((keeps_getNode ht' node.id) _).mono
      · exact fun _ _ _ hkept => hkept.1
      · exact fun _ _ _ _ => herr _ _ _
  · intro u e _ hknows _
    obtain ⟨hallows, _⟩ := ht.failed hknows e
    exact ⟨hallows, herr _ _ _⟩

/-- A write of the run's row, and the read of the written row. -/
theorem obeys_updateRun (ht : Tolerates (protocol run) t) {t' : Tag} (ht' : Tolerates (protocol run) t')
    (hphase : t'.phase ≠ .calling) {row : DagRun} (hid : row.id = run.id)
    {err : AppError → Tag → World → Prop}
    (hwrite : ∀ u : World, Acts run t (.sql (.dag (.updateRun row))) u.db (setRun row u.db))
    (hnext : t.next run (.sql (.dag (.updateRun row))) = t')
    (hread : ∀ row, t'.next run (.sql (.dag (.getRun run.id (some row)))) = t') (herr : ∀ e t u, err e t u) :
    Task.Obeys (protocol run) (fun _ t _ => t = t') err (updateRun row) t w := by
  apply Task.obeys_bind.mpr
  apply obeys_sql
  · intro u value db _ hknows hquery
    cases (query_ok hquery).2
    refine ⟨hwrite u, ?_⟩
    show Task.Obeys _ _ _ _ (t.next run _) _
    rw [hnext, hid]
    apply obeys_getRunById ht'
    · exact fun hcalling => absurd hcalling hphase
    · exact fun row u _ _ => hread row
    · exact fun e u => herr e _ u
  · intro u e _ hknows _
    obtain ⟨hallows, _⟩ := ht.failed hknows e
    exact ⟨hallows, herr _ _ _⟩

theorem obeys_closeNode (ht : Tolerates (protocol run) t) {t' : Tag} (ht' : Tolerates (protocol run) t')
    {node : DagNodeExecution} {status : NodeStatus} {err : AppError → Tag → World → Prop}
    (hwrite : ∀ time (u : World), Acts run t (.sql (.dag (.updateNode (node.close status time)))) u.db
      (setNode (node.close status time) u.db))
    (hnext : ∀ node, t.next run (.sql (.dag (.updateNode node))) = t') (herr : ∀ e t u, err e t u) :
    Task.Obeys (protocol run) (fun _ t _ => t = t') err
      (do
        let now ← nowRfc3339
        let _ ← updateNodeExecution { node with status := status, completedAt := some now }) t w := by
  apply (keeps_nowRfc3339 ht).bind_obeys
  · intro now u _ _
    apply Task.obeys_bind.mpr
    apply (obeys_updateNode ht ht' (hwrite now) (hnext _) herr).mono
    · exact fun _ _ _ h => h
    · exact fun _ _ _ h => h
  · exact fun _ _ _ => herr _ _ _

/-! ### Starting nodes -/

variable {call : Call} {outcome : Option NodeStatus} {node : DagNodeExecution} {todo : List DagNodeExecution}

theorem tolerates_starting {todo : List DagNodeExecution} {created : Option Uuid} :
    Tolerates (protocol run) ⟨call, outcome, .starting todo created⟩ :=
  tolerates id

theorem obeys_failNode {created : Option Uuid} :
    Task.Obeys (protocol run) (fun _ t _ => t = ⟨call, outcome, .starting todo none⟩) (fun _ _ _ => True)
      (DagEngine.failNode node) ⟨call, outcome, .starting (node :: todo) created⟩ w := by
  apply obeys_closeNode tolerates_starting tolerates_starting
  · exact fun time _ => .failNode time
  · exact fun _ => rfl
  · exact fun _ _ _ => trivial

theorem obeys_startNode (engine : DagEngine) :
    Task.Obeys (protocol run) (fun _ t _ => t = ⟨call, outcome, .starting todo none⟩) (fun _ _ _ => True)
      (engine.startNode node) ⟨call, outcome, .starting (node :: todo) none⟩ w := by
  have hjob : Task.Keeps (protocol run) (fun _ => True) ⟨call, outcome, .starting (node :: todo) none⟩
      (JobRepository.getById node.jobId) := keeps_getJob tolerates_starting fun _ _ _ _ => trivial
  apply hjob.attempt.bind_obeys
  · rintro (_ | job) u _ _
    · exact obeys_failNode
    · apply Task.obeys_bind.mpr
      apply Task.obeys_attempt.mpr
      apply obeys_createExecution tolerates_starting
        (fun x => ⟨call, outcome, .starting (node :: todo) (some x.id)⟩) fun _ => tolerates_starting
      · exact fun u job _ jobs => ⟨.plain trivial ⟨rfl, rfl, rfl, rfl⟩, rfl, trivial⟩
      · exact fun u x _ _ hx _ _ _ _ => ⟨.create hx ⟨rfl, rfl, rfl, rfl⟩, rfl, trivial⟩
      · intro x execution v _ hid
        apply (keeps_nowRfc3339 tolerates_starting).bind_obeys
        · intro now v' _ _
          have hstart : Task.Obeys (protocol run) (fun _ t _ => t = ⟨call, outcome, .starting todo none⟩)
              (fun _ _ _ => True) (updateNodeExecution (node.launch execution.id now))
              ⟨call, outcome, .starting (node :: todo) (some x.id)⟩ v' := by
            apply obeys_updateNode tolerates_starting tolerates_starting
            · rw [hid]
              exact fun _ => .start now
            · rfl
            · exact fun _ _ _ => trivial
          apply hstart.bind
          rintro _ _ v'' rfl
          apply (toleratesQueue.keeps_enqueue engine.queueManager _).attempt.bind_obeys
          · exact fun _ _ _ _ => rfl
          · exact fun _ _ _ => trivial
        · exact fun _ _ _ => trivial
      · exact fun _ _ _ => obeys_failNode
      · exact fun _ _ _ _ => obeys_failNode
  · exact fun _ _ _ => trivial

theorem obeys_advanceDagRun (engine : DagEngine) :
    Task.Obeys (protocol run) (fun _ t _ => t = ⟨call, outcome, .starting [] none⟩) (fun _ _ _ => True)
      (engine.advanceDagRun run.id run.edges run.dag) ⟨call, outcome, .advancing⟩ w := by
  apply Task.obeys_bind.mpr
  apply obeys_getNodes
  · exact tolerates id
  · intro nodes u
    show Task.Obeys _ _ _ _ (Tag.mk call outcome (.starting _ none)) _
    apply Task.Obeys.forM_each (T := fun todo => Tag.mk call outcome (.starting todo none))
    exact fun node todo v => obeys_startNode engine
  · exact fun _ _ => trivial

/-! ### Ending the run -/

theorem obeys_finishRun :
    Task.Obeys (protocol run) (fun _ _ _ => True) (fun _ _ _ => True)
      (DagEngine.finishRun run.id) ⟨call, outcome, .starting [] none⟩ w := by
  apply Task.obeys_bind.mpr
  apply obeys_getNodes tolerates_starting
  · intro nodes u
    show Task.Obeys _ _ _ _ (Tag.mk call outcome (if _ then _ else _)) _
    split
    · apply Task.obeys_bind.mpr
      apply obeys_getRunById
      · exact tolerates id
      · exact nofun
      · intro row v hid _
        have hclosing : Tolerates (protocol run) ⟨call, outcome, .closing nodes row⟩ := tolerates id
        have hleaving : Tolerates (protocol run) ⟨call, outcome, .leaving⟩ := tolerates id
        apply (keeps_nowRfc3339 hclosing).bind_obeys
        · intro now v' _ _
          apply Task.obeys_bind.mpr
          apply (obeys_updateRun hclosing hleaving nofun (by exact hid) (fun _ => .finishRun now) rfl (fun _ => rfl)
            fun _ _ _ => trivial).mono
          · exact fun _ _ _ _ => trivial
          · exact fun _ _ _ _ => trivial
        · exact fun _ _ _ => trivial
      · exact fun _ _ => trivial
    · trivial
  · exact fun _ _ => trivial

theorem obeys_stopRun :
    Task.Obeys (protocol run) (fun _ _ _ => True) (fun _ _ _ => True)
      (DagEngine.stopRun run.id) ⟨call, outcome, .stopping⟩ w := by
  have hskipping {todo busy} : Tolerates (protocol run) ⟨call, outcome, .skipping todo busy⟩ :=
    tolerates id
  apply Task.obeys_bind.mpr
  apply obeys_getNodes
  · exact tolerates id
  · intro nodes u
    have hskip : Task.Obeys (protocol run)
        (fun _ t _ => t = ⟨call, outcome, .skipping [] (nodes.any fun n => n.status = .running)⟩) (fun _ _ _ => True)
        ((unstarted nodes).forM fun n => do
          let now ← nowRfc3339
          let _ ← updateNodeExecution { n with status := .skipped, completedAt := some now })
        ⟨call, outcome, .skipping (unstarted nodes) (nodes.any fun n => n.status = .running)⟩ u := by
      apply Task.Obeys.forM_each (T := fun todo =>
        Tag.mk call outcome (.skipping todo (nodes.any fun n => n.status = .running)))
      intro n todo v
      apply obeys_closeNode hskipping hskipping
      · exact fun time _ => .skip time
      · exact fun _ => rfl
      · exact fun _ _ _ => trivial
    apply hskip.bind
    rintro _ _ v rfl
    split
    · trivial
    · rename_i hany
      simp only [Bool.not_eq_true] at hany
      rw [hany]
      apply Task.obeys_bind.mpr
      apply obeys_getRunById hskipping nofun
      · intro row v hid _
        have hfailing : Tolerates (protocol run) ⟨call, outcome, .failing row⟩ := tolerates id
        have hleaving : Tolerates (protocol run) ⟨call, outcome, .leaving⟩ := tolerates id
        apply (keeps_nowRfc3339 hfailing).bind_obeys
        · intro now v' _ _
          apply Task.obeys_bind.mpr
          apply obeys_getNodes hfailing
          · intro refreshed v''
            apply Task.obeys_bind.mpr
            have hrecounted : Tolerates (protocol run) ⟨call, outcome, .recounted row refreshed⟩ := tolerates id
            apply (obeys_updateRun hrecounted hleaving nofun (by exact hid) (fun _ => .failRun now) rfl
              (fun _ => rfl) fun _ _ _ => trivial).mono
            · exact fun _ _ _ _ => trivial
            · exact fun _ _ _ _ => trivial
          · exact fun _ _ => trivial
        · exact fun _ _ _ => trivial
      · exact fun _ _ => trivial
  · exact fun _ _ => trivial

/-! ### The calls -/

/-- What is left of a call once the outcome is written. -/
theorem obeys_afterOutcome (engine : DagEngine) (status : NodeStatus) :
    Task.Obeys (protocol run) (fun _ _ _ => True) (fun _ _ _ => True)
      (do
        let row ← getRunById run.id
        let _ ← updateRun (row.count status)
        let dag ← DagRepository.getById row.dagId
        let edges ← getEdgesByDagId row.dagId
        if DagEngine.isFailure status ∧ dag.onFailure = .stop then DagEngine.stopRun row.id
        else
          engine.advanceDagRun row.id edges dag
          DagEngine.finishRun row.id) ⟨call, some status, .counting⟩ w := by
  apply Task.obeys_bind.mpr
  apply obeys_getRunById
  · exact tolerates id
  · exact nofun
  · intro row u hid hdag
    rw [hid, hdag]
    have hadding : Tolerates (protocol run) ⟨call, some status, .adding row⟩ := tolerates id
    have hbranching : Tolerates (protocol run) ⟨call, some status, .branching⟩ := tolerates id
    have hcount : Task.Obeys (protocol run) (fun _ t _ => t = ⟨call, some status, .branching⟩)
        (fun _ _ _ => True) (updateRun (row.count status)) ⟨call, some status, .adding row⟩ u := by
      have hcounted : (row.count status).id = run.id := hid
      exact obeys_updateRun hadding hbranching nofun hcounted (fun _ => .addRun) rfl (fun _ => rfl)
        fun _ _ _ => trivial
    apply hcount.bind
    rintro _ _ u rfl
    apply Task.obeys_bind.mpr
    apply Task.obeys_bind.mpr
    apply obeys_readDag hbranching
    · intro u hstored _
      refine ⟨.plain trivial .rfl, ?_⟩
      rw [hstored.dag]
      apply Task.obeys_bind.mpr
      apply obeys_readDag hbranching
      · intro v hstored _
        refine ⟨.plain trivial .rfl, ?_⟩
        have hedges : edgesOf run.dag.id v.db = run.edges := hstored.edges
        rw [edgesOf] at hedges
        rw [hedges]
        show Task.Obeys _ _ _ _ (Tag.mk call (some status) (if _ then _ else _)) _
        by_cases hstops : DagEngine.isFailure status = true ∧ run.dag.onFailure = .stop
        · have hyes : run.stops (some status) = true := by
            simpa only [RunOf.stops, Option.any_some, Bool.and_eq_true, decide_eq_true_eq] using hstops
          rw [if_pos hstops, if_pos hyes]
          exact obeys_stopRun
        · have hno : ¬ run.stops (some status) = true := by
            simpa only [RunOf.stops, Option.any_some, Bool.and_eq_true, decide_eq_true_eq] using hstops
          rw [if_neg hstops, if_neg hno]
          apply (obeys_advanceDagRun engine).bind
          rintro _ _ v rfl
          exact obeys_finishRun
      · exact fun _ _ => trivial
    · exact fun _ _ => trivial
  · exact fun _ _ => trivial

theorem obeys_onExecutionComplete (engine : DagEngine) (e : Uuid) :
    Task.Obeys (protocol run) (fun _ _ _ => True) (fun _ _ _ => True)
      (engine.onExecutionComplete e) ⟨.complete e, none, .calling⟩ w := by
  apply Task.obeys_bind.mpr
  apply obeys_readDag
  · exact tolerates id
  · intro u _ howned
    refine ⟨.find, ?_⟩
    cases hfound : Rows.lookup DagNodeExecution.executionId (some e) u.db.dagNodeExecutions with
    | none => trivial
    | some node =>
        have hof : node.dagRunId = run.id :=
          howned e rfl node (Rows.mem_of_lookup hfound) (Rows.column_of_lookup hfound)
        apply Task.obeys_bind.mpr
        apply obeys_getExecution
        · intro v x _ _ _
          refine ⟨.plain trivial .rfl, ?_⟩
          have hending : Tolerates (protocol run) ⟨.complete e, none, .ending node x.status⟩ := tolerates id
          apply (keeps_nowRfc3339 hending).bind_obeys
          · intro now v' _ _
            have hwrite : Task.Obeys (protocol run)
                (fun _ t _ => t = ⟨.complete e, some (DagEngine.completedStatus x.status), .counting⟩)
                (fun _ _ _ => True) (updateNodeExecution (node.close (DagEngine.completedStatus x.status) now))
                ⟨.complete e, none, .ending node x.status⟩ v' := by
              apply obeys_updateNode hending
              · exact tolerates id
              · exact fun _ => .endNode now
              · rfl
              · exact fun _ _ _ => trivial
            apply hwrite.bind
            rintro _ _ v'' rfl
            rw [hof]
            exact obeys_afterOutcome engine _
          · exact fun _ _ _ => trivial
        · exact fun _ _ _ _ => ⟨.plain trivial .rfl, trivial⟩
        · exact fun _ _ _ _ => ⟨.plain trivial .rfl, trivial⟩
  · exact fun _ _ => trivial

theorem obeys_cancelDagRun :
    Task.Obeys (protocol run) (fun _ _ _ => True) (fun _ _ _ => True)
      (DagEngine.cancelDagRun run.id) ⟨.cancel, none, .calling⟩ w := by
  apply Task.obeys_bind.mpr
  apply obeys_getRunById
  · exact tolerates id
  · exact fun _ => rfl
  · intro row u hid _
    show Task.Obeys _ _ _ _ (Tag.mk .cancel none (if _ then _ else _)) _
    split
    · trivial
    · rename_i hopen
      rw [if_pos (by simpa only [ne_eq, not_and_or, not_not] using hopen)]
      have hsweeping {todo} : Tolerates (protocol run) ⟨.cancel, none, .sweeping row todo⟩ :=
        tolerates id
      apply Task.obeys_bind.mpr
      apply obeys_getNodes
      · exact tolerates id
      · intro nodes v
        have hsweep : Task.Obeys (protocol run) (fun _ t _ => t = ⟨.cancel, none, .sweeping row []⟩)
            (fun _ _ _ => True)
            ((unended nodes).forM fun n => do
              let now ← nowRfc3339
              let _ ← updateNodeExecution { n with status := .cancelled, completedAt := some now })
            ⟨.cancel, none, .sweeping row (unended nodes)⟩ v := by
          apply Task.Obeys.forM_each (T := fun todo => Tag.mk .cancel none (.sweeping row todo))
          intro n todo v
          apply obeys_closeNode hsweeping hsweeping
          · exact fun time _ => .cancelNode time
          · exact fun _ => rfl
          · exact fun _ _ _ => trivial
        apply hsweep.bind
        rintro _ _ v rfl
        apply (keeps_nowRfc3339 hsweeping).bind_obeys
        · intro now v' _ _
          have hleaving : Tolerates (protocol run) ⟨.cancel, none, .leaving⟩ := tolerates id
          apply (obeys_updateRun hsweeping hleaving nofun (by exact hid) (fun _ => .cancelRun now) rfl
            (fun _ => rfl) fun _ _ _ => trivial).mono
          · exact fun _ _ _ _ => trivial
          · exact fun _ _ _ _ => trivial
        · exact fun _ _ _ => trivial
      · exact fun _ _ => trivial
  · exact fun _ _ => trivial

end

end DagCalls

end Serverust
