import Serverust.Proof.DagSteps

/-!
# One call at a time

While one call of a run is under way no other acts. What it has read is then what is stored: the nodes it
holds are rows of the table, each once, in a status that it may overwrite.
-/

namespace Serverust

open Resumption

namespace DagCalls

open DagRepository

/-- The call has not acted yet, or it has returned. -/
def Phase.idle : Phase → Bool
  | .calling | .exited _ => true
  | _ => false

/-- A call acts only while no other is under way. -/
def Alone (c : Config Event World Tag) (i : Nat) : Prop :=
  ∀ j t, j ≠ i → c.tags[j]? = some t → t.phase.idle = true

/-- Calls act one at a time, and each execution completes once: not if it had before the start, nor twice. -/
structure OneByOne (finished : List Uuid) (c : Config Event World Tag) (i : Nat) (ev : Event) : Prop where
  alone : Alone c i
  once : ∀ e outcome, c.tags[i]? = some ⟨.complete e, outcome, .calling⟩ →
    e ∉ finished ∧ ∀ j t, j ≠ i → c.tags[j]? = some t → t.call = .complete e → t.phase = .calling

/-- The node whose outcome a call is about to write. -/
def Phase.ends : Phase → Option DagNodeExecution
  | .found node | .ending node _ => some node
  | _ => none

/-- The statuses of the nodes that a call overwrites. -/
def Phase.overwrites : Phase → NodeStatus → Bool
  | .skipping .., status => status = .waiting ∨ status = .ready
  | .starting .., status => status = .waiting
  | .sweeping .., status => !status.isTerminal
  | _, _ => true

/-- The nodes a call holds are rows of the run, each once. -/
structure Current (run : RunOf) (db : Db) (phase : Phase) : Prop where
  unique : Rows.Unique DagNodeExecution.id phase.nodes
  stored : ∀ n ∈ phase.nodes, n ∈ db.dagNodeExecutions ∧ n.dagRunId = run.id ∧
    phase.overwrites n.status = true

/-- The nodes of the call that is under way are current. -/
def Held (run : RunOf) (db : Db) (tags : List Tag) : Prop :=
  ∀ t ∈ tags, t.phase.idle = false → Current run db t.phase

/-- `Alone` as a test. -/
def alone (c : Config Event World Tag) (i : Nat) : Bool := c.tags.zipIdx.all fun p => p.2 = i || p.1.phase.idle

theorem alone_of_check {c : Config Event World Tag} {i : Nat} (h : alone c i = true) : Alone c i := by
  intro j t hj ht
  have hthis := List.all_eq_true.mp h (t, j) (List.mk_mem_zipIdx_iff_getElem?.mpr ht)
  simpa only [hj, decide_false, Bool.false_or] using hthis

/-- `OneByOne` as a test. -/
def oneByOne (finished : List Uuid) (c : Config Event World Tag) (i : Nat) (_ : Event) : Bool :=
  alone c i && match c.tags[i]? with
    | some ⟨.complete e, _, .calling⟩ => e ∉ finished &&
        c.tags.zipIdx.all fun p => p.2 = i || p.1.call ≠ .complete e || p.1.phase = .calling
    | _ => true

theorem oneByOne_of_check {finished : List Uuid} {c : Config Event World Tag} {i : Nat} {ev : Event}
    (h : oneByOne finished c i ev = true) : OneByOne finished c i ev where
  alone := alone_of_check (Bool.and_eq_true_iff.mp h).1
  once := by
    intro e outcome ht
    have honce := (Bool.and_eq_true_iff.mp h).2
    simp only [ht, Bool.and_eq_true, decide_eq_true_eq] at honce
    refine ⟨honce.1, ?_⟩
    intro j t hj hget hcall
    have hthis := List.all_eq_true.mp honce.2 (t, j) (List.mk_mem_zipIdx_iff_getElem?.mpr hget)
    simpa only [hj, hcall, ne_eq, not_true_eq_false, decide_false, Bool.false_or, decide_eq_true_eq] using hthis

section

variable {run : RunOf} {t t' : Tag} {ev : Event} {db db' : Db} {tags : List Tag} {i : Nat}
  {node n m : DagNodeExecution} {phase phase' : Phase}

theorem Current.of_nil (h : phase.nodes = []) : Current run db phase :=
  ⟨by rw [h]; exact List.nodup_nil, by rw [h]; exact List.forall_mem_nil _⟩

theorem Current.of_same (h : Current run db phase) (hsame : db.SameDags db') : Current run db' phase :=
  ⟨h.unique, fun n hn => hsame.nodes ▸ h.stored n hn⟩

theorem mem_setNode (hunique : Rows.Unique DagNodeExecution.id db.dagNodeExecutions)
    (hn : n ∈ db.dagNodeExecutions) (hid : m.id = n.id) (hnode : node ∈ (setNode m db).dagNodeExecutions) :
    node = overNode m n ∨ node ∈ db.dagNodeExecutions := by
  obtain ⟨old, hold, rfl⟩ := Rows.mem_modify.mp hnode
  split
  · rename_i heq
    rw [hunique.eq_of_column hold hn (heq.trans hid)]
    exact .inl rfl
  · exact .inr hold

/-- Writing a node that has not ended keeps the rows of those that have. -/
theorem mem_setNode_of_ended (hunique : Rows.Unique DagNodeExecution.id db.dagNodeExecutions)
    (hn : n ∈ db.dagNodeExecutions) (hid : m.id = n.id) (hopen : n.status.isTerminal = false)
    (hnode : node ∈ db.dagNodeExecutions) (hended : node.status.isTerminal = true) :
    node ∈ (setNode m db).dagNodeExecutions := by
  apply Rows.mem_modify_of_ne hnode
  intro heq
  rw [hunique.eq_of_column hnode hn (heq.trans hid), hopen] at hended
  cases hended

theorem unique_nodesOfRun (h : Rows.Unique DagNodeExecution.id db.dagNodeExecutions) :
    Rows.Unique DagNodeExecution.id (nodesOfRun run.id db) := by
  have hfiltered : Rows.Unique DagNodeExecution.id
      (db.dagNodeExecutions.filter fun node => node.dagRunId = run.id) := h.sublist (List.filter_sublist.map _)
  exact ((List.perm_insertionSort _ _).map _).nodup_iff.mpr hfiltered

theorem Current.of_snapshot (hunique : Rows.Unique DagNodeExecution.id db.dagNodeExecutions)
    (hsub : phase.nodes.Sublist (nodesOfRun run.id db))
    (hstatus : ∀ n ∈ phase.nodes, phase.overwrites n.status = true) : Current run db phase where
  unique := (unique_nodesOfRun hunique).sublist (hsub.map _)
  stored n hn := by
    obtain ⟨hnode, hof⟩ := mem_nodesOfRun.mp (hsub.subset hn)
    exact ⟨hnode, hof, hstatus n hn⟩

theorem Current.tail (h : Current run db phase) (hnodes : phase.nodes = n :: phase'.nodes)
    (hoverwrites : phase'.overwrites = phase.overwrites) (hid : m.id = n.id) :
    Current run (setNode m db) phase' := by
  have hunique := h.unique
  rw [hnodes, Rows.Unique, List.map_cons, List.nodup_cons] at hunique
  refine ⟨hunique.2, ?_⟩
  intro other hother
  obtain ⟨hnode, hof, hstatus⟩ := h.stored other (hnodes ▸ List.mem_cons_of_mem n hother)
  refine ⟨Rows.mem_modify_of_ne hnode ?_, hof, hoverwrites ▸ hstatus⟩
  intro heq
  exact hunique.1 (List.mem_map.mpr ⟨other, hother, heq.trans hid⟩)

theorem Stage.current (h : Stage run t db ev db' t') (hbase : Base run db tags) (ht : t ∈ tags)
    (hcurrent : t.phase.idle = false → Current run db t.phase) (hidle : t'.phase.idle = false) :
    Current run db' t'.phase := by
  have hunique := hbase.stored.uniqueNode
  cases h with
  | stay hev hsame => exact (hcurrent hidle).of_same hsame
  | retire => cases hidle
  | @find e outcome node _ hnode hexecution =>
      refine ⟨List.nodup_singleton _, ?_⟩
      intro n hn
      obtain rfl := List.mem_singleton.mp hn
      exact ⟨hnode, hbase.owned _ ht e rfl _ hnode hexecution, rfl⟩
  | observe hsame =>
      obtain ⟨hunique, hstored⟩ := (hcurrent rfl).of_same hsame
      exact ⟨hunique, hstored⟩
  | survey => exact .of_snapshot hunique List.filter_sublist fun n hn => (List.mem_filter.mp hn).2
  | list => exact .of_snapshot hunique List.filter_sublist fun n hn => (List.mem_filter.mp hn).2
  | choose =>
      apply Current.of_snapshot hunique
      · exact newlyReady_sublist _ _ _
      · intro n hn
        exact (Bool.and_eq_true_iff.mp (List.mem_filter.mp (List.mem_of_mem_take hn)).2).1
  | create _ hsame =>
      obtain ⟨hunique, hstored⟩ := (hcurrent rfl).of_same hsame
      exact ⟨hunique, hstored⟩
  | skip | giveUp | launch | cancelNode => exact (hcurrent rfl).tail rfl rfl rfl
  | branch | review | readCancel =>
      apply Current.of_nil
      dsimp only
      split <;> rfl
  | _ => exact .of_nil rfl

/-- What a step of the only call under way preserves. -/
theorem Held.step (h : Held run db tags) (hbase : Base run db tags) (ht : tags[i]? = some t)
    (halone : ∀ j t, j ≠ i → tags[j]? = some t → t.phase.idle = true) (hacts : Acts run t ev db db') :
    Held run db' (tags.set i (t.next run ev)) := by
  intro other hother hidle
  have hmem := List.mem_of_getElem? ht
  rcases mem_set_index hother with rfl | ⟨j, hj, hget⟩
  · exact hacts.stage.current hbase hmem (h t hmem) hidle
  · rw [halone j other hj hget] at hidle
    cases hidle

theorem Held.spawn (h : Held run db tags) (call : Call) : Held run db (tags ++ [⟨call, none, .calling⟩]) := by
  intro other hother hidle
  rcases List.mem_append.mp hother with hold | hlast
  · exact h other hold hidle
  · rw [List.mem_singleton.mp hlast] at hidle
    cases hidle

theorem Held.of_same (h : Held run db tags) (hsame : db.SameDags db') : Held run db' tags :=
  fun other hother hidle => (h other hother hidle).of_same hsame

end

end DagCalls

end Serverust
