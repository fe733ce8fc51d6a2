import Serverust.Proof.DagSerial

/-!
# Terminal states

Calls of a run, one at a time, write only nodes that have not ended and the row of a run that has not: a
run ends only with all its nodes. The exception is a callback for a node that a cancellation has closed,
which finds its node ended and writes it all the same.
-/

namespace Serverust

open Resumption

namespace DagCalls

open DagRepository

/-- A call acts alone, and a callback finds its node not ended. -/
structure Timely (c : Config Event World Tag) (i : Nat) (ev : Event) : Prop where
  alone : Alone c i
  finds : ∀ e outcome node, c.tags[i]? = some ⟨.complete e, outcome, .calling⟩ →
    ev = .sql (.dag (.findNode e (some node))) → node.status.isTerminal = false

/-- The run has ended. -/
def Closed (run : RunOf) (db : Db) : Prop :=
  ∃ row, Rows.lookup DagRun.id run.id db.dagRuns = some row ∧ row.status.isTerminal = true

/-- The row to whose counters the call is about to add. -/
def Phase.adds : Phase → Option DagRun
  | .adding row => some row
  | _ => none

/-- The call may still write the tables. -/
def Phase.working : Phase → Bool
  | .calling | .exited _ | .leaving => false
  | _ => true

/-- What the call that is under way knows of the run. -/
structure Pending (run : RunOf) (db : Db) (phase : Phase) : Prop where
  unclosed : ¬ Closed run db
  ends : ∀ node, phase.ends = some node → node.status.isTerminal = false
  row : ∀ row, phase.adds = some row → row.status.isTerminal = false
  rest : Rest run db phase

section

variable {run : RunOf} {t t' : Tag} {ev : Event} {db db' : Db} {tags : List Tag} {i : Nat}
  {node n m : DagNodeExecution} {phase phase' : Phase}

theorem Rest.of_not_working (h : phase.working = false) : Rest run db phase := by
  apply Rest.of_none
  cases phase with
  | calling | exited | leaving => rfl
  | _ => cases h

theorem Pending.of_same (h : Pending run db phase) (hsame : db.SameDags db') : Pending run db' phase where
  unclosed := by
    rw [Closed, hsame.dagRuns]
    exact h.unclosed
  ends := h.ends
  row := h.row
  rest := h.rest.of_nodes hsame.nodes

theorem Pending.of_unclosed (hunclosed : ¬ Closed run db) (hends : phase.ends = none)
    (hadds : phase.adds = none) (hrest : Rest run db phase) : Pending run db phase where
  unclosed := hunclosed
  ends node hnode := by
    rw [hends] at hnode
    cases hnode
  row row hrow := by
    rw [hadds] at hrow
    cases hrow
  rest := hrest

theorem unclosed_setRun (h : ¬ Closed run db) {row : DagRun} (hopen : row.status.isTerminal = false) :
    ¬ Closed run (setRun row db) := by
  rintro ⟨found, hfound, hterminal⟩
  simp only [setRun] at hfound
  rw [Rows.lookup_modify (f := overRun row) fun _ => rfl] at hfound
  split at hfound
  · obtain ⟨old, _, rfl⟩ := Option.map_eq_some_iff.mp hfound
    exact absurd hterminal (Bool.eq_false_iff.mp hopen)
  · exact h ⟨found, hfound, hterminal⟩

theorem isTerminal_of_unclosed (h : ¬ Closed run db) {row : DagRun}
    (hrow : Rows.lookup DagRun.id run.id db.dagRuns = some row) : row.status.isTerminal = false :=
  Bool.eq_false_of_not_eq_true fun hterminal => h ⟨row, hrow, hterminal⟩

/-! ### Steps -/

theorem Stage.pending (h : Stage run t db ev db' t') (hbase : Base run db tags) (ht : t ∈ tags)
    (hended : Closed run db → Ended run db) (hpending : t.phase.working = true → Pending run db t.phase)
    (hfinds : ∀ e outcome node, t = ⟨.complete e, outcome, .calling⟩ →
      ev = .sql (.dag (.findNode e (some node))) → node.status.isTerminal = false)
    (hworking : t'.phase.working = true) : Pending run db' t'.phase := by
  have hrest : Rest run db t.phase := by
    by_cases hbefore : t.phase.working = true
    · exact (hpending hbefore).rest
    · exact .of_not_working (Bool.eq_false_of_not_eq_true hbefore)
  have hnext := h.rest hrest
  cases h with
  | stay _ hsame => exact (hpending hworking).of_same hsame
  | retire | failRun | finishRun | cancelRun => cases hworking
  | @find e outcome node _ hnode hexecution =>
      have hopen := hfinds e outcome node rfl rfl
      have hof := hbase.owned _ ht e rfl node hnode hexecution
      refine ⟨?_, ?_, (fun _ h => nomatch h), hnext⟩
      · intro hclosed
        rw [hended hclosed node hnode hof] at hopen
        cases hopen
      · rintro _ ⟨⟩
        exact hopen
  | observe hsame =>
      obtain ⟨hunclosed, hends, _, _⟩ := (hpending rfl).of_same hsame
      exact ⟨hunclosed, hends, (fun _ h => nomatch h), hnext⟩
  | readRow hrow =>
      refine ⟨(hpending rfl).unclosed, (fun _ h => nomatch h), ?_, hnext⟩
      rintro _ ⟨⟩
      exact isTerminal_of_unclosed (hpending rfl).unclosed hrow
  | addRun =>
      have hopen := (hpending rfl).row _ rfl
      exact .of_unclosed (unclosed_setRun (hpending rfl).unclosed (by exact hopen)) rfl rfl hnext
  | branch hsame =>
      refine .of_unclosed ((hpending rfl).of_same hsame).unclosed ?_ ?_ hnext
      · dsimp only
        split <;> rfl
      · dsimp only
        split <;> rfl
  | review =>
      refine .of_unclosed (hpending rfl).unclosed ?_ ?_ hnext
      · dsimp only
        split <;> rfl
      · dsimp only
        split <;> rfl
  | @readCancel _ row _ hrow =>
      dsimp only at hworking hnext ⊢
      split at hworking
      · rename_i hopen
        rw [if_pos hopen] at hnext ⊢
        refine .of_unclosed ?_ rfl rfl hnext
        rintro ⟨found, hfound, hterminal⟩
        obtain rfl := Option.some.inj (hrow.symm.trans hfound)
        rcases hopen with heq | heq
        · rw [heq] at hterminal
          cases hterminal
        · rw [heq] at hterminal
          cases hterminal
      · cases hworking
  | create _ hsame => exact .of_unclosed ((hpending rfl).of_same hsame).unclosed rfl rfl hnext
  | _ => exact .of_unclosed (hpending rfl).unclosed rfl rfl hnext

/-- A run ends only with all its nodes. -/
theorem Stage.ended (h : Stage run t db ev db' t') (hended : Closed run db → Ended run db)
    (hpending : t.phase.working = true → Pending run db t.phase) (hclosed : Closed run db') : Ended run db' := by
  have hsameCase (hsame : db.SameDags db') : Ended run db' := by
    rw [Closed, hsame.dagRuns] at hclosed
    rw [Ended, hsame.nodes]
    exact hended hclosed
  cases h with
  | stay _ hsame | retire hsame | observe hsame | branch hsame | create _ hsame => exact hsameCase hsame
  | endNode | skip | giveUp | launch | cancelNode => exact absurd hclosed (hpending rfl).unclosed
  | addRun =>
      have hopen := (hpending rfl).row _ rfl
      exact absurd hclosed (unclosed_setRun (hpending rfl).unclosed (by exact hopen))
  | failRun | finishRun | cancelRun =>
      have hall : Ended run db := (hpending rfl).rest.ended rfl
      exact hall
  | _ => exact hended hclosed

/-- The row of a run that has ended, and the rows of nodes that have, are kept. -/
structure Fixed (run : RunOf) (db db' : Db) : Prop where
  row : ∀ row, Rows.lookup DagRun.id run.id db.dagRuns = some row → row.status.isTerminal = true →
    Rows.lookup DagRun.id run.id db'.dagRuns = some row
  nodes : ∀ node ∈ db.dagNodeExecutions, node.dagRunId = run.id → node.status.isTerminal = true →
    node ∈ db'.dagNodeExecutions

theorem Fixed.of_same (hsame : db.SameDags db') : Fixed run db db' where
  row _ hrow _ := hsame.dagRuns ▸ hrow
  nodes _ hnode _ _ := hsame.nodes ▸ hnode

theorem Fixed.trans {db'' : Db} (h : Fixed run db db') (h' : Fixed run db' db'') : Fixed run db db'' where
  row row hrow hterminal := h'.row row (h.row row hrow hterminal) hterminal
  nodes node hnode hof hterminal := h'.nodes node (h.nodes node hnode hof hterminal) hof hterminal

theorem Fixed.setNode (hunique : Rows.Unique DagNodeExecution.id db.dagNodeExecutions)
    (hn : n ∈ db.dagNodeExecutions) (hid : m.id = n.id) (hopen : n.status.isTerminal = false) :
    Fixed run db (setNode m db) where
  row _ hrow _ := hrow
  nodes _ hnode _ hterminal := mem_setNode_of_ended hunique hn hid hopen hnode hterminal

theorem Fixed.setRun (h : ¬ Closed run db) (row : DagRun) : Fixed run db (setRun row db) where
  row found hfound hterminal := absurd ⟨found, hfound, hterminal⟩ h
  nodes _ hnode _ _ := hnode

theorem Stage.fixed (h : Stage run t db ev db' t') (hbase : Base run db tags) (ht : t ∈ tags)
    (hheld : Held run db tags) (hpending : t.phase.working = true → Pending run db t.phase) :
    Fixed run db db' := by
  have hunique := hbase.stored.uniqueNode
  cases h with
  | stay _ hsame | retire hsame | observe hsame | branch hsame | create _ hsame => exact .of_same hsame
  | @endNode call outcome node =>
      obtain ⟨hn, _, _⟩ := (hheld _ ht rfl).stored node (List.mem_singleton.mpr rfl)
      exact .setNode hunique hn (by rfl) ((hpending rfl).ends node rfl)
  | @skip call outcome n =>
      obtain ⟨hn, _, hstatus⟩ := (hheld _ ht rfl).stored n List.mem_cons_self
      apply Fixed.setNode hunique hn (by rfl)
      rcases of_decide_eq_true hstatus with heq | heq <;> rw [heq] <;> rfl
  | @giveUp call outcome n | @launch call outcome n =>
      obtain ⟨hn, _, hstatus⟩ := (hheld _ ht rfl).stored n List.mem_cons_self
      apply Fixed.setNode hunique hn (by rfl)
      rw [of_decide_eq_true hstatus]
      rfl
  | @cancelNode call outcome row n =>
      obtain ⟨hn, _, hstatus⟩ := (hheld _ ht rfl).stored n List.mem_cons_self
      exact .setNode hunique hn (by rfl) ((Bool.not_eq_true' _).mp hstatus)
  | addRun | failRun | finishRun | cancelRun => exact .setRun (hpending rfl).unclosed _
  | _ => exact .of_same .rfl

end

/-! ### Runs -/

/-- What every timely step preserves. -/
structure Settled (run : RunOf) (db : Db) (tags : List Tag) : Prop where
  base : Base run db tags
  held : Held run db tags
  ended : Closed run db → Ended run db
  pending : ∀ t ∈ tags, t.phase.working = true → Pending run db t.phase

theorem sound_settled (engine : DagEngine) (run : RunOf) (start : Db) :
    Sound (system engine run) (protocol run) Timely fun w tags _ =>
      Settled run w.db tags ∧ Fixed run start w.db where
  next := rfl
  knows h ht := ⟨h.1.base.stored, h.1.base.owned _ ht⟩
  run := by
    rintro c i t ev w ⟨h, hfixed⟩ ht hgood hacts
    have hmem := List.mem_of_getElem? ht
    have hstage := hacts.stage
    have hpending := h.pending t hmem
    refine ⟨⟨⟨h.base.step ht hacts, h.held.step h.base ht hgood.alone hacts,
      hstage.ended h.ended hpending, ?_⟩, ?_⟩, trivial⟩
    · intro other hother hworking
      rcases mem_set_index hother with rfl | ⟨j, hj, hget⟩
      · refine hstage.pending h.base hmem h.ended hpending ?_ hworking
        rintro e outcome node rfl hev
        exact hgood.finds e outcome node ht hev
      · have hidle := hgood.alone j other hj hget
        cases hphase : other.phase with
        | calling | exited =>
            rw [hphase] at hworking
            cases hworking
        | _ =>
            rw [hphase] at hidle
            cases hidle
    · exact hfixed.trans (hstage.fixed h.base hmem h.held hpending)
  spawn := by
    rintro w tags trace call w' th ⟨h, hfixed⟩ hspawn
    simp only [system] at hspawn
    split at hspawn
    · rename_i hof
      cases hspawn
      refine ⟨⟨⟨h.base.spawn (Call.ofRun_iff.mp hof) engine, ?_, h.ended, ?_⟩, hfixed⟩, trivial,
        obeys_thread engine call⟩
      · rw [tag_thread]
        exact h.held.spawn call
      · rw [tag_thread]
        intro other hother hworking
        rcases List.mem_append.mp hother with hold | hlast
        · exact h.pending other hold hworking
        · rw [List.mem_singleton.mp hlast] at hworking
          cases hworking
    · cases hspawn
  env := by
    rintro w tags trace change ⟨h, hfixed⟩
    have hsame := sameDags_elsewhere change w
    refine ⟨⟨⟨h.base.elsewhere change, h.held.of_same hsame, h.ended, ?_⟩, hfixed.trans (.of_same hsame)⟩, trivial⟩
    exact fun t ht hworking => (h.pending t ht hworking).of_same hsame

/-- Along every timely run that has not ended before all its nodes: the status of the run, once terminal,
never changes, nor does that of a node. -/
theorem terminal_final (engine : DagEngine) (run : RunOf) {w : World} (hstored : run.Stored w.db)
    (hended : Closed run w.db → Ended run w.db) {c c' : Config Event World Tag}
    (hrun : (system engine run).Run Timely (initial w) c) (hlater : (system engine run).Run Timely c c') :
    (∀ row, Rows.lookup DagRun.id run.id c.world.db.dagRuns = some row → row.status.isTerminal = true →
      ∃ later, Rows.lookup DagRun.id run.id c'.world.db.dagRuns = some later ∧ later.status = row.status) ∧
    ∀ node ∈ nodesOfRun run.id c.world.db, node.status.isTerminal = true →
      ∃ later ∈ nodesOfRun run.id c'.world.db, later.id = node.id ∧ later.status = node.status := by
  have hinit : Sound.Holds (protocol run) (fun v tags _ => Settled run v.db tags ∧ Fixed run w.db v.db)
      (initial w) :=
    ⟨⟨⟨.initial hstored, List.forall_mem_nil _, hended, List.forall_mem_nil _⟩, .of_same .rfl⟩,
      List.forall_mem_nil _⟩
  obtain ⟨⟨hsettled, _⟩, hobeys⟩ := (sound_settled engine run w.db).invariant hrun hinit
  obtain ⟨⟨_, hfixed⟩, _⟩ :=
    (sound_settled engine run c.world.db).invariant hlater ⟨⟨hsettled, .of_same .rfl⟩, hobeys⟩
  refine ⟨fun row hrow hterminal => ⟨row, hfixed.row row hrow hterminal, rfl⟩, ?_⟩
  intro node hnode hterminal
  obtain ⟨hrow, hof⟩ := mem_nodesOfRun.mp hnode
  exact ⟨node, mem_nodesOfRun.mpr ⟨hfixed.nodes node hrow hof hterminal, hof⟩, rfl, rfl⟩

/-! ### A callback after a cancellation -/

/-- `Timely` as a test. -/
def timely (c : Config Event World Tag) (i : Nat) (ev : Event) : Bool :=
  alone c i && match c.tags[i]?, ev with
    | some ⟨.complete _, _, .calling⟩, .sql (.dag (.findNode _ (some node))) => !node.status.isTerminal
    | _, _ => true

theorem timely_of_check {c : Config Event World Tag} {i : Nat} {ev : Event} (h : timely c i ev = true) :
    Timely c i ev where
  alone := alone_of_check (Bool.and_eq_true_iff.mp h).1
  finds := by
    rintro e outcome node ht rfl
    have hfinds := (Bool.and_eq_true_iff.mp h).2
    simp only [ht] at hfinds
    exact (Bool.not_eq_true' _).mp hfinds

/-- Job 1 ends and the run is cancelled; a second cancellation is refused. -/
theorem terminal_final_join : ∃ c c', (system .sample joinRun).Run Timely (initial joinWorld) c ∧
    (system .sample joinRun).Run Timely c c' ∧ c'.trace.length = 27 ∧
      (nodesOfRun 10 c.world.db).map DagNodeExecution.status = [.success, .cancelled, .cancelled] ∧
      (∀ row, Rows.lookup DagRun.id 10 c.world.db.dagRuns = some row → row.status.isTerminal = true →
        ∃ later, Rows.lookup DagRun.id 10 c'.world.db.dagRuns = some later ∧ later.status = row.status) ∧
      ∀ node ∈ nodesOfRun 10 c.world.db, node.status.isTerminal = true →
        ∃ later ∈ nodesOfRun 10 c'.world.db, later.id = node.id ∧ later.status = node.status := by
  have hexec : (((system .sample joinRun).exec timely ([.spawn (.complete 7), .spawn .cancel, .spawn .cancel] ++
      List.replicate 13 (.run 0) ++ List.replicate 12 (.run 1)) (initial joinWorld)).bind fun c =>
        ((system .sample joinRun).exec timely [.run 2, .run 2] c).map fun c' =>
          (c'.trace.length, (nodesOfRun 10 c.world.db).map DagNodeExecution.status)) =
            some (27, [.success, .cancelled, .cancelled]) := rfl
  obtain ⟨c, hc, hmore⟩ := Option.bind_eq_some_iff.mp hexec
  obtain ⟨c', hc', heq⟩ := Option.map_eq_some_iff.mp hmore
  obtain ⟨hlength, hstatus⟩ := Prod.mk.inj heq
  have hrun := System.run_of_exec (fun _ _ _ => timely_of_check) hc
  have hlater := System.run_of_exec (fun _ _ _ => timely_of_check) hc'
  have hunclosed : ¬ Closed joinRun joinWorld.db := by
    rintro ⟨row, hrow, hterminal⟩
    cases hrow
    cases hterminal
  exact ⟨c, c', hrun, hlater, hlength, hstatus,
    terminal_final .sample joinRun joinWorld_stored (fun h => absurd h hunclosed) hrun hlater⟩

/-- The run is cancelled while job 1 runs, whose callback then changes the node and the run. -/
theorem cancelled_changes : ¬ ∀ c c', (system .sample joinRun).Run (OneByOne []) (initial joinWorld) c →
    (system .sample joinRun).Run (OneByOne []) c c' →
      (∀ row, Rows.lookup DagRun.id 10 c.world.db.dagRuns = some row → row.status.isTerminal = true →
        ∃ later, Rows.lookup DagRun.id 10 c'.world.db.dagRuns = some later ∧ later.status = row.status) ∧
      ∀ node ∈ nodesOfRun 10 c.world.db, node.status.isTerminal = true →
        ∃ later ∈ nodesOfRun 10 c'.world.db, later.id = node.id ∧ later.status = node.status := by
  intro hclaim
  have hexec : (((system .sample joinRun).exec (oneByOne [])
      ([.spawn .cancel, .spawn (.complete 7)] ++ List.replicate 15 (.run 0)) (initial joinWorld)).bind fun c =>
        ((system .sample joinRun).exec (oneByOne []) (List.replicate 17 (.run 1)) c).map fun c' =>
          ((Rows.lookup DagRun.id 10 c.world.db.dagRuns).map DagRun.status,
            (Rows.lookup DagRun.id 10 c'.world.db.dagRuns).map DagRun.status,
            (nodesOfRun 10 c.world.db).map DagNodeExecution.status,
            (nodesOfRun 10 c'.world.db).map DagNodeExecution.status)) =
      some (some .cancelled, some .failed, [.cancelled, .cancelled, .cancelled],
        [.success, .cancelled, .cancelled]) := rfl
  obtain ⟨c, hc, hmore⟩ := Option.bind_eq_some_iff.mp hexec
  obtain ⟨c', hc', heq⟩ := Option.map_eq_some_iff.mp hmore
  simp only [Prod.mk.injEq] at heq
  obtain ⟨hbefore, hafter, _⟩ := heq
  obtain ⟨row, hrow, hstatus⟩ := Option.map_eq_some_iff.mp hbefore
  have hrun := System.run_of_exec (fun _ _ _ => oneByOne_of_check) hc
  have hlater := System.run_of_exec (fun _ _ _ => oneByOne_of_check) hc'
  obtain ⟨later, hfound, hsame⟩ := (hclaim c c' hrun hlater).1 row hrow (by rw [hstatus]; rfl)
  rw [hfound, Option.map_some, hsame, hstatus] at hafter
  cases hafter

end DagCalls

end Serverust
