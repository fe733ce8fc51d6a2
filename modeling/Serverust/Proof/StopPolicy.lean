import Serverust.Proof.OneExecution
import Serverust.Proof.Slots

/-!
# The stop policy

A call whose node failed skips the waiting nodes and returns. If by then no other call holds nodes it has
chosen, nothing waits and nothing is chosen any more: no execution is created and no node starts.
-/

namespace Serverust

open Resumption

namespace DagCalls

open DagRepository

/-- The call stops the run and has returned. -/
def Returned (run : RunOf) (t : Tag) : Prop := run.stops t.outcome = true ∧ ∃ todo, t.phase = .exited todo

/-- The call has skipped all the nodes it found waiting. -/
def Phase.Swept : Phase → Prop
  | .skipping [] _ | .failing _ | .recounted .. | .leaving => True
  | _ => False

/-- When a call that stops the run returns, it has skipped all the nodes it found waiting, and no other
call has chosen nodes that it has not written. -/
def Orderly (run : RunOf) (c : Config Event World Tag) (i : Nat) (ev : Event) : Prop :=
  ∀ t, c.tags[i]? = some t → ev = .returned → run.stops t.outcome = true →
    t.phase.Swept ∧ total claimed c.tags = 0

/-- No node of the run is waiting. -/
def NoneWaiting (run : RunOf) (db : Db) : Prop :=
  ∀ node ∈ db.dagNodeExecutions, node.dagRunId = run.id → node.status ≠ .waiting

/-- How far a call that stops the run has come. -/
def Sweeps (run : RunOf) (db : Db) : Phase → Prop
  | .counting | .adding _ | .branching | .stopping | .exited _ => True
  | .skipping todo _ => ∀ node ∈ db.dagNodeExecutions, node.dagRunId = run.id → node.status = .waiting →
      node.id ∈ todo.map DagNodeExecution.id
  | .failing _ | .recounted .. | .leaving => NoneWaiting run db
  | _ => False

/-- Nothing waits and nothing is chosen. -/
def Halted (run : RunOf) (db : Db) (tags : List Tag) : Prop := NoneWaiting run db ∧ total claimed tags = 0

/-- Every call that stops the run sweeps it, and once one has returned the run is halted. -/
structure Stopped (run : RunOf) (db : Db) (tags : List Tag) : Prop where
  sweeps : ∀ t ∈ tags, run.stops t.outcome = true → Sweeps run db t.phase
  halted : (∃ t ∈ tags, Returned run t) → Halted run db tags

section

variable {run : RunOf} {t : Tag} {ev : Event} {db db' : Db} {w : World} {tags : List Tag} {i : Nat}
  {node : DagNodeExecution} {phase : Phase}

/-- No action makes a node wait. -/
theorem Acts.waiting_mem (h : Acts run t ev db db') (hnode : node ∈ db'.dagNodeExecutions)
    (hwaiting : node.status = .waiting) : node ∈ db.dagNodeExecutions := by
  have hwrite {n : DagNodeExecution} (hstatus : n.status ≠ .waiting) (hdb : db' = setNode n db) :
      node ∈ db.dagNodeExecutions := by
    subst hdb
    obtain ⟨old, hold, rfl⟩ := Rows.mem_modify.mp hnode
    split at hwaiting
    · exact absurd hwaiting hstatus
    · rw [if_neg ‹_›]
      exact hold
  cases h.turn with
  | choose _ _ hdb => exact hdb ▸ hnode
  | create _ _ _ hsame | retire _ hsame | read _ hsame => exact hsame.nodes ▸ hnode
  | launch _ _ _ hdb => exact hwrite (by exact nofun) hdb
  | giveUp _ _ _ hdb => exact hwrite (by exact nofun) hdb
  | close _ _ hstatus _ hdb =>
      apply hwrite ?_ hdb
      rintro ⟨⟩
      exact absurd hstatus Bool.false_ne_true
  | count _ hdb =>
      subst hdb
      exact hnode

theorem NoneWaiting.step (h : NoneWaiting run db) (hacts : Acts run t ev db db') : NoneWaiting run db' :=
  fun node hnode hof hwaiting => h node (hacts.waiting_mem hnode hwaiting) hof hwaiting

/-- Other calls do not undo a sweep. -/
theorem Sweeps.step (h : Sweeps run db phase) (hacts : Acts run t ev db db') : Sweeps run db' phase := by
  cases phase with
  | skipping todo busy =>
      exact fun node hnode hof hwaiting => h node (hacts.waiting_mem hnode hwaiting) hof hwaiting
  | failing | recounted | leaving => exact NoneWaiting.step h hacts
  | _ => exact h

theorem NoneWaiting.of_swept (h : Sweeps run db phase) (hswept : phase.Swept) : NoneWaiting run db := by
  cases phase with
  | skipping todo busy =>
      cases todo with
      | nil => exact fun node hnode hof hwaiting => absurd (h node hnode hof hwaiting) List.not_mem_nil
      | cons => exact hswept.elim
  | failing | recounted | leaving => exact h
  | _ => exact hswept.elim

theorem Sweeps.next (h : run.stops t.outcome = true → Sweeps run db t.phase) (hacts : Acts run t ev db db')
    (hstops : run.stops (t.next run ev).outcome = true) : Sweeps run db' (t.next run ev).phase := by
  have hstage := hacts.stage
  generalize t.next run ev = t' at hstage hstops ⊢
  cases hstage with
  | stay => exact (h hstops).step hacts
  | retire | endNode | addRun | readRow => trivial
  | branch =>
      dsimp only at hstops ⊢
      rw [if_pos hstops]
      trivial
  | survey =>
      intro node hnode hof hwaiting
      apply List.mem_map_of_mem
      apply List.mem_filter.mpr
      exact ⟨mem_nodesOfRun.mpr ⟨hnode, hof⟩, decide_eq_true (.inl hwaiting)⟩
  | @skip _ _ n todo =>
      intro node hnode hof hwaiting
      have hold : node.id ∈ (n :: todo).map DagNodeExecution.id :=
        h hstops node (hacts.waiting_mem hnode hwaiting) hof hwaiting
      have hother : n.id ≠ node.id := (waits_of_setNode ⟨node, hnode, rfl, hwaiting⟩ nofun).2
      exact (List.mem_cons.mp hold).resolve_left (Ne.symm hother)
  | readFail => exact NoneWaiting.of_swept (h hstops) trivial
  | recount | failRun => exact (h hstops : NoneWaiting run db)
  | _ => exact (h hstops).elim

theorem Returned.before (hacts : Acts run t ev db db') (h : Returned run (t.next run ev)) :
    ev = .returned ∧ run.stops t.outcome = true ∨ Returned run t := by
  have hstage := hacts.stage
  generalize t.next run ev = t' at hstage h
  obtain ⟨hstops, todo, hover⟩ := h
  cases hstage with
  | stay => exact .inr ⟨hstops, todo, hover⟩
  | retire => exact .inl ⟨rfl, hstops⟩
  | branch | review | readCancel =>
      dsimp only at hover
      split at hover <;> cases hover
  | _ => cases hover

theorem Returned.next (h : Returned run t) (hacts : Acts run t ev db db') : Returned run (t.next run ev) := by
  have hstage := hacts.stage
  generalize t.next run ev = t' at hstage ⊢
  obtain ⟨hstops, todo, hover⟩ := h
  cases hstage with
  | stay => exact ⟨hstops, todo, hover⟩
  | retire => exact ⟨hstops, _, rfl⟩
  | _ => cases hover

/-- A run that is halted stays so, no execution is created, and no node starts. -/
theorem Halted.step (h : Halted run db tags) (ht : tags[i]? = some t) (hacts : Acts run t ev db db') :
    Halted run db' (tags.set i (t.next run ev)) ∧ ¬ Creates ev ∧
      ∀ node ∈ db'.dagNodeExecutions, node.status = .running →
        ∃ row ∈ db.dagNodeExecutions, row.id = node.id ∧ row.status = .running := by
  obtain ⟨hnone, hclaimed⟩ := h
  have hfree : claimed t = 0 := (total_eq_zero _).mp hclaimed t (List.mem_of_getElem? ht)
  have htotal := total_set claimed ht (t.next run ev)
  rw [Halted, and_assoc]
  refine ⟨hnone.step hacts, ?_⟩
  have hsame (hnodes : db'.dagNodeExecutions = db.dagNodeExecutions) :
      ∀ node ∈ db'.dagNodeExecutions, node.status = .running →
        ∃ row ∈ db.dagNodeExecutions, row.id = node.id ∧ row.status = .running :=
    fun node hnode hrunning => ⟨node, hnodes ▸ hnode, rfl, hrunning⟩
  cases hacts.turn with
  | choose hphase hev hdb hnext =>
      have hchosen : DagEngine.newlyReady (nodesOfRun run.id db) run.edges run.dag = [] := by
        apply List.eq_nil_iff_forall_not_mem.mpr
        intro n hn
        obtain ⟨hnode, hof, hwaiting, _⟩ := waiting_of_newlyReady hn
        exact hnone n hnode hof hwaiting
      rw [claimed_starting hnext, hchosen, hfree, hclaimed] at htotal
      subst hdb
      exact ⟨htotal, hev ▸ id, hsame rfl⟩
  | create hphase | launch _ hphase | giveUp _ hphase =>
      rw [claimed_starting hphase] at hfree
      cases hfree
  | retire hev hdags hnext =>
      have hgone : claimed (t.next run ev) = 0 := by
        rw [claimed, hnext]
      exact ⟨by omega, hev ▸ id, hsame hdags.nodes⟩
  | @close n status time hn hstatus hev hdb hchosen hnext =>
      have hgone := claimed_of_chosen_nil hnext
      refine ⟨by omega, hev ▸ id, ?_⟩
      intro node hnode hrunning
      subst hdb
      obtain ⟨old, hold, rfl⟩ := Rows.mem_modify.mp hnode
      split at hrunning
      · change status = .running at hrunning
        rw [hrunning] at hstatus
        cases hstatus
      · exact ⟨old, hold, by rw [if_neg ‹_›], hrunning⟩
  | count hev hdb hchosen hnext =>
      have hgone := claimed_of_chosen_nil hnext
      subst hdb
      exact ⟨by omega, hev ▸ id, hsame rfl⟩
  | read hev hdags hnext =>
      have hgone : claimed (t.next run ev) = 0 := by
        rcases hnext with heq | ⟨_, hnext⟩
        · rw [claimed, heq, ← claimed, hfree]
        · exact claimed_of_chosen_nil hnext
      exact ⟨by omega, hev, hsame hdags.nodes⟩

/-- What a step that is in order preserves. -/
theorem Stopped.step (h : Stopped run db tags) (ht : tags[i]? = some t)
    (hgood : ev = .returned → run.stops t.outcome = true → t.phase.Swept ∧ total claimed tags = 0)
    (hacts : Acts run t ev db db') : Stopped run db' (tags.set i (t.next run ev)) where
  sweeps other hother hstops := by
    rcases List.mem_or_eq_of_mem_set hother with hold | rfl
    · exact (h.sweeps other hold hstops).step hacts
    · exact Sweeps.next (h.sweeps t (List.mem_of_getElem? ht)) hacts hstops
  halted := by
    rintro ⟨other, hother, hreturned⟩
    have hmem := List.mem_of_getElem? ht
    have hhalted : Halted run db tags := by
      rcases List.mem_or_eq_of_mem_set hother with hold | rfl
      · exact h.halted ⟨other, hold, hreturned⟩
      · rcases hreturned.before hacts with ⟨hev, hstops⟩ | hbefore
        · obtain ⟨hswept, hclaimed⟩ := hgood hev hstops
          exact ⟨.of_swept (h.sweeps t hmem hstops) hswept, hclaimed⟩
        · exact h.halted ⟨t, hmem, hbefore⟩
    exact (hhalted.step ht hacts).1

end

/-! ### Runs -/

theorem outcome_thread (engine : DagEngine) (run : RunOf) (call : Call) :
    (call.thread engine run).tag.outcome = none ∧ (call.thread engine run).tag.phase = .calling := by
  cases call <;> exact ⟨rfl, rfl⟩

theorem Stopped.spawn {run : RunOf} {db : Db} {tags : List Tag} (h : Stopped run db tags) (engine : DagEngine)
    (call : Call) : Stopped run db (tags ++ [(call.thread engine run).tag]) := by
  obtain ⟨hnone, hphase⟩ := outcome_thread engine run call
  have hnever : ¬ run.stops (call.thread engine run).tag.outcome = true := by
    rw [hnone]
    exact Bool.false_ne_true
  refine ⟨?_, ?_⟩
  · intro other hother hstops
    rcases List.mem_append.mp hother with hold | hlast
    · exact h.sweeps other hold hstops
    · rw [List.mem_singleton.mp hlast] at hstops
      exact absurd hstops hnever
  · rintro ⟨other, hother, hreturned⟩
    rcases List.mem_append.mp hother with hold | hlast
    · obtain ⟨hwaiting, hclaimed⟩ := h.halted ⟨other, hold, hreturned⟩
      refine ⟨hwaiting, ?_⟩
      have hnothing : claimed (call.thread engine run).tag = 0 := by
        rw [claimed, hphase]
      rw [total_append, total_singleton, hclaimed, hnothing]
    · rw [List.mem_singleton.mp hlast] at hreturned
      exact absurd hreturned.1 hnever

theorem Stopped.spawned {engine : DagEngine} {run : RunOf} {w w' : World} {tags : List Tag} {call : Call}
    {th : Thread Event World Tag} (h : Stopped run w.db tags) (hbase : Base run w.db tags)
    (hspawn : (system engine run).spawn call w = some (w', th)) :
    (Base run w'.db (tags ++ [th.tag]) ∧ Stopped run w'.db (tags ++ [th.tag])) ∧ w' = w ∧
      (protocol run).Obeys (fun _ _ _ => True) th.prog th.tag w' := by
  simp only [system] at hspawn
  split at hspawn
  · rename_i hof
    cases hspawn
    exact ⟨⟨hbase.spawn (Call.ofRun_iff.mp hof) engine, h.spawn engine call⟩, rfl, obeys_thread engine call⟩
  · cases hspawn

theorem sound_stopped (engine : DagEngine) (run : RunOf) :
    Sound (system engine run) (protocol run) (Orderly run) fun w tags _ =>
      Base run w.db tags ∧ Stopped run w.db tags where
  next := rfl
  knows h ht := ⟨h.1.stored, h.1.owned _ ht⟩
  run h ht hgood hacts :=
    ⟨⟨h.1.step ht hacts, h.2.step ht (hgood _ ht) hacts⟩, trivial⟩
  spawn := by
    intro w tags trace call w' th h hspawn
    obtain ⟨hstopped, _, hobeys⟩ := h.2.spawned h.1 hspawn
    exact ⟨hstopped, trivial, hobeys⟩
  env change h := ⟨⟨h.1.elsewhere change, ⟨h.2.sweeps, h.2.halted⟩⟩, trivial⟩

/-- From a configuration on, no execution is created and no node starts. -/
def Quiet (start : Config Event World Tag) (w : World) (trace : List Event) : Prop :=
  (∀ jobId, created jobId trace = created jobId start.trace) ∧
    ∀ node ∈ w.db.dagNodeExecutions, node.status = .running →
      ∃ row ∈ start.world.db.dagNodeExecutions, row.id = node.id ∧ row.status = .running

theorem sound_quiet (engine : DagEngine) (run : RunOf) (start : Config Event World Tag) :
    Sound (system engine run) (protocol run) (Orderly run) fun w tags trace =>
      (Base run w.db tags ∧ Stopped run w.db tags) ∧ (∃ t ∈ tags, Returned run t) ∧ Quiet start w trace where
  next := rfl
  knows h ht := ⟨h.1.1.stored, h.1.1.owned _ ht⟩
  run := by
    rintro c i t ev w ⟨hstopped, hreturned, hcreated, hrunning⟩ ht hgood hacts
    obtain ⟨_, hnot, hstarts⟩ := (hstopped.2.halted hreturned).step ht hacts
    refine ⟨⟨((sound_stopped engine run).run hstopped ht hgood hacts).1, ?_, ?_, ?_⟩, trivial⟩
    · exact exists_mem_set hreturned ht fun hover => hover.next hacts
    · intro jobId
      rw [created_append, created_of_not_creates hnot, hcreated, Nat.add_zero]
    · intro node hnode hstatus
      obtain ⟨row, hrow, hid, hrowStatus⟩ := hstarts node hnode hstatus
      obtain ⟨first, hfirst, hfirstId, hfirstStatus⟩ := hrunning row hrow hrowStatus
      exact ⟨first, hfirst, hfirstId.trans hid, hfirstStatus⟩
  spawn := by
    rintro w tags trace call w' th ⟨hstopped, ⟨other, hother, hover⟩, hquiet⟩ hspawn
    obtain ⟨hstopped', rfl, hobeys⟩ := hstopped.2.spawned hstopped.1 hspawn
    exact ⟨⟨hstopped', ⟨other, List.mem_append_left _ hother, hover⟩, hquiet⟩, trivial, hobeys⟩
  env change h := ⟨⟨⟨h.1.1.elsewhere change, ⟨h.1.2.sweeps, h.1.2.halted⟩⟩, h.2⟩, trivial⟩

/-- Along every run in which each call that stops it returns in order: once one has returned, no execution
is created and no skipped node starts. -/
theorem stopped_final (engine : DagEngine) (run : RunOf) {w : World} (hstored : run.Stored w.db)
    {c c' : Config Event World Tag} (hrun : (system engine run).Run (Orderly run) (initial w) c)
    (hlater : (system engine run).Run (Orderly run) c c') (hreturned : ∃ t ∈ c.tags, Returned run t) :
    (∀ jobId, created jobId c'.trace = created jobId c.trace) ∧
      ∀ node ∈ nodesOfRun run.id c.world.db, node.status = .skipped →
        ∀ row ∈ nodesOfRun run.id c'.world.db, row.id = node.id → row.status ≠ .running := by
  have hinit : Sound.Holds (protocol run) (fun w tags _ => Base run w.db tags ∧ Stopped run w.db tags)
      (initial w) :=
    ⟨⟨.initial hstored, List.forall_mem_nil _, fun ⟨_, h, _⟩ => nomatch h⟩, List.forall_mem_nil _⟩
  obtain ⟨hstopped, hobeys⟩ := (sound_stopped engine run).invariant hrun hinit
  have hquiet : Quiet c c.world c.trace :=
    ⟨fun _ => rfl, fun node hnode hrunning => ⟨node, hnode, rfl, hrunning⟩⟩
  obtain ⟨⟨_, _, hcreated, hrunning⟩, _⟩ :=
    (sound_quiet engine run c).invariant hlater ⟨⟨hstopped, hreturned, hquiet⟩, hobeys⟩
  refine ⟨hcreated, ?_⟩
  intro node hnode hskipped row hrow hid hstatus
  obtain ⟨first, hfirst, hfirstId, hfirstStatus⟩ := hrunning row (mem_nodesOfRun.mp hrow).1 hstatus
  have heq : first = node :=
    hstopped.1.stored.uniqueNode.eq_of_column hfirst (mem_nodesOfRun.mp hnode).1 (hfirstId.trans hid)
  rw [heq, hskipped] at hfirstStatus
  cases hfirstStatus

/-! ### A start that overlaps the sweep -/

/-- `Orderly` as a test. -/
def orderly (run : RunOf) (c : Config Event World Tag) (i : Nat) (ev : Event) : Bool :=
  match c.tags[i]?, ev with
  | some t, .returned => !run.stops t.outcome ||
      (match t.phase with
        | .skipping [] _ | .failing _ | .recounted .. | .leaving => true
        | _ => false) && total claimed c.tags = 0
  | _, _ => true

theorem orderly_of_check {run : RunOf} {c : Config Event World Tag} {i : Nat} {ev : Event}
    (h : orderly run c i ev = true) : Orderly run c i ev := by
  rintro t ht rfl hstops
  simp only [orderly, ht, hstops, Bool.not_true, Bool.false_or, Bool.and_eq_true, decide_eq_true_eq] at h
  refine ⟨?_, h.2⟩
  have hswept := h.1
  split at hswept
  · rename_i hphase
    rw [hphase]
    trivial
  · rename_i hphase
    rw [hphase]
    trivial
  · rename_i hphase
    rw [hphase]
    trivial
  · rename_i hphase
    rw [hphase]
    trivial
  · cases hswept

/-- The call for the failed job, once it has returned. -/
def haltTag : Tag := ⟨.complete 8, some .failed, .exited []⟩

theorem returned_of_haltTag {c : Config Event World Tag} (h : c.tags[0]? = some haltTag) :
    ∃ t ∈ c.tags, Returned haltRun t :=
  ⟨haltTag, List.mem_of_getElem? h, rfl, [], rfl⟩

/-- The call for job 2 returns before the call for job 1 reads the nodes, which then finds none to start. -/
theorem stopped_final_halt : ∃ c c', (system .sample haltRun).Run (Orderly haltRun) (initial haltWorld) c ∧
    (system .sample haltRun).Run (Orderly haltRun) c c' ∧ c'.trace.length = 35 ∧
      (∀ jobId, created jobId c'.trace = created jobId c.trace) ∧
        ∀ node ∈ nodesOfRun 10 c.world.db, node.status = .skipped →
          ∀ row ∈ nodesOfRun 10 c'.world.db, row.id = node.id → row.status ≠ .running := by
  have hexec : (((system .sample haltRun).exec (orderly haltRun)
      ([.spawn (.complete 8), .spawn (.complete 7)] ++ List.replicate 18 (.run 0)) (initial haltWorld)).bind fun c =>
        ((system .sample haltRun).exec (orderly haltRun) (List.replicate 17 (.run 1)) c).map fun c' =>
          (c.tags[0]?, c'.trace.length)) = some (some haltTag, 35) := rfl
  obtain ⟨c, hc, hmore⟩ := Option.bind_eq_some_iff.mp hexec
  obtain ⟨c', hc', heq⟩ := Option.map_eq_some_iff.mp hmore
  obtain ⟨htag, hlength⟩ := Prod.mk.inj heq
  have hrun := System.run_of_exec (fun _ _ _ => orderly_of_check) hc
  have hlater := System.run_of_exec (fun _ _ _ => orderly_of_check) hc'
  exact ⟨c, c', hrun, hlater, hlength,
    stopped_final .sample haltRun haltWorld_stored hrun hlater (returned_of_haltTag htag)⟩

/-- The call for job 1 has chosen job 3 before the sweep, and starts it after the call for job 2 has
returned. -/
theorem skipped_starts : ¬ ∀ c c', (system .sample haltRun).Reaches (initial haltWorld) c →
    (system .sample haltRun).Reaches c c' → (∃ t ∈ c.tags, Returned haltRun t) →
      (∀ jobId, created jobId c'.trace = created jobId c.trace) ∧
        ∀ node ∈ nodesOfRun 10 c.world.db, node.status = .skipped →
          ∀ row ∈ nodesOfRun 10 c'.world.db, row.id = node.id → row.status ≠ .running := by
  intro hclaim
  have hexec : (((system .sample haltRun).exec (fun _ _ _ => true)
      ([.spawn (.complete 8), .spawn (.complete 7)] ++ List.replicate 11 (.run 1) ++ List.replicate 23 (.run 0))
        (initial haltWorld)).bind fun c =>
          ((system .sample haltRun).exec (fun _ _ _ => true) (List.replicate 8 (.run 1)) c).map fun c' =>
            ((c.tags[0]?, created 3 c.trace, created 3 c'.trace),
              (nodesOfRun 10 c.world.db).any fun node => node.id = 13 ∧ node.status = .skipped,
              (nodesOfRun 10 c'.world.db).any fun row => row.id = 13 ∧ row.status = .running)) =
        some ((some haltTag, 0, 1), true, true) := rfl
  obtain ⟨c, hc, hmore⟩ := Option.bind_eq_some_iff.mp hexec
  obtain ⟨c', hc', heq⟩ := Option.map_eq_some_iff.mp hmore
  simp only [Prod.mk.injEq] at heq
  obtain ⟨⟨htag, hbefore, hafter⟩, _⟩ := heq
  have hsame := (hclaim c c' (System.reaches_of_exec hc) (System.reaches_of_exec hc')
    (returned_of_haltTag htag)).1 3
  omega

end DagCalls

end Serverust
