import Serverust.Proof.DagSerial

/-!
# Dependency order

A node starts only when the status of each upstream node meets the condition of the edge between them.
That status stays: a node that has ended is written once more only by the callback of an execution that a
cancellation left in flight, and then the node was cancelled, so that only an `always` edge was met.
-/

namespace Serverust

open Resumption

namespace DagCalls

open DagRepository

/-- A state that a run may start from: only jobs without incoming edges have an execution, which is in
flight unless it has finished. -/
structure Started (run : RunOf) (finished : List Uuid) (db : Db) : Prop where
  roots : ∀ node ∈ db.dagNodeExecutions, node.dagRunId = run.id → node.executionId ≠ none →
    node.jobId ∉ run.edges.map DagEdge.downstreamJobId ∧ node.status ≠ .waiting ∧ node.status ≠ .ready
  closed : ∀ node ∈ db.dagNodeExecutions, node.dagRunId = run.id → node.status.isTerminal = true →
    ∀ e, node.executionId = some e → e ∉ finished → node.status = .cancelled

/-- The outcome of the call's execution is still to be written. -/
def Phase.early : Phase → Bool
  | .calling | .found _ | .ending .. => true
  | _ => false

/-- The callback of the execution may still come. -/
def InFlight (finished : List Uuid) (tags : List Tag) (e : Uuid) : Prop :=
  e ∉ finished ∧ ∀ t ∈ tags, t.call = .complete e → t.phase.early = true

/-- The upstream node of an edge meets its condition, and will do so after its callback. -/
def Meets (run : RunOf) (finished : List Uuid) (db : Db) (tags : List Tag) (edge : DagEdge) : Prop :=
  ∃ up ∈ db.dagNodeExecutions, up.dagRunId = run.id ∧ up.jobId = edge.upstreamJobId ∧
    DagEngine.satisfied edge.condition up.status = true ∧
      ∀ e, up.executionId = some e → InFlight finished tags e → edge.condition = .always

/-- The upstream nodes of a node that is about to start meet the conditions. -/
def Ready (run : RunOf) (db : Db) (node : DagNodeExecution) : Prop :=
  ∀ edge ∈ run.edges, edge.downstreamJobId = node.jobId → ∃ up ∈ db.dagNodeExecutions,
    up.dagRunId = run.id ∧ up.jobId = edge.upstreamJobId ∧
      DagEngine.satisfied edge.condition up.status = true

/-- The nodes of the run are in order. A node that has ended while its callback is to come was cancelled. -/
structure Ordered (run : RunOf) (finished : List Uuid) (db : Db) (tags : List Tag) : Prop where
  fresh : ∀ node ∈ db.dagNodeExecutions, node.dagRunId = run.id →
    node.status = .waiting ∨ node.status = .ready → node.executionId = none
  closed : ∀ node ∈ db.dagNodeExecutions, node.dagRunId = run.id → node.status.isTerminal = true →
    ∀ e, node.executionId = some e → InFlight finished tags e → node.status = .cancelled
  met : ∀ node ∈ db.dagNodeExecutions, node.dagRunId = run.id → node.executionId ≠ none →
    ∀ edge ∈ run.edges, edge.downstreamJobId = node.jobId → Meets run finished db tags edge

/-- What the call that is under way relies on. -/
structure Relies (run : RunOf) (finished : List Uuid) (db : Db) (tags : List Tag) (t : Tag) : Prop where
  ready : ∀ todo created, t.phase = .starting todo created → ∀ n ∈ todo, Ready run db n
  ends : ∀ node, t.phase.ends = some node →
    ∃ e, t.call = .complete e ∧ node.executionId = some e ∧ InFlight finished tags e

section

variable {run : RunOf} {finished : List Uuid} {t t' : Tag} {ev : Event} {db db' : Db} {tags tags' : List Tag}
  {i : Nat} {node n m : DagNodeExecution} {edge : DagEdge} {condition : EdgeCondition} {status : NodeStatus}

theorem always_of_cancelled (h : DagEngine.satisfied condition .cancelled = true) : condition = .always := by
  cases condition with
  | always => rfl
  | _ => cases h

/-! ### Executions in flight -/

theorem Stage.call (h : Stage run t db ev db' t') : t'.call = t.call := by
  cases h <;> rfl

theorem Stage.early (h : Stage run t db ev db' t') (hearly : t'.phase.early = true) : t.phase.early = true := by
  cases h with
  | stay => exact hearly
  | find | observe | endNode | readCancel => rfl
  | branch | review =>
      dsimp only at hearly
      split at hearly <;> cases hearly
  | _ => cases hearly

theorem Phase.early_of_ends {phase : Phase} (h : phase.ends = some node) : phase.early = true := by
  cases phase with
  | found | ending => rfl
  | _ => cases h

theorem InFlight.before {e : Uuid} (h : InFlight finished (tags.set i t') e) (hstage : Stage run t db ev db' t')
    (ht : tags[i]? = some t) : InFlight finished tags e := by
  refine ⟨h.1, ?_⟩
  intro other hother hcall
  obtain ⟨j, hj⟩ := List.mem_iff_getElem?.mp hother
  by_cases hij : i = j
  · subst hij
    obtain rfl := Option.some.inj (ht.symm.trans hj)
    obtain ⟨hlength, _⟩ := List.getElem?_eq_some_iff.mp ht
    exact hstage.early (h.2 t' (List.mem_set hlength t') (hstage.call.trans hcall))
  · exact h.2 other (List.mem_iff_getElem?.mpr ⟨j, by rw [List.getElem?_set_ne hij, hj]⟩) hcall

theorem InFlight.after {e : Uuid} (h : InFlight finished tags e) (hearly : t'.phase.early = true) :
    InFlight finished (tags.set i t') e := by
  refine ⟨h.1, ?_⟩
  intro other hother hcall
  rcases List.mem_or_eq_of_mem_set hother with hold | rfl
  · exact h.2 other hold hcall
  · exact hearly

/-! ### Writing a node -/

theorem Meets.kept (h : Meets run finished db tags edge)
    (hflight : ∀ e, InFlight finished tags' e → InFlight finished tags e) : Meets run finished db tags' edge := by
  obtain ⟨up, hup, hof, hjob, hmet, halways⟩ := h
  exact ⟨up, hup, hof, hjob, hmet, fun e he he' => halways e he (hflight e he')⟩

/-- Writing a node whose status meets no condition changes nothing for the nodes after it. -/
theorem Ready.setNode (h : Ready run db node) (hunique : Rows.Unique DagNodeExecution.id db.dagNodeExecutions)
    (hn : n ∈ db.dagNodeExecutions) (hid : m.id = n.id) (hopen : n.status.isTerminal = false) :
    Ready run (setNode m db) node := by
  intro edge hedge hdown
  obtain ⟨up, hup, hof, hjob, hmet⟩ := h edge hedge hdown
  have hended := DagEngine.isTerminal_of_satisfied hmet
  exact ⟨up, mem_setNode_of_ended hunique hn hid hopen hup hended, hof, hjob, hmet⟩

/-- What a write of a node must respect. -/
structure Respects (run : RunOf) (finished : List Uuid) (db : Db) (tags tags' : List Tag)
    (n m : DagNodeExecution) : Prop where
  fresh : m.status = .waiting ∨ m.status = .ready → m.executionId = none
  closed : m.status.isTerminal = true → ∀ e, m.executionId = some e → InFlight finished tags' e →
    m.status = .cancelled
  met : m.executionId ≠ none → n.executionId ≠ none ∨
    ∀ edge ∈ run.edges, edge.downstreamJobId = n.jobId → Meets run finished db tags edge
  stays : ∀ condition, DagEngine.satisfied condition n.status = true →
    (∀ e, n.executionId = some e → InFlight finished tags e → condition = .always) →
      DagEngine.satisfied condition m.status = true ∧
        ∀ e, m.executionId = some e → InFlight finished tags' e → condition = .always

theorem Meets.setNode (h : Meets run finished db tags edge)
    (hunique : Rows.Unique DagNodeExecution.id db.dagNodeExecutions) (hn : n ∈ db.dagNodeExecutions)
    (hid : m.id = n.id) (hflight : ∀ e, InFlight finished tags' e → InFlight finished tags e)
    (hrespects : Respects run finished db tags tags' n m) : Meets run finished (setNode m db) tags' edge := by
  obtain ⟨up, hup, hof, hjob, hmet, halways⟩ := h
  by_cases heq : up.id = m.id
  · obtain rfl := hunique.eq_of_column hup hn (heq.trans hid)
    obtain ⟨hmet, halways⟩ := hrespects.stays _ hmet halways
    exact ⟨overNode m up, Rows.mem_modify_of_eq hup heq, hof, hjob, hmet, halways⟩
  · exact ⟨up, Rows.mem_modify_of_ne hup heq, hof, hjob, hmet, fun e he he' => halways e he (hflight e he')⟩

theorem Ordered.kept (h : Ordered run finished db tags) (hnodes : db'.dagNodeExecutions = db.dagNodeExecutions)
    (hflight : ∀ e, InFlight finished tags' e → InFlight finished tags e) : Ordered run finished db' tags' where
  fresh := hnodes ▸ h.fresh
  closed node hnode hof hterminal e he he' := h.closed node (hnodes ▸ hnode) hof hterminal e he (hflight e he')
  met node hnode hof hexecution edge hedge hdown := by
    have hmet := (h.met node (hnodes ▸ hnode) hof hexecution edge hedge hdown).kept hflight
    rw [Meets, hnodes]
    exact hmet

theorem Ordered.setNode (h : Ordered run finished db tags)
    (hunique : Rows.Unique DagNodeExecution.id db.dagNodeExecutions) (hn : n ∈ db.dagNodeExecutions)
    (hof : n.dagRunId = run.id) (hid : m.id = n.id)
    (hflight : ∀ e, InFlight finished tags' e → InFlight finished tags e)
    (hrespects : Respects run finished db tags tags' n m) : Ordered run finished (setNode m db) tags' where
  fresh node hnode hnodeOf := by
    rcases mem_setNode hunique hn hid hnode with rfl | hold
    · exact hrespects.fresh
    · exact h.fresh node hold hnodeOf
  closed node hnode hnodeOf hterminal e he he' := by
    rcases mem_setNode hunique hn hid hnode with rfl | hold
    · exact hrespects.closed hterminal e he he'
    · exact h.closed node hold hnodeOf hterminal e he (hflight e he')
  met node hnode hnodeOf hexecution edge hedge hdown := by
    have hmet : Meets run finished db tags edge := by
      rcases mem_setNode hunique hn hid hnode with rfl | hold
      · rcases hrespects.met hexecution with hbefore | hmeets
        · exact h.met n hn hof hbefore edge hedge hdown
        · exact hmeets edge hedge hdown
      · exact h.met node hold hnodeOf hexecution edge hedge hdown
    exact hmet.setNode hunique hn hid hflight hrespects

/-- An upstream node that meets a condition, and whose callback is still to come, was cancelled. -/
theorem Ready.meets (h : Ready run db node) (hordered : Ordered run finished db tags) :
    ∀ edge ∈ run.edges, edge.downstreamJobId = node.jobId → Meets run finished db tags edge := by
  intro edge hedge hdown
  obtain ⟨up, hup, hof, hjob, hmet⟩ := h edge hedge hdown
  refine ⟨up, hup, hof, hjob, hmet, ?_⟩
  intro e he hflight
  have hcancelled := hordered.closed up hup hof (DagEngine.isTerminal_of_satisfied hmet) e he hflight
  rw [hcancelled] at hmet
  exact always_of_cancelled hmet

theorem ready_of_newlyReady
    (h : n ∈ DagEngine.newlyReady (nodesOfRun run.id db) run.edges run.dag) : Ready run db n := by
  intro edge hedge hdown
  obtain ⟨_, _, _, hready⟩ := waiting_of_newlyReady h
  obtain ⟨status, hstatus, hmet⟩ := DagEngine.satisfied_of_ready hready hedge hdown
  obtain ⟨up, hup, hjob, rfl⟩ := DagEngine.statusOf_eq_some hstatus
  obtain ⟨hnode, hof⟩ := mem_nodesOfRun.mp hup
  exact ⟨up, hnode, hof, hjob, hmet⟩

theorem Respects.of_open (hopen : n.status.isTerminal = false)
    (hfresh : m.status = .waiting ∨ m.status = .ready → m.executionId = none)
    (hclosed : m.status.isTerminal = true → m.executionId ≠ none → m.status = .cancelled)
    (hmet : m.executionId ≠ none → n.executionId ≠ none ∨
      ∀ edge ∈ run.edges, edge.downstreamJobId = n.jobId → Meets run finished db tags edge) :
    Respects run finished db tags tags' n m where
  fresh := hfresh
  closed hterminal e he _ := hclosed hterminal (he ▸ nofun)
  met := hmet
  stays condition hsatisfied := by
    rw [DagEngine.isTerminal_of_satisfied hsatisfied] at hopen
    cases hopen

theorem Respects.of_close (hopen : n.status.isTerminal = false) (hnone : n.executionId = none) (time : String) :
    Respects run finished db tags tags' n (n.close status time) := by
  apply Respects.of_open hopen
  · exact fun _ => hnone
  · exact fun _ he => absurd hnone he
  · exact fun he => absurd hnone he

/-! ### Steps -/

theorem Ordered.step (h : Ordered run finished db tags) (hbase : Base run db tags) (hheld : Held run db tags)
    (hrelies : ∀ t ∈ tags, t.phase.idle = false → Relies run finished db tags t) (ht : tags[i]? = some t)
    (hstage : Stage run t db ev db' t') : Ordered run finished db' (tags.set i t') := by
  have hmem := List.mem_of_getElem? ht
  have hflight : ∀ e, InFlight finished (tags.set i t') e → InFlight finished tags e :=
    fun e he => he.before hstage ht
  have hunique := hbase.stored.uniqueNode
  have hset : t' ∈ tags.set i t' := by
    obtain ⟨hlength, _⟩ := List.getElem?_eq_some_iff.mp ht
    exact List.mem_set hlength t'
  cases hstage with
  | stay _ hsame | retire hsame | observe hsame | branch hsame | create _ hsame =>
      exact h.kept hsame.nodes hflight
  | @endNode call outcome node status _ time =>
      obtain ⟨hn, hof, _⟩ := (hheld _ hmem rfl).stored node (List.mem_singleton.mpr rfl)
      obtain ⟨e, hcall, he, hthis⟩ := (hrelies _ hmem rfl).ends node rfl
      apply h.setNode hunique hn hof (by rfl) hflight
      have hterminal := isTerminal_completedStatus status
      refine ⟨?_, ?_, fun _ => .inl (he ▸ nofun), ?_⟩
      · show DagEngine.completedStatus status = .waiting ∨ DagEngine.completedStatus status = .ready → _
        rintro (heq | heq)
        · rw [heq] at hterminal
          cases hterminal
        · rw [heq] at hterminal
          cases hterminal
      · intro _ e' he' hflight'
        obtain rfl : e = e' := Option.some.inj (he.symm.trans he')
        cases hflight'.2 _ hset hcall
      · -- The callback is the one that was to come, so only an `always` edge was met.
        intro condition _ halways
        obtain rfl := halways e he hthis
        exact ⟨hterminal, fun _ _ _ => rfl⟩
  | @skip call outcome n =>
      obtain ⟨hn, hof, hstatus⟩ := (hheld _ hmem rfl).stored n List.mem_cons_self
      have hunstarted : n.status = .waiting ∨ n.status = .ready := of_decide_eq_true hstatus
      apply h.setNode hunique hn hof (by rfl) hflight
      apply Respects.of_close
      · rcases hunstarted with heq | heq <;> rw [heq] <;> rfl
      · exact h.fresh n hn hof hunstarted
  | @giveUp call outcome n =>
      obtain ⟨hn, hof, hstatus⟩ := (hheld _ hmem rfl).stored n List.mem_cons_self
      have hwaiting : n.status = .waiting := of_decide_eq_true hstatus
      apply h.setNode hunique hn hof (by rfl) hflight
      apply Respects.of_close
      · rw [hwaiting]
        rfl
      · exact h.fresh n hn hof (.inl hwaiting)
  | @launch call outcome n =>
      obtain ⟨hn, hof, hstatus⟩ := (hheld _ hmem rfl).stored n List.mem_cons_self
      have hwaiting : n.status = .waiting := of_decide_eq_true hstatus
      apply h.setNode hunique hn hof (by rfl) hflight
      apply Respects.of_open
      · rw [hwaiting]
        rfl
      · rintro (heq | heq) <;> cases heq
      · exact nofun
      · exact fun _ => .inr (((hrelies _ hmem rfl).ready _ _ rfl n List.mem_cons_self).meets h)
  | @cancelNode call outcome row n =>
      obtain ⟨hn, hof, hstatus⟩ := (hheld _ hmem rfl).stored n List.mem_cons_self
      apply h.setNode hunique hn hof (by rfl) hflight
      apply Respects.of_open
      · exact Bool.not_eq_true' _ |>.mp hstatus
      · rintro (heq | heq) <;> cases heq
      · exact fun _ _ => rfl
      · exact .inl
  | _ => exact h.kept rfl hflight

theorem Relies.of_nothing (hchosen : t.phase.chosen = []) (hends : t.phase.ends = none) :
    Relies run finished db tags t where
  ready todo created hphase := by
    rw [hphase] at hchosen
    obtain rfl : todo = [] := hchosen
    exact List.forall_mem_nil _
  ends node hnode := by
    rw [hends] at hnode
    cases hnode

theorem Relies.kept (h : Relies run finished db tags t) (hnodes : db'.dagNodeExecutions = db.dagNodeExecutions)
    (hafter : t.phase.early = true → ∀ e, InFlight finished tags e → InFlight finished tags' e) :
    Relies run finished db' tags' t where
  ready todo created hphase n hn edge := by
    rw [hnodes]
    exact h.ready todo created hphase n hn edge
  ends node hnode := by
    obtain ⟨e, hcall, he, hthis⟩ := h.ends node hnode
    exact ⟨e, hcall, he, hafter (Phase.early_of_ends hnode) e hthis⟩

/-- What the call under way relies on after its step. -/
theorem Relies.step (hbase : Base run db tags) (hheld : Held run db tags)
    (hrelies : t.phase.idle = false → Relies run finished db tags t) (ht : tags[i]? = some t)
    (honce : ∀ e, t.call = .complete e → t.phase = .calling → InFlight finished tags e)
    (hstage : Stage run t db ev db' t') (hidle : t'.phase.idle = false) :
    Relies run finished db' (tags.set i t') t' := by
  have hmem := List.mem_of_getElem? ht
  have hunique := hbase.stored.uniqueNode
  have hlater {n : DagNodeExecution} {todo : List DagNodeExecution} {created : Option Uuid}
      (hphase : t.phase = .starting (n :: todo) created) {m : DagNodeExecution} (hid : m.id = n.id) :
      ∀ other ∈ todo, Ready run (setNode m db) other := by
    have hactive : t.phase.idle = false := by
      rw [hphase]
      rfl
    have hcurrent := hheld t hmem hactive
    rw [hphase] at hcurrent
    obtain ⟨hn, _, hstatus⟩ := hcurrent.stored n List.mem_cons_self
    have hwaiting : n.status = .waiting := of_decide_eq_true hstatus
    intro other hother
    apply ((hrelies hactive).ready _ _ hphase other (List.mem_cons_of_mem n hother)).setNode hunique hn hid
    rw [hwaiting]
    rfl
  cases hstage with
  | stay _ hsame => exact (hrelies hidle).kept hsame.nodes fun hearly e he => he.after hearly
  | retire => cases hidle
  | @find e outcome node _ hnode hexecution =>
      refine ⟨(fun _ _ h => nomatch h), ?_⟩
      rintro _ ⟨⟩
      exact ⟨e, rfl, hexecution, (honce e rfl rfl).after rfl⟩
  | observe hsame =>
      obtain ⟨_, hends⟩ := hrelies rfl
      refine ⟨(fun _ _ h => nomatch h), ?_⟩
      intro node hnode
      obtain ⟨e, hcall, he, hthis⟩ := hends node hnode
      exact ⟨e, hcall, he, hthis.after rfl⟩
  | choose =>
      refine ⟨?_, fun _ h => nomatch h⟩
      rintro _ _ ⟨⟩ n hn
      exact ready_of_newlyReady hn
  | create _ hsame =>
      refine ⟨?_, fun _ h => nomatch h⟩
      rintro _ _ ⟨⟩ n hn edge
      rw [hsame.nodes]
      exact (hrelies rfl).ready _ _ rfl n hn edge
  | giveUp | launch =>
      refine ⟨?_, fun _ h => nomatch h⟩
      rintro _ _ ⟨⟩
      exact hlater rfl rfl
  | branch | review | readCancel =>
      apply Relies.of_nothing
      · dsimp only
        split <;> rfl
      · dsimp only
        split <;> rfl
  | _ => exact .of_nothing rfl rfl

end

/-! ### Runs -/

/-- What every step of the only call under way preserves. -/
structure Serial (run : RunOf) (finished : List Uuid) (db : Db) (tags : List Tag) : Prop where
  base : Base run db tags
  held : Held run db tags
  ordered : Ordered run finished db tags
  relies : ∀ t ∈ tags, t.phase.idle = false → Relies run finished db tags t

theorem sound_serial (engine : DagEngine) (run : RunOf) (finished : List Uuid) :
    Sound (system engine run) (protocol run) (OneByOne finished) fun w tags _ =>
      Serial run finished w.db tags where
  next := rfl
  knows h ht := ⟨h.base.stored, h.base.owned _ ht⟩
  run := by
    intro c i t ev w h ht hgood hacts
    have hmem := List.mem_of_getElem? ht
    refine ⟨⟨h.base.step ht hacts, h.held.step h.base ht hgood.alone hacts, ?_, ?_⟩, trivial⟩
    · exact h.ordered.step h.base h.held h.relies ht hacts.stage
    · intro other hother hidle
      rcases mem_set_index hother with rfl | ⟨j, hj, hget⟩
      · refine Relies.step h.base h.held (h.relies t hmem) ht ?_ hacts.stage hidle
        intro e hcall hphase
        obtain ⟨call, outcome, phase⟩ := t
        obtain rfl : call = .complete e := hcall
        obtain rfl : phase = .calling := hphase
        obtain ⟨hfinished, honce⟩ := hgood.once e outcome ht
        refine ⟨hfinished, ?_⟩
        intro other hother hcall
        obtain ⟨j, hget⟩ := List.mem_iff_getElem?.mp hother
        by_cases hij : j = i
        · subst hij
          obtain rfl := Option.some.inj (ht.symm.trans hget)
          rfl
        · rw [honce j other hij hget hcall]
          rfl
      · rw [hgood.alone j other hj hget] at hidle
        cases hidle
  spawn := by
    intro w tags trace call w' th h hspawn
    simp only [system] at hspawn
    split at hspawn
    · rename_i hof
      cases hspawn
      have hbefore : ∀ e, InFlight finished (tags ++ [⟨call, none, .calling⟩]) e → InFlight finished tags e :=
        fun e he => ⟨he.1, fun other hother => he.2 other (List.mem_append_left _ hother)⟩
      have hafter : ∀ e, InFlight finished tags e → InFlight finished (tags ++ [⟨call, none, .calling⟩]) e := by
        intro e he
        refine ⟨he.1, ?_⟩
        intro other hother hcall
        rcases List.mem_append.mp hother with hold | hlast
        · exact he.2 other hold hcall
        · rw [List.mem_singleton.mp hlast]
          rfl
      refine ⟨⟨h.base.spawn (Call.ofRun_iff.mp hof) engine, ?_, ?_, ?_⟩, trivial, obeys_thread engine call⟩
      · rw [tag_thread]
        exact h.held.spawn call
      · rw [tag_thread]
        exact h.ordered.kept rfl hbefore
      · rw [tag_thread]
        intro other hother hidle
        rcases List.mem_append.mp hother with hold | hlast
        · exact (h.relies other hold hidle).kept rfl fun _ => hafter
        · rw [List.mem_singleton.mp hlast] at hidle
          cases hidle
    · cases hspawn
  env := by
    intro w tags trace change h
    have hsame := sameDags_elsewhere change w
    refine ⟨⟨h.base.elsewhere change, h.held.of_same hsame, h.ordered.kept hsame.nodes fun _ => id, ?_⟩, trivial⟩
    exact fun t ht hidle => (h.relies t ht hidle).kept hsame.nodes fun _ _ => id

/-- Along every run of one call at a time, a node that has an execution has only upstream nodes that have
ended and meet the conditions of the edges. -/
theorem dependencies_met (engine : DagEngine) (run : RunOf) (finished : List Uuid) {w : World}
    (hstored : run.Stored w.db) (hstarted : Started run finished w.db) {c : Config Event World Tag}
    (hrun : (system engine run).Run (OneByOne finished) (initial w) c) :
    ∀ node ∈ nodesOfRun run.id c.world.db, node.executionId ≠ none → ∀ edge ∈ run.edges,
      edge.downstreamJobId = node.jobId → ∃ up ∈ nodesOfRun run.id c.world.db,
        up.jobId = edge.upstreamJobId ∧ up.status.isTerminal = true ∧ up.status ∈ edge.condition.meeting := by
  have hordered : Ordered run finished w.db [] := by
    refine ⟨?_, ?_, ?_⟩
    · intro node hnode hof hstatus
      by_contra hexecution
      obtain ⟨_, hwaiting, hready⟩ := hstarted.roots node hnode hof hexecution
      exact hstatus.elim hwaiting hready
    · exact fun node hnode hof hterminal e he hflight => hstarted.closed node hnode hof hterminal e he hflight.1
    · intro node hnode hof hexecution edge hedge hdown
      exact absurd (List.mem_map.mpr ⟨edge, hedge, hdown⟩) (hstarted.roots node hnode hof hexecution).1
  have hinit : Sound.Holds (protocol run) (fun w tags _ => Serial run finished w.db tags) (initial w) :=
    ⟨⟨.initial hstored, List.forall_mem_nil _, hordered, List.forall_mem_nil _⟩, List.forall_mem_nil _⟩
  obtain ⟨hserial, _⟩ := (sound_serial engine run finished).invariant hrun hinit
  intro node hnode hexecution edge hedge hdown
  obtain ⟨hrow, hof⟩ := mem_nodesOfRun.mp hnode
  obtain ⟨up, hup, hupOf, hjob, hmet, _⟩ := hserial.ordered.met node hrow hof hexecution edge hedge hdown
  exact ⟨up, mem_nodesOfRun.mpr ⟨hup, hupOf⟩, hjob, DagEngine.isTerminal_of_satisfied hmet,
    DagEngine.satisfied_iff.mp hmet⟩

/-! ### A join -/

theorem joinWorld_started : Started joinRun [] joinWorld.db where
  roots := by decide
  closed node hnode _ hterminal := by
    have hopen : ∀ node ∈ joinWorld.db.dagNodeExecutions, node.status.isTerminal = false := by decide
    rw [hopen node hnode] at hterminal
    cases hterminal

/-- Job 3 starts after both calls. -/
theorem dependencies_met_join : ∃ c, (system .sample joinRun).Run (OneByOne []) (initial joinWorld) c ∧
    (nodesOfRun 10 c.world.db).map DagNodeExecution.executionId = [some 7, some 8, some 1000] ∧
      ∀ node ∈ nodesOfRun 10 c.world.db, node.executionId ≠ none → ∀ edge ∈ joinRun.edges,
        edge.downstreamJobId = node.jobId → ∃ up ∈ nodesOfRun 10 c.world.db,
          up.jobId = edge.upstreamJobId ∧ up.status.isTerminal = true ∧ up.status ∈ edge.condition.meeting := by
  have hexec : ((system .sample joinRun).exec (oneByOne [])
      ([.spawn (.complete 7), .spawn (.complete 8)] ++ List.replicate 13 (.run 0) ++ List.replicate 29 (.run 1))
        (initial joinWorld)).map (fun c => (nodesOfRun 10 c.world.db).map DagNodeExecution.executionId) =
          some [some 7, some 8, some 1000] := rfl
  obtain ⟨c, hc, heq⟩ := Option.map_eq_some_iff.mp hexec
  have hrun := System.run_of_exec (fun _ _ _ => oneByOne_of_check) hc
  exact ⟨c, hrun, heq, dependencies_met .sample joinRun [] joinWorld_stored joinWorld_started hrun⟩

end DagCalls

end Serverust
