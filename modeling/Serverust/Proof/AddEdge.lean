import Serverust.Library.Pool
import Serverust.Model.DagEdges
import Serverust.Proof.Background
import Serverust.Proof.Kahn

/-!
# Adding edges, interleaved

Any number of `add_edge` and `delete_edge` calls, cut at their statements. A call that adds an edge has
checked the edges it read. Edges added since then are not among them, and with those the new edge can
close a cycle.
-/

namespace Serverust

open Resumption

/-- What the constraints of the table ask of a new row. -/
structure DagEdge.Insertable (edge : DagEdge) (db : Db) : Prop where
  id : ∀ row ∈ db.dagEdges, row.id ≠ edge.id
  pair : ∀ row ∈ db.dagEdges, row.dagId = edge.dagId → row.upstreamJobId = edge.upstreamJobId →
    row.downstreamJobId ≠ edge.downstreamJobId
  dag : ∃ dag ∈ db.dags, dag.id = edge.dagId
  upstream : ∃ job ∈ db.jobs, job.id = edge.upstreamJobId
  downstream : ∃ job ∈ db.jobs, job.id = edge.downstreamJobId

theorem DagRepository.insertEdge_eq_ok {edge : DagEdge} {db : Db} {r : Unit × Db} :
    insertEdge edge db = .ok r ↔
      edge.Insertable db ∧ r = ((), { db with dagEdges := db.dagEdges ++ [edge] }) := by
  constructor
  · intro h
    simp only [insertEdge, Rows.hits_eq_zero, List.any_eq_true, decide_eq_true_eq, ne_eq] at h
    split at h
    · cases h
    · rename_i hid
      split at h
      · cases h
      · rename_i hpair
        split at h
        · cases h
        · rename_i hdag
          split at h
          · cases h
          · rename_i hupstream
            split at h
            · cases h
            · rename_i hdownstream
              push Not at hid hpair hdag hupstream hdownstream
              exact ⟨⟨hid, hpair, hdag, hupstream, hdownstream⟩, (Except.ok.inj h).symm⟩
  · rintro ⟨h, rfl⟩
    have hpair : ¬ db.dagEdges.any (fun row => row.dagId = edge.dagId ∧
        row.upstreamJobId = edge.upstreamJobId ∧ row.downstreamJobId = edge.downstreamJobId) := by
      simp only [List.any_eq_true, decide_eq_true_eq]
      rintro ⟨row, hrow, hdag, hupstream, hdownstream⟩
      exact h.pair row hrow hdag hupstream hdownstream
    rw [insertEdge, if_neg (not_not.mpr (Rows.hits_eq_zero.mpr h.id)), if_neg hpair,
      if_neg (Rows.hits_ne_zero.mpr h.dag), if_neg (Rows.hits_ne_zero.mpr h.upstream),
      if_neg (Rows.hits_ne_zero.mpr h.downstream)]

namespace EdgeCalls

/-- What a call has read: nothing, or the edges it checks. -/
inductive Phase where
  | calling
  | read (edges : List DagEdge)
deriving DecidableEq

def Phase.next (phase : Phase) : Event → Phase
  | .sql (.dag (.getEdges _ edges)) => .read edges
  | _ => phase

/-- Events that leave the edges as they are. -/
def Plain : Event → Prop
  | .sql (.dag (.createEdge _)) | .sql (.dag (.deleteEdge _)) => False
  | _ => True

/-- What a call may do to the edges in one action. -/
inductive Acts : Phase → Event → List DagEdge → List DagEdge → Prop
  | plain {phase ev rows} (hev : Plain ev) : Acts phase ev rows rows
  | create {edges edge rows} (hchecked : Acyclic.On (Leads (edges ++ [edge]))) :
      Acts (.read edges) (.sql (.dag (.createEdge edge))) rows (rows ++ [edge])
  | delete {phase id rows} :
      Acts phase (.sql (.dag (.deleteEdge id))) rows (Rows.remove DagEdge.id id rows)

def protocol : Protocol Event World Phase where
  next := Phase.next
  knows _ _ := True
  grows _ _ := True
  allows phase ev u v := Acts phase ev u.db.dagEdges v.db.dagEdges

instance : protocol.Lawful := ⟨fun _ => trivial, fun _ _ => trivial⟩

/-! ### The programs -/

section

variable {phase : Phase} {w : World} {α : Type}

theorem tolerates : Tolerates protocol phase := by
  intro u v ev _ hev _ _ hdags
  have hplain : Plain ev ∧ phase.next ev = phase := by
    cases ev with
    | sql stmt =>
        cases stmt with
        | dag stmt => cases hev
        | _ => exact ⟨trivial, rfl⟩
    | _ => exact ⟨trivial, rfl⟩
  refine ⟨?_, hplain.2, trivial⟩
  show Acts phase ev u.db.dagEdges v.db.dagEdges
  rw [hdags.dagEdges]
  exact .plain hplain.1

theorem keeps_read {stmt : α → Stmt} {read : Db → α} (hplain : ∀ value, Plain (.sql (stmt value)))
    (hnext : ∀ value, phase.next (.sql (stmt value)) = phase) :
    Task.Keeps protocol (fun _ => True) phase (select stmt read) := by
  apply keeps_sql tolerates
  intro u value db _ hquery
  cases (query_ok hquery).2
  exact ⟨.plain (hplain _), hnext _, trivial, trivial⟩

theorem keeps_getById (id : Uuid) :
    Task.Keeps protocol (fun _ => True) phase (DagRepository.getById id) := by
  apply Task.Keeps.bind (φ := fun _ => True)
  · exact keeps_read (fun _ => trivial) fun _ => rfl
  · exact fun _ _ => keeps_okOr fun _ _ => trivial

theorem keeps_getEdgeById (id : Uuid) :
    Task.Keeps protocol (fun _ => True) phase (DagRepository.getEdgeById id) := by
  apply Task.Keeps.bind (φ := fun _ => True)
  · exact keeps_read (fun _ => trivial) fun _ => rfl
  · exact fun _ _ => keeps_okOr fun _ _ => trivial

theorem obeys_getEdges (dagId : Uuid) :
    Task.Obeys protocol (fun edges phase _ => phase = .read edges) (fun _ _ _ => True)
      (DagRepository.getEdgesByDagId dagId) .calling w := by
  unfold DagRepository.getEdgesByDagId select
  apply obeys_sql
  · intro u edges db _ _ hquery
    cases (query_ok hquery).2
    exact ⟨.plain trivial, rfl⟩
  · intro u e _ _ _
    exact ⟨.plain trivial, trivial⟩

theorem obeys_createEdge {edges : List DagEdge} {edge : DagEdge}
    (hchecked : Acyclic.On (Leads (edges ++ [edge]))) :
    Task.Obeys protocol (fun _ _ _ => True) (fun _ _ _ => True) (DagRepository.createEdge edge) (.read edges) w := by
  apply Task.obeys_bind.mpr
  apply obeys_sql
  · intro u value db _ _ hquery
    obtain ⟨-, hdb⟩ := DagRepository.insertEdge_eq_ok.mp (query_ok hquery).2
    cases hdb
    refine ⟨.create hchecked, ?_⟩
    apply (keeps_getEdgeById edge.id _).mono
    · exact fun _ _ _ _ => trivial
    · exact fun _ _ _ _ => trivial
  · intro u e _ _ _
    exact ⟨.plain trivial, trivial⟩

theorem obeys_addEdge (hash : HashOrder) (dagId : Uuid) (req : AddEdgeRequest) :
    Task.Obeys protocol (fun _ _ _ => True) (fun _ _ _ => True) (DagService.addEdge hash dagId req) .calling w := by
  apply (keeps_getById dagId).bind_obeys _ fun _ _ _ => trivial
  intro _ u _ _
  split
  · trivial
  · split
    · trivial
    · apply (keeps_newV4 tolerates).bind_obeys _ fun _ _ _ => trivial
      intro id u _ _
      apply (keeps_nowRfc3339 tolerates).bind_obeys _ fun _ _ _ => trivial
      intro now u _ _
      apply (obeys_getEdges dagId).bind
      rintro edges _ u rfl
      split
      · trivial
      · exact obeys_createEdge (DagService.acyclic_of_validate ‹_›)

theorem obeys_deleteEdge (dagId edgeId : Uuid) :
    Task.Obeys protocol (fun _ _ _ => True) (fun _ _ _ => True) (DagService.deleteEdge dagId edgeId) phase w := by
  apply (keeps_getEdgeById edgeId).bind_obeys _ fun _ _ _ => trivial
  intro edge u _ _
  split
  · trivial
  · apply Task.obeys_bind.mpr
    apply obeys_sql
    · intro u affected db _ _ hquery
      cases (query_ok hquery).2
      refine ⟨.delete, ?_⟩
      split <;> trivial
    · intro u e _ _ _
      exact ⟨.plain trivial, trivial⟩

end

/-! ### Runs -/

inductive Call where
  | add (hash : HashOrder) (dagId : Uuid) (req : AddEdgeRequest)
  | delete (dagId edgeId : Uuid)

def Call.thread : Call → Thread Event World Phase
  | .add hash dagId req => ⟨.calling, (DagService.addEdge hash dagId req).detached .returned⟩
  | .delete dagId edgeId => ⟨.calling, (DagService.deleteEdge dagId edgeId).detached .returned⟩

/-- Anything may happen to the rest of the state. -/
def elsewhere (change w : World) : World :=
  { change with db := { change.db with dagEdges := w.db.dagEdges } }

def system : System Event World Phase Call World where
  next := Phase.next
  spawn call w := some (w, call.thread)
  env := elsewhere

def initial (w : World) : Config Event World Phase := ⟨w, [], []⟩

/-- An edge of the DAG is added only if the stored edges do not lead from its end to its start, unless
those that its call has read do. -/
def Fresh (dagId : Uuid) (c : Config Event World Phase) (i : Nat) (ev : Event) : Prop :=
  ∀ edge edges, ev = .sql (.dag (.createEdge edge)) → edge.dagId = dagId → c.tags[i]? = some (.read edges) →
    Relation.ReflTransGen (Leads (edgesOf dagId c.world.db)) edge.downstreamJobId edge.upstreamJobId →
      Relation.ReflTransGen (Leads edges) edge.downstreamJobId edge.upstreamJobId

/-- What leads where in a DAG, over the rows of all DAGs. -/
def LeadsIn (dagId : Uuid) (rows : List DagEdge) (a b : Uuid) : Prop :=
  ∃ edge ∈ rows, edge.dagId = dagId ∧ edge.upstreamJobId = a ∧ edge.downstreamJobId = b

section

variable {dagId : Uuid}

theorem leads_edgesOf (db : Db) : Leads (edgesOf dagId db) = LeadsIn dagId db.dagEdges := by
  funext a b
  simp [Leads, LeadsIn, edgesOf, and_assoc]

theorem leads_append {edges : List DagEdge} {edge : DagEdge} {a b : Uuid} :
    Leads (edges ++ [edge]) a b ↔ Leads edges a b ∨ edge.upstreamJobId = a ∧ edge.downstreamJobId = b := by
  simp [Leads, or_and_right, exists_or]

/-- What one action does to an acyclic DAG. -/
theorem Acts.acyclic {phase : Phase} {ev : Event} {rows rows' : List DagEdge} (hacts : Acts phase ev rows rows')
    (hgood : ∀ edge edges, ev = .sql (.dag (.createEdge edge)) → edge.dagId = dagId → phase = .read edges →
      Relation.ReflTransGen (LeadsIn dagId rows) edge.downstreamJobId edge.upstreamJobId →
        Relation.ReflTransGen (Leads edges) edge.downstreamJobId edge.upstreamJobId)
    (h : Acyclic.On (LeadsIn dagId rows)) : Acyclic.On (LeadsIn dagId rows') := by
  cases hacts with
  | plain hev => exact h
  | @create edges edge _ hchecked =>
      by_cases hdag : edge.dagId = dagId
      · apply h.extend
        · rintro u v ⟨row, hrow, hof, rfl, rfl⟩
          rcases List.mem_append.mp hrow with hold | hnew
          · exact .inl ⟨row, hold, hof, rfl, rfl⟩
          · rw [List.mem_singleton.mp hnew]
            exact .inr ⟨rfl, rfl⟩
        · intro hreaches
          -- The edges read lead back too, so the check has seen the cycle.
          have hread := hgood edge edges rfl hdag rfl hreaches
          have hsub : Leads edges ≤ Leads (edges ++ [edge]) := fun _ _ hleads => leads_append.mpr (.inl hleads)
          apply hchecked.not_reaches (leads_append.mpr (.inr ⟨rfl, rfl⟩))
          exact Relation.ReflTransGen.mono hsub _ _ hread
      · apply h.mono
        rintro u v ⟨row, hrow, hof, rfl, rfl⟩
        rcases List.mem_append.mp hrow with hold | hnew
        · exact ⟨row, hold, hof, rfl, rfl⟩
        · rw [List.mem_singleton.mp hnew] at hof
          exact absurd hof hdag
  | delete =>
      apply h.mono
      rintro u v ⟨row, hrow, hof, rfl, rfl⟩
      exact ⟨row, (Rows.mem_remove.mp hrow).1, hof, rfl, rfl⟩

theorem sound_acyclic (dagId : Uuid) :
    Sound system protocol (Fresh dagId) fun w _ _ => Acyclic.On (LeadsIn dagId w.db.dagEdges) where
  next := rfl
  knows _ _ := trivial
  run := by
    intro c i phase ev w h ht hgood hacts
    refine ⟨Acts.acyclic hacts ?_ h, trivial⟩
    rintro edge edges hev hdag rfl hreaches
    apply hgood edge edges hev hdag ht
    rw [leads_edgesOf]
    exact hreaches
  spawn := by
    intro w tags trace call w' th h hspawn
    cases hspawn
    refine ⟨h, trivial, ?_⟩
    cases call with
    | add hash dagId req =>
        exact (obeys_addEdge hash dagId req).detached (fun _ _ _ _ _ _ _ => .plain trivial)
          fun _ _ _ _ _ _ _ => .plain trivial
    | delete dagId edgeId =>
        exact (obeys_deleteEdge dagId edgeId).detached (fun _ _ _ _ _ _ _ => .plain trivial)
          fun _ _ _ _ _ _ _ => .plain trivial
  env change h := ⟨h, trivial⟩

end

/-- Along every run in which no edge is added that closes a cycle over edges its call has not read, the
edges of the DAG stay acyclic. -/
theorem edges_acyclic (dagId : Uuid) {w : World} (h : Acyclic.On (Leads (edgesOf dagId w.db)))
    {c : Config Event World Phase} (hrun : system.Run (Fresh dagId) (initial w) c) :
    Acyclic.On (Leads (edgesOf dagId c.world.db)) := by
  rw [leads_edgesOf] at h ⊢
  exact ((sound_acyclic dagId).invariant hrun ⟨h, List.forall_mem_nil _⟩).1

/-! ### Two calls on a DAG without edges -/

/-- Jobs 1 and 2, and the DAG 5. -/
def bareWorld : World := .start { Db.sampleDag with dagEdges := [] } Calendar.epoch 1000

/-- The call that makes one job depend on the other. -/
def addSample (upstream downstream : Uuid) : Call := .add .unchanged 5 ⟨upstream, downstream, .success⟩

/-- The stored edges, as pairs of jobs. -/
def pairs (c : Config Event World Phase) : List (Uuid × Uuid) :=
  c.world.db.dagEdges.map fun edge => (edge.upstreamJobId, edge.downstreamJobId)

/-- Every stored edge of the DAG is among those the call has read. -/
def upToDate (dagId : Uuid) (c : Config Event World Phase) (i : Nat) (ev : Event) : Bool :=
  match c.tags[i]?, ev with
  | some (.read edges), .sql (.dag (.createEdge _)) => (edgesOf dagId c.world.db).all fun edge => edge ∈ edges
  | _, _ => true

theorem fresh_of_check {dagId : Uuid} {c : Config Event World Phase} {i : Nat} {ev : Event}
    (h : upToDate dagId c i ev = true) : Fresh dagId c i ev := by
  rintro edge edges rfl _ ht hreaches
  simp only [upToDate, ht, List.all_eq_true, decide_eq_true_eq] at h
  have hsub : Leads (edgesOf dagId c.world.db) ≤ Leads edges := by
    rintro _ _ ⟨row, hrow, rfl, rfl⟩
    exact ⟨row, h row hrow, rfl, rfl⟩
  exact Relation.ReflTransGen.mono hsub _ _ hreaches

theorem bareWorld_acyclic : Acyclic.On (Leads (edgesOf 5 bareWorld.db)) := by
  apply Acyclic.on_of_rank id
  rintro a b ⟨edge, hedge, _⟩
  cases hedge

/-- Job 2 depends on job 1 before the second call reads the edges, and is refused. -/
theorem edges_acyclic_in_turn : ∃ c, system.Run (Fresh 5) (initial bareWorld) c ∧ pairs c = [(1, 2)] ∧
    Acyclic.On (Leads (edgesOf 5 c.world.db)) := by
  have hexec : (system.exec (upToDate 5) ([.spawn (addSample 1 2)] ++ List.replicate 7 (.run 0) ++
      [.spawn (addSample 2 1)] ++ List.replicate 5 (.run 1)) (initial bareWorld)).map pairs =
        some [(1, 2)] := rfl
  obtain ⟨c, hc, heq⟩ := Option.map_eq_some_iff.mp hexec
  have hrun := System.run_of_exec (fun _ _ _ => fresh_of_check) hc
  exact ⟨c, hrun, heq, edges_acyclic 5 bareWorld_acyclic hrun⟩

/-- Both calls read the edges before either adds its own. -/
theorem cycle_added : ¬ ∀ c, system.Reaches (initial bareWorld) c →
    Acyclic.On (Leads (edgesOf 5 c.world.db)) := by
  intro hclaim
  have hexec : (system.exec (fun _ _ _ => true) ([.spawn (addSample 1 2), .spawn (addSample 2 1)] ++
      List.replicate 4 (.run 0) ++ List.replicate 5 (.run 1) ++ [.run 0]) (initial bareWorld)).map
        (fun c => (edgesOf 5 c.world.db).map fun edge => (edge.upstreamJobId, edge.downstreamJobId)) =
          some [(2, 1), (1, 2)] := rfl
  obtain ⟨c, hc, heq⟩ := Option.map_eq_some_iff.mp hexec
  have hleads (a b : Uuid) (hmem : (a, b) ∈ [((2 : Uuid), (1 : Uuid)), (1, 2)]) :
      Leads (edgesOf 5 c.world.db) a b := by
    rw [← heq] at hmem
    obtain ⟨edge, hedge, hpair⟩ := List.mem_map.mp hmem
    cases hpair
    exact ⟨edge, hedge, rfl, rfl⟩
  exact hclaim c (System.reaches_of_exec hc) 1 (.tail (.single (hleads 1 2 (by decide))) (hleads 2 1 (by decide)))

end EdgeCalls

end Serverust
