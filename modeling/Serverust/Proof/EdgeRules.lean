import Serverust.Proof.AddEdge

/-!
# Which edges are added

`add_edge` alone, on a DAG whose edges form no cycle. The new edge closes one exactly when a path runs
from its end to its start, and the other refusals are one check or one constraint each.
-/

namespace Serverust

open Calendar Resumption

namespace EdgeRules

/-- What a request has to meet. -/
structure Accepts (dagId : Uuid) (req : AddEdgeRequest) (db : Db) : Prop where
  dag : ∃ dag ∈ db.dags, dag.id = dagId
  upstream : ∃ job ∈ db.jobs, job.id = req.upstreamJobId
  downstream : ∃ job ∈ db.jobs, job.id = req.downstreamJobId
  differ : req.upstreamJobId ≠ req.downstreamJobId
  condition : req.condition ∈ [EdgeCondition.success, .failure, .always, .skipped]
  pair : ¬ Leads (edgesOf dagId db) req.upstreamJobId req.downstreamJobId
  path : ¬ Relation.ReflTransGen (Leads (edgesOf dagId db)) req.downstreamJobId req.upstreamJobId

/-- The row that a request asks for. -/
def requested (dagId : Uuid) (req : AddEdgeRequest) (w : World) : DagEdge :=
  .new w.nextUuid dagId req.upstreamJobId req.downstreamJobId req.condition (toRfc3339 w.now)

/-- A refusal leaves the tables, success adds the row and returns it. -/
structure Outcome (dagId : Uuid) (req : AddEdgeRequest) (w : World) (r : Except AppError DagEdge)
    (w' : World) : Prop where
  accepts : (∃ edge, r = .ok edge) ↔ Accepts dagId req w.db
  added : ∀ edge, r = .ok edge → edge = requested dagId req w ∧
    w'.db = { w.db with dagEdges := w.db.dagEdges ++ [edge] }
  refused : ∀ e, r = .error e → w'.db = w.db

section

variable {dagId : Uuid} {req : AddEdgeRequest} {w u : World}

theorem Outcome.of_error {e : AppError} (hdb : u.db = w.db) (hnot : ¬ Accepts dagId req w.db) :
    Outcome dagId req w (.error e) u where
  accepts := by
    constructor
    · rintro ⟨_, h⟩
      cases h
    · exact fun h => absurd h hnot
  added _ h := nomatch h
  refused _ _ := hdb

theorem acyclic_append {edges : List DagEdge} (edge : DagEdge) (hacyclic : Acyclic.On (Leads edges)) :
    Acyclic.On (Leads (edges ++ [edge])) ↔
      ¬ Relation.ReflTransGen (Leads edges) edge.downstreamJobId edge.upstreamJobId := by
  constructor
  · intro h hreaches
    have hsub : Leads edges ≤ Leads (edges ++ [edge]) :=
      fun _ _ hleads => EdgeCalls.leads_append.mpr (.inl hleads)
    apply h.not_reaches (EdgeCalls.leads_append.mpr (.inr ⟨rfl, rfl⟩))
    exact Relation.ReflTransGen.mono hsub _ _ hreaches
  · intro hno
    apply hacyclic.extend (a := edge.upstreamJobId) (b := edge.downstreamJobId)
    · intro u v hleads
      rcases EdgeCalls.leads_append.mp hleads with hold | ⟨rfl, rfl⟩
      · exact .inl hold
      · exact .inr ⟨rfl, rfl⟩
    · exact hno

theorem run_getById (hfault : w.fault = none) (id : Uuid) : (DagRepository.getById id).run w =
    some (match Rows.lookup Dag.id id w.db.dags with
      | some dag => .ok dag
      | none => .error (.notFound ("DAG not found: " ++ id.text)), w) := by
  simp only [DagRepository.getById, Task.run_bind, run_select hfault]
  cases Rows.lookup Dag.id id w.db.dags with
  | none => rfl
  | some dag => rfl

theorem run_getEdgeById (hfault : w.fault = none) {edge : DagEdge}
    (hedge : Rows.lookup DagEdge.id edge.id w.db.dagEdges = some edge) :
    (DagRepository.getEdgeById edge.id).run w = some (.ok edge, w) := by
  simp only [DagRepository.getEdgeById, Task.run_bind, run_select hfault, hedge, run_okOr_some]

theorem run_createEdge (hfault : w.fault = none) {edge : DagEdge} (h : edge.Insertable w.db) :
    (DagRepository.createEdge edge).run w =
      some (.ok edge, { w with db := { w.db with dagEdges := w.db.dagEdges ++ [edge] } }) := by
  have hlookup : Rows.lookup DagEdge.id edge.id (w.db.dagEdges ++ [edge]) = some edge := by
    rw [Rows.lookup, List.find?_append]
    have hnone : w.db.dagEdges.find? (fun row => row.id = edge.id) = none := Rows.lookup_eq_none.mpr h.id
    rw [hnone]
    simp
  simp only [DagRepository.createEdge, Task.run_bind, run_sql hfault,
    DagRepository.insertEdge_eq_ok.mpr ⟨h, rfl⟩]
  exact run_getEdgeById (w := { w with db := { w.db with dagEdges := w.db.dagEdges ++ [edge] } }) hfault hlookup

theorem run_createEdge_error (hfault : w.fault = none) {edge : DagEdge} (h : ¬ edge.Insertable w.db) :
    ∃ e, (DagRepository.createEdge edge).run w = some (.error e, w) := by
  cases hinsert : DagRepository.insertEdge edge w.db with
  | ok r => exact absurd (DagRepository.insertEdge_eq_ok.mp hinsert).1 h
  | error e =>
      refine ⟨DagRepository.edgeError e, ?_⟩
      simp only [DagRepository.createEdge, Task.run_bind, run_sql hfault, hinsert]

theorem insertable_iff (hfresh : ∀ row ∈ w.db.dagEdges, row.id ≠ w.nextUuid) :
    (requested dagId req w).Insertable w.db ↔
      (∃ dag ∈ w.db.dags, dag.id = dagId) ∧ (∃ job ∈ w.db.jobs, job.id = req.upstreamJobId) ∧
      (∃ job ∈ w.db.jobs, job.id = req.downstreamJobId) ∧
      ¬ Leads (edgesOf dagId w.db) req.upstreamJobId req.downstreamJobId := by
  rw [EdgeCalls.leads_edgesOf]
  constructor
  · intro h
    refine ⟨h.dag, h.upstream, h.downstream, ?_⟩
    rintro ⟨row, hrow, hdag, hupstream, hdownstream⟩
    exact h.pair row hrow hdag hupstream hdownstream
  · rintro ⟨hdag, hupstream, hdownstream, hpair⟩
    exact ⟨hfresh, fun row hrow h₁ h₂ h₃ => hpair ⟨row, hrow, h₁, h₂, h₃⟩, hdag, hupstream, hdownstream⟩

theorem validate_ne_error (hash : HashOrder) (hacyclic : Acyclic.On (Leads (edgesOf dagId w.db)))
    (hno : ¬ Relation.ReflTransGen (Leads (edgesOf dagId w.db)) req.downstreamJobId req.upstreamJobId)
    {e : AppError} :
    DagService.validateNoCycles hash (edgesOf dagId w.db ++ [requested dagId req w]) ≠ .error e := by
  have hextended : Acyclic.On (Leads (edgesOf dagId w.db ++ [requested dagId req w])) :=
    (acyclic_append (requested dagId req w) hacyclic).mpr hno
  obtain ⟨sorted, hsorted⟩ := DagService.validate_of_acyclic hash hextended
  rw [hsorted]
  simp

/-- What is left to the constraints once the checks have passed. -/
theorem run_insert (hfault : w.fault = none) (hfresh : ∀ row ∈ w.db.dagEdges, row.id ≠ w.nextUuid)
    (hdiffer : req.upstreamJobId ≠ req.downstreamJobId)
    (hcondition : req.condition ∈ [EdgeCondition.success, .failure, .always, .skipped])
    (hpath : ¬ Relation.ReflTransGen (Leads (edgesOf dagId w.db)) req.downstreamJobId req.upstreamJobId) :
    ∃ r w', (DagRepository.createEdge (requested dagId req w)).run { w with nextUuid := w.nextUuid + 1 } =
      some (r, w') ∧ Outcome dagId req w r w' := by
  have hiff : (requested dagId req w).Insertable w.db ↔ Accepts dagId req w.db := by
    rw [insertable_iff hfresh]
    constructor
    · rintro ⟨hdag, hupstream, hdownstream, hpair⟩
      exact ⟨hdag, hupstream, hdownstream, hdiffer, hcondition, hpair, hpath⟩
    · exact fun h => ⟨h.dag, h.upstream, h.downstream, h.pair⟩
  by_cases h : (requested dagId req w).Insertable w.db
  · refine ⟨_, _, run_createEdge (w := { w with nextUuid := w.nextUuid + 1 }) hfault h, ?_, ?_, ?_⟩
    · exact ⟨fun _ => hiff.mp h, fun _ => ⟨_, rfl⟩⟩
    · intro edge hedge
      cases hedge
      exact ⟨rfl, rfl⟩
    · intro e he
      cases he
  · obtain ⟨e, he⟩ := run_createEdge_error (w := { w with nextUuid := w.nextUuid + 1 }) hfault h
    exact ⟨_, _, he, .of_error rfl fun haccepts => h (hiff.mpr haccepts)⟩

end

/-- The checks and the constraints together ask exactly what a request has to meet. -/
theorem addEdge_accepts (hash : HashOrder) (dagId : Uuid) (req : AddEdgeRequest) {w : World}
    (hfault : w.fault = none) (hfresh : ∀ row ∈ w.db.dagEdges, row.id ≠ w.nextUuid)
    (hacyclic : Acyclic.On (Leads (edgesOf dagId w.db))) :
    ∃ r w', (DagService.addEdge hash dagId req).run w = some (r, w') ∧ Outcome dagId req w r w' := by
  simp only [DagService.addEdge, Task.run_bind, run_getById hfault]
  cases hdag : Rows.lookup Dag.id dagId w.db.dags with
  | none =>
      refine ⟨_, _, rfl, .of_error rfl ?_⟩
      rintro ⟨⟨dag, hmem, hid⟩, _⟩
      exact Rows.lookup_eq_none.mp hdag dag hmem hid
  | some dag =>
      dsimp only
      by_cases hdiffer : req.upstreamJobId = req.downstreamJobId
      · rw [if_pos hdiffer]
        exact ⟨_, _, rfl, .of_error rfl fun h => h.differ hdiffer⟩
      · rw [if_neg hdiffer]
        cases hcondition : req.condition with
        | other text =>
            refine ⟨_, _, rfl, .of_error rfl fun h => ?_⟩
            have hmem := h.condition
            rw [hcondition] at hmem
            simp at hmem
        | success | failure | always | skipped =>
            have hmem : req.condition ∈ [EdgeCondition.success, .failure, .always, .skipped] := by
              rw [hcondition]
              decide
            simp only [Task.run_bind, run_newV4, run_nowRfc3339, DagRepository.getEdgesByDagId,
              run_select (w := { w with nextUuid := w.nextUuid + 1 }) hfault]
            rw [← hcondition]
            split
            · rename_i e hvalid
              refine ⟨_, _, rfl, .of_error rfl fun h => ?_⟩
              exact (validate_ne_error hash hacyclic h.path) hvalid
            · rename_i sorted hvalid
              have hpath := (acyclic_append _ hacyclic).mp (DagService.acyclic_of_validate hvalid)
              exact run_insert hfault hfresh hdiffer hmem hpath

/-! ### A chain of three jobs -/

/-- Job 3 depends on job 2, and job 2 on job 1. -/
def chainWorld : World :=
  .start { Db.sampleDag with
    jobs := [.sample 0, { Job.sample 0 with id := 2 }, { Job.sample 0 with id := 3 }]
    dagEdges := [.sample, { DagEdge.sample with id := 7, upstreamJobId := 2, downstreamJobId := 3 }] } epoch 1000

theorem chainWorld_acyclic : Acyclic.On (Leads (edgesOf 5 chainWorld.db)) := by
  have hforward : ∀ edge ∈ edgesOf 5 chainWorld.db, edge.upstreamJobId < edge.downstreamJobId := by decide
  apply Acyclic.on_of_rank id
  rintro a b ⟨edge, hedge, rfl, rfl⟩
  exact hforward edge hedge

/-- Job 3 may depend on job 1 too. -/
theorem addEdge_accepts_chain :
    ∃ r w', (DagService.addEdge .unchanged 5 ⟨1, 3, .success⟩).run chainWorld = some (r, w') ∧
      Outcome 5 ⟨1, 3, .success⟩ chainWorld r w' :=
  addEdge_accepts .unchanged 5 ⟨1, 3, .success⟩ rfl (by decide) chainWorld_acyclic

-- The other way around, the edge would close a cycle.
example : ((DagService.addEdge .unchanged 5 ⟨1, 3, .success⟩).run chainWorld).map (·.1.toBool) = some true ∧
    ((DagService.addEdge .unchanged 5 ⟨3, 1, .success⟩).run chainWorld).map (·.1.toBool) = some false := ⟨rfl, rfl⟩

end EdgeRules

end Serverust
