import Serverust.Proof.DeliveryRuns
import Serverust.Proof.OrphanTasks

/-!
# No orphaned execution

The requests, ticks, triggers, workers, sleeping tasks and the recovery run interleaved, any statement may
fail, and the process may stop at any point and start again on its tables. A pending execution keeps its
entry as long as no task fails or stops between the two statements of a gap.
-/

namespace Serverust

namespace Orphans

open Calendar Resumption
open Deliveries (Process ignoring worldOf)

/-! ### The process -/

inductive Call where
  | executeJob (jobId : Uuid) (req : Option ExecuteJobRequest)
  | retryExecution (id : Uuid)
  | tick
  | triggerDag (dagId : Uuid) (triggerType : String)
  | pass (workerId : Nat) (result : QueueItem → ExecutionResult)
  | requeue (index : Nat)
  | recover

def Call.start (proc : Process) (w : World) : Call → Option (World × Async Unit)
  | .executeJob jobId req => some (w, ignoring (Api.executeJob proc.pool.queueManager jobId req))
  | .retryExecution id => some (w, ignoring (Api.retryExecution proc.pool.queueManager proc.fromStr id))
  | .tick => some (w, proc.runner.tick)
  | .triggerDag dagId triggerType => some (w, ignoring (proc.engine.triggerDag dagId triggerType))
  | .pass workerId result => some (w, proc.pool.pass workerId result)
  | .requeue index => (w.spawned[index]?).map fun task =>
      ({ w with spawned := w.spawned.eraseIdx index }, proc.pool.queueManager.requeueTask task)
  | .recover => some (w, ignoring proc.pool.queueManager.recover)

/-- What else may happen: time passes, statements begin or cease to fail, other rows are written. -/
structure Elsewhere where
  act : World → World
  steady : ∀ w, Steady w (act w)

def system (proc : Process) : System Event World Phase Call Elsewhere where
  next := Phase.next
  spawn call w := (call.start proc w).map fun r => (r.1, ⟨.clear, r.2.detached .returned⟩)
  env change w := change.act w

/-- The configurations of a process that may stop, if `stops` allows it, and start again on its tables. -/
inductive Survives (proc : Process) (good : Config Event World Phase → Nat → Event → Prop)
    (stops : Config Event World Phase → Prop) (w : World) : Config Event World Phase → Prop
  | start : Survives proc good stops w ⟨w, [], []⟩
  | move {c c' : Config Event World Phase} (hrun : Survives proc good stops w c)
      (hmove : (system proc).Moves good c c') : Survives proc good stops w c'
  | restart {c : Config Event World Phase} (hrun : Survives proc good stops w c) (hstops : stops c)
      (now : DateTime) (nextUuid : Uuid) : Survives proc good stops w ⟨.start c.world.db now nextUuid, [], []⟩

/-- Every task has returned. -/
def AtRest (c : Config Event World Phase) : Prop := ∀ t ∈ c.tags, t = .ended

/-- Every pending execution has an entry that is queued or processing. -/
def NoOrphan (db : Db) : Prop := ∀ x ∈ db.executions, x.status = .pending → Active x.id db

/-- No statement fails in a gap. -/
def Careful (c : Config Event World Phase) (i : Nat) (ev : Event) : Prop :=
  ∀ error, ev = .failed error → ∀ t, c.tags[i]? = some t → t ≠ .holds ∧ ∀ e, t ≠ .owes e

/-- No task owes an entry. -/
def Paid (c : Config Event World Phase) : Prop := ∀ e, .owes e ∉ c.tags

/-! ### The invariant -/

/-- Every pending execution has an active entry or a task that owes it one. -/
def Covered (db : Db) (tags : List Phase) : Prop :=
  ∀ x ∈ db.executions, x.status = .pending → Active x.id db ∨ .owes x.id ∈ tags

section

variable {t : Phase} {ev : Event} {u v : World} {tags : List Phase} {i : Nat}

theorem owes_of_plain {e : Uuid} (hplain : Plain (.owes e) ev) (htorn : Phase.next (.owes e) ev ≠ .torn) :
    Phase.next (.owes e) ev = .owes e := by
  cases ev with
  | returned => cases hplain
  | failed error => exact absurd rfl htorn
  | sql stmt =>
      cases stmt with
      | enqueue entry => exact hplain.elim
      | dequeueAtomic row => cases row <;> rfl
      | _ => rfl
  | dequeued item => cases item <;> rfl
  | _ => rfl

theorem Covered.step (h : Covered u.db tags) (ht : tags[i]? = some t) (hacts : Acts t ev u v)
    (htorn : t.next ev ≠ .torn) : Covered v.db (tags.set i (t.next ev)) := by
  -- A debt of another task stays.
  have hother {e : Uuid} (howes : .owes e ∈ tags) (hmoves : t = .owes e → t.next ev = .owes e) :
      .owes e ∈ tags.set i (t.next ev) := by
    obtain ⟨tag, hmem, rfl⟩ := exists_mem_set (p := fun tag => tag = .owes e) ⟨_, howes, rfl⟩ ht hmoves
    exact hmem
  cases hacts with
  | steady hplain hsteady =>
      intro x hx hpending
      obtain ⟨y, hy, hid, hstatus⟩ := hsteady.pending x hx hpending
      rw [← hid]
      rcases h y hy hstatus with hactive | howes
      · rcases hsteady.active y.id hactive with hactive | hran
        · exact .inl hactive
        · exact absurd hstatus (hran.status y hy rfl)
      · refine .inr (hother howes ?_)
        rintro rfl
        exact owes_of_plain hplain htorn
  | create x hnew hjob =>
      intro y hy hpending
      rcases List.mem_append.mp hy with hold | hlast
      · exact (h y hold hpending).imp_right fun howes => hother howes nofun
      · rw [List.mem_singleton.mp hlast]
        obtain ⟨hlength, _⟩ := List.getElem?_eq_some_iff.mp ht
        exact .inr (List.mem_set hlength _)
  | enqueue entry hqueued hnew hstored =>
      intro x hx hpending
      by_cases hid : entry.executionId = x.id
      · exact .inl ⟨entry, List.mem_append_right _ (List.mem_singleton_self entry), hid, .inr hqueued⟩
      rcases h x hx hpending with hactive | howes
      · obtain ⟨row, hrow, hrest⟩ := hactive
        exact .inl ⟨row, List.mem_append_left _ hrow, hrest⟩
      · exact .inr (hother howes fun heq => absurd (Phase.owes.inj heq) hid)

theorem Covered.steady (h : Covered u.db tags) (hsteady : Steady u v) : Covered v.db tags := by
  intro x hx hpending
  obtain ⟨y, hy, hid, hstatus⟩ := hsteady.pending x hx hpending
  rw [← hid]
  rcases h y hy hstatus with hactive | howes
  · exact (hsteady.active y.id hactive).imp_right fun hran => absurd hstatus (hran.status y hy rfl)
  · exact .inr howes

end

/-- What holds throughout a run in which no statement fails in a gap. -/
structure Invariant (w : World) (tags : List Phase) (_ : List Event) : Prop where
  whole : Whole w
  covered : Covered w.db tags
  untorn : ∀ t ∈ tags, t ≠ .torn

section

variable {proc : Process} {w w' : World}

theorem start_steady {call : Call} {p : Async Unit} (h : call.start proc w = some (w', p)) : Steady w w' := by
  cases call with
  | requeue index =>
      obtain ⟨task, _, heq⟩ := Option.map_eq_some_iff.mp h
      cases heq
      exact .of_tables rfl rfl rfl (.of_eq rfl) fun _ h => .inl h
  | _ =>
      cases h
      exact .refl w

theorem clears_start {call : Call} {p : Async Unit} (h : call.start proc w = some (w', p)) (s : World) :
    Clears p .clear s := by
  cases call with
  | executeJob jobId req =>
      cases h
      exact clears_then (tends_executeJob _ jobId req)
  | retryExecution id =>
      cases h
      exact clears_then (tends_retry _ _ id)
  | tick =>
      cases h
      exact tends_tick _
  | triggerDag dagId triggerType =>
      cases h
      exact clears_then (tends_triggerDag _ dagId triggerType)
  | pass workerId result =>
      cases h
      exact tends_pass _ workerId result
  | requeue index =>
      obtain ⟨task, _, heq⟩ := Option.map_eq_some_iff.mp h
      cases heq
      exact tends_requeueTask _ task
  | recover =>
      cases h
      exact clears_then (tends_recover _)

theorem sound_careful (proc : Process) : Sound (system proc) protocol Careful Invariant where
  next := rfl
  knows h ht := ⟨h.untorn _ ht, h.whole⟩
  run := by
    intro c i t ev w h ht hgood hacts
    have hmem := List.mem_of_getElem? ht
    have htorn : t.next ev ≠ .torn := by
      have huntorn := h.untorn t hmem
      intro hnext
      have hfailed : ∀ error, ev = .failed error → t ≠ .holds ∧ ∀ e, t ≠ .owes e := fun error hev => hgood error hev t ht
      unfold Phase.next at hnext
      split at hnext
      all_goals first
        | exact huntorn hnext
        | exact (hfailed _ rfl).1 rfl
        | exact (hfailed _ rfl).2 _ rfl
        | cases hnext
    refine ⟨⟨hacts.whole h.whole, h.covered.step ht hacts htorn, fun t' ht' => ?_⟩, hacts.grows⟩
    rcases List.mem_or_eq_of_mem_set ht' with hold | rfl
    · exact h.untorn t' hold
    · exact htorn
  spawn := by
    intro w tags trace call w' th h hspawn
    obtain ⟨⟨w'', p⟩, hstart, heq⟩ := Option.map_eq_some_iff.mp hspawn
    cases heq
    have hsteady := start_steady hstart
    refine ⟨⟨hsteady.whole h.whole, fun x hx hpending => ?_, fun t ht => ?_⟩, hsteady.grows, ?_⟩
    · exact (h.covered.steady hsteady x hx hpending).imp_right fun howes => List.mem_append_left _ howes
    · rcases List.mem_append.mp ht with hold | hnew
      · exact h.untorn t hold
      · rw [List.mem_singleton.mp hnew]
        simp
    · exact (clears_start hstart _).detached fun u _ => Acts.steady (t := .clear) rfl (.refl u)
  env change h := ⟨⟨(change.steady _).whole h.whole, h.covered.steady (change.steady _), h.untorn⟩,
    (change.steady _).grows⟩

/-- The tables of a process that stops while no task owes an entry are covered without the tasks. -/
theorem Invariant.restart {tags : List Phase} {trace : List Event} (h : Invariant w tags trace)
    (hpaid : ∀ e, .owes e ∉ tags) (now : DateTime) (nextUuid : Uuid) :
    Invariant (.start w.db now nextUuid) [] [] where
  whole := ⟨h.whole.linked, h.whole.unique, by simp [World.start]⟩
  covered x hx hpending := (h.covered x hx hpending).imp_right fun howes => absurd howes (hpaid x.id)
  untorn := List.forall_mem_nil _

theorem Survives.holds (hwhole : Whole w) (hinit : NoOrphan w.db) {c : Config Event World Phase}
    (hrun : Survives proc Careful Paid w c) : Sound.Holds protocol Invariant c := by
  induction hrun with
  | start =>
      exact ⟨⟨hwhole, fun x hx hpending => .inl (hinit x hx hpending), List.forall_mem_nil _⟩,
        List.forall_mem_nil _⟩
  | move _ hmove ih => exact (sound_careful proc).move hmove ih
  | restart _ hstops now nextUuid ih => exact ⟨ih.1.restart hstops now nextUuid, List.forall_mem_nil _⟩

end

/-- If no statement fails between the creation of an execution and the insert of its entry, or between
the taking of an entry and the mark that its execution runs, and the process does not stop in between the first
two, then every pending execution has an active entry whenever no task is in progress. -/
theorem no_orphan {proc : Process} {w : World} (hwhole : Whole w) (hinit : NoOrphan w.db)
    {c : Config Event World Phase} (hrun : Survives proc Careful Paid w c) (hrest : AtRest c) :
    NoOrphan c.world.db := by
  obtain ⟨hinv, _⟩ := hrun.holds hwhole hinit
  intro x hx hpending
  rcases hinv.covered x hx hpending with hactive | howes
  · exact hactive
  · exact absurd (hrest _ howes) (by simp)

/-! ### A request, and a failure in its middle -/

/-- Statements begin to fail. -/
def failing : Elsewhere where
  act w := { w with fault := some "disk I/O error" }
  steady _ := .of_tables rfl rfl rfl (.of_eq rfl) fun _ h => .inl h

/-- A request for the job, which `change` interrupts after some of its actions. -/
def requested (check : Config Event World Phase → Nat → Event → Bool) (first rest : Nat)
    (change : List (Choice Call Elsewhere)) : Option (Config Event World Phase) :=
  (system .sample).exec check ([.spawn (.executeJob 1 none)] ++ List.replicate first (.run 0) ++ change ++
    List.replicate rest (.run 0)) ⟨worldOf (.sample 0), [], []⟩

theorem whole_worldOf (job : Job) : Whole (worldOf job) where
  linked := ⟨List.forall_mem_nil _, List.forall_mem_nil _⟩
  unique := List.nodup_nil
  items := List.forall_mem_nil _

theorem atRest_of_tags {c : Config Event World Phase} (h : c.tags = [.ended]) : AtRest c := by
  intro t ht
  rw [h] at ht
  exact List.mem_singleton.mp ht

/-- No statement fails. -/
def unfailing (_ : Config Event World Phase) (_ : Nat) : Event → Bool
  | .failed _ => false
  | _ => true

theorem careful_of_unfailing (c : Config Event World Phase) (i : Nat) (ev : Event) (h : unfailing c i ev = true) :
    Careful c i ev := by
  rintro error rfl
  cases h

theorem Survives.of_run {proc : Process} {good : Config Event World Phase → Nat → Event → Prop}
    {stops : Config Event World Phase → Prop} {w : World} {c c' : Config Event World Phase}
    (h : Survives proc good stops w c) (hrun : (system proc).Run good c c') : Survives proc good stops w c' := by
  induction hrun with
  | start => exact h
  | move _ hmove ih => exact ih.move hmove

theorem no_orphan_requested : ∃ c : Config Event World Phase,
    c.world.db.executions.map Execution.status = [.pending] ∧ AtRest c ∧ NoOrphan c.world.db := by
  have hrun : (requested unfailing 14 0 []).map (fun c => (c.world.db.executions.map Execution.status, c.tags)) =
    some ([.pending], [.ended]) := rfl
  obtain ⟨c, hc, heq⟩ := Option.map_eq_some_iff.mp hrun
  obtain ⟨hstatus, htags⟩ := Prod.mk.inj heq
  have hrest := atRest_of_tags htags
  have hlife : Survives .sample Careful Paid (worldOf (.sample 0)) c :=
    Survives.start.of_run (System.run_of_exec careful_of_unfailing hc)
  exact ⟨c, hstatus, hrest, no_orphan (whole_worldOf (.sample 0)) (List.forall_mem_nil _) hlife hrest⟩

/-- The statement after the insert of the execution fails, and its entry is never inserted. -/
theorem orphan_left : ¬ ∀ (proc : Process) (w : World), Whole w → NoOrphan w.db → ∀ c,
    Survives proc (fun _ _ _ => True) (fun _ => True) w c → AtRest c → NoOrphan c.world.db := by
  intro hclaim
  have hrun : (requested (fun _ _ _ => true) 4 2 [.env failing]).map
      (fun c => (c.world.db.executions.map Execution.status, c.world.db.jobQueue, c.tags)) =
    some ([.pending], [], [.ended]) := rfl
  obtain ⟨c, hc, heq⟩ := Option.map_eq_some_iff.mp hrun
  obtain ⟨hstatus, hqueue, htags⟩ : c.world.db.executions.map Execution.status = [.pending] ∧
      c.world.db.jobQueue = [] ∧ c.tags = [.ended] := by simpa only [Prod.mk.injEq] using heq
  obtain ⟨x, hx, hpending⟩ : ∃ x ∈ c.world.db.executions, x.status = .pending :=
    List.mem_map.mp (hstatus ▸ List.mem_singleton_self ExecutionStatus.pending)
  obtain ⟨row, hrow, _⟩ := hclaim _ _ (whole_worldOf (.sample 0)) (List.forall_mem_nil _) c
    (Survives.start.of_run (System.run_of_exec (fun _ _ _ _ => trivial) hc)) (atRest_of_tags htags) x hx hpending
  rw [hqueue] at hrow
  cases hrow

end Orphans

end Serverust
