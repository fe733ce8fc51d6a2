import Serverust.Library.Breach
import Serverust.Library.Pool
import Serverust.Model.Api
import Serverust.Model.Scheduler
import Serverust.Model.WorkerPool
import Serverust.Proof.Background

/-!
# Pending executions and their entries

Creating an execution and queueing it are two statements in each of four callers, and so are taking an
entry and marking its execution running in a worker. A task that fails between the two leaves a pending
execution that nothing will ever run. A phase follows each task through these gaps.
-/

namespace Serverust

namespace Orphans

open Calendar Resumption

/-! ### Phases -/

/-- A task owes an entry to the execution it has created, or holds an entry it has taken until an execution
is marked running. A statement that fails meanwhile tears it. -/
inductive Phase where
  | clear
  | owes (executionId : Uuid)
  | holds
  | torn
  | ended

def Phase.next : Phase → Event → Phase
  | _, .returned => .ended
  | .clear, .sql (.createExecution x) => .owes x.id
  | .clear, .sql (.dequeueAtomic (some _)) => .holds
  | .clear, .dequeued (some _) => .holds
  | .owes _, .sql (.enqueue _) => .clear
  | .holds, .sql (.updateExecution _) => .clear
  | .owes _, .failed _ => .torn
  | .holds, .failed _ => .torn
  | phase, _ => phase

/-! ### What actions keep -/

def Stored (e : Uuid) (db : Db) : Prop := ∃ x ∈ db.executions, x.id = e

def HasJob (id : Uuid) (db : Db) : Prop := ∃ job ∈ db.jobs, job.id = id

def HasNode (id : Uuid) (db : Db) : Prop := ∃ node ∈ db.dagNodeExecutions, node.id = id

/-- An entry with this id, for this execution. -/
def HasEntry (id e : Uuid) (db : Db) : Prop := ∃ row ∈ db.jobQueue, row.id = id ∧ row.executionId = e

/-- The execution is not pending any more. -/
structure Ran (e : Uuid) (db : Db) : Prop where
  stored : Stored e db
  status : ∀ x ∈ db.executions, x.id = e → x.status ≠ .pending

def ofJob (x : Execution) : Uuid × Uuid := (x.id, x.jobId)

def owner (row : QueueEntry) : Uuid × Uuid := (row.id, row.executionId)

/-- What every task may rely on. -/
structure Whole (w : World) : Prop where
  linked : w.db.Linked
  unique : Rows.Unique QueueEntry.id w.db.jobQueue
  items : ∀ item ∈ w.memoryQueue.items, Stored item.executionId w.db

/-- Nothing is deleted, and no execution becomes pending again. -/
structure Grows (db db' : Db) : Prop where
  jobs : ∀ id, HasJob id db → HasJob id db'
  nodes : ∀ id, HasNode id db → HasNode id db'
  stored : ∀ e, Stored e db → Stored e db'
  ran : ∀ e, Ran e db → Ran e db'
  entries : ∀ id e, HasEntry id e db → HasEntry id e db'

/-- An action that adds no execution and no entry. It ends an entry only if the execution has run. -/
structure Steady (u v : World) : Prop where
  jobs : ∀ id, HasJob id u.db → HasJob id v.db
  nodes : u.db.KeepsNodes v.db
  executions : v.db.executions.map ofJob = u.db.executions.map ofJob
  pending : ∀ x ∈ v.db.executions, x.status = .pending → ∃ y ∈ u.db.executions, y.id = x.id ∧ y.status = .pending
  entries : v.db.jobQueue.map owner = u.db.jobQueue.map owner
  active : ∀ e, Active e u.db → Active e v.db ∨ Ran e u.db
  items : ∀ item ∈ v.memoryQueue.items, item ∈ u.memoryQueue.items ∨ Stored item.executionId u.db

/-- Events that add no execution and no entry. A task may only return if it owes nothing. -/
def Plain (t : Phase) : Event → Prop
  | .returned => t = .clear
  | .sql (.createExecution _) | .sql (.enqueue _) => False
  | _ => True

inductive Acts : Phase → Event → World → World → Prop
  | steady {t ev u v} (hplain : Plain t ev) (hsteady : Steady u v) : Acts t ev u v
  | create {u} (x : Execution) (hnew : ∀ y ∈ u.db.executions, y.id ≠ x.id) (hjob : HasJob x.jobId u.db) :
      Acts .clear (.sql (.createExecution x)) u
        { u with db := { u.db with executions := u.db.executions ++ [x] } }
  | enqueue {u} (entry : QueueEntry) (hqueued : entry.status = .queued)
      (hnew : ∀ row ∈ u.db.jobQueue, row.id ≠ entry.id) (hstored : Stored entry.executionId u.db) :
      Acts (.owes entry.executionId) (.sql (.enqueue entry)) u
        { u with db := { u.db with jobQueue := u.db.jobQueue ++ [entry] } }

def protocol : Protocol Event World Phase where
  next := Phase.next
  knows t u := t ≠ .torn ∧ Whole u
  grows u v := Grows u.db v.db
  allows := Acts

theorem Grows.trans {a b c : Db} (h : Grows a b) (h' : Grows b c) : Grows a c where
  jobs id hid := h'.jobs id (h.jobs id hid)
  nodes id hid := h'.nodes id (h.nodes id hid)
  stored e he := h'.stored e (h.stored e he)
  ran e he := h'.ran e (h.ran e he)
  entries id e he := h'.entries id e (h.entries id e he)

instance : protocol.Lawful where
  refl _ := ⟨fun _ h => h, fun _ h => h, fun _ h => h, fun _ h => h, fun _ _ h => h⟩
  trans := Grows.trans

instance : protocol.Void .torn := ⟨fun _ h => h.1 rfl⟩

section

variable {t : Phase} {ev : Event} {u v w : World} {e : Uuid}

theorem stored_iff {db : Db} : Stored e db ↔ e ∈ (db.executions.map ofJob).map Prod.fst := by
  simp only [Stored, List.map_map, List.mem_map, Function.comp_apply, ofJob]

theorem hasEntry_iff {db : Db} {id : Uuid} : HasEntry id e db ↔ (id, e) ∈ db.jobQueue.map owner := by
  simp only [HasEntry, List.mem_map, owner, Prod.mk.injEq]

theorem Steady.ran (h : Steady u v) (hran : Ran e u.db) : Ran e v.db where
  stored := by
    rw [stored_iff, h.executions, ← stored_iff]
    exact hran.stored
  status x hx hid hpending := by
    obtain ⟨y, hy, hyid, hstatus⟩ := h.pending x hx hpending
    exact hran.status y hy (hyid.trans hid) hstatus

theorem Steady.grows (h : Steady u v) : Grows u.db v.db where
  jobs := h.jobs
  nodes id hnode := by
    obtain ⟨node, hmem, rfl⟩ := hnode
    exact h.nodes node hmem
  stored e he := by rwa [stored_iff, h.executions, ← stored_iff]
  ran e he := h.ran he
  entries id e he := by rwa [hasEntry_iff, h.entries, ← hasEntry_iff]

theorem unique_iff {db : Db} :
    Rows.Unique QueueEntry.id db.jobQueue ↔ ((db.jobQueue.map owner).map Prod.fst).Nodup := by
  rw [List.map_map]
  rfl

theorem Steady.whole (h : Steady u v) (hwhole : Whole u) : Whole v where
  linked := by
    refine ⟨fun row hrow => ?_, fun x hx => ?_⟩
    · have hmem : (row.id, row.executionId) ∈ u.db.jobQueue.map owner := h.entries ▸ List.mem_map_of_mem hrow
      obtain ⟨old, hold, _, heq⟩ := hasEntry_iff.mpr hmem
      exact h.grows.stored _ (heq ▸ hwhole.linked.entry old hold)
    · have hmem : ofJob x ∈ u.db.executions.map ofJob := h.executions ▸ List.mem_map_of_mem hx
      obtain ⟨old, hold, heq⟩ := List.mem_map.mp hmem
      obtain ⟨_, hjob⟩ := Prod.mk.inj heq
      exact h.jobs _ (hjob ▸ hwhole.linked.execution old hold)
  unique := by
    rw [unique_iff, h.entries, ← unique_iff]
    exact hwhole.unique
  items item hitem := by
    rcases h.items item hitem with hold | hstored
    · exact h.grows.stored _ (hwhole.items item hold)
    · exact h.grows.stored _ hstored

theorem Acts.grows (h : Acts t ev u v) : Grows u.db v.db := by
  cases h with
  | steady _ hsteady => exact hsteady.grows
  | create x hnew hjob =>
      refine ⟨fun _ h => h, fun _ h => h, fun e ⟨y, hy, hid⟩ => ⟨y, List.mem_append_left _ hy, hid⟩,
        fun e hran => ?_, fun _ _ h => h⟩
      obtain ⟨y, hy, hid⟩ := hran.stored
      refine ⟨⟨y, List.mem_append_left _ hy, hid⟩, fun z hz hzid => ?_⟩
      rcases List.mem_append.mp hz with hold | hlast
      · exact hran.status z hold hzid
      · rw [List.mem_singleton.mp hlast] at hzid
        exact absurd (hid.trans hzid.symm) (hnew y hy)
  | enqueue entry =>
      refine ⟨fun _ h => h, fun _ h => h, fun _ h => h, fun _ h => ⟨h.stored, h.status⟩, fun id e he => ?_⟩
      obtain ⟨row, hrow, heq⟩ := he
      exact ⟨row, List.mem_append_left _ hrow, heq⟩

theorem Acts.whole (h : Acts t ev u v) (hwhole : Whole u) : Whole v := by
  have hgrows := h.grows
  cases h with
  | steady _ hsteady => exact hsteady.whole hwhole
  | create x hnew hjob =>
      refine ⟨⟨fun row hrow => ?_, fun y hy => ?_⟩, hwhole.unique, fun item hitem => ?_⟩
      · exact hgrows.stored _ (hwhole.linked.entry row hrow)
      · rcases List.mem_append.mp hy with hold | hlast
        · exact hwhole.linked.execution y hold
        · rw [List.mem_singleton.mp hlast]
          exact hjob
      · exact hgrows.stored _ (hwhole.items item hitem)
  | enqueue entry _ hnew hstored =>
      refine ⟨⟨fun row hrow => ?_, hwhole.linked.execution⟩,
        hwhole.unique.append (Rows.hits_eq_zero.mpr hnew), hwhole.items⟩
      rcases List.mem_append.mp hrow with hold | hlast
      · exact hwhole.linked.entry row hold
      · rw [List.mem_singleton.mp hlast]
        exact hstored

theorem Steady.of_tables (hjobs : v.db.jobs = u.db.jobs) (hexecutions : v.db.executions = u.db.executions)
    (hqueue : v.db.jobQueue = u.db.jobQueue) (hnodes : u.db.KeepsNodes v.db)
    (hitems : ∀ item ∈ v.memoryQueue.items, item ∈ u.memoryQueue.items ∨ Stored item.executionId u.db) :
    Steady u v where
  jobs id h := by rwa [HasJob, hjobs]
  nodes := hnodes
  executions := by rw [hexecutions]
  pending x hx hstatus := ⟨x, hexecutions ▸ hx, rfl, hstatus⟩
  entries := by rw [hqueue]
  active e h := .inl (by rwa [Active, hqueue])
  items := hitems

theorem Steady.of_same (h : u.Same v) (hnodes : u.db.KeepsNodes v.db) : Steady u v :=
  .of_tables h.jobs h.executions h.jobQueue hnodes fun _ hitem => .inl (h.memoryQueue ▸ hitem)

theorem Steady.refl (u : World) : Steady u u := .of_same .rfl (.of_eq rfl)

theorem Steady.of_queue {rows : List QueueEntry} (hentries : rows.map owner = u.db.jobQueue.map owner)
    (hactive : ∀ e, Active e u.db → Active e { u.db with jobQueue := rows } ∨ Ran e u.db) :
    Steady u { u with db := { u.db with jobQueue := rows } } where
  jobs _ h := h
  nodes := .of_eq rfl
  executions := rfl
  pending x hx hstatus := ⟨x, hx, rfl, hstatus⟩
  entries := hentries
  active := hactive
  items _ h := .inl h

/-- A rewriting of rows that makes them queued or processing. -/
theorem Steady.of_modify {κ : Type} [DecidableEq κ] {column : QueueEntry → κ} {value : κ}
    {f : QueueEntry → QueueEntry} (howner : ∀ row, owner (f row) = owner row)
    (hstatus : ∀ row, (f row).status = .processing ∨ (f row).status = .queued) :
    Steady u { u with db := { u.db with jobQueue := Rows.modify column value f u.db.jobQueue } } := by
  apply Steady.of_queue (Rows.map_modify howner value _)
  rintro e ⟨row, hrow, hid, hactive⟩
  left
  by_cases hvalue : column row = value
  · exact ⟨f row, Rows.mem_modify_of_eq hrow hvalue, (Prod.mk.inj (howner row)).2.trans hid, hstatus row⟩
  · exact ⟨row, Rows.mem_modify_of_ne hrow hvalue, hid, hactive⟩

end

/-! ### One action -/

/-- The program obeys from the phase `t`, and an error leaves it clear. -/
abbrev Tends {α : Type} (ok : α → Phase → World → Prop) (p : Async α) (t : Phase) (w : World) : Prop :=
  Task.Leads protocol .torn ok (fun _ t' _ => t' = .clear) p t w

section

variable {α : Type} {t : Phase} {w : World} {ok : α → Phase → World → Prop}
  {err : AppError → Phase → World → Prop}

/-- A statement that fails tears the task, unless it is clear. -/
theorem leads_sql {stmt : Db → α → Stmt} {statement : DateTime → Db → Except SqlError (α × Db)}
    {mapErr : SqlError → AppError} (ht : t ≠ .ended)
    (hok : ∀ u value db, Grows w.db u.db → Whole u → statement u.now u.db = .ok (value, db) →
      Acts t (.sql (stmt u.db value)) u { u with db } ∧ ok value (t.next (.sql (stmt u.db value))) { u with db })
    (herr : ∀ u e, t = .clear → Grows w.db u.db → err e .clear u) :
    Task.Leads protocol .torn ok err (sql stmt statement mapErr) t w := by
  apply obeys_sql
  · intro u value db hgrows hknows hquery
    obtain ⟨hacts, hpost⟩ := hok u value db hgrows hknows.2 (query_ok hquery).2
    exact ⟨hacts, .inr ⟨hgrows.trans hacts.grows, hpost⟩⟩
  · intro u e hgrows hknows _
    refine ⟨.steady trivial (.refl u), ?_⟩
    cases t with
    | clear => exact .inr ⟨hgrows, herr u _ rfl hgrows⟩
    | ended => exact absurd rfl ht
    | _ => exact .inl rfl

theorem leads_perform {event : World → Event} {act : World → α × World}
    (h : ∀ u, Grows w.db u.db → Whole u → Acts t (event u) u (act u).2 ∧
      ok (act u).1 (t.next (event u)) (act u).2) :
    Task.Leads protocol .torn ok err (perform event act) t w := by
  apply obeys_perform
  intro u hgrows hknows
  obtain ⟨hacts, hpost⟩ := h u hgrows hknows.2
  exact ⟨hacts, .inr ⟨hgrows.trans hacts.grows, hpost⟩⟩

theorem tolerates_clear : Tolerates protocol .clear := by
  intro u v ev _ hback _ hsame hdags
  have hsteady : Steady u v := .of_same hsame (.of_eq hdags.nodes)
  have hplain : Plain .clear ev ∧ Phase.clear.next ev = .clear := by
    unfold Event.Background at hback
    split at hback
    · exact ⟨trivial, rfl⟩
    · exact ⟨trivial, rfl⟩
    · exact ⟨trivial, rfl⟩
    · exact ⟨trivial, rfl⟩
    · exact ⟨trivial, rfl⟩
    · exact ⟨trivial, rfl⟩
    · exact hback.elim
  exact ⟨.steady hplain.1 hsteady, hplain.2, hsteady.grows⟩

theorem toleratesDags_clear : ToleratesDags protocol .clear := by
  intro u v stmt _ hsame hnodes
  have hsteady : Steady u v := .of_same hsame hnodes
  exact ⟨.steady trivial hsteady, rfl, hsteady.grows⟩

/-- A program in the background of a clear task. -/
theorem tends_of_keeps {φ : α → Prop} {p : Async α} (h : Task.Keeps protocol φ .clear p) :
    Tends (fun a t' _ => t' = .clear ∧ φ a) p .clear w := .of_keeps h

/-- A program of reads: only a clear task goes on after an error. -/
abbrev Reads (ok : α → Phase → World → Prop) (p : Async α) (t : Phase) (w : World) : Prop :=
  Task.Leads protocol .torn ok (fun _ t' _ => t = .clear ∧ t' = .clear) p t w

theorem Reads.tends {p : Async α} (h : Reads ok p t w) : Tends ok p t w :=
  h.mono (fun _ _ _ _ hok => hok) fun _ _ _ _ herr => herr.2

theorem reads_select {stmt : α → Stmt} {read : Db → α} (ht : t ≠ .ended)
    (hplain : ∀ value, Plain t (.sql (stmt value)) ∧ t.next (.sql (stmt value)) = t)
    (hok : ∀ u, Grows w.db u.db → Whole u → ok (read u.db) t u) : Reads ok (select stmt read) t w := by
  apply leads_sql ht
  · intro u value db hgrows hwhole h
    cases h
    refine ⟨.steady (hplain _).1 (.refl u), ?_⟩
    rw [(hplain _).2]
    exact hok u hgrows hwhole
  · exact fun _ _ hclear _ => ⟨hclear, rfl⟩

/-- A row that is known to be stored is found. -/
theorem reads_okOr {row : Option α} {error : AppError} (hnone : row = none → t = .clear)
    (hsome : ∀ value, row = some value → ok value t w) : Reads ok (okOr row error) t w := by
  cases row with
  | none => exact .throw ⟨hnone rfl, hnone rfl⟩
  | some value => exact .pure (hsome value rfl)

theorem reads_getExecution {e : Uuid} (ht : t ≠ .ended) (hstored : t = .clear ∨ Stored e w.db) :
    Reads (fun x t' s => t' = t ∧ x.id = e ∧ Stored e s.db ∧ HasJob x.jobId s.db)
      (ExecutionRepository.getById e) t w := by
  have hread : Reads (fun row t' s => t' = t ∧ (row = none → t = .clear) ∧
      ∀ x, row = some x → x.id = e ∧ Stored e s.db ∧ HasJob x.jobId s.db)
      (select (.getExecution e) fun db => Rows.lookup Execution.id e db.executions) t w := by
    apply reads_select ht
    · intro value
      cases t <;> exact ⟨trivial, rfl⟩
    · intro u hgrows hwhole
      refine ⟨rfl, fun hnone => ?_, fun x hx => ?_⟩
      · apply hstored.resolve_right
        intro hstored
        obtain ⟨x, hx, hid⟩ := hgrows.stored e hstored
        exact Rows.lookup_eq_none.mp hnone x hx hid
      · have hmem := Rows.mem_of_lookup hx
        have hid : x.id = e := Rows.column_of_lookup hx
        exact ⟨hid, ⟨x, hmem, hid⟩, hwhole.linked.execution x hmem⟩
  apply hread.bind
  rintro row t s _ ⟨rfl, hnone, hsome⟩
  exact reads_okOr hnone fun x hx => ⟨rfl, hsome x hx⟩

theorem reads_getJob {id : Uuid} (ht : t ≠ .ended) (hjob : t = .clear ∨ HasJob id w.db) :
    Reads (fun _ t' s => t' = t ∧ HasJob id s.db) (JobRepository.getById id) t w := by
  have hread : Reads (fun row t' s => t' = t ∧ (row = none → t = .clear) ∧
      ∀ job, row = some job → HasJob id s.db)
      (select (.getJob id) fun db => Rows.lookup Job.id id db.jobs) t w := by
    apply reads_select ht
    · intro value
      cases t <;> exact ⟨trivial, rfl⟩
    · intro u hgrows _
      refine ⟨rfl, fun hnone => ?_, fun job hsome => ?_⟩
      · apply hjob.resolve_right
        intro hjob
        obtain ⟨job, hmem, hid⟩ := hgrows.jobs id hjob
        exact Rows.lookup_eq_none.mp hnone job hmem hid
      · exact ⟨job, Rows.mem_of_lookup hsome, Rows.column_of_lookup hsome⟩
  apply hread.bind
  rintro row t s _ ⟨rfl, hnone, hsome⟩
  exact reads_okOr hnone fun job hjob => ⟨rfl, hsome job hjob⟩

theorem tends_getExecution {e : Uuid} (ht : t ≠ .ended) (hstored : t = .clear ∨ Stored e w.db) :
    Tends (fun x t' s => t' = t ∧ x.id = e ∧ Stored e s.db ∧ HasJob x.jobId s.db)
      (ExecutionRepository.getById e) t w := (reads_getExecution ht hstored).tends

theorem tends_getJob {id : Uuid} (ht : t ≠ .ended) (hjob : t = .clear ∨ HasJob id w.db) :
    Tends (fun _ t' s => t' = t ∧ HasJob id s.db) (JobRepository.getById id) t w := (reads_getJob ht hjob).tends

/-- An action that no table and no other task sees. -/
theorem tends_local {event : World → Event} {act : World → α × World}
    (hplain : ∀ u, Plain t (event u) ∧ t.next (event u) = t)
    (hsame : ∀ u : World, (act u).2.db = u.db ∧ (act u).2.memoryQueue = u.memoryQueue) :
    Tends (fun _ t' _ => t' = t) (perform event act) t w := by
  apply leads_perform
  intro u _ _
  obtain ⟨hdb, hheap⟩ := hsame u
  refine ⟨.steady (hplain u).1 ?_, (hplain u).2⟩
  exact .of_tables (by rw [hdb]) (by rw [hdb]) (by rw [hdb]) (.of_eq (by rw [hdb])) fun item hitem =>
    .inl (hheap ▸ hitem)

theorem tends_now : Tends (fun _ t' _ => t' = t) nowRfc3339 t w :=
  tends_local (fun _ => by cases t <;> exact ⟨trivial, rfl⟩) fun _ => ⟨rfl, rfl⟩

theorem tends_newV4 : Tends (fun _ t' _ => t' = t) newV4 t w :=
  tends_local (fun _ => by cases t <;> exact ⟨trivial, rfl⟩) fun _ => ⟨rfl, rfl⟩

theorem tends_queueLen : Tends (fun _ t' _ => t' = t) queueLen t w :=
  tends_local (fun _ => by cases t <;> exact ⟨trivial, rfl⟩) fun _ => ⟨rfl, rfl⟩

/-- A section under the mutex, whose end the event `done` reports. -/
theorem tends_withLock {done : Except AppError α → Event} {body : Async α} {mid : α → Phase → World → Prop}
    (hbody : ∀ s, Grows w.db s.db → Tends mid body t s) (hplain : ∀ r t', Plain t' (done r))
    (hfail : ∀ e, Phase.clear.next (done (.error e)) = .clear)
    (hok : ∀ a t' s s', mid a t' s → Grows s.db s'.db → ok a (t'.next (done (.ok a))) s') :
    Tends ok (withLock done body) t w := by
  have hlock : Tends (fun _ t' _ => t' = t) lock t w := by
    intro u hgrows hknows _
    have hsteady : Steady u { u with locked := true } := .of_tables rfl rfl rfl (.of_eq rfl) fun _ h => .inl h
    refine ⟨.steady (by cases t <;> trivial) hsteady, .inr ⟨hgrows.trans hsteady.grows, ?_⟩⟩
    cases t <;> rfl
  apply hlock.bind
  rintro _ _ s hgrows rfl
  apply (hbody s hgrows).attempt.bind
  intro result t₁ s₁ _ hresult
  have hrelease : Tends (fun _ t' s' => t' = t₁.next (done result) ∧ Grows s₁.db s'.db) (release (done result)) t₁ s₁ := by
    apply leads_perform
    intro u hgrows' _
    have hsteady : Steady u { u with locked := false } := .of_tables rfl rfl rfl (.of_eq rfl) fun _ h => .inl h
    exact ⟨.steady (hplain result t₁) hsteady, rfl, hgrows'⟩
  apply hrelease.bind
  rintro _ _ s₂ _ ⟨rfl, hgrows'⟩
  cases result with
  | ok value => exact .pure (hok value t₁ s₁ s₂ hresult hgrows')
  | error e =>
      obtain rfl : t₁ = .clear := hresult
      exact .throw (hfail e)

end

end Orphans

end Serverust
