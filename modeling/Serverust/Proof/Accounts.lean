import Serverust.Proof.Dues

/-!
# What an action does to a share

Reads close dues and teach facts, writes open and close dues, and each id that is drawn is used for one row.
-/

namespace Serverust

namespace Dues

open Calendar Resumption

variable {α : Type} {cron : Cron} {g g' : Share} {u v : World} {db : Db} {ds : Set Due} {fs : Set Fact} {d : Due}
  {id e r j : Uuid}

/-! ### What a call knows -/

/-- What a call knows of the state by its share. -/
structure Known (cron : Cron) (g : Share) (u : World) : Prop where
  consistent : u.db.Consistent cron
  fault : u.fault = none
  entryJob : EntryJob u.db
  facts : ∀ f ∈ g.facts, f.Holds u
  subjects : ∀ f ∈ g.facts, f.subject ∉ g.drawn
  drawn : ∀ id ∈ g.drawn, ¬ Uses u id
  unqueued : ∀ e ∈ g.unqueued, e ∉ g.drawn
  entryless : ∀ e ∈ g.unqueued, ∀ row ∈ u.db.jobQueue, row.executionId ≠ e

/-- The id is taken, so that no row can get it. -/
def Taken (g : Share) (u : World) (id : Uuid) : Prop := Uses u id ∨ g.Has id ∧ id ∉ g.drawn

/-- The execution that a due is about. -/
def Due.execution : Due → Uuid
  | .start e => e
  | .finish e => e
  | .settle _ e => e

namespace Known

theorem taken (h : Known cron g u) {f : Fact} (hf : f ∈ g.facts) : Taken g u f.subject :=
  .inr ⟨.inr (.inr ⟨f, hf, rfl⟩), h.subjects f hf⟩

theorem not_drawn (h : Known cron g u) (hid : Taken g u id) : id ∉ g.drawn := by
  rcases hid with huses | ⟨_, hnot⟩
  · exact fun hdrawn => h.drawn id hdrawn huses
  · exact hnot

end Known

/-! ### Actions beside the tables -/

theorem Due.Open.of_db (h : d.Open v) (hdb : v.db = u.db) (hspawned : u.spawned ⊆ v.spawned) : d.Open u := by
  cases d with
  | start e =>
      rw [Due.Open, hdb] at h
      exact h
  | finish e =>
      rw [Due.Open, hdb] at h
      exact h
  | settle r e =>
      rw [Due.Open, hdb] at h
      exact ⟨h.1, fun htask => h.2 (hspawned htask)⟩

theorem Fact.Holds.of_db {f : Fact} (h : f.Holds u) (hdb : v.db = u.db) : f.Holds v := by
  cases f with
  | used id => trivial
  | _ =>
      rw [Fact.Holds, hdb]
      exact h

/-! ### Rows that stay what they are -/

/-- The share with these dues, and with more facts. -/
def Share.note (g : Share) (dues : Set Due) (facts : Set Fact) : Share := { g with dues, facts := g.facts ∪ facts }

/-- Rows are written in place or deleted. -/
structure Rewrites (db db' : Db) : Prop where
  jobs : db'.jobs = db.jobs
  executions : ∀ x ∈ db'.executions, ∃ old ∈ db.executions, old.id = x.id ∧ old.jobId = x.jobId ∧
    (x.status = .pending → old.status = .pending)
  entries : ∀ row ∈ db'.jobQueue, ∃ old ∈ db.jobQueue, old.ident = row.ident
  nodes : db'.dagNodeExecutions = db.dagNodeExecutions

namespace Rewrites

theorem refl (db : Db) : Rewrites db db where
  jobs := rfl
  executions x hx := ⟨x, hx, rfl, rfl, fun h => h⟩
  entries row hrow := ⟨row, hrow, rfl⟩
  nodes := rfl

theorem of_executions {executions : List Execution} (h : ∀ x ∈ executions, ∃ old ∈ db.executions, old.id = x.id ∧
    old.jobId = x.jobId ∧ (x.status = .pending → old.status = .pending)) : Rewrites db { db with executions } where
  jobs := rfl
  executions := h
  entries row hrow := ⟨row, hrow, rfl⟩
  nodes := rfl

theorem of_entries {jobQueue : List QueueEntry} (h : ∀ row ∈ jobQueue, ∃ old ∈ db.jobQueue, old.ident = row.ident) :
    Rewrites db { db with jobQueue } where
  jobs := rfl
  executions x hx := ⟨x, hx, rfl, rfl, fun h => h⟩
  entries := h
  nodes := rfl

theorem uses (h : Rewrites u.db db) (huses : Uses { u with db } id) : Uses u id := by
  refine huses.elim (fun job hjob => .job (h.jobs ▸ hjob)) (fun x hx => ?_) (fun row hrow => ?_)
    (fun item hitem => .item hitem) fun task htask => ⟨.taskEntry htask, .taskExecution htask⟩
  · obtain ⟨old, hold, heq, _⟩ := h.executions x hx
    exact heq ▸ .execution hold
  · obtain ⟨old, hold, heq⟩ := h.entries row hrow
    obtain ⟨hid, hexecution, _⟩ := ids_of_ident heq
    exact ⟨hid ▸ .entry hold, hexecution ▸ .entryExecution hold⟩

end Rewrites

namespace Step

theorem rewrite (hknown : Known cron g u) (h : Rewrites u.db db)
    (hdues : ∀ d : Due, d.Open { u with db } → d ∈ ds ∨ d ∉ g.dues ∧ d.Open u)
    (hfacts : ∀ f ∈ fs, f.Holds { u with db } ∧ Taken g u f.subject) : Step g u { u with db } (g.note ds fs) where
  fault := rfl
  next := le_rfl
  uses _ huses := .inl (h.uses huses)
  jobs job hjob := .inl ⟨job, h.jobs ▸ hjob, rfl⟩
  executions x hx := .inl (h.executions x hx)
  entries row hrow := .inl (h.entries row hrow)
  nodes node hnode := .inl ⟨node, h.nodes ▸ hnode, rfl⟩
  dues := hdues
  facts f hf := hf.imp_right fun hnew =>
    ⟨(hfacts f hnew).1, (hfacts f hnew).2.imp_right And.left, hknown.not_drawn (hfacts f hnew).2⟩
  drawn _ hid := .inl hid
  unqueued _ he := .inl he

/-- A read closes dues that are not open, and teaches facts. -/
theorem look (hknown : Known cron g u) (hdues : ∀ d ∈ g.dues, d.Open u → d ∈ ds)
    (hfacts : ∀ f ∈ fs, f.Holds u ∧ Taken g u f.subject) : Step g u u (g.note ds fs) :=
  rewrite hknown (.refl u.db) (fun d hd => hd.kept fun hmem => hdues d hmem hd) hfacts

theorem aside (hknown : Known cron g u) (hdb : v.db = u.db) (hfault : v.fault = u.fault)
    (hnext : v.nextUuid = u.nextUuid) (hitems : ∀ item ∈ v.memoryQueue.items, Taken g u item.executionId)
    (htasks : ∀ task ∈ v.spawned, Taken g u task.entryId ∧ Taken g u task.executionId)
    (hspawned : u.spawned ⊆ v.spawned) (hdues : ∀ d ∈ g.dues, d.Open v → d ∈ ds)
    (hfacts : ∀ f ∈ fs, f.Holds u ∧ Taken g u f.subject) : Step g u v (g.note ds fs) where
  fault := hfault
  next := hnext.ge
  uses id huses := by
    have hold (id : Uuid) (h : Uses u id) : Taken g u id := .inl h
    refine huses.elim (fun job hjob => hold _ (.job (hdb ▸ hjob))) (fun x hx => hold _ (.execution (hdb ▸ hx)))
      (fun row hrow => ?_) hitems htasks
    rw [hdb] at hrow
    exact ⟨hold _ (.entry hrow), hold _ (.entryExecution hrow)⟩
  jobs job hjob := .inl ⟨job, hdb ▸ hjob, rfl⟩
  executions x hx := .inl ⟨x, hdb ▸ hx, rfl, rfl, fun h => h⟩
  entries row hrow := .inl ⟨row, hdb ▸ hrow, rfl⟩
  nodes node hnode := .inl ⟨node, hdb ▸ hnode, rfl⟩
  dues d hd := (hd.of_db hdb hspawned).kept fun hmem => hdues d hmem hd
  facts f hf := hf.imp_right fun hnew =>
    ⟨(hfacts f hnew).1.of_db hdb, (hfacts f hnew).2.imp_right And.left, hknown.not_drawn (hfacts f hnew).2⟩
  drawn _ hid := .inl hid
  unqueued _ he := .inl he

end Step

theorem Share.note_self (g : Share) : g.note g.dues ∅ = g := by
  simp only [note, Set.union_empty]

theorem Step.refl (hknown : Known cron g u) : Step g u u g := by
  have hstep : Step g u u (g.note g.dues ∅) := .look hknown (fun _ hd _ => hd) fun _ hf => hf.elim
  rwa [Share.note_self] at hstep

theorem Step.locks (hknown : Known cron g u) (locked : Bool) : Step g u { u with locked } g := by
  have hstep : Step g u { u with locked } (g.note g.dues ∅) := by
    refine .aside hknown rfl rfl rfl (fun _ h => .inl (.item h)) (fun _ h => ⟨.inl (.taskEntry h), .inl (.taskExecution h)⟩)
      (List.Subset.refl _) (fun _ hd _ => hd) fun _ hf => hf.elim
  rwa [Share.note_self] at hstep

/-! ### Actions -/

section

variable {ok : α → Share → Prop} {err : Share → Prop}

end

/-! ### Shares that have learned something -/

/-- No due is new, and nothing is forgotten. -/
structure Share.Grows (g g' : Share) : Prop where
  dues : g'.dues ⊆ g.dues
  facts : g.facts ⊆ g'.facts

/-- The call owns the same ids, too. -/
structure Share.Learns (g g' : Share) : Prop extends g.Grows g' where
  drawn : g'.drawn = g.drawn
  unqueued : g'.unqueued = g.unqueued

/-- The call knows that this id is in use. -/
def Share.Names (g : Share) (id : Uuid) : Prop := ∃ f ∈ g.facts, f.subject = id

/-- Nothing is due for this execution. -/
def Share.Clear (g : Share) (e : Uuid) : Prop := ∀ d ∈ g.dues, d.execution ≠ e

/-- Nothing is due but for this execution. -/
def Share.Only (g : Share) (e : Uuid) : Prop := ∀ d ∈ g.dues, d.execution = e

namespace Share

variable {g'' : Share}

theorem Grows.refl (g : Share) : g.Grows g := ⟨Set.Subset.rfl, Set.Subset.rfl⟩

theorem Grows.trans (h : g.Grows g') (h' : g'.Grows g'') : g.Grows g'' :=
  ⟨h'.dues.trans h.dues, h.facts.trans h'.facts⟩

theorem Grows.names (h : g.Grows g') (hid : g.Names id) : g'.Names id := hid.imp fun _ hf => ⟨h.facts hf.1, hf.2⟩

theorem Grows.only (h : g.Grows g') (honly : g.Only e) : g'.Only e := fun d hd => honly d (h.dues hd)

theorem Idle.only (h : g.Idle) (e : Uuid) : g.Only e := by
  intro d hd
  rw [h] at hd
  cases hd

theorem Grows.idle (h : g.Grows g') (hidle : g.Idle) : g'.Idle :=
  Set.subset_empty_iff.mp (h.dues.trans (Set.subset_empty_iff.mpr hidle))

theorem Learns.refl (g : Share) : g.Learns g := ⟨.refl g, rfl, rfl⟩

theorem Learns.trans (h : g.Learns g') (h' : g'.Learns g'') : g.Learns g'' :=
  ⟨h.toGrows.trans h'.toGrows, h'.drawn.trans h.drawn, h'.unqueued.trans h.unqueued⟩

theorem Only.idle (h : g.Only e) (hstart : .start e ∉ g.dues) (hfinish : .finish e ∉ g.dues)
    (hsettle : ∀ r, .settle r e ∉ g.dues) : g.Idle := by
  refine Set.eq_empty_iff_forall_notMem.mpr fun d hd => ?_
  obtain rfl : d.execution = e := h d hd
  cases d with
  | start e => exact hstart hd
  | finish e => exact hfinish hd
  | settle r e => exact hsettle r hd

end Share

theorem Known.taken_of_names (h : Known cron g u) (hid : g.Names id) : Taken g u id := by
  obtain ⟨f, hf, rfl⟩ := hid
  exact h.taken hf

/-! ### What a write opens -/

/-- A write of the queue opens a due if an execution loses its queued entry, or if an entry is now being processed. -/
theorem opened_of_entries {jobQueue : List QueueEntry} (h : d.Open { u with db := { u.db with jobQueue } }) :
    d.Open u ∨
      (∃ row ∈ u.db.jobQueue, row.status = .queued ∧ d = .start row.executionId ∧
        ∀ kept ∈ jobQueue, kept.executionId = row.executionId → kept.status ≠ .queued) ∨
      ∃ row ∈ jobQueue, row ∉ u.db.jobQueue ∧ row.status = .processing ∧ d = .settle row.id row.executionId := by
  cases d with
  | start e =>
      obtain ⟨hpending, hnone⟩ := h
      by_cases hqueued : ∃ row ∈ u.db.jobQueue, row.executionId = e ∧ row.status = .queued
      · obtain ⟨row, hrow, rfl, hstatus⟩ := hqueued
        exact .inr (.inl ⟨row, hrow, hstatus, rfl, hnone⟩)
      · exact .inl ⟨hpending, fun row hrow heq hstatus => hqueued ⟨row, hrow, heq, hstatus⟩⟩
  | finish e => exact .inl h
  | settle r e =>
      obtain ⟨⟨row, hrow, rfl, rfl, hstatus⟩, hawake⟩ := h
      by_cases hold : row ∈ u.db.jobQueue
      · exact .inl ⟨⟨row, hold, rfl, rfl, hstatus⟩, hawake⟩
      · exact .inr (.inr ⟨row, hrow, hold, hstatus, rfl⟩)

/-- A write of the executions opens a due for each that is now pending or running. -/
theorem opened_of_executions {executions : List Execution} (h : d.Open { u with db := { u.db with executions } }) :
    d.Open u ∨ ∃ x ∈ executions, x ∉ u.db.executions ∧
      (x.status = .pending ∧ d = .start x.id ∨ x.status = .running ∧ d = .finish x.id) := by
  cases d with
  | start e =>
      obtain ⟨⟨x, hx, rfl, hstatus⟩, hnone⟩ := h
      by_cases hold : x ∈ u.db.executions
      · exact .inl ⟨⟨x, hold, rfl, hstatus⟩, hnone⟩
      · exact .inr ⟨x, hx, hold, .inl ⟨hstatus, rfl⟩⟩
  | finish e =>
      obtain ⟨x, hx, rfl, hstatus⟩ := h
      by_cases hold : x ∈ u.db.executions
      · exact .inl ⟨x, hold, rfl, hstatus⟩
      · exact .inr ⟨x, hx, hold, .inr ⟨hstatus, rfl⟩⟩
  | settle r e => exact .inl h

/-! ### Entries -/

section

variable {f : QueueEntry → QueueEntry} {s : QueueStatus} (hident : ∀ row, (f row).ident = row.ident)
  (hstatus : ∀ row, (f row).status = s)

include hident in
theorem rewrites_modify {κ : Type} [DecidableEq κ] (column : QueueEntry → κ) (value : κ) (db : Db) :
    Rewrites db { db with jobQueue := Rows.modify column value f db.jobQueue } := by
  refine .of_entries fun row hrow => ?_
  obtain ⟨old, hold, rfl⟩ := Rows.mem_modify.mp hrow
  refine ⟨old, hold, ?_⟩
  split
  · exact (hident old).symm
  · rfl

/-- A row that is new after a rewriting has been rewritten. -/
theorem modified {κ : Type} [DecidableEq κ] {column : QueueEntry → κ} {value : κ} {rows : List QueueEntry}
    {row : QueueEntry} (hrow : row ∈ Rows.modify column value f rows) (hnew : row ∉ rows) :
    ∃ old ∈ rows, column old = value ∧ f old = row := by
  obtain ⟨old, hold, rfl⟩ := Rows.mem_modify.mp hrow
  split
  · exact ⟨old, hold, ‹_›, rfl⟩
  · rename_i hne
    rw [if_neg hne] at hnew
    exact absurd hold hnew

include hident

/-- The call that takes an entry has to settle it, and to start the execution. -/
theorem Step.take (hknown : Known cron g u)
    (hentry : ∀ row ∈ u.db.jobQueue, row.id = r → row.executionId = e)
    (hds : g.dues ⊆ ds) (hstart : .start e ∈ ds) (hsettle : .settle r e ∈ ds)
    (hfacts : ∀ f' ∈ fs, f'.Holds { u with db := { u.db with jobQueue := Rows.modify QueueEntry.id r f u.db.jobQueue } } ∧
      Taken g u f'.subject) :
    Step g u { u with db := { u.db with jobQueue := Rows.modify QueueEntry.id r f u.db.jobQueue } } (g.note ds fs) := by
  refine .rewrite hknown (rewrites_modify hident _ _ _) (fun d hd => ?_) hfacts
  rcases opened_of_entries hd with hopen | ⟨row, hrow, hqueued, rfl, hnone⟩ | ⟨row, hrow, hnew, _, rfl⟩
  · exact hopen.kept fun hmem => hds hmem
  · by_cases hid : row.id = r
    · exact .inl (hentry row hrow hid ▸ hstart)
    · exact absurd hqueued (hnone row (Rows.mem_modify_of_ne hrow hid) rfl)
  · obtain ⟨old, hold, hid, rfl⟩ := modified hrow hnew
    obtain ⟨hsameId, hsame, _⟩ := ids_of_ident (hident old)
    rw [hsameId, hsame, hid, hentry old hold hid]
    exact .inl hsettle

include hstatus

/-- An entry that is queued again or done with is settled. -/
theorem Step.close (hknown : Known cron g u) (hprocessing : s ≠ .processing)
    (hpast : s ≠ .queued → ∀ row ∈ u.db.jobQueue, row.id = r → (Fact.past row.executionId).Holds u)
    (hds : ∀ d ∈ g.dues, (∀ e, d ≠ .settle r e) → d ∈ ds) :
    Step g u { u with db := { u.db with jobQueue := Rows.modify QueueEntry.id r f u.db.jobQueue } } (g.note ds ∅) := by
  refine .rewrite hknown (rewrites_modify hident _ _ _) (fun d hd => ?_) fun _ hf => hf.elim
  rcases opened_of_entries hd with hopen | ⟨row, hrow, hqueued, rfl, hnone⟩ | ⟨row, hrow, hnew, hstatus', rfl⟩
  · refine hopen.kept fun hmem => hds d hmem ?_
    rintro e rfl
    obtain ⟨⟨row, hrow, hid, _, hrowStatus⟩, _⟩ := hd
    obtain ⟨old, hold, rfl⟩ := Rows.mem_modify.mp hrow
    split at hid
    · rw [if_pos ‹_›, hstatus] at hrowStatus
      exact hprocessing hrowStatus
    · exact absurd hid ‹_›
  · by_cases hid : row.id = r
    · by_cases hagain : s = .queued
      · obtain ⟨_, hsame, _⟩ := ids_of_ident (hident row)
        exact absurd ((hstatus row).trans hagain) (hnone (f row) (Rows.mem_modify_of_eq hrow hid) hsame)
      · obtain ⟨⟨x, hx, hxid, hpending⟩, _⟩ := hd
        exact absurd hpending (hpast hagain row hrow hid x hx hxid)
    · exact absurd hqueued (hnone row (Rows.mem_modify_of_ne hrow hid) rfl)
  · obtain ⟨old, _, _, rfl⟩ := modified hrow hnew
    exact absurd ((hstatus old).symm.trans hstatus') hprocessing

end

/-- An execution that gets a status other than pending is started, and finished unless it runs. -/
theorem Step.write (hknown : Known cron g u) {f : Execution → Execution} {s : ExecutionStatus}
    (hident : ∀ row, (f row).ident = row.ident) (hstatus : ∀ row, (f row).status = s)
    (hpending : s ≠ .pending) (hnames : g.Names e)
    (hds : ∀ d ∈ g.dues, d ≠ .start e → (d = .finish e → s = .running) → d ∈ ds)
    (hrunning : s = .running → .finish e ∈ ds) :
    Step g u { u with db := { u.db with executions := Rows.modify Execution.id e f u.db.executions } }
      (g.note ds {.past e}) := by
  have hrow {x : Execution} (hx : x ∈ Rows.modify Execution.id e f u.db.executions) :
      x ∈ u.db.executions ∧ x.id ≠ e ∨ (x.id = e ∧ x.status = s) ∧ ∃ old ∈ u.db.executions, old.ident = x.ident := by
    obtain ⟨old, hold, rfl⟩ := Rows.mem_modify.mp hx
    split
    · exact .inr ⟨⟨(congrArg Prod.fst (hident old)).trans ‹_›, hstatus old⟩, old, hold, (hident old).symm⟩
    · exact .inl ⟨hold, ‹_›⟩
  refine .rewrite hknown (.of_executions fun x hx => ?_) (fun d hd => ?_) ?_
  · rcases hrow hx with ⟨hold, _⟩ | ⟨⟨_, heq⟩, old, hold, hsame⟩
    · exact ⟨x, hold, rfl, rfl, fun h => h⟩
    · obtain ⟨hid, hjob⟩ := Prod.mk.inj hsame
      exact ⟨old, hold, hid, hjob, fun h => absurd (heq.symm.trans h) hpending⟩
  · rcases opened_of_executions hd with hopen | ⟨x, hx, hnew, ⟨hxStatus, rfl⟩ | ⟨hxStatus, rfl⟩⟩
    · refine hopen.kept fun hmem => hds d hmem ?_ ?_
      · rintro rfl
        obtain ⟨⟨x, hx, hid, hxStatus⟩, _⟩ := hd
        rcases hrow hx with ⟨_, hne⟩ | ⟨⟨_, heq⟩, _⟩
        · exact hne hid
        · exact hpending (heq.symm.trans hxStatus)
      · rintro rfl
        obtain ⟨x, hx, hid, hxStatus⟩ := hd
        rcases hrow hx with ⟨_, hne⟩ | ⟨⟨_, heq⟩, _⟩
        · exact absurd hid hne
        · exact heq.symm.trans hxStatus
    · rcases hrow hx with ⟨hold, _⟩ | ⟨⟨_, heq⟩, _⟩
      · exact absurd hold hnew
      · exact absurd (heq.symm.trans hxStatus) hpending
    · rcases hrow hx with ⟨hold, _⟩ | ⟨⟨hid, heq⟩, _⟩
      · exact absurd hold hnew
      · exact .inl (hid ▸ hrunning (heq.symm.trans hxStatus))
  · rintro _ rfl
    refine ⟨fun x hx hid hxStatus => ?_, hknown.taken_of_names hnames⟩
    rcases hrow hx with ⟨_, hne⟩ | ⟨⟨_, heq⟩, _⟩
    · exact hne hid
    · exact hpending (heq.symm.trans hxStatus)

/-! ### New rows -/

theorem mem_snoc {rows : List α} {new row : α} (h : row ∈ rows ++ [new]) : row ∈ rows ∨ row = new := by
  rwa [List.mem_append, List.mem_singleton] at h

theorem Step.insertJob {job : Job} (hdrawn : job.id ∈ g.drawn) :
    Step g u { u with db := { u.db with jobs := u.db.jobs ++ [job] } } { g with drawn := g.drawn \ {job.id} } where
  fault := rfl
  next := le_rfl
  uses id huses := by
    refine huses.elim (P := fun id => Uses u id ∨ g.Has id ∧ id ∉ g.drawn \ {job.id})
      (fun other hother => ?_) (fun _ h => .inl (.execution h))
      (fun _ h => ⟨.inl (.entry h), .inl (.entryExecution h)⟩) (fun _ h => .inl (.item h))
      fun _ h => ⟨.inl (.taskEntry h), .inl (.taskExecution h)⟩
    rcases mem_snoc hother with hold | rfl
    · exact .inl (.job hold)
    · exact .inr ⟨.inl hdrawn, fun hnot => hnot.2 rfl⟩
  jobs other hother := (mem_snoc hother).imp (fun hold => ⟨other, hold, rfl⟩) fun heq => by rwa [heq]
  executions x hx := .inl ⟨x, hx, rfl, rfl, fun h => h⟩
  entries row hrow := .inl ⟨row, hrow, rfl⟩
  nodes node hnode := .inl ⟨node, hnode, rfl⟩
  dues d hd := by
    have hopen : d.Open u := by cases d <;> exact hd
    exact hopen.kept id
  facts _ hf := .inl hf
  drawn _ hid := .inl hid.1
  unqueued _ he := .inl he

/-- An execution that is made has to be queued, and only by this call. -/
theorem Step.insertExecution (hknown : Known cron g u) {x : Execution} (hdrawn : x.id ∈ g.drawn)
    (hstatus : x.status = .pending) :
    Step g u { u with db := { u.db with executions := u.db.executions ++ [x] } }
      { dues := insert (.start x.id) g.dues, facts := insert (.job x.id x.jobId) g.facts
        drawn := g.drawn \ {x.id}, unqueued := insert x.id g.unqueued } where
  fault := rfl
  next := le_rfl
  uses id huses := by
    refine huses.elim (P := fun id => Uses u id ∨ g.Has id ∧ id ∉ g.drawn \ {x.id})
      (fun _ h => .inl (.job h)) (fun y hy => ?_)
      (fun _ h => ⟨.inl (.entry h), .inl (.entryExecution h)⟩) (fun _ h => .inl (.item h))
      fun _ h => ⟨.inl (.taskEntry h), .inl (.taskExecution h)⟩
    rcases mem_snoc hy with hold | rfl
    · exact .inl (.execution hold)
    · exact .inr ⟨.inl hdrawn, fun hnot => hnot.2 rfl⟩
  jobs job hjob := .inl ⟨job, hjob, rfl⟩
  executions y hy := (mem_snoc hy).imp (fun hold => ⟨y, hold, rfl, rfl, fun h => h⟩) fun heq => by rwa [heq]
  entries row hrow := .inl ⟨row, hrow, rfl⟩
  nodes node hnode := .inl ⟨node, hnode, rfl⟩
  dues d hd := by
    rcases opened_of_executions hd with hopen | ⟨y, hy, hnew, hdue⟩
    · exact hopen.kept .inr
    · obtain rfl := (mem_snoc hy).resolve_left hnew
      rcases hdue with ⟨_, rfl⟩ | ⟨hrunning, _⟩
      · exact .inl (.inl rfl)
      · cases hstatus.symm.trans hrunning
  facts f hf := by
    refine hf.symm.imp_right ?_
    rintro rfl
    refine ⟨fun y hy hid => ?_, .inr (.inl hdrawn), fun hnot => hnot.2 rfl⟩
    rcases mem_snoc hy with hold | rfl
    · exact absurd (hid ▸ .execution hold) (hknown.drawn x.id hdrawn)
    · rfl
  drawn _ hid := .inl hid.1
  unqueued e he := by
    refine he.symm.imp_right ?_
    rintro rfl
    exact ⟨hdrawn, fun hnot => hnot.2 rfl⟩

theorem Step.insertEntry (hknown : Known cron g u) {row : QueueEntry} (hdrawn : row.id ∈ g.drawn)
    (hunqueued : row.executionId ∈ g.unqueued) (hjob : .job row.executionId row.jobId ∈ g.facts)
    (hstatus : row.status = .queued) :
    Step g u { u with db := { u.db with jobQueue := u.db.jobQueue ++ [row] } }
      { g with dues := {d ∈ g.dues | d ≠ .start row.executionId}, drawn := g.drawn \ {row.id}
               unqueued := g.unqueued \ {row.executionId} } where
  fault := rfl
  next := le_rfl
  uses id huses := by
    refine huses.elim (P := fun id => Uses u id ∨ g.Has id ∧ id ∉ g.drawn \ {row.id})
      (fun _ h => .inl (.job h)) (fun _ h => .inl (.execution h)) (fun other hother => ?_)
      (fun _ h => .inl (.item h)) fun _ h => ⟨.inl (.taskEntry h), .inl (.taskExecution h)⟩
    rcases mem_snoc hother with hold | rfl
    · exact ⟨.inl (.entry hold), .inl (.entryExecution hold)⟩
    · refine ⟨.inr ⟨.inl hdrawn, fun hnot => hnot.2 rfl⟩, .inr ⟨.inr (.inl hunqueued), fun hnot => ?_⟩⟩
      exact hknown.unqueued _ hunqueued hnot.1
  jobs job hjob := .inl ⟨job, hjob, rfl⟩
  executions x hx := .inl ⟨x, hx, rfl, rfl, fun h => h⟩
  entries other hother := by
    refine (mem_snoc hother).imp (fun hold => ⟨other, hold, rfl⟩) ?_
    rintro rfl
    exact ⟨hdrawn, hunqueued, fun hnot => hnot.2 rfl, hknown.facts _ hjob⟩
  nodes node hnode := .inl ⟨node, hnode, rfl⟩
  dues d hd := by
    rcases opened_of_entries hd with hopen | ⟨old, hold, hqueued, rfl, hnone⟩ | ⟨new, hnew, hnot, hprocessing, rfl⟩
    · refine hopen.kept fun hmem => ⟨hmem, ?_⟩
      rintro rfl
      exact hd.2 row (List.mem_append_right _ List.mem_cons_self) rfl hstatus
    · exact absurd hqueued (hnone old (List.mem_append_left _ hold) rfl)
    · obtain rfl := (mem_snoc hnew).resolve_left hnot
      cases hstatus.symm.trans hprocessing
  facts _ hf := .inl hf
  drawn _ hid := .inl hid.1
  unqueued _ he := .inl he.1

/-! ### Calls that start -/

section

variable {gs : List Share}

theorem Apart.snoc {owned : Share → Set Uuid} (h : Apart owned gs) (hnone : owned g = ∅) : Apart owned (gs ++ [g]) := by
  have hold {k : Nat} {other : Share} {id : Uuid} (hk : (gs ++ [g])[k]? = some other) (hid : id ∈ owned other) :
      gs[k]? = some other := by
    rcases lt_or_ge k gs.length with hlt | hge
    · rwa [List.getElem?_append_left hlt] at hk
    · rw [List.getElem?_append_right hge] at hk
      obtain rfl := List.mem_singleton.mp (List.mem_of_getElem? hk)
      rw [hnone] at hid
      cases hid
  intro i j a b id ha hb hida hidb
  exact h (hold ha hida) (hold hb hidb) hida hidb

namespace Inv

theorem snoc (h : Inv u gs) (ds : Set Due) : Inv u (gs ++ [{ dues := ds }]) := by
  have hmem {share : Share} (hshare : share ∈ gs ++ [{ dues := ds }]) : share ∈ gs ∨ share = { dues := ds } := by
    rwa [List.mem_append, List.mem_singleton] at hshare
  exact {
    fault := h.fault
    uses := h.uses
    entryJob := h.entryJob
    dues := fun d hd => (h.dues d hd).imp fun _ hg => ⟨List.mem_append_left _ hg.1, hg.2⟩
    facts := fun share hshare f hf => by
      rcases hmem hshare with hold | rfl
      · exact h.facts share hold f hf
      · cases hf
    subjects := fun share hshare f hf => by
      rcases hmem hshare with hold | rfl
      · refine ⟨(h.subjects share hold f hf).1, fun other hother => ?_⟩
        rcases hmem hother with hother | rfl
        · exact (h.subjects share hold f hf).2 other hother
        · exact Set.notMem_empty _
      · cases hf
    drawn := fun share hshare id hid => by
      rcases hmem hshare with hold | rfl
      · exact h.drawn share hold id hid
      · cases hid
    drawnApart := Apart.snoc h.drawnApart rfl
    unqueued := fun share hshare e he => by
      rcases hmem hshare with hold | rfl
      · refine ⟨(h.unqueued share hold e he).1, fun other hother => ?_⟩
        rcases hmem hother with hother | rfl
        · exact (h.unqueued share hold e he).2 other hother
        · exact Set.notMem_empty _
      · cases he
    entryless := fun share hshare e he => by
      rcases hmem hshare with hold | rfl
      · exact h.entryless share hold e he
      · cases he
    unqueuedApart := Apart.snoc h.unqueuedApart rfl }

theorem of_db (h : Inv u gs) (hdb : v.db = u.db) (hfault : v.fault = none) (hnext : v.nextUuid = u.nextUuid)
    (hheap : v.memoryQueue = u.memoryQueue) (hspawned : v.spawned ⊆ u.spawned)
    (hdues : ∀ d : Due, d.Open v → ∃ g ∈ gs, d ∈ g.dues) : Inv v gs := by
  have huses (id : Uuid) (hid : Uses v id) : Uses u id := by
    refine hid.elim (fun _ hjob => .job (hdb ▸ hjob)) (fun _ hx => .execution (hdb ▸ hx)) (fun _ hrow => ?_)
      (fun _ hitem => .item (hheap ▸ hitem)) fun _ htask => ⟨.taskEntry (hspawned htask), .taskExecution (hspawned htask)⟩
    rw [hdb] at hrow
    exact ⟨.entry hrow, .entryExecution hrow⟩
  exact {
    fault := hfault
    uses := fun id hid => hnext ▸ h.uses id (huses id hid)
    entryJob := hdb ▸ h.entryJob
    dues := hdues
    facts := fun share hshare f hf => (h.facts share hshare f hf).of_db hdb
    subjects := fun share hshare f hf => hnext ▸ h.subjects share hshare f hf
    drawn := fun share hshare id hid =>
      ⟨hnext ▸ (h.drawn share hshare id hid).1, fun hused => (h.drawn share hshare id hid).2 (huses id hused)⟩
    drawnApart := h.drawnApart
    unqueued := fun share hshare e he => hnext ▸ h.unqueued share hshare e he
    entryless := fun share hshare e he => hdb ▸ h.entryless share hshare e he
    unqueuedApart := h.unqueuedApart }

end Inv

end

end Dues

end Serverust
