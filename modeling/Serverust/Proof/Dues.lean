import Serverust.Library.Ledger
import Serverust.Proof.Services

/-!
# What the calls still have to do

An execution that is pending has to be queued, one that is running has to end, and an entry that is being processed
has to be settled. Each of these is due, and the ledger says which call has to do it. A call also owns the ids that
it has drawn and not used yet, so that nobody else can use them, and keeps what it has learned of the tables if that
can no longer change.
-/

namespace Serverust

namespace Dues

open Calendar Resumption

/-! ### Dues -/

inductive Due where
  | start (executionId : Uuid)
  | finish (executionId : Uuid)
  | settle (entryId executionId : Uuid)

/-- What is still to be done in this state. An entry whose task sleeps is settled. -/
def Due.Open (w : World) : Due → Prop
  | .start e => (∃ x ∈ w.db.executions, x.id = e ∧ x.status = .pending) ∧
      ∀ row ∈ w.db.jobQueue, row.executionId = e → row.status ≠ .queued
  | .finish e => ∃ x ∈ w.db.executions, x.id = e ∧ x.status = .running
  | .settle r e => (∃ row ∈ w.db.jobQueue, row.id = r ∧ row.executionId = e ∧ row.status = .processing) ∧
      ⟨r, e⟩ ∉ w.spawned

/-! ### Facts -/

/-- The ids that something in the state has. -/
inductive Uses (w : World) : Uuid → Prop
  | job {job : Job} (h : job ∈ w.db.jobs) : Uses w job.id
  | execution {x : Execution} (h : x ∈ w.db.executions) : Uses w x.id
  | entry {row : QueueEntry} (h : row ∈ w.db.jobQueue) : Uses w row.id
  | entryExecution {row : QueueEntry} (h : row ∈ w.db.jobQueue) : Uses w row.executionId
  | item {item : QueueItem} (h : item ∈ w.memoryQueue.items) : Uses w item.executionId
  | taskEntry {task : RequeueTask} (h : task ∈ w.spawned) : Uses w task.entryId
  | taskExecution {task : RequeueTask} (h : task ∈ w.spawned) : Uses w task.executionId

theorem Uses.elim {w : World} {id : Uuid} {P : Uuid → Prop} (h : Uses w id) (hjobs : ∀ job ∈ w.db.jobs, P job.id)
    (hexecutions : ∀ x ∈ w.db.executions, P x.id) (hentries : ∀ row ∈ w.db.jobQueue, P row.id ∧ P row.executionId)
    (hitems : ∀ item ∈ w.memoryQueue.items, P item.executionId)
    (htasks : ∀ task ∈ w.spawned, P task.entryId ∧ P task.executionId) : P id := by
  cases h with
  | job h => exact hjobs _ h
  | execution h => exact hexecutions _ h
  | entry h => exact (hentries _ h).1
  | entryExecution h => exact (hentries _ h).2
  | item h => exact hitems _ h
  | taskEntry h => exact (htasks _ h).1
  | taskExecution h => exact (htasks _ h).2

/-- What a call can learn for good. Of a node it learns that it is there as long as its job is. -/
inductive Fact where
  | used (id : Uuid)
  | entry (id executionId : Uuid)
  | past (executionId : Uuid)
  | job (executionId jobId : Uuid)
  | node (id jobId : Uuid)

/-- The id that has to be in use, so that no other row gets it. -/
def Fact.subject : Fact → Uuid
  | .used id => id
  | .entry id _ => id
  | .past e => e
  | .job e _ => e
  | .node _ j => j

def Fact.Holds (w : World) : Fact → Prop
  | .used _ => True
  | .entry r e => ∀ row ∈ w.db.jobQueue, row.id = r → row.executionId = e
  | .past e => ∀ x ∈ w.db.executions, x.id = e → x.status ≠ .pending
  | .job e j => ∀ x ∈ w.db.executions, x.id = e → x.jobId = j
  | .node n j => (∃ node ∈ w.db.dagNodeExecutions, node.id = n ∧ node.jobId = j) ∨ ∀ job ∈ w.db.jobs, job.id ≠ j

/-! ### Shares -/

/-- What one call has: its dues, its facts, the ids it has drawn and not used, and the executions it has made that
never had an entry. -/
structure Share where
  dues : Set Due := ∅
  facts : Set Fact := ∅
  drawn : Set Uuid := ∅
  unqueued : Set Uuid := ∅

/-- A call that has nothing left to do. -/
def Share.Idle (g : Share) : Prop := g.dues = ∅

/-- The ids that a call knows to be in use, or owns. -/
def Share.Has (g : Share) (id : Uuid) : Prop := id ∈ g.drawn ∨ id ∈ g.unqueued ∨ ∃ f ∈ g.facts, f.subject = id

/-- No two calls own the same id. -/
def Apart (owned : Share → Set Uuid) (gs : List Share) : Prop :=
  ∀ {i j : Nat} {g g' : Share} {id : Uuid}, gs[i]? = some g → gs[j]? = some g' → id ∈ owned g → id ∈ owned g' → i = j

/-- An entry has the job of its execution. -/
def EntryJob (db : Db) : Prop := ∀ row ∈ db.jobQueue, ∀ x ∈ db.executions, x.id = row.executionId → x.jobId = row.jobId

structure Inv (w : World) (gs : List Share) : Prop where
  fault : w.fault = none
  uses : ∀ id, Uses w id → id < w.nextUuid
  entryJob : EntryJob w.db
  dues : ∀ d : Due, d.Open w → ∃ g ∈ gs, d ∈ g.dues
  facts : ∀ g ∈ gs, ∀ f ∈ g.facts, f.Holds w
  subjects : ∀ g ∈ gs, ∀ f ∈ g.facts, f.subject < w.nextUuid ∧ ∀ g' ∈ gs, f.subject ∉ g'.drawn
  drawn : ∀ g ∈ gs, ∀ id ∈ g.drawn, id < w.nextUuid ∧ ¬ Uses w id
  drawnApart : Apart Share.drawn gs
  unqueued : ∀ g ∈ gs, ∀ e ∈ g.unqueued, e < w.nextUuid ∧ ∀ g' ∈ gs, e ∉ g'.drawn
  entryless : ∀ g ∈ gs, ∀ e ∈ g.unqueued, ∀ row ∈ w.db.jobQueue, row.executionId ≠ e
  unqueuedApart : Apart Share.unqueued gs

/-! ### One action -/

/-- What an action of a call may do, and what its share becomes. -/
structure Step (g : Share) (u v : World) (g' : Share) : Prop where
  fault : v.fault = u.fault
  next : u.nextUuid ≤ v.nextUuid
  uses : ∀ id, Uses v id → Uses u id ∨ g.Has id ∧ id ∉ g'.drawn
  jobs : ∀ job ∈ v.db.jobs, (∃ old ∈ u.db.jobs, old.id = job.id) ∨ job.id ∈ g.drawn
  executions : ∀ x ∈ v.db.executions, (∃ old ∈ u.db.executions, old.id = x.id ∧ old.jobId = x.jobId ∧
    (x.status = .pending → old.status = .pending)) ∨ x.id ∈ g.drawn
  entries : ∀ row ∈ v.db.jobQueue, (∃ old ∈ u.db.jobQueue, old.ident = row.ident) ∨
    row.id ∈ g.drawn ∧ row.executionId ∈ g.unqueued ∧ row.executionId ∉ g'.unqueued ∧
      ∀ x ∈ v.db.executions, x.id = row.executionId → x.jobId = row.jobId
  nodes : ∀ node ∈ u.db.dagNodeExecutions, (∃ kept ∈ v.db.dagNodeExecutions, kept.ident = node.ident) ∨
    ∀ job ∈ v.db.jobs, job.id ≠ node.jobId
  dues : ∀ d : Due, d.Open v → d ∈ g'.dues ∨ d ∉ g.dues ∧ d.Open u
  facts : ∀ f ∈ g'.facts, f ∈ g.facts ∨ f.Holds v ∧ (Uses u f.subject ∨ g.Has f.subject) ∧ f.subject ∉ g'.drawn
  drawn : ∀ id ∈ g'.drawn, id ∈ g.drawn ∨ u.nextUuid ≤ id ∧ id < v.nextUuid
  unqueued : ∀ e ∈ g'.unqueued, e ∈ g.unqueued ∨ e ∈ g.drawn ∧ e ∉ g'.drawn

theorem ids_of_ident {row row' : QueueEntry} (h : row.ident = row'.ident) :
    row.id = row'.id ∧ row.executionId = row'.executionId ∧ row.jobId = row'.jobId := by
  rwa [QueueEntry.ident, QueueEntry.ident, Prod.mk.injEq, Prod.mk.injEq] at h

section

variable {gs : List Share} {g g' share : Share} {u v w : World} {i : Nat} {f : Fact} {id : Uuid}

/-- What was due stays with whoever has it. -/
theorem Due.Open.kept {d : Due} {ds : Set Due} (h : d.Open u) (hds : d ∈ g.dues → d ∈ ds) :
    d ∈ ds ∨ d ∉ g.dues ∧ d.Open u :=
  (Classical.em (d ∈ g.dues)).imp hds fun hnot => ⟨hnot, h⟩

/-- A fact stays true as long as nobody else uses its subject for another row. -/
theorem Fact.Holds.step (h : f.Holds u) (hstep : Step g u v g') (hsubject : f.subject ∉ g.drawn) : f.Holds v := by
  cases f with
  | used id => trivial
  | entry r e =>
      intro row hrow hid
      rcases hstep.entries row hrow with ⟨old, hold, heq⟩ | ⟨hdrawn, _⟩
      · obtain ⟨hrow, hexecution, _⟩ := ids_of_ident heq
        exact hexecution.symm.trans (h old hold (hrow.trans hid))
      · exact absurd (hid ▸ hdrawn) hsubject
  | past e =>
      intro x hx hid hpending
      rcases hstep.executions x hx with ⟨old, hold, holdId, _, hstatus⟩ | hdrawn
      · exact h old hold (holdId.trans hid) (hstatus hpending)
      · exact hsubject (hid ▸ hdrawn)
  | job e j =>
      intro x hx hid
      rcases hstep.executions x hx with ⟨old, hold, holdId, hjob, _⟩ | hdrawn
      · exact hjob.symm.trans (h old hold (holdId.trans hid))
      · exact absurd (hid ▸ hdrawn) hsubject
  | node n j =>
      rcases h with ⟨node, hnode, hid, hjob⟩ | hgone
      · refine (hstep.nodes node hnode).imp ?_ fun hgone => hjob ▸ hgone
        rintro ⟨kept, hkept, heq⟩
        simp only [DagNodeExecution.ident, Prod.mk.injEq] at heq
        exact ⟨kept, hkept, heq.1.trans hid, heq.2.2.trans hjob⟩
      · refine .inr fun job hjob hid => ?_
        rcases hstep.jobs job hjob with ⟨old, hold, holdId⟩ | hdrawn
        · exact hgone old hold (holdId.trans hid)
        · exact hsubject (hid ▸ hdrawn)

theorem Apart.set {owned : Share → Set Uuid} (h : Apart owned gs) (hg : gs[i]? = some g)
    (hnew : ∀ id ∈ owned g', id ∈ owned g ∨ ∀ other ∈ gs, id ∉ owned other) : Apart owned (gs.set i g') := by
  obtain ⟨hi, _⟩ := List.getElem?_eq_some_iff.mp hg
  have hother {j : Nat} {other : Share} {id : Uuid} (hj : gs[j]? = some other) (hid : id ∈ owned g')
      (hidOther : id ∈ owned other) : i = j := by
    rcases hnew id hid with hold | hnone
    · exact h hg hj hold hidOther
    · exact absurd hidOther (hnone other (List.mem_of_getElem? hj))
  intro j k a b id ha hb hida hidb
  by_cases hij : i = j
  · by_cases hik : i = k
    · exact hij.symm.trans hik
    · subst hij
      rw [List.getElem?_set_self hi, Option.some.injEq] at ha
      rw [List.getElem?_set_ne hik] at hb
      subst ha
      exact hother hb hida hidb
  · rw [List.getElem?_set_ne hij] at ha
    by_cases hik : i = k
    · subst hik
      rw [List.getElem?_set_self hi, Option.some.injEq] at hb
      subst hb
      exact (hother ha hidb hida).symm
    · rw [List.getElem?_set_ne hik] at hb
      exact h ha hb hida hidb

namespace Inv

/-- An id that is in use, or that a call has, is nobody else's to use. -/
theorem taken (h : Inv u gs) (hg : gs[i]? = some g) (hid : Uses u id ∨ g.Has id) :
    id < u.nextUuid ∧ ∀ j other, j ≠ i → gs[j]? = some other → id ∉ other.drawn := by
  have hmem := List.mem_of_getElem? hg
  rcases hid with huses | hdrawn | hunqueued | ⟨f, hf, rfl⟩
  · exact ⟨h.uses id huses, fun j other _ hj hdrawn => (h.drawn other (List.mem_of_getElem? hj) id hdrawn).2 huses⟩
  · exact ⟨(h.drawn g hmem id hdrawn).1, fun j other hne hj hother => hne (h.drawnApart hj hg hother hdrawn)⟩
  · obtain ⟨hlt, hnot⟩ := h.unqueued g hmem id hunqueued
    exact ⟨hlt, fun j other _ hj => hnot other (List.mem_of_getElem? hj)⟩
  · obtain ⟨hlt, hnot⟩ := h.subjects g hmem f hf
    exact ⟨hlt, fun j other _ hj => hnot other (List.mem_of_getElem? hj)⟩

/-- A call that acts neither owns an id that another call has, nor draws it. -/
theorem kept (h : Inv u gs) (hg : gs[i]? = some g) (hstep : Step g u v g') {j : Nat} (hne : j ≠ i)
    (hj : gs[j]? = some share) (hid : share.Has id) : id ∉ g.drawn ∧ id ∉ g'.drawn := by
  obtain ⟨hlt, hnot⟩ := h.taken hj (.inr hid)
  have hmine := hnot i g (Ne.symm hne) hg
  refine ⟨hmine, fun hdrawn => ?_⟩
  rcases hstep.drawn id hdrawn with hold | ⟨hle, _⟩
  · exact hmine hold
  · exact absurd hlt (not_lt.mpr hle)

theorem unused (h : Inv u gs) (hg : gs[i]? = some g) (hstep : Step g u v g') (hid : id ∈ g'.drawn) :
    id < v.nextUuid ∧ ¬ Uses v id := by
  have hmem := List.mem_of_getElem? hg
  rcases hstep.drawn id hid with hold | ⟨hle, hlt⟩
  · obtain ⟨hlt, hunused⟩ := h.drawn g hmem id hold
    refine ⟨lt_of_lt_of_le hlt hstep.next, fun huses => ?_⟩
    rcases hstep.uses id huses with huses | ⟨_, hnot⟩
    · exact hunused huses
    · exact hnot hid
  · refine ⟨hlt, fun huses => ?_⟩
    rcases hstep.uses id huses with huses | ⟨_, hnot⟩
    · exact absurd (h.uses id huses) (not_lt.mpr hle)
    · exact hnot hid

theorem step_other (h : Inv u gs) (hg : gs[i]? = some g) (hstep : Step g u v g') {j : Nat} (hne : j ≠ i)
    (hj : gs[j]? = some share) (hid : share.Has id) (hnot : ∀ other ∈ gs, id ∉ other.drawn) :
    ∀ other ∈ gs.set i g', id ∉ other.drawn := by
  intro other hother
  obtain rfl | ⟨k, _, hk⟩ := mem_set_index hother
  · exact (h.kept hg hstep hne hj hid).2
  · exact hnot other (List.mem_of_getElem? hk)

theorem step_entryJob (h : Inv u gs) (hg : gs[i]? = some g) (hstep : Step g u v g') :
    EntryJob v.db := by
  intro row hrow x hx hid
  rcases hstep.entries row hrow with ⟨old, hold, heq⟩ | ⟨_, _, _, hjob⟩
  · obtain ⟨_, hsame, hsameJob⟩ := ids_of_ident heq
    rcases hstep.executions x hx with ⟨oldx, holdx, hxid, hxjob, _⟩ | hdrawn
    · have hexecution : oldx.id = old.executionId := by rw [hxid, hid, hsame]
      rw [← hxjob, h.entryJob old hold oldx holdx hexecution, hsameJob]
    · refine absurd ?_ (h.drawn g (List.mem_of_getElem? hg) x.id hdrawn).2
      rw [hid, ← hsame]
      exact .entryExecution hold
  · exact hjob x hx hid

theorem step_dues (h : Inv u gs) (hg : gs[i]? = some g) (hstep : Step g u v g') (d : Due) (hd : d.Open v) :
    ∃ share ∈ gs.set i g', d ∈ share.dues := by
  rcases hstep.dues d hd with hmine | ⟨hnot, hopen⟩
  · exact ⟨g', List.mem_set (List.getElem?_eq_some_iff.mp hg).1 _, hmine⟩
  · obtain ⟨other, hother, hdue⟩ := h.dues d hopen
    obtain ⟨j, hj⟩ := List.mem_iff_getElem?.mp hother
    have hne : i ≠ j := by
      rintro rfl
      rw [hg, Option.some.injEq] at hj
      exact hnot (hj ▸ hdue)
    refine ⟨other, List.mem_iff_getElem?.mpr ⟨j, ?_⟩, hdue⟩
    rw [List.getElem?_set_ne hne]
    exact hj

theorem step_facts (h : Inv u gs) (hg : gs[i]? = some g) (hstep : Step g u v g') :
    ∀ share ∈ gs.set i g', ∀ f ∈ share.facts, f.Holds v := by
  intro share hshare f hf
  have hmem := List.mem_of_getElem? hg
  obtain rfl | ⟨j, hne, hj⟩ := mem_set_index hshare
  · rcases hstep.facts f hf with hold | ⟨hholds, _⟩
    · exact (h.facts g hmem f hold).step hstep ((h.subjects g hmem f hold).2 g hmem)
    · exact hholds
  · have hmine := (h.kept hg hstep hne hj (.inr (.inr ⟨f, hf, rfl⟩))).1
    exact (h.facts share (List.mem_of_getElem? hj) f hf).step hstep hmine

theorem step_subjects (h : Inv u gs) (hg : gs[i]? = some g) (hstep : Step g u v g') :
    ∀ share ∈ gs.set i g', ∀ f ∈ share.facts,
      f.subject < v.nextUuid ∧ ∀ other ∈ gs.set i g', f.subject ∉ other.drawn := by
  intro share hshare f hf
  obtain rfl | ⟨j, hne, hj⟩ := mem_set_index hshare
  · -- this call has learned the fact before, or learns it now
    have hhas : Uses u f.subject ∨ g.Has f.subject := by
      rcases hstep.facts f hf with hold | ⟨_, hhas, _⟩
      · exact .inr (.inr (.inr ⟨f, hold, rfl⟩))
      · exact hhas
    obtain ⟨hlt, hnot⟩ := h.taken hg hhas
    refine ⟨lt_of_lt_of_le hlt hstep.next, fun other hother => ?_⟩
    obtain rfl | ⟨k, hk, hgetk⟩ := mem_set_index hother
    · intro hdrawn
      rcases hstep.facts f hf with hold | ⟨_, _, hnew⟩
      · rcases hstep.drawn f.subject hdrawn with hmine | ⟨hle, _⟩
        · exact (h.subjects g (List.mem_of_getElem? hg) f hold).2 g (List.mem_of_getElem? hg) hmine
        · exact absurd hlt (not_lt.mpr hle)
      · exact hnew hdrawn
    · exact hnot k other hk hgetk
  · obtain ⟨hlt, hnot⟩ := h.subjects share (List.mem_of_getElem? hj) f hf
    exact ⟨lt_of_lt_of_le hlt hstep.next, h.step_other hg hstep hne hj (.inr (.inr ⟨f, hf, rfl⟩)) hnot⟩

theorem step_drawn (h : Inv u gs) (hg : gs[i]? = some g) (hstep : Step g u v g') :
    ∀ share ∈ gs.set i g', ∀ id ∈ share.drawn, id < v.nextUuid ∧ ¬ Uses v id := by
  intro share hshare id hid
  obtain rfl | ⟨j, hne, hj⟩ := mem_set_index hshare
  · exact h.unused hg hstep hid
  · obtain ⟨hlt, hunused⟩ := h.drawn share (List.mem_of_getElem? hj) id hid
    refine ⟨lt_of_lt_of_le hlt hstep.next, fun huses => ?_⟩
    rcases hstep.uses id huses with hold | ⟨hhas, _⟩
    · exact hunused hold
    · exact (h.taken hg (.inr hhas)).2 j share hne hj hid

theorem step_unqueued (h : Inv u gs) (hg : gs[i]? = some g) (hstep : Step g u v g') :
    ∀ share ∈ gs.set i g', ∀ e ∈ share.unqueued, e < v.nextUuid ∧ ∀ other ∈ gs.set i g', e ∉ other.drawn := by
  intro share hshare e he
  obtain rfl | ⟨j, hne, hj⟩ := mem_set_index hshare
  · have hhas : g.Has e := by
      rcases hstep.unqueued e he with hold | ⟨hdrawn, _⟩
      · exact .inr (.inl hold)
      · exact .inl hdrawn
    obtain ⟨hlt, hnot⟩ := h.taken hg (.inr hhas)
    refine ⟨lt_of_lt_of_le hlt hstep.next, fun other hother => ?_⟩
    obtain rfl | ⟨k, hk, hgetk⟩ := mem_set_index hother
    · intro hdrawn
      rcases hstep.unqueued e he with hold | ⟨_, hgiven⟩
      · rcases hstep.drawn e hdrawn with hmine | ⟨hle, _⟩
        · exact (h.unqueued g (List.mem_of_getElem? hg) e hold).2 g (List.mem_of_getElem? hg) hmine
        · exact absurd hlt (not_lt.mpr hle)
      · exact hgiven hdrawn
    · exact hnot k other hk hgetk
  · obtain ⟨hlt, hnot⟩ := h.unqueued share (List.mem_of_getElem? hj) e he
    exact ⟨lt_of_lt_of_le hlt hstep.next, h.step_other hg hstep hne hj (.inr (.inl he)) hnot⟩

theorem step_entryless (h : Inv u gs) (hg : gs[i]? = some g) (hstep : Step g u v g') :
    ∀ share ∈ gs.set i g', ∀ e ∈ share.unqueued, ∀ row ∈ v.db.jobQueue, row.executionId ≠ e := by
  intro share hshare e he row hrow heq
  have hmem := List.mem_of_getElem? hg
  obtain rfl | ⟨j, hne, hj⟩ := mem_set_index hshare
  · rcases hstep.entries row hrow with ⟨old, hold, hident⟩ | ⟨_, _, hnot, _⟩
    · obtain ⟨_, hsame, _⟩ := ids_of_ident hident
      rcases hstep.unqueued e he with hmine | ⟨hdrawn, _⟩
      · exact h.entryless g hmem e hmine old hold (hsame.trans heq)
      · refine (h.drawn g hmem e hdrawn).2 ?_
        rw [← heq, ← hsame]
        exact .entryExecution hold
    · exact hnot (heq ▸ he)
  · rcases hstep.entries row hrow with ⟨old, hold, hident⟩ | ⟨_, hmine, _, _⟩
    · obtain ⟨_, hsame, _⟩ := ids_of_ident hident
      exact h.entryless share (List.mem_of_getElem? hj) e he old hold (hsame.trans heq)
    · exact hne (h.unqueuedApart hj hg he (heq ▸ hmine))

/-- What one call does keeps the ledger, whatever the others have. -/
theorem step (h : Inv u gs) (hg : gs[i]? = some g) (hstep : Step g u v g') : Inv v (gs.set i g') where
  fault := hstep.fault.trans h.fault
  uses id huses := by
    refine lt_of_lt_of_le (h.taken hg ?_).1 hstep.next
    exact (hstep.uses id huses).imp_right And.left
  entryJob := h.step_entryJob hg hstep
  dues := h.step_dues hg hstep
  facts := h.step_facts hg hstep
  subjects := h.step_subjects hg hstep
  drawn := h.step_drawn hg hstep
  drawnApart := by
    refine Apart.set h.drawnApart hg fun id hid => (hstep.drawn id hid).imp_right ?_
    rintro ⟨hle, _⟩ other hother hdrawn
    exact absurd (h.drawn other hother id hdrawn).1 (not_lt.mpr hle)
  unqueued := h.step_unqueued hg hstep
  entryless := h.step_entryless hg hstep
  unqueuedApart := by
    refine Apart.set h.unqueuedApart hg fun e he => (hstep.unqueued e he).imp_right ?_
    rintro ⟨hdrawn, _⟩ other hother hunqueued
    exact (h.unqueued other hother e hunqueued).2 g (List.mem_of_getElem? hg) hdrawn

end Inv

end

/-! ### Statements beside the queue -/

/-- What is left of the tables after jobs and executions are deleted. -/
structure Thins (db db' : Db) : Prop where
  jobs : ∀ job ∈ db'.jobs, ∃ old ∈ db.jobs, old.id = job.id
  executions : db'.executions ⊆ db.executions
  entries : db'.jobQueue ⊆ db.jobQueue
  kept : ∀ row ∈ db.jobQueue, ∀ x ∈ db'.executions, x.id = row.executionId → row ∈ db'.jobQueue
  nodes : ∀ node ∈ db.dagNodeExecutions, (∃ kept ∈ db'.dagNodeExecutions, kept.ident = node.ident) ∨
    ∀ job ∈ db'.jobs, job.id ≠ node.jobId

namespace Thins

variable {db mid db' : Db} {cron : Cron}

theorem of_nodes (hjobs : db'.jobs.map Job.id = db.jobs.map Job.id) (hexecutions : db'.executions = db.executions)
    (hentries : db'.jobQueue = db.jobQueue)
    (hnodes : ∀ node ∈ db.dagNodeExecutions, ∃ kept ∈ db'.dagNodeExecutions, kept.ident = node.ident) :
    Thins db db' where
  jobs job hjob := by
    have hmem : job.id ∈ db.jobs.map Job.id := hjobs ▸ List.mem_map_of_mem hjob
    exact List.mem_map.mp hmem
  executions := hexecutions ▸ List.Subset.refl _
  entries := hentries ▸ List.Subset.refl _
  kept row hrow _ _ _ := hentries ▸ hrow
  nodes node hnode := .inl (hnodes node hnode)

theorem of_same (hjobs : db'.jobs = db.jobs) (hexecutions : db'.executions = db.executions)
    (hentries : db'.jobQueue = db.jobQueue) (hnodes : db'.dagNodeExecutions = db.dagNodeExecutions) : Thins db db' :=
  of_nodes (congrArg _ hjobs) hexecutions hentries fun node hnode => ⟨node, hnodes ▸ hnode, rfl⟩

theorem refl (db : Db) : Thins db db := of_same rfl rfl rfl rfl

theorem trans (h : Thins db mid) (h' : Thins mid db') : Thins db db' where
  jobs job hjob := by
    obtain ⟨next, hnext, heq⟩ := h'.jobs job hjob
    obtain ⟨old, hold, heq'⟩ := h.jobs next hnext
    exact ⟨old, hold, heq'.trans heq⟩
  executions := List.Subset.trans h'.executions h.executions
  entries := List.Subset.trans h'.entries h.entries
  kept row hrow x hx hid := h'.kept row (h.kept row hrow x (h'.executions hx) hid) x hx hid
  nodes node hnode := by
    have hgone (hjobs : ∀ job ∈ mid.jobs, job.id ≠ node.jobId) : ∀ job ∈ db'.jobs, job.id ≠ node.jobId := by
      intro job hjob
      obtain ⟨old, hold, heq⟩ := h'.jobs job hjob
      exact heq ▸ hjobs old hold
    rcases h.nodes node hnode with ⟨next, hnext, heq⟩ | hjobs
    · have hjob : next.jobId = node.jobId := congrArg (fun ident => ident.2.2) heq
      refine (h'.nodes next hnext).imp ?_ fun hjobs => hjob ▸ hjobs
      rintro ⟨kept, hkept, heq'⟩
      exact ⟨kept, hkept, heq'.trans heq⟩
    · exact .inr (hgone hjobs)

theorem entryJob (h : Thins db db') (hjob : EntryJob db) : EntryJob db' :=
  fun row hrow x hx => hjob row (h.entries hrow) x (h.executions hx)

theorem deleteExecutions (hkeyed : db.Keyed) {gone : Uuid → Bool} {rest : List Execution}
    (hsub : rest.Sublist db.executions)
    (hgone : Rows.Unique Execution.id db.executions → ∀ x ∈ rest, gone x.id = false) :
    Thins db { ExecutionRepository.deleteRows gone db with executions := rest } where
  jobs job hjob := ⟨job, hjob, rfl⟩
  executions := hsub.subset
  entries := List.filter_sublist.subset
  kept row hrow x hx hid := by
    refine List.mem_filter.mpr ⟨hrow, ?_⟩
    rw [← hid, hgone hkeyed.executions x hx]
    rfl
  nodes node hnode := by
    refine .inl ⟨_, List.mem_map_of_mem hnode, ?_⟩
    split <;> rfl

theorem deleteJob (hjob : EntryJob db) (id : Uuid) : Thins db (JobRepository.deleteRows id db) where
  jobs job hmem := by
    obtain ⟨old, hold, heq⟩ := JobRepository.exists_id_deselect.mp ⟨job, hmem, rfl⟩
    exact ⟨old, (Rows.mem_remove.mp hold).1, heq⟩
  executions := List.filter_sublist.subset
  entries row hrow := (List.mem_filter.mp (Rows.mem_remove.mp hrow).1).1
  kept row hrow x hx hid := by
    obtain ⟨hstored, hnot⟩ := List.mem_filter.mp hx
    have hother : x.jobId ≠ id := by
      intro heq
      have hany : (db.executions.any fun y => y.id = x.id && y.jobId = id) = true := by
        refine List.any_eq_true.mpr ⟨x, hstored, ?_⟩
        simp only [heq, decide_true, Bool.and_self]
      beta_reduce at hnot
      rw [hany] at hnot
      cases hnot
    refine Rows.mem_remove.mpr ⟨List.mem_filter.mpr ⟨hrow, ?_⟩, ?_⟩
    · rw [← hid]
      exact hnot
    · exact hjob row hrow x hstored hid ▸ hother
  nodes node hnode := by
    by_cases hown : node.jobId = id
    · refine .inr fun job hmem => ?_
      obtain ⟨old, hold, heq⟩ := JobRepository.exists_id_deselect.mp ⟨job, hmem, rfl⟩
      exact heq ▸ hown ▸ (Rows.mem_remove.mp hold).2
    · refine .inl ⟨_, Rows.mem_remove.mpr ⟨List.mem_map_of_mem hnode, ?_⟩, ?_⟩
      · split <;> exact hown
      · split <;> rfl

end Thins

/-- What is done beside the queue. -/
def beside (cron : Cron) : Monitor Event World Unit Unit where
  locked _ := false
  data _ := ()
  record g _ := g
  fits _ _ := True
  inv w := w.db.Consistent cron
  legal u _ v := u.Spares cron v
  keeps hinv h := (Writes.spares h.db).consistent hinv

instance {cron : Cron} : Admits cron (beside cron) where
  consistent hinv := hinv
  leaves _ h := ⟨h, rfl, rfl, fun _ => rfl⟩

section

variable {α : Type} {cron : Cron} {u v : World} {g g' : Share}

end

end Dues

end Serverust
