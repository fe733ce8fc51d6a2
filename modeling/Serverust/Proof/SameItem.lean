import Serverust.Proof.DeliveryRuns

/-!
# Every path delivers the same item

For a job that is not edited, every delivered item has the fields of the job and of its execution. Its
priority is the one that was asked for, unless a request that gives none meets a job with a priority of its
own, or an automatic retry queues an execution that was asked for at another priority.
-/

namespace Serverust

namespace Deliveries

open Resumption

/-! ### The job -/

/-- The rows agree in all that an item takes from its job. -/
structure Alike (row job : Job) : Prop where
  pythonCode : row.pythonCode = job.pythonCode
  timeoutSeconds : row.timeoutSeconds = job.timeoutSeconds
  memoryLimitMb : row.memoryLimitMb = job.memoryLimitMb
  useCustomVenv : row.useCustomVenv = job.useCustomVenv
  priority : row.priority = job.priority

/-- The stored job has these values. -/
def Stands (job : Job) (rows : List Job) : Prop := ∀ row ∈ rows, row.id = job.id → Alike row job

/-- Edits that leave this job alone. -/
def Leaves (job : Job) (rows rows' : List Job) : Prop := Stands job rows → Stands job rows'

/-- The priority that the request asks for, if it does, and otherwise that of the job. -/
def wanted (job : Job) : Origin → Int
  | .request (some priority) => priority
  | _ => job.priority

theorem new_of_alike {row job : Job} (hid : row.id = job.id) (h : Alike row job) (x : Execution) (priority : Int) :
    QueueItem.new x row priority = QueueItem.new x job priority := by
  simp only [QueueItem.new, hid, h.pythonCode, h.timeoutSeconds, h.memoryLimitMb, h.useCustomVenv]

/-- The job keeps its values, in the table and in what the tasks have read. -/
structure Unedited (job : Job) (w : World) (trace : List Event) : Prop where
  stands : Stands job w.db.jobs
  read : ∀ id row, .sql (.getJob id (some row)) ∈ trace → row.id = job.id → Alike row job

section

variable {job : Job} {t : Tag} {u v w : World} {tags : List Tag} {trace : List Event} {ev : Event}

theorem Stands.enable {rows : List Job} (h : Stands job rows) {read : Job} (hread : read.id = job.id → Alike read job)
    (now : String) : Stands job
      (Rows.modify Job.id read.id (Job.over { read with enabled := true, updatedAt := now }) rows) := by
  intro row hrow hid
  obtain ⟨old, hold, rfl⟩ := Rows.mem_modify.mp hrow
  split
  · rename_i heq
    rw [if_pos heq] at hid
    have halike := hread (heq.symm.trans hid)
    exact ⟨halike.pythonCode, halike.timeoutSeconds, halike.memoryLimitMb, halike.useCustomVenv, halike.priority⟩
  · rename_i hne
    rw [if_neg hne] at hid
    exact h old hold hid

theorem Unedited.step (h : Unedited job u trace) (hbase : Base u tags trace) (ht : t ∈ tags) (hacts : Acts t ev u v) :
    Unedited job v (trace ++ [ev]) := by
  have hnew : ∀ id row, ev = .sql (.getJob id (some row)) → row.id = job.id → Alike row job := by
    intro id row hev hid
    cases hacts with
    | aside hreads _ _ => exact h.stands row (hreads.job id row hev) hid
    | _ => cases hev
  refine ⟨?_, fun id row hrow hid => ?_⟩
  · cases hacts with
    | aside hreads hadds hfades => exact hfades.jobs ▸ h.stands
    | enable read now hread =>
        obtain ⟨id, hev⟩ := hread
        exact h.stands.enable (h.read id read (hbase.logs t ht _ hev)) now
    | deliver item hitem hfades => exact hfades.jobs ▸ h.stands
    | _ => exact h.stands
  · rcases mem_append_event hrow with hrow | hrow
    · exact h.read id row hrow hid
    · exact hnew id row hrow hid

theorem Unedited.beside (h : Unedited job u trace) (hleaves : Leaves job u.db.jobs v.db.jobs) : Unedited job v trace :=
  ⟨hleaves h.stands, h.read⟩

theorem sound_unedited (proc : Process) (job : Job) (good : Config Event World Tag → Nat → Event → Prop) :
    Sound (system proc (Leaves job)) protocol good
      fun w tags trace => Base w tags trace ∧ Unedited job w trace where
  next := rfl
  knows _ _ := trivial
  run := by
    intro c i t ev w h ht hgood hacts
    exact ⟨⟨h.1.step ht hacts, h.2.step h.1 (List.mem_of_getElem? ht) hacts⟩, trivial⟩
  spawn := by
    intro w tags trace call w' th h hspawn
    obtain ⟨hbase, _, hobeys⟩ := (sound_base proc _ good).spawn h.1 hspawn
    obtain ⟨⟨w'', origin, p⟩, hstart, heq⟩ := Option.map_eq_some_iff.mp hspawn
    cases heq
    refine ⟨⟨hbase, h.2.beside ?_⟩, trivial, hobeys⟩
    rw [(start_same hstart).1]
    exact fun hstands => hstands
  env change h := ⟨⟨((sound_base proc _ good).env change h.1).1, h.2.beside (change.jobs _)⟩, trivial⟩

end

theorem Built.exists_row {job : Job} {w : World} {trace : List Event} {item : QueueItem}
    (h : Built trace w.db item) (hjob : Unedited job w trace) (hof : item.jobId = job.id) :
    ∃ x ∈ w.db.executions, x.id = item.executionId ∧ x.jobId = job.id ∧ item = .new x job item.priority := by
  obtain ⟨x, row, id, hknown, hread, hrow, heq⟩ := h
  obtain ⟨stored, hstored, hsame⟩ := List.mem_map.mp hknown
  simp only [identity, Prod.mk.injEq] at hsame
  obtain ⟨hid, hofX, hinput⟩ := hsame
  have hrowId : row.id = job.id := by
    rw [heq] at hof
    exact hof
  rw [new_of_alike hrowId (hjob.read id row hread hrowId)] at heq
  refine ⟨stored, hstored, ?_, hofX.trans (hrow.symm.trans hrowId), ?_⟩
  · rw [heq]
    exact hid
  · rw [heq]
    simp only [QueueItem.new, hid, hinput]

/-- Whatever the priorities, a delivered item of a job that is not edited has the other fields of the job, and
the input of its execution. -/
theorem item_fields {proc : Process} {job : Job} {w : World} (hfresh : Fresh w) (hjob : Stands job w.db.jobs)
    {good : Config Event World Tag → Nat → Event → Prop} {c : Config Event World Tag}
    (hrun : (system proc (Leaves job)).Lives good Reboot (initial w) c) {item : QueueItem}
    (hitem : .dequeued (some item) ∈ c.trace) (hof : item.jobId = job.id) :
    ∃ x ∈ c.world.db.executions, x.id = item.executionId ∧ x.jobId = job.id ∧
      item = .new x job item.priority := by
  have hinit : Sound.Holds protocol (fun w tags trace => Base w tags trace ∧ Unedited job w trace) (initial w) :=
    ⟨⟨base_initial hfresh, hjob, by simp [initial]⟩, List.forall_mem_nil _⟩
  obtain ⟨⟨hbase, hunedited⟩, _⟩ := (sound_unedited proc job good).lives
    (fun h hreboot => ⟨h.1.reboot hreboot, h.2.beside (by obtain ⟨_, _, rfl⟩ := hreboot; exact fun h => h)⟩)
    hrun hinit
  exact (hbase.delivered item hitem).exists_row hunedited hof

/-! ### Priorities -/

/-- A task has created this execution. -/
def HasCreator (tags : List Tag) (executionId : Uuid) : Prop :=
  ∃ t ∈ tags, ∃ x, t.Created x ∧ x.id = executionId

/-- The execution was created by a task; if it is one of this job, the task was asked for this priority. -/
def Asked (job : Job) (tags : List Tag) (ticket : Uuid × Int) : Prop :=
  ∃ t ∈ tags, ∃ x, t.Created x ∧ x.id = ticket.1 ∧ (x.jobId = job.id → ticket.2 = wanted job t.origin)

/-- What is queued has the priority that was asked for. -/
structure Priced (job : Job) (w : World) (tags : List Tag) (trace : List Event) : Prop where
  creators : ∀ t ∈ tags, ∀ t' ∈ tags, ∀ x x', t.Created x → t'.Created x' → x.id = x'.id → t'.origin = t.origin
  rows : ∀ row ∈ w.db.jobQueue, Asked job tags row.ticket
  entries : ∀ ev ∈ trace, ∀ entry ∈ entriesOf ev, Asked job tags entry.ticket
  items : ∀ item ∈ w.memoryQueue.items, Asked job tags item.ticket
  popped : ∀ item, .pop (some item) ∈ trace → Asked job tags item.ticket
  delivered : ∀ item, .dequeued (some item) ∈ trace → Asked job tags item.ticket
  spawned : ∀ task ∈ w.spawned, HasCreator tags task.executionId
  requeues : ∀ t ∈ tags, ∀ e, t.origin = .requeue e → HasCreator tags e

/-- An event that queues an execution of the job. -/
def Queues (jobId : Uuid) : Event → Prop
  | .sql (.enqueue entry) => entry.jobId = jobId
  | .push item => item.jobId = jobId
  | _ => False

/-- A request that gives no priority queues an execution of the job only if the job's priority is 0, and an
automatic retry does only if the job's priority was asked for. -/
structure Good (job : Job) (c : Config Event World Tag) (i : Nat) (ev : Event) : Prop where
  request : Queues job.id ev → ∀ t, c.tags[i]? = some t → t.origin = .request none → job.priority = 0
  requeue : Queues job.id ev → ∀ t e, c.tags[i]? = some t → t.origin = .requeue e →
    ∀ creator ∈ c.tags, ∀ x, creator.Created x → x.id = e → wanted job creator.origin = job.priority

section

variable {job : Job} {t : Tag} {u v w : World} {tags tags' : List Tag} {trace : List Event} {ev : Event}
  {item : QueueItem} {i : Nat} {ticket : Uuid × Int}

theorem Asked.mono (h : Asked job tags ticket) (htags : ∀ t ∈ tags, ∃ t' ∈ tags', t ≤ t') : Asked job tags' ticket := by
  obtain ⟨t, ht, x, hcreated, hid, hpriority⟩ := h
  obtain ⟨t', ht', hle⟩ := htags t ht
  exact ⟨t', ht', x, hcreated.mono hle, hid, hle.origin ▸ hpriority⟩

theorem HasCreator.mono {e : Uuid} (h : HasCreator tags e) (htags : ∀ t ∈ tags, ∃ t' ∈ tags', t ≤ t') :
    HasCreator tags' e := by
  obtain ⟨t, ht, x, hcreated, hid⟩ := h
  obtain ⟨t', ht', hle⟩ := htags t ht
  exact ⟨t', ht', x, hcreated.mono hle, hid⟩

theorem Asked.hasCreator (h : Asked job tags ticket) : HasCreator tags ticket.1 := by
  obtain ⟨t, ht, x, hcreated, hid, _⟩ := h
  exact ⟨t, ht, x, hcreated, hid⟩

theorem Tag.ReadJob.priority (hbase : Base w tags trace) (hjob : Unedited job w trace) (ht : t ∈ tags) {row : Job}
    (hread : t.ReadJob row) (hid : row.id = job.id) : row.priority = job.priority := by
  obtain ⟨id, hev⟩ := hread
  exact (hjob.read id row (hbase.logs t ht _ hev) hid).priority

theorem priority_eq_wanted {origin : Origin} {row : Job} (hrow : row.priority = job.priority)
    (hnone : origin = .request none → job.priority = 0) : origin.priority row = wanted job origin := by
  cases origin with
  | request priority =>
      cases priority with
      | some priority => rfl
      | none => exact (hnone rfl).symm
  | requeue e => exact hrow
  | other => exact hrow

/-- The item of an execution that a task has created has the priority that the task was asked for. -/
theorem Tag.Makes.asked (hbase : Base w tags trace) (hjob : Unedited job w trace) (ht : t ∈ tags)
    (hitem : t.Makes item) (hgood : item.jobId = job.id → t.origin = .request none → job.priority = 0) :
    Asked job tags item.ticket := by
  obtain ⟨made, x, row, hmade, hread, hid, hreadRow, hof, rfl⟩ := hitem
  refine ⟨t, ht, made, hmade, hid.symm, fun hmadeJob => ?_⟩
  obtain ⟨_, hevent⟩ := hread
  have hsame := jobId_eq hbase.unique (hbase.read _ _ (hbase.logs t ht _ hevent))
    (hbase.created made (hbase.logs t ht _ hmade)) hid
  have hrowId : row.id = job.id := by
    rcases hof with h | h
    · exact h.trans hmadeJob
    · exact h.trans (hsame.trans hmadeJob)
  have hpriority := hreadRow.priority hbase hjob ht hrowId
  exact priority_eq_wanted hpriority (hgood hrowId)

theorem Tag.Rebuilds.asked (hbase : Base w tags trace) (h : Priced job w tags trace) (ht : t ∈ tags)
    (hitem : t.Rebuilds item) : Asked job tags item.ticket := by
  obtain ⟨entry, x, row, ⟨ev, hev, hentry⟩, hfinds, rfl⟩ := hitem
  have hasked := h.entries ev (hbase.logs t ht ev hev) entry hentry
  have hticket : (QueueItem.new x row entry.priority).ticket = entry.ticket := by
    rw [QueueEntry.ticket, ← hfinds.executionId]
    rfl
  rwa [hticket]

/-- The item of an automatic retry has the job's priority. -/
theorem Tag.Repeats.asked (hbase : Base w tags trace) (hjob : Unedited job w trace) (h : Priced job w tags trace)
    (ht : t ∈ tags) (hitem : t.Repeats item) (hgood : item.jobId = job.id → ∀ e, t.origin = .requeue e →
      ∀ creator ∈ tags, ∀ x, creator.Created x → x.id = e → wanted job creator.origin = job.priority) :
    Asked job tags item.ticket := by
  obtain ⟨e, x, row, horigin, hfinds, rfl⟩ := hitem
  obtain ⟨creator, hcreator, made, hmade, hid⟩ := h.requeues t ht e horigin
  refine ⟨creator, hcreator, made, hmade, hid.trans hfinds.executionId.symm, fun hmadeJob => ?_⟩
  obtain ⟨_, hevent⟩ := hfinds.execution
  have hsame := jobId_eq hbase.unique (hbase.read _ _ (hbase.logs t ht _ hevent))
    (hbase.created made (hbase.logs creator hcreator _ hmade)) (hfinds.executionId.trans hid.symm)
  have hrowId : row.id = job.id := hfinds.jobId.trans (hsame.trans hmadeJob)
  exact (hfinds.readJob.priority hbase hjob ht hrowId).trans
    (hgood hrowId e horigin creator hcreator made hmade hid).symm

theorem mem_log_next {ev' : Event} (h : ev' ∈ (t.next ev).log) : ev' = ev ∨ ev' ∈ t.log := List.mem_cons.mp h

/-- What an action adds to what is priced. -/
structure Prices (job : Job) (tags : List Tag) (u : World) (ev : Event) (v : World) : Prop where
  rows : ∀ row ∈ v.db.jobQueue, (∃ old ∈ u.db.jobQueue, old.ticket = row.ticket) ∨ Asked job tags row.ticket
  entries : ∀ entry ∈ entriesOf ev, ∃ old ∈ u.db.jobQueue, old.ticket = entry.ticket
  items : ∀ item ∈ v.memoryQueue.items, item ∈ u.memoryQueue.items ∨ Asked job tags item.ticket
  popped : ∀ item, ev = .pop (some item) → item ∈ u.memoryQueue.items
  delivered : ∀ item, ev = .dequeued (some item) → Asked job tags item.ticket
  spawned : ∀ task ∈ v.spawned, task ∈ u.spawned ∨ HasCreator tags task.executionId
  created : ∀ x, ev = .sql (.createExecution x) → ∀ y ∈ u.db.executions, y.id ≠ x.id

theorem Prices.of_same (hrows : v.db.jobQueue = u.db.jobQueue) (hentries : entriesOf ev = [])
    (hitems : ∀ item ∈ v.memoryQueue.items, item ∈ u.memoryQueue.items ∨ Asked job tags item.ticket)
    (hpop : ∀ item, ev ≠ .pop (some item)) (hdelivered : ∀ item, ev ≠ .dequeued (some item))
    (hspawned : ∀ task ∈ v.spawned, task ∈ u.spawned ∨ HasCreator tags task.executionId)
    (hcreated : ∀ x, ev = .sql (.createExecution x) → ∀ y ∈ u.db.executions, y.id ≠ x.id) :
    Prices job tags u ev v where
  rows row hrow := .inl ⟨row, hrows ▸ hrow, rfl⟩
  entries entry hentry := by simp [hentries] at hentry
  items := hitems
  popped item h := absurd h (hpop item)
  delivered item h := absurd h (hdelivered item)
  spawned := hspawned
  created := hcreated

theorem Acts.prices (hbase : Base u tags trace) (hjob : Unedited job u trace) (h : Priced job u tags trace)
    (ht : t ∈ tags) (hrequest : Queues job.id ev → t.origin = .request none → job.priority = 0)
    (hrequeue : Queues job.id ev → ∀ e, t.origin = .requeue e →
      ∀ creator ∈ tags, ∀ x, creator.Created x → x.id = e → wanted job creator.origin = job.priority)
    (hacts : Acts t ev u v) : Prices job tags u ev v := by
  cases hacts with
  | aside hreads hadds hfades =>
      refine ⟨fun row hrow => .inl (hfades.entries row hrow), hreads.entry,
        fun item hitem => .inl (hfades.items item hitem), hreads.pop, fun item hev => ?_,
        fun task htask => .inl (hfades.spawned task htask), fun x hev => ?_⟩
      · exact absurd (hev ▸ trivial) hadds
      · exact absurd (hev ▸ trivial) hadds
  | create x hnew =>
      refine .of_same rfl rfl (fun item hitem => .inl hitem) (by simp) (by simp) (fun task htask => .inl htask) ?_
      rintro _ ⟨⟩
      exact hnew
  | enable read now hread =>
      exact .of_same rfl rfl (fun item hitem => .inl hitem) (by simp) (by simp) (fun task htask => .inl htask)
        (by simp)
  | enqueue entry item hitem hticket hof =>
      have hasked := hitem.asked hbase hjob ht fun hitemJob => hrequest (hof.trans hitemJob)
      refine ⟨fun row hrow => ?_, by simp [entriesOf], fun item hitem => .inl hitem, by simp, by simp,
        fun task htask => .inl htask, by simp⟩
      rcases List.mem_append.mp hrow with hold | hlast
      · exact .inl ⟨row, hold, rfl⟩
      · rw [List.mem_singleton.mp hlast, hticket]
        exact .inr hasked
  | push item hitem =>
      refine .of_same rfl rfl (fun other hother => ?_) (by simp) (by simp) (fun task htask => .inl htask) (by simp)
      rcases MaxHeap.mem_push.mp hother with rfl | hold
      · rcases hitem with hitem | hitem | hitem
        · exact .inr (hitem.asked hbase hjob ht hrequest)
        · exact .inr (hitem.asked hbase h ht)
        · exact .inr (hitem.asked hbase hjob h ht hrequeue)
      · exact .inl hold
  | deliver item hitem hfades =>
      refine ⟨fun row hrow => .inl (hfades.entries row hrow), by simp [entriesOf],
        fun item hitem => .inl (hfades.items item hitem), by simp, ?_,
        fun task htask => .inl (hfades.spawned task htask), by simp⟩
      rintro _ ⟨⟩
      rcases hitem with hpopped | hrebuilt
      · exact h.popped item (hbase.logs t ht _ hpopped)
      · exact hrebuilt.asked hbase h ht
  | spawn task entry hread heq =>
      refine .of_same rfl rfl (fun item hitem => .inl hitem) (by simp) (by simp) (fun other hother => ?_) (by simp)
      rcases List.mem_append.mp hother with hold | hlast
      · exact .inl hold
      · obtain ⟨ev, hev, hentry⟩ := hread
        rw [List.mem_singleton.mp hlast, ← heq]
        exact .inr (h.entries ev (hbase.logs t ht ev hev) entry hentry).hasCreator

theorem Priced.step (h : Priced job u tags trace) (hbase : Base u tags trace) (hprices : Prices job tags u ev v)
    (ht : tags[i]? = some t) : Priced job v (tags.set i (t.next ev)) (trace ++ [ev]) := by
  have hmem := List.mem_of_getElem? ht
  have hlater : ∀ t₀ ∈ tags, ∃ t' ∈ tags.set i (t.next ev), t₀ ≤ t' := by
    intro t₀ ht₀
    have hsome : ∃ t' ∈ tags, t₀ ≤ t' := ⟨t₀, ht₀, le_rfl⟩
    exact exists_mem_set hsome ht fun hle => hle.trans (t.le_next ev)
  have hasked {ticket : Uuid × Int} (hticket : Asked job tags ticket) := hticket.mono hlater
  -- A tag after the action, and the tag it comes from.
  have hfrom : ∀ t' ∈ tags.set i (t.next ev), ∃ t₀ ∈ tags, t'.origin = t₀.origin ∧
      ∀ x, t'.Created x → t₀.Created x ∨ t' = t.next ev ∧ ev = .sql (.createExecution x) := by
    intro t' ht'
    rcases List.mem_or_eq_of_mem_set ht' with hold | rfl
    · exact ⟨t', hold, rfl, fun x hx => .inl hx⟩
    · refine ⟨t, hmem, rfl, fun x hx => ?_⟩
      rcases mem_log_next hx with hev | hlog
      · exact .inr ⟨rfl, hev.symm⟩
      · exact .inl hlog
  have hfresh : ∀ t₀ ∈ tags, ∀ x x', t₀.Created x → ev = .sql (.createExecution x') → x.id ≠ x'.id := by
    intro t₀ ht₀ x x' hx hev hid
    obtain ⟨row, hrow, hsame⟩ := List.mem_map.mp (hbase.created x (hbase.logs t₀ ht₀ _ hx))
    simp only [identity, Prod.mk.injEq] at hsame
    exact hprices.created x' hev row hrow (hsame.1.trans hid)
  refine ⟨fun t₁ ht₁ t₂ ht₂ x x' hx hx' hid => ?_, fun row hrow => ?_, fun e he entry hentry => ?_,
    fun item hitem => ?_, fun item hitem => ?_, fun item hitem => ?_, fun task htask => ?_, fun t' ht' e he => ?_⟩
  · obtain ⟨s₁, hs₁, horigin₁, hfrom₁⟩ := hfrom t₁ ht₁
    obtain ⟨s₂, hs₂, horigin₂, hfrom₂⟩ := hfrom t₂ ht₂
    rcases hfrom₁ x hx with hold₁ | ⟨rfl, hev⟩
    · rcases hfrom₂ x' hx' with hold₂ | ⟨rfl, hev⟩
      · rw [horigin₁, horigin₂]
        exact h.creators s₁ hs₁ s₂ hs₂ x x' hold₁ hold₂ hid
      · exact absurd hid (hfresh s₁ hs₁ x x' hold₁ hev)
    · rcases hfrom₂ x' hx' with hold₂ | ⟨rfl, _⟩
      · exact absurd hid.symm (hfresh s₂ hs₂ x' x hold₂ hev)
      · rfl
  · rcases hprices.rows row hrow with ⟨old, hold, heq⟩ | hnew
    · exact hasked (heq ▸ h.rows old hold)
    · exact hasked hnew
  · rcases mem_append_event he with hold | rfl
    · exact hasked (h.entries e hold entry hentry)
    · obtain ⟨old, hold, heq⟩ := hprices.entries entry hentry
      exact hasked (heq ▸ h.rows old hold)
  · rcases hprices.items item hitem with hold | hnew
    · exact hasked (h.items item hold)
    · exact hasked hnew
  · rcases mem_append_event hitem with hold | hev
    · exact hasked (h.popped item hold)
    · exact hasked (h.items item (hprices.popped item hev))
  · rcases mem_append_event hitem with hold | hev
    · exact hasked (h.delivered item hold)
    · exact hasked (hprices.delivered item hev)
  · rcases hprices.spawned task htask with hold | hnew
    · exact (h.spawned task hold).mono hlater
    · exact hnew.mono hlater
  · obtain ⟨t₀, ht₀, horigin, _⟩ := hfrom t' ht'
    exact (h.requeues t₀ ht₀ e (horigin.symm.trans he)).mono hlater

theorem Priced.beside (h : Priced job u tags trace) (hrows : v.db.jobQueue = u.db.jobQueue)
    (hitems : ∀ item ∈ v.memoryQueue.items, item ∈ u.memoryQueue.items)
    (hspawned : ∀ task ∈ v.spawned, task ∈ u.spawned) (more : List Tag)
    (hmore : ∀ t ∈ more, t.log = [] ∧ ∀ e, t.origin = .requeue e → HasCreator tags e) :
    Priced job v (tags ++ more) trace := by
  have hlater : ∀ t ∈ tags, ∃ t' ∈ tags ++ more, t ≤ t' := fun t ht => ⟨t, List.mem_append_left _ ht, le_rfl⟩
  have hold : ∀ t ∈ tags ++ more, ∀ x, t.Created x → t ∈ tags := by
    intro t ht x hx
    rcases List.mem_append.mp ht with hold | hnew
    · exact hold
    · rw [Tag.Created, (hmore t hnew).1] at hx
      cases hx
  refine ⟨fun t ht t' ht' x x' hx hx' hid => ?_, fun row hrow => ?_, fun ev hev entry hentry => ?_,
    fun item hitem => (h.items item (hitems item hitem)).mono hlater, fun item hitem => ?_, fun item hitem => ?_,
    fun task htask => (h.spawned task (hspawned task htask)).mono hlater, fun t ht e he => ?_⟩
  · exact h.creators t (hold t ht x hx) t' (hold t' ht' x' hx') x x' hx hx' hid
  · exact (h.rows row (hrows ▸ hrow)).mono hlater
  · exact (h.entries ev hev entry hentry).mono hlater
  · exact (h.popped item hitem).mono hlater
  · exact (h.delivered item hitem).mono hlater
  · rcases List.mem_append.mp ht with hold | hnew
    · exact (h.requeues t hold e he).mono hlater
    · exact ((hmore t hnew).2 e he).mono hlater

end

section

variable {proc : Process} {edits : List Job → List Job → Prop} {job : Job} {w w' : World} {tags : List Tag}
  {trace : List Event}

/-- A task that queues an execution again is one that slept. -/
theorem start_requeue {call : Call} {origin : Origin} {p : Async Unit} (h : call.start proc w = some (w', origin, p))
    {e : Uuid} (he : origin = .requeue e) : ∃ task ∈ w.spawned, task.executionId = e := by
  cases call with
  | requeue index =>
      obtain ⟨task, htask, heq⟩ := Option.map_eq_some_iff.mp h
      cases heq
      cases he
      exact ⟨task, List.mem_of_getElem? htask, rfl⟩
  | _ =>
      cases h
      cases he

theorem Priced.reboot (h : Priced job w tags trace) (hreboot : Reboot w w') : Priced job w' tags trace := by
  obtain ⟨now, nextUuid, rfl⟩ := hreboot
  have hsame := h.beside (v := .start w.db now nextUuid) rfl (by simp [World.start])
    (by simp [World.start]) [] (List.forall_mem_nil _)
  rwa [List.append_nil] at hsame

theorem priced_initial (h : Fresh w) : Priced job w [] [] where
  creators := List.forall_mem_nil _
  rows := by simp [h.jobQueue]
  entries := List.forall_mem_nil _
  items := by simp [h.memoryQueue]
  popped := by simp
  delivered := by simp
  spawned := by simp [h.spawned]
  requeues := List.forall_mem_nil _

theorem sound_priced (proc : Process) (job : Job) : Sound (system proc (Leaves job)) protocol (Good job)
    fun w tags trace => Base w tags trace ∧ Unedited job w trace ∧ Priced job w tags trace where
  next := rfl
  knows _ _ := trivial
  run := by
    intro c i t ev w ⟨hbase, hjob, hpriced⟩ ht hgood hacts
    have hmem := List.mem_of_getElem? ht
    have hprices := hacts.prices hbase hjob hpriced hmem (fun hqueues => hgood.request hqueues t ht)
      fun hqueues e => hgood.requeue hqueues t e ht
    exact ⟨⟨hbase.step ht hacts, hjob.step hbase hmem hacts, hpriced.step hbase hprices ht⟩, trivial⟩
  spawn := by
    intro w tags trace call w' th ⟨hbase, hjob, hpriced⟩ hspawn
    obtain ⟨⟨hbase', hjob'⟩, hgrows, hobeys⟩ := (sound_unedited proc job (Good job)).spawn ⟨hbase, hjob⟩ hspawn
    refine ⟨⟨hbase', hjob', ?_⟩, hgrows, hobeys⟩
    obtain ⟨⟨w'', origin, p⟩, hstart, heq⟩ := Option.map_eq_some_iff.mp hspawn
    cases heq
    obtain ⟨hdb, hheap, hspawned⟩ := start_same hstart
    apply hpriced.beside (by rw [hdb]) (by rw [hheap]; exact fun _ h => h) hspawned _
    intro t ht
    rw [List.mem_singleton.mp ht]
    refine ⟨rfl, fun e he => ?_⟩
    obtain ⟨task, htask, rfl⟩ := start_requeue hstart he
    exact hpriced.spawned task htask
  env := by
    intro w tags trace change ⟨hbase, hjob, hpriced⟩
    obtain ⟨⟨hbase', hjob'⟩, hgrows⟩ := (sound_unedited proc job (Good job)).env change ⟨hbase, hjob⟩
    have hsame := hpriced.beside (v := change.act w) (change.jobQueue w)
      (by rw [change.memoryQueue]; exact fun _ h => h) (by rw [change.spawned]; exact fun _ h => h) []
      (List.forall_mem_nil _)
    rw [List.append_nil] at hsame
    exact ⟨⟨hbase', hjob', hsame⟩, hgrows⟩

end

/-- Where no request leaves out a priority that the job has, and no automatic retry meets a priority that was
asked for, every delivered item of a job that is not edited has the fields of the job, the input of its
execution, and the priority that was asked for when its execution was created. -/
theorem delivered_same {proc : Process} {job : Job} {w : World} (hfresh : Fresh w) (hjob : Stands job w.db.jobs)
    {c : Config Event World Tag} (hrun : (system proc (Leaves job)).Lives (Good job) Reboot (initial w) c)
    {item : QueueItem} (hitem : .dequeued (some item) ∈ c.trace) (hof : item.jobId = job.id) :
    ∃ x ∈ c.world.db.executions, x.id = item.executionId ∧ x.jobId = job.id ∧ ∃ t ∈ c.tags,
      (∃ made, t.Created made ∧ made.id = x.id) ∧
      (∀ other ∈ c.tags, ∀ made, other.Created made → made.id = x.id → other.origin = t.origin) ∧
      item = .new x job (wanted job t.origin) := by
  have hinit : Sound.Holds protocol
      (fun w tags trace => Base w tags trace ∧ Unedited job w trace ∧ Priced job w tags trace) (initial w) :=
    ⟨⟨base_initial hfresh, ⟨hjob, by simp [initial]⟩, priced_initial hfresh⟩, List.forall_mem_nil _⟩
  have hreboot {u v : World} {tags : List Tag} {trace : List Event}
      (h : Base u tags trace ∧ Unedited job u trace ∧ Priced job u tags trace) (hstop : Reboot u v) :
      Base v tags trace ∧ Unedited job v trace ∧ Priced job v tags trace := by
    refine ⟨h.1.reboot hstop, h.2.1.beside ?_, h.2.2.reboot hstop⟩
    obtain ⟨_, _, rfl⟩ := hstop
    exact fun hstands => hstands
  obtain ⟨⟨hbase, hunedited, hpriced⟩, _⟩ := (sound_priced proc job).lives hreboot hrun hinit
  obtain ⟨x, hx, hid, hxJob, heq⟩ := (hbase.delivered item hitem).exists_row hunedited hof
  obtain ⟨t, ht, made, hmade, hmadeId, hpriority⟩ := hpriced.delivered item hitem
  have hmadeJob : made.jobId = x.jobId := jobId_eq hbase.unique
    (hbase.created made (hbase.logs t ht _ hmade)) (List.mem_map_of_mem hx) (hmadeId.trans hid.symm)
  have hwanted : item.priority = wanted job t.origin := hpriority (hmadeJob.trans hxJob)
  refine ⟨x, hx, hid, hxJob, t, ht, ⟨made, hmade, hmadeId.trans hid.symm⟩, fun other hother y hy hyId => ?_, ?_⟩
  · exact hpriced.creators t ht other hother made y hmade hy ((hmadeId.trans hid.symm).trans hyId.symm)
  · rwa [hwanted] at heq

/-! ### A request with a priority, and one without -/

/-- A request for the job, and a worker that takes its execution. -/
def requested (check : Config Event World Tag → Nat → Event → Bool) (job : Job) (priority : Option Int) :
    Option (Config Event World Tag) :=
  (system Process.sample (Leaves job)).exec check
    ([.spawn (.executeJob 1 (some ⟨none, priority⟩))] ++ List.replicate 14 (.run 0) ++
      [.spawn (.pass 0 fun _ => .sample true)] ++ List.replicate 6 (.run 1)) (initial (worldOf job))

/-- No task that was asked for nothing, or that queues again, acts. -/
def explicit (c : Config Event World Tag) (i : Nat) (_ : Event) : Bool :=
  match (c.tags[i]?).map Tag.origin with
  | some (.request none) | some (.requeue _) => false
  | _ => true

theorem good_of_explicit (job : Job) (c : Config Event World Tag) (i : Nat) (ev : Event)
    (h : explicit c i ev = true) : Good job c i ev := by
  constructor
  · intro _ t ht horigin
    simp [explicit, ht, horigin] at h
  · intro _ t e ht horigin
    simp [explicit, ht, horigin] at h

theorem stands_worldOf (job : Job) : Stands job (worldOf job).db.jobs := by
  intro row hrow _
  rw [List.mem_singleton.mp hrow]
  exact ⟨rfl, rfl, rfl, rfl, rfl⟩

/-- The job with priority 5. -/
def preferred : Job := { Job.sample 0 with priority := 5 }

/-- The item of the execution that the request creates. -/
def itemAt (priority : Int) : QueueItem := .new (.new 1000 1 none "") preferred priority

theorem delivered_same_requested : ∃ c : Config Event World Tag, .dequeued (some (itemAt 3)) ∈ c.trace ∧
    ∃ x ∈ c.world.db.executions, x.id = 1000 ∧ x.jobId = 1 ∧ ∃ t ∈ c.tags,
      (∃ made, t.Created made ∧ made.id = x.id) ∧
      (∀ other ∈ c.tags, ∀ made, other.Created made → made.id = x.id → other.origin = t.origin) ∧
      itemAt 3 = .new x preferred (wanted preferred t.origin) := by
  have hlast : (requested explicit preferred (some 3)).map (fun c => c.trace.getLast?) =
    some (some (.dequeued (some (itemAt 3)))) := rfl
  obtain ⟨c, hc, heq⟩ := Option.map_eq_some_iff.mp hlast
  have hitem := List.mem_of_getLast? heq
  exact ⟨c, hitem, delivered_same (fresh_worldOf _) (stands_worldOf _)
    (.run .start (System.run_of_exec (good_of_explicit _) hc)) hitem rfl⟩

/-- The job has priority 5, the request gives none, and the item has priority 0. -/
theorem job_priority_ignored : ¬ ∀ (proc : Process) (job : Job) (w : World), Fresh w → Stands job w.db.jobs →
    ∀ c, (system proc (Leaves job)).Lives (fun _ _ _ => True) Reboot (initial w) c →
      ∀ item, .dequeued (some item) ∈ c.trace → item.jobId = job.id →
        ∃ t ∈ c.tags, ∃ made, t.Created made ∧ made.id = item.executionId ∧
          item.priority = wanted job t.origin := by
  intro hclaim
  have hrun : (requested (fun _ _ _ => true) preferred none).map
      (fun c => (c.trace.getLast?, c.tags.map Tag.origin)) =
    some (some (.dequeued (some (itemAt 0))), [.request none, .other]) := rfl
  obtain ⟨c, hc, heq⟩ := Option.map_eq_some_iff.mp hrun
  obtain ⟨htrace, htags⟩ := Prod.mk.inj heq
  obtain ⟨t, ht, _, _, _, hpriority⟩ := hclaim _ preferred _ (fresh_worldOf _) (stands_worldOf _) c
    (.run .start (System.reaches_of_exec hc)) _ (List.mem_of_getLast? htrace) rfl
  have horigin : t.origin ∈ [Origin.request none, .other] := htags ▸ List.mem_map_of_mem ht
  have hwanted : wanted preferred t.origin = 5 := by
    rcases List.mem_cons.mp horigin with heq | hrest
    · rw [heq]
      rfl
    · rw [List.mem_singleton.mp hrest]
      rfl
  rw [hwanted] at hpriority
  exact absurd hpriority (by decide)

end Deliveries

end Serverust
