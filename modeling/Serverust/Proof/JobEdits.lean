import Serverust.Library.Pool
import Serverust.Model.JobService
import Serverust.Proof.Footprints

/-!
# Edits of a job, while executions of it are created

Both functions read the row of a job and write it back as a whole. An edit means to change the fields
of its request, the creation of an execution only `enabled`. So the edit is lost exactly when the
creation read the row before the edit wrote it, and writes it after.
-/

namespace Serverust

namespace JobEdits

open Resumption

/-- The row has the values of the request, other than `enabled`. -/
structure Holds (changes : UpdateJobRequest) (row : Job) : Prop where
  name : ∀ value, changes.name = some value → row.name = value
  description : ∀ value, changes.description = some value → row.description = some value
  pythonCode : ∀ value, changes.pythonCode = some value → row.pythonCode = value
  timeoutSeconds : ∀ value, changes.timeoutSeconds = some value → row.timeoutSeconds = value
  memoryLimitMb : ∀ value, changes.memoryLimitMb = some value → row.memoryLimitMb = value
  useCustomVenv : ∀ value, changes.useCustomVenv = some value → row.useCustomVenv = value
  venvId : ∀ value, changes.venvId = some value → row.venvId = value
  priority : ∀ value, changes.priority = some value → row.priority = value
  maxRetries : ∀ value, changes.maxRetries = some value → row.maxRetries = value

/-- The rows differ in nothing but `enabled` and `updated_at`. -/
def Agrees (row read : Job) : Prop := row = { read with enabled := row.enabled, updatedAt := row.updatedAt }

instance (row read : Job) : Decidable (Agrees row read) := inferInstanceAs (Decidable (_ = _))

theorem holds_applyUpdate (changes : UpdateJobRequest) (job row : Job) (now : String) :
    Holds changes ((job.applyUpdate changes now).over row) := by
  constructor <;> intro value hvalue <;> simp [Job.over, Job.applyUpdate, hvalue]

theorem Holds.enable {changes : UpdateJobRequest} {row read : Job} (h : Holds changes row)
    (hagrees : Agrees row read) (now : String) :
    Holds changes (Job.over { read with enabled := true, updatedAt := now } row) := by
  rw [hagrees] at h
  exact ⟨h.name, h.description, h.pythonCode, h.timeoutSeconds, h.memoryLimitMb, h.useCustomVenv, h.venvId,
    h.priority, h.maxRetries⟩

/-! ### The rules -/

/-- The edit has yet to write, has written, or has returned; a creation has read this row last. -/
inductive Tag where
  | updating | written | returned
  | creating (read : Option Job)
deriving DecidableEq

def Tag.next : Tag → Event → Tag
  | .updating, .sql (.updateJob _) => .written
  | .written, .returned => .returned
  | .creating _, .sql (.getJob _ row) => .creating row
  | tag, _ => tag

/-- The job is stored. -/
def Stored (id : Uuid) (w : World) : Prop := (Rows.lookup Job.id id w.db.jobs).isSome

variable {id : Uuid} {changes : UpdateJobRequest}

/-- What an action may do. -/
inductive Acts (id : Uuid) (changes : UpdateJobRequest) : Tag → Event → World → World → Prop
  | aside {tag : Tag} {ev : Event} {u v : World} (hev : ∀ job, ev ≠ .sql (.updateJob job))
      (hreturn : ev = .returned → tag ≠ .written) (hsame : v.db.jobs = u.db.jobs) : Acts id changes tag ev u v
  | update {job : Job} {u v : World} (hid : job.id = id) (hholds : ∀ row, Holds changes (job.over row))
      (hrows : v.db.jobs = Rows.modify Job.id id job.over u.db.jobs) :
      Acts id changes .updating (.sql (.updateJob job)) u v
  | finish {u : World} (hstored : Stored id u) : Acts id changes .written .returned u u
  | enable {read : Job} {now : String} {u v : World}
      (hrows : v.db.jobs = Rows.modify Job.id read.id
        (Job.over { read with enabled := true, updatedAt := now }) u.db.jobs) :
      Acts id changes (.creating (some read))
        (.sql (.updateJob { read with enabled := true, updatedAt := now })) u v

def protocol (id : Uuid) (changes : UpdateJobRequest) : Protocol Event World Tag where
  next := Tag.next
  knows _ _ := True
  grows u v := Stored id u → Stored id v
  allows := Acts id changes

instance : (protocol id changes).Lawful := ⟨fun _ h => h, fun hab hbc h => hbc (hab h)⟩

theorem isSome_modify (value : Uuid) (job : Job) (rows : List Job) :
    (Rows.lookup Job.id id (Rows.modify Job.id value job.over rows)).isSome =
      (Rows.lookup Job.id id rows).isSome := by
  rw [Rows.lookup_modify (f := job.over) fun _ => rfl]
  split
  · exact Option.isSome_map
  · rfl

theorem grows_modify {value : Uuid} {job : Job} {u v : World}
    (hrows : v.db.jobs = Rows.modify Job.id value job.over u.db.jobs) : (protocol id changes).grows u v := by
  intro h
  unfold Stored
  rw [hrows, isSome_modify]
  exact h

theorem grows_same {u v : World} (hsame : v.db.jobs = u.db.jobs) : (protocol id changes).grows u v := by
  intro h
  unfold Stored
  rw [hsame]
  exact h

/-! ### What the tasks do -/

theorem aside_of_background {tag : Tag} {u v : World} {ev : Event} (h : ev.Background)
    (hsame : v.db.jobs = u.db.jobs) : Acts id changes tag ev u v := by
  refine .aside ?_ ?_ hsame
  · rintro job rfl
    cases h
  · rintro rfl
    cases h

theorem aside_of_reading {tag : Tag} {u v : World} {ev : Event} (h : Reading u ev v) :
    Acts id changes tag ev u v := by
  have hback := h.event
  obtain ⟨_, rfl⟩ := h.same
  exact aside_of_background hback rfl

theorem aside_of_inserting {tag : Tag} {u v : World} {ev : Event} (h : Inserting u ev v) :
    Acts id changes tag ev u v := by
  have hevent := h.event
  obtain ⟨_, _, rfl⟩ := h.same
  rcases hevent with hback | ⟨x, rfl⟩
  · exact aside_of_background hback rfl
  · refine .aside ?_ ?_ rfl
    · rintro job h
      cases h
    · intro h
      cases h

section

variable {α : Type} {w : World}

theorem next_background {tag : Tag} {ev : Event} (htag : ∀ read, tag ≠ .creating read) (h : ev.Background) :
    tag.next ev = tag := by
  unfold Tag.next
  split
  · cases h
  · cases h
  · exact absurd rfl (htag _)
  · rfl

theorem keeps_reading {tag : Tag} {p : Async α} (h : p.Acts Reading) (htag : ∀ read, tag ≠ .creating read) :
    Task.Keeps (protocol id changes) (fun _ => True) tag p := by
  refine h.keeps fun u ev v _ hact => ⟨aside_of_reading hact, next_background htag hact.event, ?_⟩
  obtain ⟨_, rfl⟩ := hact.same
  exact grows_same rfl

theorem acts_checkName (id : Uuid) (job : Job) (req : UpdateJobRequest) :
    (JobService.checkName id job req).Acts Reading := by
  unfold JobService.checkName
  split
  · split
    · apply Task.Acts.bind
      · exact acts_select (fun w => ⟨trivial, w.nextUuid, rfl⟩) Reading.failed
      · intro taken
        split
        · exact .throw _
        · exact .pure _
    · exact .pure _
  · exact .pure _

theorem keeps_getJob {tag : Tag} (htag : ∀ read, tag ≠ .creating read) (jobId : Uuid) :
    Task.Keeps (protocol id changes) (fun job => job.id = jobId) tag (JobRepository.getById jobId) := by
  have htolerates : Tolerates (protocol id changes) tag := by
    intro u v ev _ hback _ hsame _
    exact ⟨aside_of_background hback hsame.jobs, next_background htag hback, grows_same hsame.jobs⟩
  exact Serverust.keeps_getJob htolerates fun _ _ _ => Rows.column_of_lookup

/-- Once the edit returns, it has written its fields and the job is stored. -/
theorem obeys_updateJob (hash : FieldOrder) :
    Task.Obeys (protocol id changes) (fun _ tag u => tag = .written ∧ Stored id u)
      (fun _ tag _ => tag = .updating ∨ tag = .written) (JobService.updateJob hash id changes) .updating w := by
  unfold JobService.updateJob
  split
  · exact .inl rfl
  have hupdating (read : Option Job) : Tag.updating ≠ .creating read := by simp
  have hwritten (read : Option Job) : Tag.written ≠ .creating read := by simp
  apply (keeps_getJob hupdating id).bind_obeys
  · intro job u _ hid
    apply (keeps_reading (acts_checkName id job changes) hupdating).bind_obeys
    · intro _ u₁ _ _
      apply (keeps_reading acts_nowRfc3339 hupdating).bind_obeys
      · intro now u₂ _ _
        apply Task.obeys_bind.mpr
        apply obeys_sql
        · intro v affected db _ _ hquery
          obtain ⟨rfl, rfl⟩ := JobRepository.writeJob_ok (query_ok hquery).2
          refine ⟨.update hid (fun row => holds_applyUpdate changes job row now) (by rw [← hid]; rfl), ?_⟩
          show Task.Obeys _ _ _ _ Tag.written _
          split
          · exact .inr rfl
          · rename_i haffected
            have hstored : Stored id { v with db := { v.db with
                jobs := Rows.modify Job.id job.id (job.applyUpdate changes now).over v.db.jobs } } := by
              obtain ⟨row, hrow, hvalue⟩ := Rows.hits_ne_zero.mp haffected
              obtain ⟨found, hfound⟩ := Rows.lookup_isSome hrow (hvalue.trans hid)
              unfold Stored
              rw [isSome_modify, hfound]
              rfl
            apply ((keeps_getJob hwritten job.id) _).mono
            · rintro _ _ s ⟨rfl, hgrows, _⟩
              exact ⟨rfl, hgrows hstored⟩
            · rintro _ _ _ ⟨rfl, _⟩
              exact .inr rfl
        · exact fun v e _ _ _ => ⟨aside_of_background trivial rfl, .inl rfl⟩
      · exact fun _ _ _ => .inl rfl
    · exact fun _ _ _ => .inl rfl
  · exact fun _ _ _ => .inl rfl

/-- The tag of a creation. -/
def Tag.Creates (tag : Tag) : Prop := ∃ read, tag = .creating read

theorem stays_inserting {p : Async α} (h : p.Acts Inserting) :
    Task.Stays (protocol id changes) Tag.Creates (fun _ => True) p := by
  apply Task.Stays.of_acts h
  rintro _ u ev v ⟨read, rfl⟩ _ hact
  refine ⟨aside_of_inserting hact, ?_⟩
  show (Tag.next _ ev).Creates
  unfold Tag.next
  split
  · rename_i heq
    cases heq
  · rename_i heq
    cases heq
  · exact ⟨_, rfl⟩
  · exact ⟨read, rfl⟩

theorem stays_enable {read : Job} (now : String) :
    Task.Obeys (protocol id changes) (fun _ tag _ => tag.Creates) (fun _ tag _ => tag.Creates)
      (JobRepository.update { read with enabled := true, updatedAt := now }) (.creating (some read)) w := by
  apply Task.obeys_bind.mpr
  apply obeys_sql
  · intro u affected db _ _ hquery
    obtain ⟨rfl, rfl⟩ := JobRepository.writeJob_ok (query_ok hquery).2
    refine ⟨.enable rfl, ?_⟩
    show Task.Obeys _ _ _ _ (Tag.creating (some read)) _
    split
    · exact ⟨_, rfl⟩
    · apply (stays_inserting ((acts_getJob read.id).mono fun _ _ _ => Reading.inserting) _ _ ⟨_, rfl⟩).mono
      · exact fun _ _ _ h => h.1
      · exact fun _ _ _ h => h
  · exact fun u e _ _ _ => ⟨aside_of_background trivial rfl, _, rfl⟩

/-- A creation writes no job but the row it has read last, enabled. -/
theorem obeys_createExecution (jobId : Uuid) (inputData : Option String) (read : Option Job) :
    Task.Obeys (protocol id changes) (fun _ tag _ => tag.Creates) (fun _ tag _ => tag.Creates)
      (ExecutionService.createExecution jobId inputData) (.creating read) w := by
  have hrest (tag : Tag) (u : World) (htag : tag.Creates) :
      Task.Obeys (protocol id changes) (fun _ tag _ => tag.Creates) (fun _ tag _ => tag.Creates) (do
        let now ← nowRfc3339
        let id ← newV4
        ExecutionRepository.create (.new id jobId inputData now)) tag u := by
    apply (stays_inserting (acts_insertNew jobId inputData) tag u htag).mono
    · exact fun _ _ _ h => h.1
    · exact fun _ _ _ h => h
  unfold ExecutionService.createExecution JobRepository.getById select
  rw [Task.bind_assoc]
  apply Task.obeys_bind.mpr
  apply obeys_sql
  · intro u row db _ _ hquery
    cases (query_ok hquery).2
    refine ⟨aside_of_background trivial rfl, ?_⟩
    beta_reduce
    show Task.Obeys _ _ _ _ (Tag.creating (Rows.lookup Job.id jobId u.db.jobs)) _
    cases Rows.lookup Job.id jobId u.db.jobs with
    | none => exact ⟨_, rfl⟩
    | some job =>
        show Task.Obeys _ _ _ (ite _ _ _) _ _
        split
        · apply Task.obeys_bind.mpr
          apply obeys_perform
          intro u' _ _
          refine ⟨aside_of_background trivial rfl, ?_⟩
          apply Task.Obeys.bind (stays_enable _)
          exact fun _ tag s htag => hrest tag s htag
        · exact hrest _ _ ⟨_, rfl⟩
  · exact fun u e _ _ _ => ⟨aside_of_background trivial rfl, _, rfl⟩

end

/-! ### The pool -/

/-- A task that reports that it returned `Ok`. -/
def reporting (p : Async α) : Prog Event World Unit :=
  Task.detached .quiet (do
    let _ ← p
    perform (fun _ => .returned) fun w => ((), w))

/-- Anything else may happen to the rest of the state, and to other jobs. -/
def elsewhere (id : Uuid) (change w : World) : World :=
  { change with db := { change.db with
      jobs := (change.db.jobs.filter fun job => job.id ≠ id) ++ w.db.jobs.filter fun job => job.id = id } }

/-- Executions of any job are created, with some input. -/
def system (id : Uuid) : System Event World Tag (Uuid × Option String) World where
  next := Tag.next
  spawn call w := some (w, ⟨.creating none, reporting (ExecutionService.createExecution call.1 call.2)⟩)
  env := elsewhere id

/-- One edit of the job is under way. -/
def start (hash : FieldOrder) (id : Uuid) (changes : UpdateJobRequest) (w : World) : Config Event World Tag :=
  ⟨w, [⟨.updating, reporting (JobService.updateJob hash id changes)⟩], []⟩

/-- A creation enables the job only while the stored row agrees with the one it has read. -/
def Good (id : Uuid) (c : Config Event World Tag) (i : Nat) (ev : Event) : Prop :=
  ∀ job read, ev = .sql (.updateJob job) → c.tags[i]? = some (.creating (some read)) → read.id = id →
    ∀ row ∈ c.world.db.jobs, row.id = id → Agrees row read

/-- The edit has been written. -/
def Tag.Wrote (tag : Tag) : Prop := tag = .written ∨ tag = .returned

/-- The stored job has the values of an edit that has been written. -/
structure Kept (id : Uuid) (changes : UpdateJobRequest) (w : World) (tags : List Tag) : Prop where
  holds : (∃ tag ∈ tags, tag.Wrote) → ∀ row ∈ w.db.jobs, row.id = id → Holds changes row
  stored : .returned ∈ tags → Stored id w

/-- A tag that comes to have written has just written, or had. -/
theorem Tag.wrote_next {tag : Tag} {ev : Event} (h : (tag.next ev).Wrote) :
    tag.Wrote ∨ tag = .updating ∧ ∃ job, ev = .sql (.updateJob job) := by
  unfold Tag.next at h
  split at h
  · exact .inr ⟨rfl, _, rfl⟩
  · exact .inl (.inl rfl)
  · rcases h with h | h <;> cases h
  · exact .inl h

theorem Tag.returned_next {tag : Tag} {ev : Event} (h : tag.next ev = .returned) :
    tag = .returned ∨ tag = .written ∧ ev = .returned := by
  unfold Tag.next at h
  split at h
  · cases h
  · exact .inr ⟨rfl, rfl⟩
  · cases h
  · exact .inl h

/-- Rows that hold the request still hold it after an action, and an edit makes them hold it. -/
theorem Acts.holds {c : Config Event World Tag} {i : Nat} {tag : Tag} {ev : Event} {w : World}
    (h : Acts id changes tag ev c.world w) (hgood : Good id c i ev) (htag : c.tags[i]? = some tag)
    (hrows : (tag = .updating ∧ ∃ job, ev = .sql (.updateJob job)) ∨
      ∀ row ∈ c.world.db.jobs, row.id = id → Holds changes row) :
    ∀ row ∈ w.db.jobs, row.id = id → Holds changes row := by
  cases h with
  | aside hev _ hsame =>
      rw [hsame]
      refine hrows.resolve_left ?_
      rintro ⟨_, job, rfl⟩
      exact hev job rfl
  | finish _ =>
      refine hrows.resolve_left ?_
      rintro ⟨h, _⟩
      cases h
  | @update job _ _ hid hholds hwritten =>
      rw [hwritten]
      intro row hrow hrowid
      obtain ⟨old, hold, rfl⟩ := Rows.mem_modify.mp hrow
      have hid : old.id = id := by split at hrowid <;> exact hrowid
      rw [if_pos hid]
      exact hholds old
  | @enable read now _ _ hwritten =>
      have hbefore := hrows.resolve_left (by rintro ⟨h, _⟩; cases h)
      rw [hwritten]
      intro row hrow hrowid
      obtain ⟨old, hold, rfl⟩ := Rows.mem_modify.mp hrow
      have hid : old.id = id := by split at hrowid <;> exact hrowid
      split
      · rename_i hread
        have hagrees := hgood _ read rfl htag (hread.symm.trans hid) old hold hid
        exact (hbefore old hold hid).enable hagrees now
      · exact hbefore old hold hid

theorem Acts.grows {tag : Tag} {ev : Event} {u v : World} (h : Acts id changes tag ev u v) :
    (protocol id changes).grows u v := by
  cases h with
  | aside _ _ hsame => exact grows_same hsame
  | finish _ => exact fun h => h
  | update hid _ hrows => exact grows_modify hrows
  | enable hrows => exact grows_modify hrows

theorem obeys_reporting {p : Async α} {tag : Tag} {w : World}
    (h : Task.Obeys (protocol id changes)
      (fun _ tag u => tag.Creates ∨ tag = .written ∧ Stored id u) (fun _ _ _ => True) p tag w) :
    (protocol id changes).Obeys (fun _ _ _ => True) (reporting p) tag w := by
  have hreported : Task.Obeys (protocol id changes) (fun _ _ _ => True) (fun _ _ _ => True) (do
      let _ ← p
      perform (fun _ => .returned) fun w => ((), w)) tag w := by
    apply h.bind
    rintro _ _ s (⟨read, rfl⟩ | ⟨rfl, hstored⟩)
    · apply obeys_perform
      exact fun _ _ _ => ⟨.aside (fun job h => by cases h) (fun _ h => by cases h) rfl, trivial⟩
    · apply obeys_perform
      exact fun _ hgrows _ => ⟨.finish (hgrows hstored), trivial⟩
  exact hreported.detached (fun _ _ _ _ _ _ _ => aside_of_background trivial rfl)
    fun _ _ _ _ _ _ _ => aside_of_background trivial rfl

theorem Kept.step {c : Config Event World Tag} {i : Nat} {tag : Tag} {ev : Event} {w : World}
    (hkept : Kept id changes c.world c.tags) (htag : c.tags[i]? = some tag) (hgood : Good id c i ev)
    (hacts : Acts id changes tag ev c.world w) : Kept id changes w (c.tags.set i (tag.next ev)) where
  holds := by
    rintro ⟨other, hother, hwrote⟩
    refine hacts.holds hgood htag ?_
    rcases mem_set_index hother with rfl | ⟨j, _, hj⟩
    · rcases Tag.wrote_next hwrote with hbefore | hnow
      · exact .inr (hkept.holds ⟨tag, List.mem_of_getElem? htag, hbefore⟩)
      · exact .inl hnow
    · exact .inr (hkept.holds ⟨other, List.mem_of_getElem? hj, hwrote⟩)
  stored := by
    intro hmem
    rcases mem_set_index hmem with hnew | ⟨j, _, hj⟩
    · rcases Tag.returned_next hnew.symm with rfl | ⟨rfl, rfl⟩
      · exact hacts.grows (hkept.stored (List.mem_of_getElem? htag))
      · cases hacts with
        | aside _ hreturn _ => exact absurd rfl (hreturn rfl)
        | finish hstored => exact hstored
    · exact hacts.grows (hkept.stored (List.mem_of_getElem? hj))

theorem stored_elsewhere {w : World} (change : World) (h : Stored id w) : Stored id (elsewhere id change w) := by
  obtain ⟨found, hfound⟩ := Option.isSome_iff_exists.mp h
  have hid := Rows.column_of_lookup hfound
  have hmem : found ∈ w.db.jobs.filter fun job => job.id = id :=
    List.mem_filter.mpr ⟨Rows.mem_of_lookup hfound, by simpa using hid⟩
  obtain ⟨other, hother⟩ := Rows.lookup_isSome (List.mem_append_right _ hmem) hid
  exact Option.isSome_iff_exists.mpr ⟨other, hother⟩

theorem Kept.elsewhere {w : World} {tags : List Tag} (h : Kept id changes w tags) (change : World) :
    Kept id changes (elsewhere id change w) tags where
  holds := by
    intro hwrote row hrow hid
    rcases List.mem_append.mp hrow with hother | hsame
    · exact absurd hid (by simpa using (List.mem_filter.mp hother).2)
    · exact h.holds hwrote row (List.mem_filter.mp hsame).1 hid
  stored := by
    intro hreturned
    exact stored_elsewhere change (h.stored hreturned)

theorem Kept.spawn {w : World} {tags : List Tag} (h : Kept id changes w tags) :
    Kept id changes w (tags ++ [.creating none]) where
  holds := by
    rintro ⟨tag, htag, hwrote⟩
    rcases List.mem_append.mp htag with hold | hlast
    · exact h.holds ⟨tag, hold, hwrote⟩
    · rw [List.mem_singleton.mp hlast] at hwrote
      rcases hwrote with hwrote | hwrote <;> cases hwrote
  stored := by
    intro hreturned
    rcases List.mem_append.mp hreturned with hold | hlast
    · exact h.stored hold
    · cases List.mem_singleton.mp hlast

theorem sound_kept :
    Sound (system id) (protocol id changes) (Good id) fun w tags _ => Kept id changes w tags where
  next := rfl
  knows _ _ := trivial
  run h htag hgood hacts := ⟨h.step htag hgood hacts, hacts.grows⟩
  spawn h hspawn := by
    cases hspawn
    refine ⟨h.spawn, fun hstored => hstored, obeys_reporting ?_⟩
    apply (obeys_createExecution _ _ none).mono
    · exact fun _ _ _ htag => .inl htag
    · exact fun _ _ _ _ => trivial
  env change h := ⟨h.elsewhere change, stored_elsewhere change⟩

/-- In every run in which no creation enables the job from a row that an edit has replaced, once the edit
has returned the stored job has the values of its request. -/
theorem edit_kept (hash : FieldOrder) (id : Uuid) (changes : UpdateJobRequest) {w : World}
    {c : Config Event World Tag} (hrun : (system id).Run (Good id) (start hash id changes w) c)
    (hreturned : .returned ∈ c.tags) :
    ∃ row, Rows.lookup Job.id id c.world.db.jobs = some row ∧ Holds changes row := by
  have hedit : (protocol id changes).Obeys (fun _ _ _ => True)
      (reporting (JobService.updateJob hash id changes)) .updating w := by
    apply obeys_reporting
    apply (obeys_updateJob hash).mono
    · exact fun _ _ _ h => .inr h
    · exact fun _ _ _ _ => trivial
  have hinit : Sound.Holds (protocol id changes) (fun w tags _ => Kept id changes w tags)
      (start hash id changes w) := by
    refine ⟨⟨?_, ?_⟩, ?_⟩
    · rintro ⟨tag, htag, hwrote⟩
      cases List.mem_singleton.mp htag
      rcases hwrote with hwrote | hwrote <;> cases hwrote
    · intro h
      cases List.mem_singleton.mp h
    · intro th hth
      cases List.mem_singleton.mp hth
      exact hedit
  have hkept := (sound_kept.invariant hrun hinit).1
  obtain ⟨row, hrow⟩ := Option.isSome_iff_exists.mp (hkept.stored hreturned)
  exact ⟨row, hrow, hkept.holds ⟨_, hreturned, .inr rfl⟩ row (Rows.mem_of_lookup hrow)
    (Rows.column_of_lookup hrow)⟩

/-! ### A lost edit -/

/-- `Good` as a test. -/
def check (id : Uuid) (c : Config Event World Tag) (i : Nat) (ev : Event) : Bool :=
  match ev, c.tags[i]? with
  | .sql (.updateJob _), some (.creating (some read)) => read.id ≠ id ||
      c.world.db.jobs.all fun row => row.id ≠ id || Agrees row read
  | _, _ => true

theorem good_of_check {c : Config Event World Tag} {i : Nat} {ev : Event} (h : check id c i ev = true) :
    Good id c i ev := by
  rintro job read rfl htag hread row hrow hid
  simp only [check, htag, ne_eq, Bool.or_eq_true, decide_not, Bool.not_eq_true', decide_eq_false_iff_not,
    hread, not_true_eq_false, false_or, List.all_eq_true, decide_eq_true_eq] at h
  exact (h row hrow).resolve_left (not_not_intro hid)

/-- The hash map yields the fields in the order of their declaration. -/
def FieldOrder.declared : FieldOrder := ⟨fun violations => violations, fun _ => .rfl⟩

/-- A request for other code. -/
def newCode : UpdateJobRequest where
  name := none
  description := none
  pythonCode := some "print(2)"
  timeoutSeconds := none
  memoryLimitMb := none
  useCustomVenv := none
  venvId := none
  priority := none
  maxRetries := none
  enabled := none

/-- Job 1 is disabled. -/
def disabled : World :=
  { World.sample 0 [] with db := { (World.sample 0 []).db with jobs := [{ Job.sample 0 with enabled := false }] } }

/-- A creation enables the job between the read and the write of the edit. -/
def createDuringEdit : List (Choice (Uuid × Option String) World) :=
  [.run 0, .spawn (1, none)] ++ List.replicate 10 (.run 1) ++ List.replicate 5 (.run 0)

/-- The edit takes place between the read and the write of a creation. -/
def editDuringCreate : List (Choice (Uuid × Option String) World) :=
  [.spawn (1, none), .run 1] ++ List.replicate 6 (.run 0) ++ List.replicate 9 (.run 1)

theorem edit_kept_during : ∃ c,
    (system 1).Run (Good 1) (start FieldOrder.declared 1 newCode disabled) c ∧ .returned ∈ c.tags ∧
      ∃ row, Rows.lookup Job.id 1 c.world.db.jobs = some row ∧ Holds newCode row := by
  have hexec : ((system 1).exec (check 1) createDuringEdit (start FieldOrder.declared 1 newCode disabled)).map
      (fun c => (c.tags.contains .returned, c.trace.count .returned)) = some (true, 2) := rfl
  obtain ⟨c, hc, heq⟩ := Option.map_eq_some_iff.mp hexec
  obtain ⟨hcontains, _⟩ := Prod.mk.inj heq
  have hreturned : Tag.returned ∈ c.tags := List.contains_iff_mem.mp hcontains
  have hrun := System.run_of_exec (fun _ _ _ => good_of_check) hc
  exact ⟨c, hrun, hreturned, edit_kept FieldOrder.declared 1 newCode hrun hreturned⟩

/-- Both functions have returned `Ok`, and the job has its old code. -/
theorem edit_lost : ¬ ∀ c, (system 1).Reaches (start FieldOrder.declared 1 newCode disabled) c →
    c.trace.count .returned = c.threads.length →
      ∃ row, Rows.lookup Job.id 1 c.world.db.jobs = some row ∧ Holds newCode row := by
  intro hkept
  have hexec : ((system 1).exec (fun _ _ _ => true) editDuringCreate
      (start FieldOrder.declared 1 newCode disabled)).map (fun c =>
        (c.trace.count .returned, c.threads.length,
          (Rows.lookup Job.id 1 c.world.db.jobs).map fun row => (row.pythonCode, row.enabled))) =
      some (2, 2, some ("print(1)", true)) := rfl
  obtain ⟨c, hc, heq⟩ := Option.map_eq_some_iff.mp hexec
  simp only [Prod.mk.injEq] at heq
  obtain ⟨hcount, hlength, hjob⟩ := heq
  obtain ⟨row, hrow, hholds⟩ := hkept c (System.reaches_of_exec hc) (hcount.trans hlength.symm)
  rw [hrow] at hjob
  have hold : row.pythonCode = "print(1)" := congrArg Prod.fst (Option.some.inj hjob)
  have hnew : row.pythonCode = "print(2)" := hholds.pythonCode _ rfl
  exact absurd (hold.symm.trans hnew) (by decide)

end JobEdits

end Serverust
