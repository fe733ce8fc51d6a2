import Serverust.Library.UniqueKeys
import Serverust.Proof.JobEdits

/-!
# Names of jobs

Each write of a name follows a query that finds the name free, or a read of the row that has it, and no
constraint forbids a second row with the name. So the names stay distinct as long as no call writes a name
that another call has found free, or has read, and is going to write to another job.
-/

namespace Serverust

namespace JobNames

open Calendar Resumption UniqueKeys

/-! ### The rules -/

/-- A creation has found this name free; an update of a job is going to write this name, or has written. -/
inductive Tag where
  | creating (name : Option String)
  | updating (id : Uuid) (name : Option String)
  | updated
deriving DecidableEq

def Tag.next : Tag → Event → Tag
  | .creating _, .sql (.nameExists name _ found) => .creating (if found then none else some name)
  | .creating _, .sql (.createJob _) | .creating _, .failed _ | .creating _, .returned => .creating none
  | .updating id _, .sql (.getJob _ row) => .updating id (row.map Job.name)
  | .updating id _, .sql (.nameExists name _ found) => .updating id (if found then none else some name)
  | .updating .., .sql (.updateJob _) | .updating .., .failed _ | .updating .., .returned => .updated
  | tag, _ => tag

/-- The name the call is going to write, and the job. -/
def Tag.intent : Tag → Intent String Uuid
  | .creating (some name) => some (name, none)
  | .updating id (some name) => some (name, some id)
  | _ => none

/-- Events that write no job. -/
def Writeless (ev : Event) : Prop := ∀ job, ev ≠ .sql (.createJob job) ∧ ev ≠ .sql (.updateJob job)

/-- What an action may do. -/
inductive Acts : Tag → Event → World → World → Prop
  | aside {tag : Tag} {ev : Event} {u v : World} (hev : Writeless ev)
      (hintent : (tag.next ev).intent = tag.intent ∨ (tag.next ev).intent = none)
      (hrows : v.db.jobs.Sublist u.db.jobs) : Acts tag ev u v
  | findNew {known : Option String} {name : String} {excludeId : Option Uuid} {u : World}
      (hfree : Free Job.id Job.name u.db.jobs name none) :
      Acts (.creating known) (.sql (.nameExists name excludeId false)) u u
  | find {id : Uuid} {known : Option String} {name : String} {excludeId : Option Uuid} {u : World}
      (hfree : Free Job.id Job.name u.db.jobs name (some id)) :
      Acts (.updating id known) (.sql (.nameExists name excludeId false)) u u
  | read {id : Uuid} {known : Option String} {row : Job} {u : World} (hrow : row ∈ u.db.jobs)
      (hid : row.id = id) : Acts (.updating id known) (.sql (.getJob id (some row))) u u
  | insert {job : Job} {u v : World} (hnew : ∀ row ∈ u.db.jobs, row.id ≠ job.id)
      (hrows : v.db.jobs = u.db.jobs ++ [job]) :
      Acts (.creating (some job.name)) (.sql (.createJob job)) u v
  | write {job : Job} {u v : World} (hrows : v.db.jobs = Rows.modify Job.id job.id job.over u.db.jobs) :
      Acts (.updating job.id (some job.name)) (.sql (.updateJob job)) u v

def protocol : Protocol Event World Tag where
  next := Tag.next
  knows _ _ := True
  grows _ _ := True
  allows := Acts

instance : protocol.Lawful := ⟨fun _ => trivial, fun _ _ => trivial⟩

/-! ### What the tasks do -/

section

variable {α : Type} {tag : Tag} {w : World}

theorem keeps_quiet {act : World → α × World} (hsame : ∀ u, (act u).2.db = u.db) :
    Task.Keeps protocol (fun _ => True) tag (perform (fun _ => .quiet) act) := by
  intro w
  apply obeys_perform
  intro u _ _
  have hnext : tag.next .quiet = tag := by
    cases tag <;> rfl
  refine ⟨.aside (fun _ => by simp) (.inl (by rw [hnext])) ?_, hnext, trivial, trivial⟩
  rw [hsame]

theorem acts_failed (tag : Tag) (e : SqlError) (u : World) : Acts tag (.failed e) u u := by
  refine .aside (fun _ => by simp) ?_ (List.Sublist.refl _)
  cases tag with
  | creating name => exact .inr rfl
  | updating id name => exact .inr rfl
  | updated => exact .inl rfl

/-- A call without an intent that does not read for one. -/
def Tag.Idle (tag : Tag) : Prop := tag = .creating none ∨ tag = .updated

theorem keeps_getById (htag : tag.Idle) (id : Uuid) :
    Task.Keeps protocol (fun _ => True) tag (JobRepository.getById id) := by
  unfold JobRepository.getById
  apply Task.Keeps.bind (φ := fun _ => True)
  · intro w
    apply obeys_sql
    · intro u row db _ _ hquery
      cases (query_ok hquery).2
      have hnext : tag.next (.sql (.getJob id (Rows.lookup Job.id id u.db.jobs))) = tag := by
        rcases htag with rfl | rfl <;> rfl
      exact ⟨.aside (fun _ => by simp) (.inl (by rw [hnext])) (List.Sublist.refl _), hnext, trivial, trivial⟩
    · intro u e _ _ _
      have hnext : tag.next (.failed e) = tag := by
        rcases htag with rfl | rfl <;> rfl
      exact ⟨acts_failed _ _ _, hnext, trivial⟩
  · intro row _
    cases row with
    | none => exact .throw
    | some job => exact .pure trivial

/-- A creation, whatever it has found. -/
def Tag.Creates (tag : Tag) : Prop := ∃ name, tag = .creating name

theorem obeys_create (job : Job) :
    Task.Obeys protocol (fun _ t _ => t.Creates) (fun _ t _ => t.Creates) (JobRepository.create job)
      (.creating (some job.name)) w := by
  unfold JobRepository.create
  apply Task.obeys_bind.mpr
  apply obeys_sql
  · intro u value db _ _ hquery
    obtain ⟨hnew, -, rfl⟩ := JobRepository.insertJob_ok (query_ok hquery).2
    refine ⟨.insert (Rows.hits_eq_zero.mp hnew) rfl, ?_⟩
    apply (keeps_getById (.inl rfl) job.id).obeys.mono
    · exact fun _ _ _ h => ⟨none, h.1⟩
    · exact fun _ _ _ h => ⟨none, h.1⟩
  · exact fun u e _ _ _ => ⟨acts_failed _ _ _, none, rfl⟩

theorem obeys_insertNew (req : CreateJobRequest) :
    Task.Obeys protocol (fun _ t _ => t.Creates) (fun _ t _ => t.Creates) (JobService.insertNew req)
      (.creating (some req.name)) w := by
  unfold JobService.insertNew
  apply (keeps_quiet (fun _ => rfl)).bind_obeys
  · intro now _ _ _
    apply (keeps_quiet (fun _ => rfl)).bind_obeys
    · exact fun id _ _ _ => obeys_create (Job.new id req now)
    · exact fun _ _ _ => ⟨_, rfl⟩
  · exact fun _ _ _ => ⟨_, rfl⟩

theorem free_of_not_exists {name : String} {excludeId : Option Uuid} {rows : List Job}
    (h : decide (0 < rows.countP fun job => job.name = name && excludeId ≠ some job.id) = false) :
    Free Job.id Job.name rows name excludeId := by
  have hcount : rows.countP (fun job => job.name = name && excludeId ≠ some job.id) = 0 := by
    simpa using h
  intro row hrow hname
  have hnot := List.countP_eq_zero.mp hcount row hrow
  simpa [hname] using hnot

theorem obeys_ifFree {known : Option String} (req : CreateJobRequest) {e : AppError} :
    Task.Obeys protocol (fun _ t _ => t.Creates) (fun _ t _ => t.Creates) (do
      if ← JobRepository.nameExists req.name none then Task.throw e else JobService.insertNew req)
      (.creating known) w := by
  unfold JobRepository.nameExists
  apply Task.obeys_bind.mpr
  apply obeys_sql
  · intro u found db _ _ hquery
    have hfound : _ = (found, db) := Except.ok.inj (query_ok hquery).2
    cases found with
    | true =>
        refine ⟨.aside (fun _ => by simp) (.inr rfl) ?_, _, rfl⟩
        rw [← (Prod.mk.inj hfound).2]
    | false =>
        have hsame : u.db = db := (Prod.mk.inj hfound).2
        subst hsame
        exact ⟨.findNew (free_of_not_exists (Prod.mk.inj hfound).1), obeys_insertNew req⟩
  · exact fun u e _ _ _ => ⟨acts_failed _ _ _, none, rfl⟩

theorem stays_createJob (hash : FieldOrder) (req : CreateJobRequest) :
    Task.Stays protocol Tag.Creates (fun _ => True) (JobService.createJob hash req) := by
  rintro tag w ⟨known, rfl⟩
  unfold JobService.createJob
  split
  · exact ⟨known, rfl⟩
  · apply (obeys_ifFree _).mono
    · exact fun _ _ _ h => ⟨h, trivial⟩
    · exact fun _ _ _ h => h

end

section Calls

variable {w : World}

-- From here on a creation is only what its lemma says.
attribute [local irreducible] JobService.createJob

theorem stays_bulkCreateJobs (hash : FieldOrder) (requests : List CreateJobRequest) :
    Task.Stays protocol Tag.Creates (fun _ => True) (JobService.bulkCreateJobs hash requests) := by
  induction requests with
  | nil => exact .pure trivial
  | cons req requests ih =>
      unfold JobService.bulkCreateJobs
      apply (stays_createJob hash req).attempt.bind
      intro result _
      apply ih.bind
      intro rest _
      cases result with
      | ok job => exact .pure trivial
      | error e => exact .pure trivial

/-- A clone reads its source before it has found a name. -/
theorem obeys_cloneJob (id : Uuid) (newName : Option String) :
    Task.Obeys protocol (fun _ t _ => t.Creates) (fun _ t _ => t.Creates) (JobService.cloneJob id newName)
      (.creating none) w := by
  unfold JobService.cloneJob
  apply (keeps_getById (.inl rfl) id).bind_obeys
  · intro source _ _ _
    exact obeys_ifFree ⟨newName.getD (source.name ++ " (copy)"), _, _, _, _, _, _, _, _⟩
  · exact fun _ _ _ => ⟨none, rfl⟩

theorem obeys_update {job : Job} {id : Uuid} {name : String} (hid : job.id = id) (hname : job.name = name) :
    Task.Obeys protocol (fun _ _ _ => True) (fun _ _ _ => True) (JobRepository.update job)
      (.updating id (some name)) w := by
  subst hid hname
  unfold JobRepository.update
  apply Task.obeys_bind.mpr
  apply obeys_sql
  · intro u affected db _ _ hquery
    obtain ⟨rfl, rfl⟩ := JobRepository.writeJob_ok (query_ok hquery).2
    refine ⟨.write rfl, ?_⟩
    split
    · trivial
    · exact (keeps_getById (.inr rfl) job.id).obeys.mono (fun _ _ _ _ => trivial) fun _ _ _ _ => trivial
  · exact fun u e _ _ _ => ⟨acts_failed _ _ _, trivial⟩

/-- The check of a name leaves an update with the name it is going to write. -/
theorem obeys_checkName (job : Job) (req : UpdateJobRequest) :
    Task.Obeys protocol (fun _ t _ => t = .updating job.id (some (req.name.getD job.name)))
      (fun _ _ _ => True) (JobService.checkName job.id job req) (.updating job.id (some job.name)) w := by
  unfold JobService.checkName
  split
  · rename_i newName hname
    rw [hname, Option.getD_some]
    by_cases hsame : newName = job.name
    · rw [if_neg (not_not.mpr hsame), hsame]
      exact rfl
    · rw [if_pos hsame]
      unfold JobRepository.nameExists
      apply Task.obeys_bind.mpr
      apply obeys_sql
      · intro u found db _ _ hquery
        have hfound : _ = (found, db) := Except.ok.inj (query_ok hquery).2
        have hdb : u.db = db := (Prod.mk.inj hfound).2
        subst hdb
        cases found with
        | true => exact ⟨.aside (fun _ => by simp) (.inr rfl) (List.Sublist.refl _), trivial⟩
        | false => exact ⟨.find (free_of_not_exists (Prod.mk.inj hfound).1), rfl⟩
      · exact fun u e _ _ _ => ⟨acts_failed _ _ _, trivial⟩
  · rename_i hname
    rw [hname, Option.getD_none]
    exact rfl

theorem obeys_updateJob (hash : FieldOrder) (id : Uuid) (req : UpdateJobRequest) :
    Task.Obeys protocol (fun _ _ _ => True) (fun _ _ _ => True) (JobService.updateJob hash id req)
      (.updating id none) w := by
  unfold JobService.updateJob
  split
  · trivial
  unfold JobRepository.getById
  apply Task.obeys_bind.mpr
  apply Task.obeys_bind.mpr
  apply obeys_sql
  · intro u row db _ _ hquery
    cases (query_ok hquery).2
    dsimp only
    cases hrow : Rows.lookup Job.id id u.db.jobs with
    | none => exact ⟨.aside (fun _ => by simp) (.inl rfl) (List.Sublist.refl _), trivial⟩
    | some job =>
        have hid : job.id = id := Rows.column_of_lookup hrow
        subst hid
        refine ⟨.read (Rows.mem_of_lookup hrow) rfl, ?_⟩
        show Task.Obeys protocol _ _ _ (.updating job.id (some job.name)) _
        apply Task.obeys_bind.mpr
        apply (obeys_checkName job req).mono
        · rintro _ _ _ rfl
          apply (keeps_quiet (fun _ => rfl)).bind_obeys
          · exact fun now _ _ _ => obeys_update rfl rfl
          · exact fun _ _ _ => trivial
        · exact fun _ _ _ _ => trivial
  · exact fun u e _ _ _ => ⟨acts_failed _ _ _, trivial⟩

/-! ### The pool -/

inductive Call where
  | createJob (req : CreateJobRequest)
  | updateJob (id : Uuid) (req : UpdateJobRequest)
  | cloneJob (id : Uuid) (newName : Option String)
  | bulkCreateJobs (requests : List CreateJobRequest)

def Call.task (hash : FieldOrder) : Call → Async Unit
  | .createJob req => do let _ ← JobService.createJob hash req
  | .updateJob id req => do let _ ← JobService.updateJob hash id req
  | .cloneJob id newName => do let _ ← JobService.cloneJob id newName
  | .bulkCreateJobs requests => do let _ ← JobService.bulkCreateJobs hash requests

def Call.tag : Call → Tag
  | .updateJob id _ => .updating id none
  | _ => .creating none

def elsewhere (change w : World) : World := { change with db := { change.db with jobs := w.db.jobs } }

/-- Anything else may happen to the rest of the state. -/
def system (hash : FieldOrder) : System Event World Tag Call World where
  next := Tag.next
  spawn call w := some (w, ⟨call.tag, (call.task hash).detached .returned⟩)
  env := elsewhere

/-- A call writes a name only while no other call, which has found the name free or has read it, is going to
write it to another job. -/
def Good (c : Config Event World Tag) (i : Nat) (ev : Event) : Prop :=
  ∀ job, ev = .sql (.createJob job) ∨ ev = .sql (.updateJob job) → ∀ j, j ≠ i → ∀ tag owner,
    c.tags[j]? = some tag → tag.intent = some (job.name, owner) → owner = some job.id

/-- The ids and the names are distinct, and no other job has a name that a call is going to write. -/
abbrev Kept (w : World) (tags : List Tag) : Prop := Settled Job.id Job.name w.db.jobs (tags.map Tag.intent)

/-- What an action does to names that are settled. -/
theorem Kept.step {c : Config Event World Tag} {i : Nat} {tag : Tag} {ev : Event} {w : World}
    (h : Kept c.world c.tags) (htag : c.tags[i]? = some tag) (hgood : Good c i ev)
    (hacts : Acts tag ev c.world w) : Kept w (c.tags.set i (tag.next ev)) := by
  have hintent : (c.tags.map Tag.intent)[i]? = some tag.intent := by
    rw [List.getElem?_map, htag]
    rfl
  have hothers (job : Job) (hev : ev = .sql (.createJob job) ∨ ev = .sql (.updateJob job)) (j : Nat)
      (owner : Option Uuid) (hj : j ≠ i)
      (hother : (c.tags.map Tag.intent)[j]? = some (some (job.name, owner))) : owner = some job.id := by
    rw [List.getElem?_map] at hother
    obtain ⟨other, hget, heq⟩ := Option.map_eq_some_iff.mp hother
    exact hgood job hev j hj other owner hget heq
  unfold Kept
  rw [List.map_set]
  cases hacts with
  | aside _ hnext hrows =>
      apply (h.sublist hrows).intend
      intro name owner heq
      rcases hnext with hsame | hnone
      · apply Free.sublist _ hrows
        exact h.free name owner (List.mem_of_getElem? (hintent.trans (congrArg some (hsame.symm.trans heq))))
      · rw [hnone] at heq
        cases heq
  | findNew hfree =>
      apply h.intend
      intro name owner heq
      cases heq
      exact hfree
  | find hfree =>
      apply h.intend
      intro name owner heq
      cases heq
      exact hfree
  | read hrow hid =>
      apply h.intend
      intro name owner heq
      cases heq
      exact hid ▸ free_of_mem h.keys hrow
  | @insert job _ _ hnew hrows =>
      rw [hrows]
      exact h.insert hintent hnew (hothers job (.inl rfl))
  | @write job _ _ hrows =>
      rw [hrows]
      exact h.write hintent (fun _ => rfl) (fun _ => rfl) (hothers job (.inr rfl))

theorem acts_returned (tag : Tag) (u : World) : Acts tag .returned u u := by
  refine .aside (fun _ => by simp) ?_ (List.Sublist.refl _)
  cases tag with
  | creating name => exact .inr rfl
  | updating id name => exact .inr rfl
  | updated => exact .inl rfl

theorem obeys_thread (hash : FieldOrder) (call : Call) (w : World) :
    protocol.Obeys (fun _ _ _ => True) ((call.task hash).detached .returned) call.tag w := by
  have htask : Task.Obeys protocol (fun _ _ _ => True) (fun _ _ _ => True) (call.task hash) call.tag w := by
    cases call with
    | createJob req =>
        apply Task.obeys_bind.mpr
        exact (stays_createJob hash req _ w ⟨none, rfl⟩).mono (fun _ _ _ _ => trivial) fun _ _ _ _ => trivial
    | updateJob id req =>
        apply Task.obeys_bind.mpr
        exact (obeys_updateJob hash id req).mono (fun _ _ _ _ => trivial) fun _ _ _ _ => trivial
    | cloneJob id newName =>
        apply Task.obeys_bind.mpr
        exact (obeys_cloneJob id newName).mono (fun _ _ _ _ => trivial) fun _ _ _ _ => trivial
    | bulkCreateJobs requests =>
        apply Task.obeys_bind.mpr
        exact (stays_bulkCreateJobs hash requests _ w ⟨none, rfl⟩).mono (fun _ _ _ _ => trivial)
          fun _ _ _ _ => trivial
  exact htask.detached (fun _ _ _ _ _ _ _ => acts_returned _ _) fun _ _ _ _ _ _ _ => acts_returned _ _

theorem sound_kept (hash : FieldOrder) : Sound (system hash) protocol Good fun w tags _ => Kept w tags where
  next := rfl
  knows _ _ := trivial
  run h htag hgood hacts := ⟨h.step htag hgood hacts, trivial⟩
  spawn {w ts _ call _ _} h hspawn := by
    cases hspawn
    refine ⟨?_, trivial, obeys_thread hash call w⟩
    have hnone : call.tag.intent = none := by
      cases call <;> rfl
    show Settled _ _ _ ((ts ++ [call.tag]).map Tag.intent)
    rw [List.map_append, List.map_singleton, hnone]
    exact h.start
  env _ h := ⟨h, trivial⟩

end Calls

/-- In every run in which no call writes a name that another call is going to write to another job, no two
stored jobs have the same name. -/
theorem names_distinct (hash : FieldOrder) {w : World} {c : Config Event World Tag}
    (hids : Rows.Unique Job.id w.db.jobs) (hnames : Rows.Unique Job.name w.db.jobs)
    (hrun : (system hash).Run Good ⟨w, [], []⟩ c) : Rows.Unique Job.name c.world.db.jobs := by
  have hstart : Kept w [] := ⟨hids, hnames, fun _ _ h => absurd h List.not_mem_nil⟩
  exact ((sound_kept hash).invariant hrun ⟨hstart, fun _ hth => absurd hth List.not_mem_nil⟩).1.keys

/-! ### Names that meet -/

/-- `Good` as a test. -/
def check (c : Config Event World Tag) (i : Nat) (ev : Event) : Bool :=
  match ev with
  | .sql (.createJob job) | .sql (.updateJob job) =>
      (List.range c.tags.length).all fun j => j == i || match (c.tags[j]?).bind Tag.intent with
        | some (name, owner) => name != job.name || owner == some job.id
        | none => true
  | _ => true

theorem good_of_check {c : Config Event World Tag} {i : Nat} {ev : Event} (h : check c i ev = true) :
    Good c i ev := by
  intro job hev j hj tag owner hget hintent
  have hlength : j < c.tags.length := (List.getElem?_eq_some_iff.mp hget).choose
  have hall : ((List.range c.tags.length).all fun j => j == i || match (c.tags[j]?).bind Tag.intent with
      | some (name, owner) => name != job.name || owner == some job.id
      | none => true) = true := by
    rcases hev with rfl | rfl <;> exact h
  have hother := List.all_eq_true.mp hall j (List.mem_range.mpr hlength)
  simpa [hj, hget, hintent] using hother

/-- A request for a job with this name. -/
def named (name : String) : CreateJobRequest where
  name := name
  description := none
  pythonCode := "print(1)"
  timeoutSeconds := 30
  memoryLimitMb := 128
  useCustomVenv := false
  venvId := none
  priority := 0
  maxRetries := 0

/-- A creation, a clone with the default name during which the source gets another name, and a bulk creation
whose second request is refused. -/
def inTurn : List (Choice Call World) :=
  .spawn (.createJob (named "b")) :: List.replicate 6 (.run 0) ++
    [.spawn (.cloneJob 1 none), .run 1, .spawn (.updateJob 1 { JobEdits.newCode with name := some "a" })] ++
    List.replicate 6 (.run 2) ++ List.replicate 6 (.run 1) ++
    .spawn (.bulkCreateJobs [named "c", named "job (copy)"]) :: List.replicate 7 (.run 3)

/-- Both creations find the name free before either writes it. -/
def atOnce : List (Choice Call World) :=
  [.spawn (.createJob (named "a")), .spawn (.createJob (named "a")), .run 0, .run 1] ++
    List.replicate 5 (.run 0) ++ List.replicate 5 (.run 1)

/-- The names that are stored, and the number of calls that have returned. -/
def outcome (c : Config Event World Tag) : List String × Nat :=
  (c.world.db.jobs.map Job.name, c.trace.count .returned)

theorem names_distinct_inTurn : ∃ c, (system JobEdits.FieldOrder.declared).Run Good ⟨.sample 0 [], [], []⟩ c ∧
    outcome c = (["a", "b", "job (copy)", "c"], 4) ∧ Rows.Unique Job.name c.world.db.jobs := by
  have hexec : ((system JobEdits.FieldOrder.declared).exec check inTurn ⟨.sample 0 [], [], []⟩).map outcome =
      some (["a", "b", "job (copy)", "c"], 4) := rfl
  obtain ⟨c, hc, houtcome⟩ := Option.map_eq_some_iff.mp hexec
  have hrun := System.run_of_exec (fun _ _ _ => good_of_check) hc
  have hids : Rows.Unique Job.id (World.sample 0 []).db.jobs := List.nodup_singleton _
  have hnames : Rows.Unique Job.name (World.sample 0 []).db.jobs := List.nodup_singleton _
  exact ⟨c, hrun, houtcome, names_distinct JobEdits.FieldOrder.declared hids hnames hrun⟩

theorem names_meet : ¬ ∀ c, (system JobEdits.FieldOrder.declared).Reaches ⟨.sample 0 [], [], []⟩ c →
    Rows.Unique Job.name c.world.db.jobs := by
  intro hunique
  have hexec : ((system JobEdits.FieldOrder.declared).exec (fun _ _ _ => true) atOnce
      ⟨.sample 0 [], [], []⟩).map outcome = some (["job", "a", "a"], 2) := rfl
  obtain ⟨c, hc, houtcome⟩ := Option.map_eq_some_iff.mp hexec
  have hnames : c.world.db.jobs.map Job.name = ["job", "a", "a"] := congrArg Prod.fst houtcome
  have hnodup := hunique c (System.reaches_of_exec hc)
  unfold Rows.Unique at hnodup
  rw [hnames] at hnodup
  exact absurd hnodup (by decide)

end JobNames

end Serverust
