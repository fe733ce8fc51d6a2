import Serverust.Model.VenvService
import Serverust.Proof.JobNames

/-!
# Limits of stored jobs

Every operation that writes a job either checks its request or writes back columns it has read. Cloning
makes a new name and checks nothing, so the stored jobs are within the limits as long as the names of clones
are.
-/

namespace Serverust

/-- A name of 1 to 100 characters. -/
def NameWithin (name : String) : Prop := 1 ≤ name.length ∧ name.length ≤ 100

instance (name : String) : Decidable (NameWithin name) := inferInstanceAs (Decidable (_ ∧ _))

/-- The limits that `CreateJobRequest` declares. -/
structure Job.Within (job : Job) : Prop where
  name : NameWithin job.name
  description : ∀ text, job.description = some text → text.length ≤ 1000
  pythonCode : 1 ≤ job.pythonCode.length ∧ job.pythonCode.length ≤ 102400
  timeoutSeconds : 1 ≤ job.timeoutSeconds ∧ job.timeoutSeconds ≤ 3600
  memoryLimitMb : 16 ≤ job.memoryLimitMb ∧ job.memoryLimitMb ≤ 4096
  priority : -100 ≤ job.priority ∧ job.priority ≤ 100
  maxRetries : 0 ≤ job.maxRetries ∧ job.maxRetries ≤ 10

/-! ### The validators -/

theorem checkLength_eq_nil {field message : String} {min max : Nat} {value : Option String} :
    checkLength field message min max value = [] ↔
      ∀ text, value = some text → min ≤ text.length ∧ text.length ≤ max := by
  unfold checkLength
  cases value with
  | none => simp
  | some text => simp

theorem checkRange_eq_nil {field message : String} {min max : Int} {value : Option Int} :
    checkRange field message min max value = [] ↔ ∀ n, value = some n → min ≤ n ∧ n ≤ max := by
  unfold checkRange
  cases value with
  | none => simp
  | some n => simp

theorem Job.within_new {req : CreateJobRequest} (h : req.violations = []) (id : Uuid) (now : String) :
    (Job.new id req now).Within := by
  simp only [CreateJobRequest.violations, List.append_eq_nil_iff, checkLength_eq_nil, checkRange_eq_nil] at h
  obtain ⟨⟨⟨⟨⟨⟨hname, hdescription⟩, hcode⟩, htimeout⟩, hmemory⟩, hpriority⟩, hretries⟩ := h
  exact ⟨hname _ rfl, fun text htext => (hdescription text htext).2, hcode _ rfl, htimeout _ rfl, hmemory _ rfl,
    hpriority _ rfl, hretries _ rfl⟩

/-- A column that a checked request sets, or leaves. -/
theorem getD_within {α : Type} {P : α → Prop} {value : Option α} {old : α} (hold : P old)
    (hnew : ∀ a, value = some a → P a) : P (value.getD old) := by
  cases value with
  | none => exact hold
  | some a => exact hnew a rfl

theorem Job.Within.applyUpdate {job : Job} {req : UpdateJobRequest} (h : job.Within) (hreq : req.violations = [])
    (now : String) : (job.applyUpdate req now).Within := by
  simp only [UpdateJobRequest.violations, List.append_eq_nil_iff, checkLength_eq_nil, checkRange_eq_nil] at hreq
  obtain ⟨⟨⟨⟨⟨⟨hname, hdescription⟩, hcode⟩, htimeout⟩, hmemory⟩, hpriority⟩, hretries⟩ := hreq
  refine ⟨?_, ?_, ?_, ?_, ?_, ?_, ?_⟩
  · exact getD_within (P := NameWithin) h.name hname
  · intro text htext
    rcases Option.or_eq_some_iff.mp htext with hnew | ⟨-, hold⟩
    · exact (hdescription text hnew).2
    · exact h.description text hold
  · exact getD_within (P := fun code : String => 1 ≤ code.length ∧ code.length ≤ 102400) h.pythonCode hcode
  · exact getD_within (P := fun n : Int => 1 ≤ n ∧ n ≤ 3600) h.timeoutSeconds htimeout
  · exact getD_within (P := fun n : Int => 16 ≤ n ∧ n ≤ 4096) h.memoryLimitMb hmemory
  · exact getD_within (P := fun n : Int => -100 ≤ n ∧ n ≤ 100) h.priority hpriority
  · exact getD_within (P := fun n : Int => 0 ≤ n ∧ n ≤ 10) h.maxRetries hretries

theorem Job.Within.of_columns {job job' : Job} (h : job.Within) (hname : job'.name = job.name)
    (hdescription : job'.description = job.description) (hcode : job'.pythonCode = job.pythonCode)
    (htimeout : job'.timeoutSeconds = job.timeoutSeconds) (hmemory : job'.memoryLimitMb = job.memoryLimitMb)
    (hpriority : job'.priority = job.priority) (hretries : job'.maxRetries = job.maxRetries) : job'.Within := by
  refine ⟨?_, ?_, ?_, ?_, ?_, ?_, ?_⟩
  · exact hname ▸ h.name
  · exact hdescription ▸ h.description
  · exact hcode ▸ h.pythonCode
  · exact htimeout ▸ h.timeoutSeconds
  · exact hmemory ▸ h.memoryLimitMb
  · exact hpriority ▸ h.priority
  · exact hretries ▸ h.maxRetries

theorem Job.Within.over {job : Job} (h : job.Within) (row : Job) : (job.over row).Within :=
  h.of_columns rfl rfl rfl rfl rfl rfl rfl

namespace JobLimits

open Calendar Resumption

/-! ### The rules -/

/-- A clone that has yet to read its source, and one that has made its name. -/
inductive Tag where
  | plain
  | cloning (newName : Option String)
  | named (name : String)
deriving DecidableEq

def cloneName (newName : Option String) (source : Job) : String := newName.getD (source.name ++ " (copy)")

def Tag.next : Tag → Event → Tag
  | .cloning newName, .sql (.getJob _ (some source)) => .named (cloneName newName source)
  | tag, _ => tag

def AllWithin (w : World) : Prop := ∀ job ∈ w.db.jobs, job.Within

def protocol : Protocol Event World Tag where
  next := Tag.next
  knows tag w := AllWithin w ∧ ∀ name, tag = .named name → NameWithin name
  grows _ _ := True
  allows _ _ u v := AllWithin u → AllWithin v

instance : protocol.Lawful := ⟨fun _ => trivial, fun _ _ => trivial⟩

/-! ### What the tasks do -/

section

variable {α : Type} {tag : Tag} {w : World}

/-- A call that has no source to read. -/
def Tag.Still (tag : Tag) : Prop := ∀ newName, tag ≠ .cloning newName

theorem Tag.Still.next (h : tag.Still) (ev : Event) : tag.next ev = tag := by
  cases tag with
  | cloning newName => exact absurd rfl (h newName)
  | plain => rfl
  | named name => rfl

theorem AllWithin.same {u v : World} (hsame : v.db.jobs = u.db.jobs) (h : AllWithin u) : AllWithin v := by
  unfold AllWithin
  rw [hsame]
  exact h

/-- Actions that leave the jobs as they are. -/
theorem keeps_same {R : World → Event → World → Prop} {p : Async α} (htag : tag.Still) (h : p.Acts R)
    (hR : ∀ u ev v, R u ev v → v.db.jobs = u.db.jobs) : Task.Keeps protocol (fun _ => True) tag p :=
  h.keeps fun u ev v _ hact => ⟨.same (hR u ev v hact), htag.next ev, trivial⟩

theorem keeps_reading {p : Async α} (htag : tag.Still) (h : p.Acts Reading) :
    Task.Keeps protocol (fun _ => True) tag p := by
  apply keeps_same htag h
  intro u ev v hact
  obtain ⟨_, rfl⟩ := hact.same
  rfl

theorem keeps_getById (htag : tag.Still) (id : Uuid) :
    Task.Keeps protocol Job.Within tag (JobRepository.getById id) := by
  unfold JobRepository.getById
  apply Task.Keeps.bind (φ := fun row : Option Job => ∀ job, row = some job → job.Within)
  · intro w
    apply obeys_sql
    · intro u row db _ hknows hquery
      cases (query_ok hquery).2
      exact ⟨fun hall => hall, htag.next _, trivial, fun job hrow => hknows.1 job (Rows.mem_of_lookup hrow)⟩
    · exact fun u e _ _ _ => ⟨fun hall => hall, htag.next _, trivial⟩
  · intro row hrow
    cases row with
    | none => exact .throw
    | some job => exact .pure (hrow job rfl)

theorem keeps_update {job : Job} (htag : tag.Still) (hjob : job.Within) :
    Task.Keeps protocol Job.Within tag (JobRepository.update job) := by
  unfold JobRepository.update
  apply Task.Keeps.bind (φ := fun _ => True)
  · intro w
    apply obeys_sql
    · intro u affected db _ _ hquery
      obtain ⟨-, rfl⟩ := JobRepository.writeJob_ok (query_ok hquery).2
      refine ⟨?_, htag.next _, trivial, trivial⟩
      intro hall row hrow
      obtain ⟨old, hold, rfl⟩ := Rows.mem_modify.mp hrow
      split
      · exact hjob.over old
      · exact hall old hold
    · exact fun u e _ _ _ => ⟨fun hall => hall, htag.next _, trivial⟩
  · intro affected _
    split
    · exact .throw
    · exact keeps_getById htag job.id

/-- An insert of a job that is within the limits by what the call knows. -/
theorem keeps_create {job : Job} (htag : tag.Still) (hjob : ∀ u, protocol.knows tag u → job.Within) :
    Task.Keeps protocol Job.Within tag (JobRepository.create job) := by
  unfold JobRepository.create
  apply Task.Keeps.bind (φ := fun _ => True)
  · intro w
    apply obeys_sql
    · intro u value db _ hknows hquery
      obtain ⟨-, -, rfl⟩ := JobRepository.insertJob_ok (query_ok hquery).2
      refine ⟨?_, htag.next _, trivial, trivial⟩
      intro hall row hrow
      rcases List.mem_append.mp hrow with hold | hnew
      · exact hall row hold
      · rw [List.mem_singleton.mp hnew]
        exact hjob u hknows
    · exact fun u e _ _ _ => ⟨fun hall => hall, htag.next _, trivial⟩
  · exact fun _ _ => keeps_getById htag job.id

theorem keeps_insertNew {req : CreateJobRequest} (htag : tag.Still)
    (hreq : ∀ u id now, protocol.knows tag u → (Job.new id req now).Within) :
    Task.Keeps protocol (fun _ => True) tag (JobService.insertNew req) := by
  unfold JobService.insertNew
  apply (keeps_reading htag acts_nowRfc3339).bind
  intro now _
  apply (keeps_reading htag acts_newV4).bind
  intro id _
  exact (keeps_create htag fun u hknows => hreq u id now hknows).mono fun _ _ => trivial

theorem acts_nameExists (name : String) (excludeId : Option Uuid) :
    (JobRepository.nameExists name excludeId).Acts Reading :=
  acts_select (fun w => ⟨trivial, w.nextUuid, rfl⟩) Reading.failed

theorem keeps_createJob (hash : FieldOrder) (req : CreateJobRequest) :
    Task.Keeps protocol (fun _ => True) .plain (JobService.createJob hash req) := by
  have hplain : Tag.plain.Still := fun _ => by simp
  unfold JobService.createJob
  split
  · exact .throw
  rename_i hvalid
  apply (keeps_reading hplain (acts_nameExists _ _)).bind
  intro found _
  split
  · exact .throw
  · exact keeps_insertNew hplain fun u id now _ => Job.within_new (not_not.mp hvalid) id now

theorem keeps_updateJob (hash : FieldOrder) (id : Uuid) (req : UpdateJobRequest) :
    Task.Keeps protocol (fun _ => True) .plain (JobService.updateJob hash id req) := by
  have hplain : Tag.plain.Still := fun _ => by simp
  unfold JobService.updateJob
  split
  · exact .throw
  rename_i hvalid
  apply (keeps_getById hplain id).bind
  intro job hjob
  apply (keeps_reading hplain (JobEdits.acts_checkName id job req)).bind
  intro _ _
  apply (keeps_reading hplain acts_nowRfc3339).bind
  intro now _
  exact (keeps_update hplain (hjob.applyUpdate (not_not.mp hvalid) now)).mono fun _ _ => trivial

/-- A clone: the limits of its source hold, and those of its name are what it knows. -/
theorem obeys_cloneJob (id : Uuid) (newName : Option String) :
    Task.Obeys protocol (fun _ _ _ => True) (fun _ _ _ => True) (JobService.cloneJob id newName)
      (.cloning newName) w := by
  unfold JobService.cloneJob JobRepository.getById
  apply Task.obeys_bind.mpr
  apply Task.obeys_bind.mpr
  apply obeys_sql
  · intro u row db _ hknows hquery
    cases (query_ok hquery).2
    dsimp only
    cases hrow : Rows.lookup Job.id id u.db.jobs with
    | none => exact ⟨fun hall => hall, trivial⟩
    | some source =>
        have hsource : source.Within := hknows.1 source (Rows.mem_of_lookup hrow)
        have hnamed : Tag.Still (.named (cloneName newName source)) := fun _ => by simp
        refine ⟨fun hall => hall, ?_⟩
        show Task.Obeys protocol _ _ _ (.named (cloneName newName source)) _
        apply (keeps_reading hnamed (acts_nameExists (cloneName newName source) none)).bind_obeys
        · intro found _ _ _
          split
          · trivial
          · apply (keeps_insertNew hnamed ?_).obeys.mono
            · exact fun _ _ _ _ => trivial
            · exact fun _ _ _ _ => trivial
            · intro u id now hknows
              have hname : NameWithin (cloneName newName source) := hknows.2 _ rfl
              exact ⟨hname, hsource.description, hsource.pythonCode, hsource.timeoutSeconds,
                hsource.memoryLimitMb, hsource.priority, hsource.maxRetries⟩
        · exact fun _ _ _ => trivial
  · exact fun u e _ _ _ => ⟨fun hall => hall, trivial⟩

theorem keeps_createExecution (jobId : Uuid) (inputData : Option String) :
    Task.Keeps protocol (fun _ => True) .plain (ExecutionService.createExecution jobId inputData) := by
  have hplain : Tag.plain.Still := fun _ => by simp
  have hrest : Task.Keeps protocol (fun _ => True) .plain (do
      let now ← nowRfc3339
      let id ← newV4
      ExecutionRepository.create (.new id jobId inputData now)) := by
    apply keeps_same hplain (acts_insertNew jobId inputData)
    intro u ev v hact
    obtain ⟨_, _, rfl⟩ := hact.same
    rfl
  unfold ExecutionService.createExecution
  apply (keeps_getById hplain jobId).bind
  intro job hjob
  split
  · apply (keeps_reading hplain acts_nowRfc3339).bind
    intro now _
    have henabled : Job.Within { job with enabled := true, updatedAt := now } :=
      hjob.of_columns rfl rfl rfl rfl rfl rfl rfl
    apply (keeps_update hplain henabled).bind
    exact fun _ _ => hrest
  · exact hrest

end

section Calls

-- From here on these functions are only what their lemmas say.
attribute [local irreducible] JobService.createJob JobService.updateJob

theorem keeps_bulkCreateJobs (hash : FieldOrder) (requests : List CreateJobRequest) :
    Task.Keeps protocol (fun _ => True) .plain (JobService.bulkCreateJobs hash requests) := by
  induction requests with
  | nil => exact .pure trivial
  | cons req requests ih =>
      unfold JobService.bulkCreateJobs
      apply (keeps_createJob hash req).attempt.bind
      intro result _
      apply ih.bind
      intro rest _
      cases result with
      | ok job => exact .pure trivial
      | error e => exact .pure trivial

theorem keeps_toggleJobVenv (hash : FieldOrder) (jobId : Uuid) :
    Task.Keeps protocol (fun _ => True) .plain (Api.toggleJobVenv hash jobId) := by
  have hplain : Tag.plain.Still := fun _ => by simp
  have hread {α : Type} (read : Db → α) :
      Task.Keeps protocol (fun _ => True) .plain (select (fun _ => .other) read) :=
    keeps_reading hplain (acts_select (fun w => ⟨trivial, w.nextUuid, rfl⟩) Reading.failed)
  unfold Api.toggleJobVenv
  apply (keeps_getById hplain jobId).bind
  intro job _
  apply (keeps_updateJob hash jobId _).bind
  intro updatedJob _
  apply (hread _).bind
  intro customVenv _
  apply (hread _).bind
  intro mainVenv _
  exact .pure trivial

/-! ### The pool -/

inductive Call where
  | createJob (req : CreateJobRequest)
  | bulkCreateJobs (requests : List CreateJobRequest)
  | updateJob (id : Uuid) (req : UpdateJobRequest)
  | enableJob (id : Uuid)
  | disableJob (id : Uuid)
  | cloneJob (id : Uuid) (newName : Option String)
  | toggleJobVenv (jobId : Uuid)
  | createExecution (jobId : Uuid) (inputData : Option String)

def Call.task (hash : FieldOrder) : Call → Async Unit
  | .createJob req => do let _ ← JobService.createJob hash req
  | .bulkCreateJobs requests => do let _ ← JobService.bulkCreateJobs hash requests
  | .updateJob id req => do let _ ← JobService.updateJob hash id req
  | .enableJob id => do let _ ← JobService.enableJob hash id
  | .disableJob id => do let _ ← JobService.disableJob hash id
  | .cloneJob id newName => do let _ ← JobService.cloneJob id newName
  | .toggleJobVenv jobId => do let _ ← Api.toggleJobVenv hash jobId
  | .createExecution jobId inputData => do let _ ← ExecutionService.createExecution jobId inputData

def Call.tag : Call → Tag
  | .cloneJob _ newName => .cloning newName
  | _ => .plain

/-- Anything else may happen to the rest of the state. -/
def system (hash : FieldOrder) : System Event World Tag Call World where
  next := Tag.next
  spawn call w := some (w, ⟨call.tag, (call.task hash).detached .returned⟩)
  env := JobNames.elsewhere

/-- The name of a clone, which is the given one or that of its source with " (copy)", has 1 to 100
characters. -/
def Good (c : Config Event World Tag) (i : Nat) (ev : Event) : Prop :=
  ∀ newName id source, c.tags[i]? = some (.cloning newName) → ev = .sql (.getJob id (some source)) →
    NameWithin (cloneName newName source)

/-- The stored jobs are within the limits, and so are the names of clones. -/
def Kept (w : World) (tags : List Tag) : Prop :=
  AllWithin w ∧ ∀ name, Tag.named name ∈ tags → NameWithin name

theorem obeys_thread (hash : FieldOrder) (call : Call) (w : World) :
    protocol.Obeys (fun _ _ _ => True) ((call.task hash).detached .returned) call.tag w := by
  have hkeeps {α : Type} {p : Async α} (h : Task.Keeps protocol (fun _ => True) .plain p) :
      Task.Obeys protocol (fun _ _ _ => True) (fun _ _ _ => True) (do let _ ← p) .plain w :=
    (h.bind (ψ := fun _ => True) fun _ _ => .pure trivial).obeys.mono (fun _ _ _ _ => trivial)
      fun _ _ _ _ => trivial
  have htask : Task.Obeys protocol (fun _ _ _ => True) (fun _ _ _ => True) (call.task hash) call.tag w := by
    cases call with
    | createJob req => exact hkeeps (keeps_createJob hash req)
    | bulkCreateJobs requests => exact hkeeps (keeps_bulkCreateJobs hash requests)
    | updateJob id req => exact hkeeps (keeps_updateJob hash id req)
    | enableJob id => exact hkeeps (keeps_updateJob hash id _)
    | disableJob id => exact hkeeps (keeps_updateJob hash id _)
    | cloneJob id newName =>
        apply Task.obeys_bind.mpr
        exact (obeys_cloneJob id newName).mono (fun _ _ _ _ => trivial) fun _ _ _ _ => trivial
    | toggleJobVenv jobId => exact hkeeps (keeps_toggleJobVenv hash jobId)
    | createExecution jobId inputData => exact hkeeps (keeps_createExecution jobId inputData)
  exact htask.detached (fun _ _ _ _ _ _ _ hall => hall) fun _ _ _ _ _ _ _ hall => hall

theorem sound_kept (hash : FieldOrder) : Sound (system hash) protocol Good fun w tags _ => Kept w tags where
  next := rfl
  knows h hmem := ⟨h.1, fun name htag => h.2 name (htag ▸ hmem)⟩
  run {c i tag ev w} h htag hgood hacts := by
    refine ⟨⟨hacts h.1, ?_⟩, trivial⟩
    intro name hmem
    rcases List.mem_or_eq_of_mem_set hmem with hold | hnew
    · exact h.2 name hold
    · change Tag.named name = tag.next ev at hnew
      unfold Tag.next at hnew
      split at hnew
      · cases hnew
        exact hgood _ _ _ htag rfl
      · exact h.2 name (hnew ▸ List.mem_of_getElem? htag)
  spawn {w ts _ call _ _} h hspawn := by
    cases hspawn
    refine ⟨⟨h.1, ?_⟩, trivial, obeys_thread hash call w⟩
    intro name hmem
    rcases List.mem_append.mp hmem with hold | hnew
    · exact h.2 name hold
    · have hfresh : call.tag = .named name := (List.mem_singleton.mp hnew).symm
      cases call <;> cases hfresh
  env _ h := ⟨⟨h.1, h.2⟩, trivial⟩

end Calls

/-- In every run in which the names of clones have 1 to 100 characters, every stored job is within the
limits. -/
theorem jobs_within (hash : FieldOrder) {w : World} {c : Config Event World Tag} (hinit : AllWithin w)
    (hrun : (system hash).Run Good ⟨w, [], []⟩ c) : ∀ job ∈ c.world.db.jobs, job.Within := by
  have hstart : Kept w [] := ⟨hinit, fun _ h => absurd h List.not_mem_nil⟩
  exact ((sound_kept hash).invariant hrun ⟨hstart, fun _ hth => absurd hth List.not_mem_nil⟩).1.1

/-! ### A clone with any name -/

/-- `Good` as a test. -/
def check (c : Config Event World Tag) (i : Nat) (ev : Event) : Bool :=
  match c.tags[i]?, ev with
  | some (.cloning newName), .sql (.getJob _ (some source)) => decide (NameWithin (cloneName newName source))
  | _, _ => true

theorem good_of_check {c : Config Event World Tag} {i : Nat} {ev : Event} (h : check c i ev = true) :
    Good c i ev := by
  intro newName id source htag hev
  unfold check at h
  rw [htag, hev] at h
  exact of_decide_eq_true h

/-- A creation, a clone with the default name, a clone with its own name, an execution and a toggle. -/
def inTurn : List (Choice Call World) :=
  .spawn (.createJob (JobNames.named "b")) :: List.replicate 6 (.run 0) ++
    .spawn (.cloneJob 1 none) :: List.replicate 7 (.run 1) ++
    .spawn (.cloneJob 1 (some "c")) :: List.replicate 7 (.run 2) ++
    .spawn (.createExecution 1 none) :: List.replicate 6 (.run 3) ++
    .spawn (.toggleJobVenv 1) :: List.replicate 8 (.run 4)

/-- A clone that is given the empty name. -/
def nameless : List (Choice Call World) := .spawn (.cloneJob 1 (some "")) :: List.replicate 7 (.run 0)

/-- The names that are stored, and the number of calls that have returned. -/
def outcome (c : Config Event World Tag) : List String × Nat :=
  (c.world.db.jobs.map Job.name, c.trace.count .returned)

theorem jobs_within_inTurn : ∃ c, (system JobEdits.FieldOrder.declared).Run Good ⟨.sample 0 [], [], []⟩ c ∧
    outcome c = (["job", "b", "job (copy)", "c"], 5) ∧ ∀ job ∈ c.world.db.jobs, job.Within := by
  have hexec : ((system JobEdits.FieldOrder.declared).exec check inTurn ⟨.sample 0 [], [], []⟩).map
      outcome = some (["job", "b", "job (copy)", "c"], 5) := rfl
  obtain ⟨c, hc, houtcome⟩ := Option.map_eq_some_iff.mp hexec
  have hrun := System.run_of_exec (fun _ _ _ => good_of_check) hc
  have hinit : AllWithin (World.sample 0 []) := by
    intro job hjob
    cases List.mem_singleton.mp hjob
    exact ⟨by decide, fun _ => nofun, by decide, by decide, by decide, by decide, by decide⟩
  exact ⟨c, hrun, houtcome, jobs_within JobEdits.FieldOrder.declared hinit hrun⟩

theorem stored_nameless : ¬ ∀ c, (system JobEdits.FieldOrder.declared).Reaches ⟨.sample 0 [], [], []⟩ c →
    ∀ job ∈ c.world.db.jobs, job.Within := by
  intro hwithin
  have hexec : ((system JobEdits.FieldOrder.declared).exec (fun _ _ _ => true) nameless
      ⟨.sample 0 [], [], []⟩).map outcome = some (["job", ""], 1) := rfl
  obtain ⟨c, hc, houtcome⟩ := Option.map_eq_some_iff.mp hexec
  have hnames : c.world.db.jobs.map Job.name = ["job", ""] := congrArg Prod.fst houtcome
  have hmem : "" ∈ c.world.db.jobs.map Job.name := by simp [hnames]
  obtain ⟨job, hjob, hname⟩ := List.mem_map.mp hmem
  have hjobName := (hwithin c (System.reaches_of_exec hc) job hjob).name
  rw [hname] at hjobName
  exact absurd hjobName (by decide)

end JobLimits

end Serverust
