import Serverust.Proof.QueueRun

/-!
# Actions in the background

Which actions of a program matter to a protocol differs from protocol to protocol, but most never do:
logs, reads of the executions and jobs, and for some protocols the tables of the DAG engine or the queue.
A tag that tolerates such actions is brought back by every program made of them.
-/

namespace Serverust

open Calendar Resumption

/-- Events of actions that leave everything the workers share as it is. -/
def Event.Background : Event → Prop
  | .quiet | .failed _ | .sql .other | .sql (.getExecution ..) | .sql (.getJob ..)
  | .sql (.nameExists ..) => True
  | _ => False

/-- A read of an execution or a job reports the row that is stored. -/
def Event.Truthful (db : Db) : Event → Prop
  | .sql (.getExecution id row) => row = Rows.lookup Execution.id id db.executions
  | .sql (.getJob id row) => row = Rows.lookup Job.id id db.jobs
  | _ => True

/-- What the workers share: the queue in both stores, and the tables of executions and jobs. -/
structure World.Same (u v : World) : Prop where
  jobs : v.db.jobs = u.db.jobs
  executions : v.db.executions = u.db.executions
  jobQueue : v.db.jobQueue = u.db.jobQueue
  memoryQueue : v.memoryQueue = u.memoryQueue
  locked : v.locked = u.locked
  spawned : v.spawned = u.spawned
  fault : v.fault = u.fault

/-- The tables of the DAG engine. -/
structure Db.SameDags (db db' : Db) : Prop where
  dags : db'.dags = db.dags
  dagEdges : db'.dagEdges = db.dagEdges
  dagRuns : db'.dagRuns = db.dagRuns
  nodes : db'.dagNodeExecutions = db.dagNodeExecutions

/-- No node is removed. -/
def Db.KeepsNodes (db db' : Db) : Prop :=
  ∀ node ∈ db.dagNodeExecutions, ∃ kept ∈ db'.dagNodeExecutions, kept.id = node.id

/-- Everything but the queue. -/
structure World.Beside (u v : World) : Prop where
  jobs : v.db.jobs = u.db.jobs
  executions : v.db.executions = u.db.executions
  dags : u.db.SameDags v.db
  fault : v.fault = u.fault

/-- Events of the queue operations. -/
def Event.Queueing : Event → Prop
  | .quiet | .failed _ | .lock | .unlock | .dequeued _ | .removed _ | .pop _ | .push _ | .drained _
  | .spawned _ | .sql (.enqueue _) | .sql (.getByExecution ..) | .sql (.updateEntry _)
  | .sql (.removeByExecution _) | .sql (.requeue ..) | .sql (.dequeueAtomic _) => True
  | _ => False

theorem World.Same.rfl {u : World} : u.Same u := ⟨.refl _, .refl _, .refl _, .refl _, .refl _, .refl _, .refl _⟩

theorem Db.SameDags.rfl {db : Db} : db.SameDags db := ⟨.refl _, .refl _, .refl _, .refl _⟩

theorem Db.KeepsNodes.of_eq {db db' : Db} (h : db'.dagNodeExecutions = db.dagNodeExecutions) : db.KeepsNodes db' :=
  fun node hnode => ⟨node, h ▸ hnode, rfl⟩

section

variable {τ : Type} (P : Protocol Event World τ) (t : τ)

/-- Background actions are allowed under the tag and leave it. -/
def Tolerates : Prop :=
  ∀ {u v : World} {ev : Event}, P.knows t u → ev.Background → ev.Truthful u.db → u.Same v →
    u.db.SameDags v.db → P.allows t ev u v ∧ P.next t ev = t ∧ P.grows u v

/-- So are statements on the tables of the DAG engine, which remove no node. -/
def ToleratesDags : Prop :=
  ∀ {u v : World} {stmt : DagStmt}, P.knows t u → u.Same v → u.db.KeepsNodes v.db →
    P.allows t (.sql (.dag stmt)) u v ∧ P.next t (.sql (.dag stmt)) = t ∧ P.grows u v

/-- So are the actions of the queue operations. -/
def ToleratesQueue : Prop :=
  ∀ (u v : World) (ev : Event), P.knows t u → ev.Queueing → u.Beside v →
    P.allows t ev u v ∧ P.next t ev = t ∧ P.grows u v

variable {P t}

/-- A statement that fails is in the background. -/
theorem Tolerates.failed (ht : Tolerates P t) {u : World} (hknows : P.knows t u) (e : SqlError) :
    P.allows t (.failed e) u u ∧ P.next t (.failed e) = t ∧ P.grows u u :=
  ht hknows trivial trivial .rfl .rfl

variable {α β : Type} {φ : α → Prop} {ψ : β → Prop} {ok : α → τ → World → Prop}
  {err : AppError → τ → World → Prop} {w : World}

/-! ### One action -/

/-- A statement obeys if it does when it succeeds and when it fails. -/
theorem obeys_sql {stmt : Db → α → Stmt} {statement : DateTime → Db → Except SqlError (α × Db)}
    {mapErr : SqlError → AppError}
    (hok : ∀ u value db, P.grows w u → P.knows t u → u.query statement = .ok (value, db) →
      P.allows t (.sql (stmt u.db value)) u { u with db } ∧
        ok value (P.next t (.sql (stmt u.db value))) { u with db })
    (herr : ∀ u e, P.grows w u → P.knows t u → u.query statement = .error e →
      P.allows t (.failed e) u u ∧ err (mapErr e) (P.next t (.failed e)) u) :
    Task.Obeys P ok err (sql stmt statement mapErr) t w := by
  apply Task.obeys_action.mpr
  intro u hgrows hknows
  cases hquery : u.query statement with
  | ok r => exact hok u r.1 r.2 hgrows hknows hquery
  | error e => exact herr u e hgrows hknows hquery

theorem sql_of_obeys {stmt : Db → α → Stmt} {statement : DateTime → Db → Except SqlError (α × Db)}
    {mapErr : SqlError → AppError} (h : Task.Obeys P ok err (sql stmt statement mapErr) t w) :
    (∀ {u value db}, P.grows w u → P.knows t u → u.query statement = .ok (value, db) →
      P.allows t (.sql (stmt u.db value)) u { u with db } ∧
        ok value (P.next t (.sql (stmt u.db value))) { u with db }) ∧
    (∀ {u e}, P.grows w u → P.knows t u → u.query statement = .error e →
      P.allows t (.failed e) u u ∧ err (mapErr e) (P.next t (.failed e)) u) := by
  have haction := Task.obeys_action.mp h
  constructor
  · intro u value db hgrows hknows hquery
    simpa only [hquery] using haction u hgrows hknows
  · intro u e hgrows hknows hquery
    simpa only [hquery] using haction u hgrows hknows

theorem query_ok {statement : DateTime → Db → Except SqlError (α × Db)} {u : World} {r : α × Db}
    (h : u.query statement = .ok r) : u.fault = none ∧ statement u.now u.db = .ok r := by
  unfold World.query at h
  split at h
  · cases h
  · exact ⟨‹_›, h⟩

theorem obeys_perform {event : World → Event} {act : World → α × World}
    (h : ∀ u, P.grows w u → P.knows t u → P.allows t (event u) u (act u).2 ∧
      ok (act u).1 (P.next t (event u)) (act u).2) :
    Task.Obeys P ok err (perform event act) t w :=
  Task.obeys_action.mpr h

theorem keeps_sql [P.Lawful] (ht : Tolerates P t) {stmt : Db → α → Stmt}
    {statement : DateTime → Db → Except SqlError (α × Db)} {mapErr : SqlError → AppError}
    (h : ∀ u value db, P.knows t u → u.query statement = .ok (value, db) →
      P.allows t (.sql (stmt u.db value)) u { u with db } ∧
        P.next t (.sql (stmt u.db value)) = t ∧ P.grows u { u with db } ∧ φ value) :
    Task.Keeps P φ t (sql stmt statement mapErr) := by
  intro w
  apply obeys_sql
  · intro u value db hgrows hknows hquery
    obtain ⟨hallows, hnext, hgrows', hφ⟩ := h u value db hknows hquery
    exact ⟨hallows, hnext, Protocol.Lawful.trans hgrows hgrows', hφ⟩
  · intro u e hgrows hknows _
    obtain ⟨hallows, hnext, _⟩ := ht.failed hknows e
    exact ⟨hallows, hnext, hgrows⟩

variable [P.Lawful] (ht : Tolerates P t)

include ht

/-- A read in the background, with what is known of the rows it reads. -/
theorem keeps_select {stmt : α → Stmt} {read : Db → α} (hstmt : ∀ value, (Event.sql (stmt value)).Background)
    (htrue : ∀ db, (Event.sql (stmt (read db))).Truthful db) (hφ : ∀ u, P.knows t u → φ (read u.db)) :
    Task.Keeps P φ t (select stmt read) := by
  apply keeps_sql ht
  intro u value db hknows hquery
  cases (query_ok hquery).2
  obtain ⟨hallows, hnext, hgrows⟩ := ht hknows (hstmt (read u.db)) (htrue u.db) .rfl .rfl
  exact ⟨hallows, hnext, hgrows, hφ u hknows⟩

theorem keeps_perform {event : World → Event} {act : World → α × World}
    (hevent : ∀ u, (event u).Background) (htrue : ∀ u, (event u).Truthful u.db)
    (hsame : ∀ u : World, u.Same (act u).2) (hdags : ∀ u : World, (act u).2.db = u.db) :
    Task.Keeps P (fun _ => True) t (perform event act) := by
  intro w
  apply obeys_perform
  intro u hgrows hknows
  have hsameDags : u.db.SameDags (act u).2.db := hdags u ▸ .rfl
  obtain ⟨hallows, hnext, hgrows'⟩ := ht hknows (hevent u) (htrue u) (hsame u) hsameDags
  exact ⟨hallows, hnext, Protocol.Lawful.trans hgrows hgrows', trivial⟩

theorem keeps_newV4 : Task.Keeps P (fun _ => True) t newV4 :=
  keeps_perform ht (fun _ => trivial) (fun _ => trivial) (fun _ => ⟨rfl, rfl, rfl, rfl, rfl, rfl, rfl⟩) fun _ => rfl

theorem keeps_nowRfc3339 : Task.Keeps P (fun _ => True) t nowRfc3339 :=
  keeps_perform ht (fun _ => trivial) (fun _ => trivial) (fun _ => .rfl) fun _ => rfl

theorem keeps_queueLen : Task.Keeps P (fun _ => True) t queueLen :=
  keeps_perform ht (fun _ => trivial) (fun _ => trivial) (fun _ => .rfl) fun _ => rfl

omit ht in
theorem keeps_okOr {value : Option α} {e : AppError} (h : ∀ a, value = some a → φ a) :
    Task.Keeps P φ t (okOr value e) := by
  cases value with
  | some a => exact .pure (h a rfl)
  | none => exact .throw

theorem keeps_other {statement : DateTime → Db → Except SqlError (α × Db)}
    (hsame : ∀ now db value db', statement now db = .ok (value, db') →
      db'.jobs = db.jobs ∧ db'.executions = db.executions ∧ db'.jobQueue = db.jobQueue ∧ db.SameDags db') :
    Task.Keeps P (fun _ => True) t (sql (fun _ _ => .other) statement) := by
  apply keeps_sql ht
  intro u value db hknows hquery
  obtain ⟨hjobs, hexecutions, hqueue, hdags⟩ := hsame _ _ _ _ (query_ok hquery).2
  have hsame : u.Same { u with db } := ⟨hjobs, hexecutions, hqueue, rfl, rfl, rfl, rfl⟩
  have hevent : Event.Background (.sql .other) := trivial
  obtain ⟨hallows, hnext, hgrows⟩ := ht hknows hevent trivial hsame hdags
  exact ⟨hallows, hnext, hgrows, trivial⟩

/-! ### Reads -/

theorem keeps_getExecution {id : Uuid} {φ : Execution → Prop}
    (hφ : ∀ u x, P.knows t u → Rows.lookup Execution.id id u.db.executions = some x → φ x) :
    Task.Keeps P φ t (ExecutionRepository.getById id) := by
  apply (keeps_select ht (φ := fun row => ∀ x, row = some x → φ x) (fun _ => by trivial) (fun _ => by rfl) ?_).bind
  · exact fun row hrow => keeps_okOr hrow
  · exact fun u hknows x => hφ u x hknows

theorem keeps_getJob {id : Uuid} {φ : Job → Prop}
    (hφ : ∀ u y, P.knows t u → Rows.lookup Job.id id u.db.jobs = some y → φ y) :
    Task.Keeps P φ t (JobRepository.getById id) := by
  apply (keeps_select ht (φ := fun row => ∀ y, row = some y → φ y) (fun _ => by trivial) (fun _ => by rfl) ?_).bind
  · exact fun row hrow => keeps_okOr hrow
  · exact fun u hknows y => hφ u y hknows

theorem keeps_fetchItem (executionId : Uuid) (priority : Job → Int) :
    Task.Keeps P (fun item => ∀ i, item = some i → i.executionId = executionId) t
      (QueueManager.fetchItem executionId priority) := by
  have hread : Task.Keeps P (fun x : Execution => x.id = executionId) t
      (ExecutionRepository.getById executionId) :=
    keeps_getExecution ht fun _ _ _ => Rows.column_of_lookup
  apply hread.attempt.bind
  rintro (_ | exec) hexec
  · exact .pure (by simp only [reduceCtorEq, false_implies, implies_true])
  · apply (keeps_getJob ht (φ := fun _ => True) fun _ _ _ _ => trivial).attempt.bind
    rintro (_ | job) _
    · exact .pure (by simp only [reduceCtorEq, false_implies, implies_true])
    · apply Task.Keeps.pure
      rintro _ ⟨⟩
      exact hexec exec rfl

/-! ### The executions table -/

omit [P.Lawful] ht in
/-- A read of the executions table that a protocol cares about. -/
theorem obeys_getExecution {id : Uuid} {ok : Execution → τ → World → Prop}
    (hsome : ∀ u x, P.grows w u → P.knows t u → Rows.lookup Execution.id id u.db.executions = some x →
      P.allows t (.sql (.getExecution id (some x))) u u ∧
        ok x (P.next t (.sql (.getExecution id (some x)))) u)
    (hnone : ∀ u, P.grows w u → P.knows t u → Rows.lookup Execution.id id u.db.executions = none →
      P.allows t (.sql (.getExecution id none)) u u ∧
        err (ExecutionRepository.notFound id) (P.next t (.sql (.getExecution id none))) u)
    (hfail : ∀ u e, P.grows w u → P.knows t u →
      P.allows t (.failed e) u u ∧ err (databaseError e) (P.next t (.failed e)) u) :
    Task.Obeys P ok err (ExecutionRepository.getById id) t w := by
  apply Task.obeys_bind.mpr
  apply obeys_sql
  · intro u row db hgrows hknows hquery
    cases (query_ok hquery).2
    beta_reduce
    cases hrow : Rows.lookup Execution.id id u.db.executions with
    | some x => exact hsome u x hgrows hknows hrow
    | none => exact hnone u hgrows hknows hrow
  · exact fun u e hgrows hknows _ => hfail u e hgrows hknows

/-- What a whole-row write makes of a row. -/
def Execution.over (x row : Execution) : Execution :=
  { x with id := row.id, jobId := row.jobId, inputData := row.inputData, createdAt := row.createdAt }

/-- The tables after a whole-row write. -/
def writeExecution (x : Execution) (db : Db) : Db :=
  { db with executions := Rows.modify Execution.id x.id x.over db.executions }

omit ht in
/-- A whole-row write, and the read of the written row. -/
theorem obeys_updateExecution {x : Execution} {t' : τ} (ht' : Tolerates P t') {ok : Execution → τ → World → Prop}
    (hwrite : ∀ u, P.grows w u → P.knows t u →
      P.allows t (.sql (.updateExecution x)) u { u with db := writeExecution x u.db } ∧
        P.next t (.sql (.updateExecution x)) = t' ∧ P.grows u { u with db := writeExecution x u.db })
    (hfail : ∀ u e, P.grows w u → P.knows t u →
      P.allows t (.failed e) u u ∧ err (databaseError e) (P.next t (.failed e)) u)
    (hok : ∀ row u, P.grows w u → ok row t' u) (herr : ∀ e u, P.grows w u → err e t' u) :
    Task.Obeys P ok err (ExecutionRepository.update x) t w := by
  apply Task.obeys_bind.mpr
  apply obeys_sql
  · intro u affected db hgrows hknows hquery
    cases (query_ok hquery).2
    obtain ⟨hallows, hnext, hgrows'⟩ := hwrite u hgrows hknows
    refine ⟨hallows, ?_⟩
    simp only [hnext]
    have hlater := Protocol.Lawful.trans hgrows hgrows'
    split
    · exact herr _ _ hlater
    · apply ((keeps_getExecution ht' (φ := fun _ => True) fun _ _ _ _ => trivial) _).mono
      · rintro row t s ⟨rfl, hgrows'', _⟩
        exact hok row s (Protocol.Lawful.trans hlater hgrows'')
      · rintro e t s ⟨rfl, hgrows''⟩
        exact herr e s (Protocol.Lawful.trans hlater hgrows'')
  · exact fun u e hgrows hknows _ => hfail u e hgrows hknows

omit ht in
theorem obeys_insertExecution {x : Execution} {t' : τ} (ht' : Tolerates P t') {ok : Execution → τ → World → Prop}
    (hcreate : ∀ u, P.grows w u → P.knows t u → u.fault = none → (∀ y ∈ u.db.executions, y.id ≠ x.id) →
      let v := { u with db := { u.db with executions := u.db.executions ++ [x] } }
      P.allows t (.sql (.createExecution x)) u v ∧ P.next t (.sql (.createExecution x)) = t' ∧ P.grows u v)
    (hfail : ∀ u e, P.grows w u → P.knows t u →
      P.allows t (.failed e) u u ∧ err (databaseError e) (P.next t (.failed e)) u)
    (hok : ∀ (x' : Execution) u, P.grows w u → x'.id = x.id → ok x' t' u) (herr : ∀ e u, P.grows w u → err e t' u) :
    Task.Obeys P ok err (ExecutionRepository.create x) t w := by
  apply Task.obeys_bind.mpr
  apply obeys_sql
  · intro u value db hgrows hknows hquery
    obtain ⟨hfault, hinsert⟩ := query_ok hquery
    unfold ExecutionRepository.insertExecution at hinsert
    split at hinsert
    · cases hinsert
    rename_i hnew
    split at hinsert
    · cases hinsert
    cases hinsert
    have hfresh : ∀ y ∈ u.db.executions, y.id ≠ x.id := Rows.hits_eq_zero.mp (not_not.mp hnew)
    obtain ⟨hallows, hnext, hgrows'⟩ := hcreate u hgrows hknows hfault hfresh
    refine ⟨hallows, ?_⟩
    simp only [hnext]
    have hlater := Protocol.Lawful.trans hgrows hgrows'
    apply (keeps_getExecution ht' (φ := fun row => row.id = x.id) fun _ _ _ => Rows.column_of_lookup) _ |>.mono
    · rintro row t s ⟨rfl, hgrows'', hid⟩
      exact hok row s (Protocol.Lawful.trans hlater hgrows'') hid
    · rintro e t s ⟨rfl, hgrows''⟩
      exact herr e s (Protocol.Lawful.trans hlater hgrows'')
  · exact fun u e hgrows hknows _ => hfail u e hgrows hknows

/-- Creating an execution reads its job, enables it, writes the new row and reads it back. -/
theorem obeys_createExecution {jobId : Uuid} {input : Option String} (t' : Execution → τ)
    {ok : Execution → τ → World → Prop} (ht' : ∀ x, Tolerates P (t' x))
    (hjob : ∀ u (job : Job), P.knows t u →
      ∀ jobs, P.allows t (.sql (.updateJob job)) u { u with db := { u.db with jobs } } ∧
        P.next t (.sql (.updateJob job)) = t ∧ P.grows u { u with db := { u.db with jobs } })
    (hcreate : ∀ u (x : Execution), P.grows w u → P.knows t u → x.jobId = jobId → x.status = .pending →
      x.retryCount = 0 → u.fault = none → (∀ y ∈ u.db.executions, y.id ≠ x.id) →
      let v := { u with db := { u.db with executions := u.db.executions ++ [x] } }
      P.allows t (.sql (.createExecution x)) u v ∧
        P.next t (.sql (.createExecution x)) = t' x ∧ P.grows u v)
    (hok : ∀ (x x' : Execution) u, P.grows w u → x'.id = x.id → ok x' (t' x) u)
    (herr : ∀ e u, P.grows w u → err e t u) (herr' : ∀ e x u, P.grows w u → err e (t' x) u) :
    Task.Obeys P ok err (ExecutionService.createExecution jobId input) t w := by
  have hupdate (job : Job) : Task.Keeps P (fun _ => True) t (JobRepository.update job) := by
    refine Task.Keeps.bind (φ := fun _ => True) ?_ fun affected _ => ?_
    · apply keeps_sql ht
      intro u value db hknows hquery
      obtain ⟨-, rfl⟩ := JobRepository.writeJob_ok (query_ok hquery).2
      obtain ⟨hallows, hnext, hgrows⟩ := hjob u job hknows _
      exact ⟨hallows, hnext, hgrows, trivial⟩
    · split
      · exact .throw
      · exact keeps_getJob ht fun _ _ _ _ => trivial
  have hrest (u : World) (hu : P.grows w u) : Task.Obeys P ok err (do
      let now ← nowRfc3339
      let id ← newV4
      ExecutionRepository.create (.new id jobId input now)) t u := by
    apply (keeps_nowRfc3339 ht).bind_obeys
    · intro now u₁ h₁ _
      apply (keeps_newV4 ht).bind_obeys
      · intro id u₂ h₂ _
        have hlater : P.grows w u₂ := Protocol.Lawful.trans hu (Protocol.Lawful.trans h₁ h₂)
        apply obeys_insertExecution (ht' _)
        · exact fun v hgrows hknows hfault hfresh =>
            hcreate v (.new id jobId input now) (Protocol.Lawful.trans hlater hgrows) hknows rfl rfl rfl hfault hfresh
        · intro v e hgrows hknows
          obtain ⟨hallows, hnext, _⟩ := ht.failed hknows e
          refine ⟨hallows, ?_⟩
          rw [hnext]
          exact herr _ v (Protocol.Lawful.trans hlater hgrows)
        · exact fun x' v hgrows => hok _ x' v (Protocol.Lawful.trans hlater hgrows)
        · exact fun e v hgrows => herr' e _ v (Protocol.Lawful.trans hlater hgrows)
      · exact fun e v hv => herr e v (Protocol.Lawful.trans hu (Protocol.Lawful.trans h₁ hv))
    · exact fun e v hv => herr e v (Protocol.Lawful.trans hu hv)
  apply (keeps_getJob ht (φ := fun _ => True) fun _ _ _ _ => trivial).bind_obeys
  · intro job u hu _
    split
    · apply (keeps_nowRfc3339 ht).bind_obeys
      · intro now v hv _
        have hlater := Protocol.Lawful.trans hu hv
        apply (hupdate _).bind_obeys
        · exact fun _ v' hv' _ => hrest v' (Protocol.Lawful.trans hlater hv')
        · exact fun e v' hv' => herr e v' (Protocol.Lawful.trans hlater hv')
      · exact fun e v hv => herr e v (Protocol.Lawful.trans hu hv)
    · exact hrest u hu
  · exact fun e u hu => herr e u hu

/-! ### Logs -/

theorem keeps_log (execId : Uuid) (logType : LogType) (content : String) :
    Task.Keeps P (fun _ => True) t (WorkerPool.log execId logType content) := by
  have hcreate (log : ExecutionLog) :
      Task.Keeps P (fun _ => True) t (ExecutionLogRepository.create log) := by
    apply (keeps_other ht ?_).bind fun _ _ => .pure trivial
    intro now db value db' h
    unfold ExecutionLogRepository.insertLog at h
    split at h
    · cases h
    · split at h
      · cases h
      · cases h
        exact ⟨rfl, rfl, rfl, rfl, rfl, rfl, rfl⟩
  have htyped : Task.Keeps P (fun _ => True) t
      (ExecutionLogRepository.createWithType execId logType content) :=
    (keeps_newV4 ht).bind fun _ _ => (keeps_nowRfc3339 ht).bind fun _ _ => hcreate _
  exact htyped.attempt.bind fun _ _ => .pure trivial

theorem keeps_logOutput (execId : Uuid) (logType : LogType) (content : String) :
    Task.Keeps P (fun _ => True) t (WorkerPool.logOutput execId logType content) := by
  unfold WorkerPool.logOutput
  split
  · exact .pure trivial
  · exact keeps_log ht execId logType content

end

/-! ### Queue operations -/

namespace ToleratesQueue

variable {τ α : Type} {P : Protocol Event World τ} {t : τ} [P.Lawful] (ht : ToleratesQueue P t)

include ht

theorem keeps_sql {stmt : Db → α → Stmt} {statement : DateTime → Db → Except SqlError (α × Db)}
    {mapErr : SqlError → AppError} (hstmt : ∀ db value, (Event.sql (stmt db value)).Queueing)
    (hkeep : ∀ now db value db', statement now db = .ok (value, db') → ∃ rows, db' = { db with jobQueue := rows }) :
    Task.Keeps P (fun _ => True) t (sql stmt statement mapErr) := by
  intro w
  apply obeys_sql
  · intro u value db hgrows hknows hquery
    obtain ⟨rows, rfl⟩ := hkeep _ _ _ _ (query_ok hquery).2
    obtain ⟨hallows, hnext, hgrows'⟩ := ht u { u with db := { u.db with jobQueue := rows } } _ hknows
      (hstmt u.db value) ⟨rfl, rfl, ⟨rfl, rfl, rfl, rfl⟩, rfl⟩
    exact ⟨hallows, hnext, Protocol.Lawful.trans hgrows hgrows', trivial⟩
  · intro u e hgrows hknows _
    obtain ⟨hallows, hnext, _⟩ := ht u u (.failed e) hknows trivial ⟨rfl, rfl, ⟨rfl, rfl, rfl, rfl⟩, rfl⟩
    exact ⟨hallows, hnext, hgrows⟩

theorem keeps_perform {event : World → Event} {act : World → α × World}
    (hevent : ∀ u, (event u).Queueing) (hkeep : ∀ u : World, u.Beside (act u).2) :
    Task.Keeps P (fun _ => True) t (perform event act) := by
  intro w
  apply obeys_perform
  intro u hgrows hknows
  obtain ⟨hallows, hnext, hgrows'⟩ := ht u _ _ hknows (hevent u) (hkeep u)
  exact ⟨hallows, hnext, Protocol.Lawful.trans hgrows hgrows', trivial⟩

theorem keeps_withLock {done : Except AppError α → Event} {body : Async α}
    (hdone : ∀ r, (done r).Queueing) (hbody : Task.Keeps P (fun _ => True) t body) :
    Task.Keeps P (fun _ => True) t (withLock done body) := by
  have hlock : Task.Keeps P (fun _ => True) t lock := by
    intro w u hgrows hknows _
    obtain ⟨hallows, hnext, hgrows'⟩ := ht u { u with locked := true } .lock hknows trivial
      ⟨rfl, rfl, ⟨rfl, rfl, rfl, rfl⟩, rfl⟩
    exact ⟨hallows, hnext, Protocol.Lawful.trans hgrows hgrows', trivial⟩
  apply hlock.bind fun _ _ => ?_
  apply hbody.attempt.bind
  intro result _
  apply (ht.keeps_perform (fun _ => hdone result) fun _ => ⟨rfl, rfl, ⟨rfl, rfl, rfl, rfl⟩, rfl⟩).bind fun _ _ => ?_
  cases result with
  | ok value => exact .pure trivial
  | error e => exact .throw

theorem keeps_now : Task.Keeps P (fun _ => True) t nowRfc3339 :=
  ht.keeps_perform (fun _ => trivial) fun _ => ⟨rfl, rfl, ⟨rfl, rfl, rfl, rfl⟩, rfl⟩

theorem keeps_getByExecution (executionId : Uuid) :
    Task.Keeps P (fun _ => True) t (QueueRepository.getByExecution executionId) := by
  unfold QueueRepository.getByExecution select
  apply ht.keeps_sql
  · exact fun _ _ => trivial
  · intro now db value db' heq
    cases heq
    exact ⟨_, rfl⟩

theorem keeps_update (entry : QueueEntry) :
    Task.Keeps P (fun _ => True) t (QueueRepository.update entry) := by
  apply (ht.keeps_sql (fun _ _ => by trivial) ?_).bind fun _ _ => .pure trivial
  intro now db value db' heq
  cases heq
  exact ⟨_, rfl⟩

theorem keeps_markEntry (mark : QueueEntry → String → QueueEntry) (executionId : Uuid) :
    Task.Keeps P (fun _ => True) t (QueueManager.markEntry mark executionId) := by
  apply (ht.keeps_getByExecution executionId).bind
  rintro (_ | entry) _
  · exact .pure trivial
  · apply ht.keeps_now.bind fun now _ => ?_
    exact (ht.keeps_update _).bind fun _ _ => .pure trivial

theorem keeps_pushIfRoom (qm : QueueManager) (item : QueueItem) :
    Task.Keeps P (fun _ => True) t (qm.pushIfRoom item) := by
  have hlen : Task.Keeps P (fun _ => True) t queueLen :=
    ht.keeps_perform (fun _ => trivial) fun _ => ⟨rfl, rfl, ⟨rfl, rfl, rfl, rfl⟩, rfl⟩
  apply hlen.bind fun len _ => ?_
  split
  · exact ht.keeps_perform (fun _ => trivial) fun _ => ⟨rfl, rfl, ⟨rfl, rfl, rfl, rfl⟩, rfl⟩
  · exact .pure trivial

theorem keeps_enqueue (qm : QueueManager) (item : QueueItem) :
    Task.Keeps P (fun _ => True) t (qm.enqueue item) := by
  have hinsert (entry : QueueEntry) :
      Task.Keeps P (fun _ => True) t (QueueRepository.enqueue entry) := by
    apply (ht.keeps_sql (fun _ _ => by trivial) ?_).bind fun _ _ => .pure trivial
    intro now db value db' heq
    cases (insertEntry_ok heq).1
    exact ⟨_, rfl⟩
  have hid : Task.Keeps P (fun _ => True) t newV4 :=
    ht.keeps_perform (fun _ => trivial) fun _ => ⟨rfl, rfl, ⟨rfl, rfl, rfl, rfl⟩, rfl⟩
  refine ht.keeps_withLock (fun _ => by trivial) ?_
  apply hid.bind fun id _ => ?_
  apply ht.keeps_now.bind fun now _ => ?_
  exact (hinsert _).bind fun _ _ => ht.keeps_pushIfRoom qm item

theorem keeps_markFailedWithRetry (qm : QueueManager) (executionId : Uuid) (retryCount : Int)
    (maxRetries : Option Int) :
    Task.Keeps P (fun _ => True) t (qm.markFailedWithRetry executionId retryCount maxRetries) := by
  have hdead : Task.Keeps P (fun _ => True) t
      (QueueManager.moveToDeadLetter executionId >>= fun _ => pure false) :=
    (ht.keeps_markEntry _ executionId).bind fun _ _ => .pure trivial
  unfold QueueManager.markFailedWithRetry
  dsimp only
  split
  · apply (ht.keeps_getByExecution executionId).bind
    rintro (_ | entry) _
    · exact hdead
    · apply Task.Keeps.bind (φ := fun _ => True)
      · exact ht.keeps_perform (fun _ => by trivial) fun _ => ⟨rfl, rfl, ⟨rfl, rfl, rfl, rfl⟩, rfl⟩
      · exact fun _ _ => .pure trivial
  · exact hdead

end ToleratesQueue

/-! ### DAG engine -/

theorem keepsNodes_modify {db : Db} {f : DagNodeExecution → DagNodeExecution} (id : Uuid)
    (hf : ∀ node, (f node).id = node.id) :
    db.KeepsNodes { db with dagNodeExecutions := Rows.modify DagNodeExecution.id id f db.dagNodeExecutions } := by
  intro node hnode
  refine ⟨_, Rows.mem_modify.mpr ⟨node, hnode, rfl⟩, ?_⟩
  split
  · exact hf node
  · rfl

section

variable {τ α : Type} {P : Protocol Event World τ} {t : τ} [P.Lawful] (ht : Tolerates P t)
  (hd : ToleratesDags P t)

include ht hd

/-- A statement on the tables of the DAG engine. -/
theorem keeps_dag {stmt : Db → α → DagStmt} {statement : DateTime → Db → Except SqlError (α × Db)}
    (hsame : ∀ now db value db', statement now db = .ok (value, db') →
      db'.jobs = db.jobs ∧ db'.executions = db.executions ∧ db'.jobQueue = db.jobQueue ∧ db.KeepsNodes db') :
    Task.Keeps P (fun _ => True) t (sql (fun db value => .dag (stmt db value)) statement) := by
  apply keeps_sql ht
  intro u value db hknows hquery
  obtain ⟨hjobs, hexecutions, hqueue, hnodes⟩ := hsame _ _ _ _ (query_ok hquery).2
  have hbeside : u.Same { u with db } := ⟨hjobs, hexecutions, hqueue, rfl, rfl, rfl, rfl⟩
  obtain ⟨hallows, hnext, hgrows⟩ : P.allows t (.sql (.dag (stmt u.db value))) u _ ∧ _ := hd hknows hbeside hnodes
  exact ⟨hallows, hnext, hgrows, trivial⟩

theorem keeps_readDag (stmt : α → DagStmt) (read : Db → α) :
    Task.Keeps P (fun _ => True) t (select (fun value => .dag (stmt value)) read) := by
  apply keeps_dag ht hd
  intro now db value db' h
  cases h
  exact ⟨rfl, rfl, rfl, .of_eq rfl⟩

omit hd in
theorem keeps_getNode (id : Uuid) :
    Task.Keeps P (fun _ => True) t (DagRepository.getNodeExecutionById id) := by
  apply (keeps_select ht (φ := fun _ => True) (fun _ => by trivial) (fun _ => by trivial) fun _ _ => trivial).bind
  exact fun _ _ => keeps_okOr fun _ _ => trivial

theorem keeps_updateNodeExecution (node : DagNodeExecution) :
    Task.Keeps P (fun _ => True) t (DagRepository.updateNodeExecution node) := by
  apply (keeps_dag ht hd ?_).bind fun _ _ => keeps_getNode ht node.id
  intro now db value db' h
  unfold DagRepository.writeNode at h
  split at h
  · cases h
  · cases h
    exact ⟨rfl, rfl, rfl, keepsNodes_modify node.id fun _ => rfl⟩

theorem keeps_getDag (id : Uuid) : Task.Keeps P (fun _ => True) t (DagRepository.getById id) :=
  (keeps_readDag ht hd _ _).bind fun _ _ => keeps_okOr fun _ _ => trivial

theorem keeps_getRunById (id : Uuid) : Task.Keeps P (fun _ => True) t (DagRepository.getRunById id) :=
  (keeps_readDag ht hd _ _).bind fun _ _ => keeps_okOr fun _ _ => trivial

theorem keeps_updateRun (run : DagRun) : Task.Keeps P (fun _ => True) t (DagRepository.updateRun run) := by
  apply (keeps_dag ht hd (α := Nat) ?_).bind fun _ _ => keeps_getRunById ht hd run.id
  intro now db value db' h
  cases h
  exact ⟨rfl, rfl, rfl, .of_eq rfl⟩

theorem keeps_createRun (run : DagRun) : Task.Keeps P (fun _ => True) t (DagRepository.createRun run) := by
  apply (keeps_dag ht hd ?_).bind fun _ _ => keeps_getRunById ht hd run.id
  intro now db value db' h
  unfold DagRepository.insertRun at h
  repeat' split at h
  all_goals cases h
  exact ⟨rfl, rfl, rfl, .of_eq rfl⟩

theorem keeps_createNode (runId jobId : Uuid) : Task.Keeps P (fun _ => True) t (DagEngine.createNode runId jobId) := by
  apply (keeps_newV4 ht).bind fun id _ => ?_
  apply (keeps_nowRfc3339 ht).bind fun now _ => ?_
  refine Task.Keeps.bind (φ := fun _ => True) ?_ fun _ _ => .pure trivial
  apply (keeps_dag ht hd ?_).bind fun _ _ => keeps_getNode ht _
  intro _ db value db' h
  unfold DagRepository.insertNode at h
  repeat' split at h
  all_goals cases h
  exact ⟨rfl, rfl, rfl, fun node hnode => ⟨node, List.mem_append_left _ hnode, rfl⟩⟩

theorem keeps_nodesOfRun (runId : Uuid) :
    Task.Keeps P (fun _ => True) t (DagRepository.getNodeExecutionsByRunId runId) :=
  keeps_readDag ht hd _ _

theorem keeps_failNode (node : DagNodeExecution) :
    Task.Keeps P (fun _ => True) t (DagEngine.failNode node) :=
  (keeps_nowRfc3339 ht).bind fun _ _ => (keeps_updateNodeExecution ht hd _).bind fun _ _ => .pure trivial

theorem keeps_stopRun (runId : Uuid) : Task.Keeps P (fun _ => True) t (DagEngine.stopRun runId) := by
  apply (keeps_nodesOfRun ht hd runId).bind
  intro nodes _
  apply (Task.Keeps.forM fun node _ => ?_).bind
  · intro _ _
    split
    · exact .pure trivial
    · apply (keeps_getRunById ht hd runId).bind fun _ _ => ?_
      apply (keeps_nowRfc3339 ht).bind fun _ _ => ?_
      apply (keeps_nodesOfRun ht hd runId).bind fun _ _ => ?_
      exact (keeps_updateRun ht hd _).bind fun _ _ => .pure trivial
  · apply (keeps_nowRfc3339 ht).bind fun _ _ => ?_
    exact (keeps_updateNodeExecution ht hd _).bind fun _ _ => .pure trivial

theorem keeps_finishRun (runId : Uuid) : Task.Keeps P (fun _ => True) t (DagEngine.finishRun runId) := by
  apply (keeps_nodesOfRun ht hd runId).bind
  intro nodes _
  split
  · apply (keeps_getRunById ht hd runId).bind fun _ _ => ?_
    apply (keeps_nowRfc3339 ht).bind fun _ _ => ?_
    exact (keeps_updateRun ht hd _).bind fun _ _ => .pure trivial
  · exact .pure trivial

section

variable {engine : DagEngine}
  (hcreate : ∀ jobId input, Task.Keeps P (fun _ => True) t (ExecutionService.createExecution jobId input))
  (henqueue : ∀ item, Task.Keeps P (fun _ => True) t (engine.queueManager.enqueue item))

include hcreate henqueue

theorem keeps_startNode (node : DagNodeExecution) :
    Task.Keeps P (fun _ => True) t (engine.startNode node) := by
  apply (keeps_getJob ht (φ := fun _ => True) fun _ _ _ _ => trivial).attempt.bind
  rintro (_ | job) _
  · exact keeps_failNode ht hd node
  · apply (hcreate node.jobId none).attempt.bind
    rintro (_ | execution) _
    · exact keeps_failNode ht hd node
    · apply (keeps_nowRfc3339 ht).bind fun _ _ => ?_
      apply (keeps_updateNodeExecution ht hd _).bind fun _ _ => ?_
      exact (henqueue _).attempt.bind fun _ _ => .pure trivial

theorem keeps_advanceDagRun (runId : Uuid) (edges : List DagEdge) (dag : Dag) :
    Task.Keeps P (fun _ => True) t (engine.advanceDagRun runId edges dag) :=
  (keeps_nodesOfRun ht hd runId).bind fun _ _ =>
    Task.Keeps.forM fun node _ => keeps_startNode ht hd hcreate henqueue node

/-- The engine's callback starts nodes, and otherwise only acts in the background. -/
theorem keeps_onExecutionComplete (executionId : Uuid) :
    Task.Keeps P (fun _ => True) t (engine.onExecutionComplete executionId) := by
  apply (keeps_readDag ht hd _ _).bind
  rintro (_ | node) _
  · exact .pure trivial
  · apply (keeps_getExecution ht (φ := fun _ => True) fun _ _ _ _ => trivial).bind fun execution _ => ?_
    apply (keeps_nowRfc3339 ht).bind fun _ _ => ?_
    apply (keeps_updateNodeExecution ht hd _).bind fun _ _ => ?_
    apply (keeps_getRunById ht hd _).bind fun run _ => ?_
    apply (keeps_updateRun ht hd _).bind fun _ _ => ?_
    apply (keeps_getDag ht hd _).bind fun dag _ => ?_
    apply (keeps_readDag ht hd _ _).bind fun edges _ => ?_
    split
    · exact keeps_stopRun ht hd run.id
    · apply (keeps_advanceDagRun ht hd hcreate henqueue _ edges dag).bind fun _ _ => ?_
      exact keeps_finishRun ht hd run.id

end

end

/-! ### Around an execution -/

section

variable {τ : Type} {P : Protocol Event World τ} {t : τ} [P.Lawful] (ht : Tolerates P t) {pool : WorkerPool} {e : Uuid}

include ht

/-- A worker's report marks the entry of its execution. -/
theorem keeps_report (hcompleted : Task.Keeps P (fun _ => True) t (QueueManager.markCompleted e))
    (hfailed : ∀ count max, Task.Keeps P (fun _ => True) t (pool.queueManager.markFailedWithRetry e count max))
    (status : ExecutionStatus) : Task.Keeps P (fun _ => True) t (pool.updateQueueEntry e status) := by
  have hread : Task.Keeps P (fun _ => True) t (ExecutionRepository.getById e) :=
    keeps_getExecution ht fun _ _ _ _ => trivial
  have hcount : Task.Keeps P (fun _ => True) t (WorkerPool.retryCountOf e) := by
    apply hread.attempt.bind
    rintro (_ | x) _ <;> exact .pure trivial
  have hmax : Task.Keeps P (fun _ => True) t (WorkerPool.maxRetriesOf e) := by
    apply hread.attempt.bind
    rintro (_ | x) _
    · exact .pure trivial
    · apply (keeps_getJob ht (φ := fun _ => True) fun _ _ _ _ => trivial).attempt.bind
      rintro (_ | y) _ <;> exact .pure trivial
  unfold WorkerPool.updateQueueEntry
  split
  · exact hcompleted.attempt.bind fun _ _ => .pure trivial
  · apply hcount.bind fun count _ => ?_
    apply hmax.bind fun max _ => ?_
    exact (hfailed count max).attempt.bind fun _ _ => .pure trivial

/-- The engine of the pool, if there is one, may create and queue executions. -/
theorem keeps_callback (hd : ToleratesDags P t)
    (hcreate : ∀ jobId input, Task.Keeps P (fun _ => True) t (ExecutionService.createExecution jobId input))
    (henqueue : ∀ (qm : QueueManager) item, Task.Keeps P (fun _ => True) t (qm.enqueue item)) :
    Task.Keeps P (fun _ => True) t (pool.dagCallback e) := by
  unfold WorkerPool.dagCallback
  split
  · exact (keeps_onExecutionComplete ht hd hcreate (henqueue _) e).attempt.bind fun _ _ => .pure trivial
  · exact .pure trivial

/-- What a worker does once its execution is marked as running. -/
theorem keeps_run {result : ExecutionResult}
    (hexecuted : Task.Keeps P (fun _ => True) t (perform (fun _ => .executed e) fun w => ((), w)))
    (hwrite : Task.Keeps P (fun _ => True) t (WorkerPool.writeOutcome e result))
    (hreport : Task.Keeps P (fun _ => True) t (pool.updateQueueEntry e result.outcome.1))
    (hreleased : Task.Keeps P (fun _ => True) t (perform (fun _ => .released e) fun w => ((), w)))
    (hcallback : Task.Keeps P (fun _ => True) t (pool.dagCallback e)) : Task.Keeps P (fun _ => True) t (do
      WorkerPool.executeItem e result
      WorkerPool.writeOutcome e result
      pool.updateQueueEntry e result.outcome.1
      perform (fun _ => .released e) fun w => ((), w)
      pool.dagCallback e
      WorkerPool.log e .system ("Execution completed: " ++ result.outcome.1.asStr)) := by
  have hexecute : Task.Keeps P (fun _ => True) t (WorkerPool.executeItem e result) := by
    apply (keeps_log ht _ _ _).bind fun _ _ => ?_
    apply (keeps_logOutput ht _ _ _).bind fun _ _ => ?_
    apply (keeps_logOutput ht _ _ _).bind fun _ _ => ?_
    exact hexecuted
  apply hexecute.bind fun _ _ => ?_
  apply hwrite.bind fun _ _ => ?_
  apply hreport.bind fun _ _ => ?_
  apply hreleased.bind fun _ _ => ?_
  apply hcallback.bind fun _ _ => ?_
  exact keeps_log ht _ _ _

end

section

variable {τ : Type} {P : Protocol Event World τ} {t : τ} [P.Lawful] (ht : Tolerates P t) (hq : ToleratesQueue P t)

include ht hq

theorem keeps_updateQueueEntry (pool : WorkerPool) (e : Uuid) (status : ExecutionStatus) :
    Task.Keeps P (fun _ => True) t (pool.updateQueueEntry e status) :=
  keeps_report ht (hq.keeps_markEntry _ e) (hq.keeps_markFailedWithRetry _ e) status

theorem keeps_dagCallback (hd : ToleratesDags P t)
    (hcreate : ∀ jobId input, Task.Keeps P (fun _ => True) t (ExecutionService.createExecution jobId input))
    (pool : WorkerPool) (e : Uuid) : Task.Keeps P (fun _ => True) t (pool.dagCallback e) :=
  keeps_callback ht hd hcreate hq.keeps_enqueue

theorem keeps_requeueTask (qm : QueueManager) (task : RequeueTask) :
    Task.Keeps P (fun _ => True) t (qm.requeueTask task) := by
  have hrequeue : Task.Keeps P (fun _ => True) t (QueueRepository.requeue task.entryId) := by
    apply (hq.keeps_sql (fun _ _ => by trivial) ?_).bind fun _ _ => .pure trivial
    intro now db value db' heq
    cases heq
    exact ⟨_, rfl⟩
  apply hrequeue.attempt.bind
  rintro (_ | _) _
  · exact .pure trivial
  · apply (keeps_fetchItem ht _ _).bind
    rintro (_ | item) _
    · exact .pure trivial
    · exact hq.keeps_withLock (fun _ => by trivial) (hq.keeps_pushIfRoom qm item)

theorem keeps_dequeue : Task.Keeps P (fun _ => True) t QueueManager.dequeue := by
  have htake : Task.Keeps P (fun _ => True) t QueueRepository.dequeueAtomic := by
    apply hq.keeps_sql (fun _ _ => by trivial)
    intro now db value db' heq
    cases heq
    exact ⟨_, rfl⟩
  have hpop : Task.Keeps P (fun _ => True) t queuePop :=
    hq.keeps_perform (fun _ => by trivial) fun _ => ⟨rfl, rfl, ⟨rfl, rfl, rfl, rfl⟩, rfl⟩
  have hoverflow : Task.Keeps P (fun _ => True) t QueueManager.dequeueOverflow := by
    apply htake.bind
    rintro (_ | entry) _
    · exact .pure trivial
    · apply (keeps_fetchItem ht _ _).bind
      rintro (_ | item) _
      · exact hq.keeps_now.bind fun _ _ => (hq.keeps_update _).bind fun _ _ => .pure trivial
      · exact .pure trivial
  apply hq.keeps_withLock
  · intro r
    cases r <;> trivial
  · apply hpop.bind
    rintro (_ | item) _
    · exact hoverflow
    · exact (hq.keeps_markEntry _ _).bind fun _ _ => .pure trivial

end

theorem ToleratesQueue.keeps_remove {τ : Type} {P : Protocol Event World τ} {t : τ} [P.Lawful]
    (ht : ToleratesQueue P t) (executionId : Uuid) :
    Task.Keeps P (fun _ => True) t (QueueManager.remove executionId) := by
  have hdrain : Task.Keeps P (fun _ => True) t (queueDrainOther executionId) :=
    ht.keeps_perform (fun _ => by trivial) fun _ => ⟨rfl, rfl, ⟨rfl, rfl, rfl, rfl⟩, rfl⟩
  apply ht.keeps_withLock
  · intro r
    cases r <;> trivial
  · apply hdrain.bind fun _ _ => ?_
    apply (ht.keeps_sql (fun _ _ => by trivial) ?_).bind fun _ _ => .pure trivial
    intro now db value db' heq
    cases heq
    exact ⟨_, rfl⟩

end Serverust
