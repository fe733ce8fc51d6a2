import Serverust.Model.LogStream

/-!
# What a log stream emits

Others store logs and complete the execution while the stream polls. A lap adds to what was sent at most
a page of what is stored when it fetches, and the lap that finds the execution complete is the last. So
the stream is complete exactly if, at every fetch, what is not stored yet fits into the later pages.
-/

namespace Serverust

open Resumption

/-! ### The other side: logs and completion -/

/-- The rows of an execution. -/
def logsOf (executionId : Uuid) (db : Db) : List ExecutionLog :=
  db.executionLogs.filter (ExecutionLogRepository.isAsked executionId none)

/-- All rows that are stored for an execution, in the order in which they are, and how many of them are
stored when `completed_at` is written. -/
structure History (executionId : Uuid) where
  rows : List ExecutionLog
  before : Nat
  own : ∀ row ∈ rows, row.executionId = executionId
  ordered : rows.Pairwise ExecutionLogRepository.StoredBefore
  unique : Rows.Unique ExecutionLog.id rows
  before_le : before ≤ rows.length

namespace History

variable {executionId : Uuid} (h : History executionId)

/-- A state on the way: the rows stored so far, and `completed_at` if it is written. -/
structure At (w : World) : Prop where
  logs : logsOf executionId w.db <+: h.rows
  row : ∃ x, Rows.lookup Execution.id executionId w.db.executions = some x ∧
    if x.completedAt.isSome then h.before ≤ (logsOf executionId w.db).length
    else (logsOf executionId w.db).length ≤ h.before

/-- The events of the rows that are stored before `completed_at`. -/
def expected : List SseEvent := (h.rows.take h.before).map SseEvent.ofLog

end History

/-! ### The laps of a stream -/

/-- The states in which the statements of a lap are taken: the execution is looked up, the rows are
counted and read, and the execution is read. -/
structure Lap where
  verify : World
  count : World
  select : World
  check : World

namespace Lap

/-- Whether the fetch succeeds. -/
def fetches (lap : Lap) : Bool :=
  lap.verify.fault.isNone && lap.count.fault.isNone && lap.select.fault.isNone

/-- A statement that fails ends the fetch. -/
def states (lap : Lap) : List World :=
  if lap.verify.fault.isSome then [lap.verify, lap.check]
  else if lap.count.fault.isSome then [lap.verify, lap.count, lap.check]
  else [lap.verify, lap.count, lap.select, lap.check]

/-- How many rows are stored when the lap reads them. -/
def stored (executionId : Uuid) (lap : Lap) : Nat := (logsOf executionId lap.select.db).length

end Lap

namespace Lap

theorem verify_mem_states (lap : Lap) : lap.verify ∈ lap.states := by
  unfold states
  split_ifs <;> exact List.mem_cons_self

theorem check_mem_states (lap : Lap) : lap.check ∈ lap.states := by
  unfold states
  split_ifs <;> simp

theorem select_mem_states {lap : Lap} (h : lap.fetches = true) : lap.select ∈ lap.states := by
  simp only [fetches, Bool.and_eq_true, Option.isNone_iff_eq_none] at h
  simp [states, h.1.1, h.1.2]

end Lap

/-- The events of the laps of a stream, up to the lap that ends it. -/
inductive Laps (executionId : Uuid) : LogStream → List Lap → List SseEvent → Prop
  | last {stream : LogStream} {lap : Lap} {sent : List SseEvent} {rest : List World}
      (hlap : (stream.lap executionId).along lap.states = some (.ok (sent, none), rest)) :
      Laps executionId stream [lap] sent
  | more {stream stream' : LogStream} {lap : Lap} {laps : List Lap} {sent events : List SseEvent}
      {rest : List World}
      (hlap : (stream.lap executionId).along lap.states = some (.ok (sent, some stream'), rest))
      (hmore : Laps executionId stream' laps events) :
      Laps executionId stream (lap :: laps) (sent ++ events)

/-- The events of `create_log_stream`. -/
def Streams (executionId : Uuid) (initialExecution : Execution) (laps : List Lap)
    (events : List SseEvent) : Prop :=
  ∃ sent, Laps executionId (.start initialExecution) laps sent ∧
    events = .status executionId initialExecution.status initialExecution.startedAt :: sent

/-- Rows are only added, and `completed_at` stays. -/
def Later (executionId : Uuid) (w u : World) : Prop :=
  logsOf executionId w.db <+: logsOf executionId u.db ∧
    ((Rows.lookup Execution.id executionId w.db.executions).any (fun x => x.completedAt.isSome) = true →
      (Rows.lookup Execution.id executionId u.db.executions).any (fun x => x.completedAt.isSome) = true)

/-- The states in which the statements of the laps are taken, one after another. -/
structure Timeline {executionId : Uuid} (h : History executionId) (laps : List Lap) : Prop where
  states : ∀ w ∈ laps.flatMap Lap.states, h.At w
  later : (laps.flatMap Lap.states).Pairwise (Later executionId)

/-- A page. -/
def pageSize : Nat := 100

/-- Every row that is stored before `completed_at` is sent exactly once, and in order. -/
def History.Emitted {executionId : Uuid} (h : History executionId) (events : List SseEvent) : Prop :=
  events.filter (· ∈ h.expected) = h.expected

/-- What is not stored when a lap fetches fits into the pages of the fetches after it, and everything
into those of all laps. -/
structure History.Fits {executionId : Uuid} (h : History executionId) (laps : List Lap) : Prop where
  all : h.before ≤ pageSize * laps.countP Lap.fetches
  backlog : ∀ earlier lap later, laps = earlier ++ lap :: later → lap.fetches = true →
    h.before ≤ lap.stored executionId + pageSize * later.countP Lap.fetches

/-! ### One lap -/

theorem along_select {α : Type} {stmt : α → Stmt} {read : Db → α} (w : World) (states : List World) :
    (select stmt read).along (w :: states) = some
      (match w.fault with
        | some text => .error (databaseError (.fault text))
        | none => .ok (read w.db), states) := by
  unfold select sql
  rw [Task.along_action]
  unfold World.query
  cases w.fault <;> rfl

theorem along_getById {id : Uuid} {x : Execution} {w : World}
    (hrow : Rows.lookup Execution.id id w.db.executions = some x) (states : List World) :
    (ExecutionRepository.getById id).along (w :: states) = some
      (match w.fault with
        | some text => .error (databaseError (.fault text))
        | none => .ok x, states) := by
  unfold ExecutionRepository.getById
  rw [Task.along_bind, along_select, hrow]
  cases w.fault <;> rfl

variable {executionId : Uuid} {h : History executionId}

theorem asI32_of_lt {n : Nat} (hn : n < 2147483648) : asI32 n = n := by
  rw [asI32, Int.bmod_def]
  split <;> omega

theorem toNat_asI32 {n : Nat} (hn : n < 2147483648) : (max (asI32 n) 0).toNat = n := by
  rw [asI32_of_lt hn]
  omega

theorem along_getLogs {lap : Lap} (hverify : h.At lap.verify) (hselect : h.At lap.select)
    (hfetches : lap.fetches = true) (offset limit : Option Int) :
    ∃ total, (ExecutionService.getLogs executionId ⟨none, offset, limit⟩).along lap.states =
      some (.ok ⟨executionId, ((logsOf executionId lap.select.db).drop (max (offset.getD 0) 0).toNat).take
        (min (max (limit.getD 1000) 1) 10000).toNat, total⟩, [lap.check]) := by
  obtain ⟨x, hrow, _⟩ := hverify.row
  simp only [Lap.fetches, Bool.and_eq_true, Option.isNone_iff_eq_none] at hfetches
  obtain ⟨⟨hv, hc⟩, hs⟩ := hfetches
  have hsorted : (logsOf executionId lap.select.db).insertionSort ExecutionLogRepository.StoredBefore =
      logsOf executionId lap.select.db :=
    (h.ordered.sublist hselect.logs.sublist).insertionSort_eq
  refine ⟨lap.count.db.executionLogs.countP (ExecutionLogRepository.isAsked executionId none), ?_⟩
  rw [logsOf] at hsorted
  simp only [ExecutionService.getLogs, ExecutionLogRepository.getByExecutionPaginated, Lap.states, hv, hc,
    Option.isSome_none, Bool.false_eq_true, if_false, Task.along_bind, along_getById hrow, along_select, hs,
    Task.along_pure, hsorted]
  rfl

/-- The fetch of a lap reads the rows behind the first `n`, at most a page of them. -/
theorem along_fetch {lap : Lap} (hverify : h.At lap.verify) (hselect : h.At lap.select)
    (hfetches : lap.fetches = true) {n : Nat} (hn : n < 2147483648) :
    ∃ total, (ExecutionService.getLogs executionId ⟨none, some (asI32 n), some 100⟩).along lap.states =
      some (.ok ⟨executionId, ((logsOf executionId lap.select.db).drop n).take pageSize, total⟩,
        [lap.check]) := by
  obtain ⟨total, hfetch⟩ := along_getLogs hverify hselect hfetches (some (asI32 n)) (some 100)
  refine ⟨total, hfetch.trans ?_⟩
  rw [Option.getD_some, Option.getD_some, toNat_asI32 hn]
  rfl

theorem along_getLogs_failed {lap : Lap} (hverify : h.At lap.verify) (hfetches : lap.fetches = false)
    (query : ListLogsQuery) :
    ∃ e, (ExecutionService.getLogs executionId query).along lap.states = some (.error e, [lap.check]) := by
  obtain ⟨x, hrow, _⟩ := hverify.row
  unfold ExecutionService.getLogs ExecutionLogRepository.getByExecutionPaginated Lap.states
  cases hv : lap.verify.fault with
  | some text =>
      refine ⟨databaseError (.fault text), ?_⟩
      simp only [Option.isSome_some, if_true, Task.along_bind, along_getById hrow, hv]
  | none =>
      cases hc : lap.count.fault with
      | some text =>
          refine ⟨databaseError (.fault text), ?_⟩
          simp only [Option.isSome_none, Option.isSome_some, Bool.false_eq_true, if_false, if_true,
            Task.along_bind, along_getById hrow, hv, along_select, hc]
      | none =>
          obtain ⟨text, hs⟩ : ∃ text, lap.select.fault = some text := by
            rw [← Option.isSome_iff_exists]
            simpa [Lap.fetches, hv, hc] using hfetches
          refine ⟨databaseError (.fault text), ?_⟩
          simp only [Option.isSome_none, Bool.false_eq_true, if_false,
            Task.along_bind, along_getById hrow, hv, along_select, hc, hs]

/-- Whether an event is that of a log. -/
def SseEvent.isLog : SseEvent → Bool
  | .log .. => true
  | .status .. | .complete .. | .error _ => false

/-- The rows that a lap sends when `n` were sent before. -/
def Lap.page (executionId : Uuid) (lap : Lap) (n : Nat) : List ExecutionLog :=
  if lap.fetches then ((logsOf executionId lap.select.db).drop n).take pageSize else []

theorem filter_map_ofLog (logs : List ExecutionLog) :
    (logs.map SseEvent.ofLog).filter SseEvent.isLog = logs.map SseEvent.ofLog := by
  rw [List.filter_eq_self]
  intro event hevent
  obtain ⟨log, _, rfl⟩ := List.mem_map.mp hevent
  rfl

/-- The check sends no log, and the next lap starts from what this one ended with. -/
theorem checkComplete_sent {stream : LogStream} {sent events : List SseEvent} {next : Option LogStream}
    {check : World} {rest : List World} (hcheck : h.At check)
    (hrun : (stream.checkComplete executionId sent).along [check] = some (.ok (events, next), rest)) :
    events.filter SseEvent.isLog = sent.filter SseEvent.isLog ∧ ∀ stream', next = some stream' → stream' = stream := by
  obtain ⟨x, hrow, _⟩ := hcheck.row
  unfold LogStream.checkComplete ExecutionService.getExecution at hrun
  cases hcomplete : stream.executionComplete with
  | true =>
      rw [hcomplete] at hrun
      cases hrun
      exact ⟨rfl, fun _ h => by cases h⟩
  | false =>
      rw [hcomplete] at hrun
      simp only [Bool.not_false, if_true, Task.along_bind, Task.along_attempt, along_getById hrow,
        Option.map_some] at hrun
      cases hfault : check.fault with
      | some text =>
          rw [hfault] at hrun
          cases hrun
          exact ⟨rfl, fun _ h => (Option.some.inj h).symm⟩
      | none =>
          rw [hfault] at hrun
          cases hdone : x.completedAt.isSome with
          | true =>
              simp only [hdone, if_true] at hrun
              cases hrun
              refine ⟨?_, fun _ h => by cases h⟩
              rw [List.filter_append]
              exact List.append_nil _
          | false =>
              simp only [hdone, Bool.false_eq_true, if_false] at hrun
              cases hrun
              exact ⟨rfl, fun _ h => (Option.some.inj h).symm⟩

/-- A lap sends its page, and counts it if it is not the last. -/
theorem lap_sent {stream : LogStream} {lap : Lap} {sent : List SseEvent} {next : Option LogStream}
    {rest : List World} {n : Nat} (hstates : ∀ w ∈ lap.states, h.At w) (hn : n < 2147483648) (hcount : stream.lastLogCount = n)
    (hlap : (stream.lap executionId).along lap.states = some (.ok (sent, next), rest)) :
    sent.filter SseEvent.isLog = (lap.page executionId n).map SseEvent.ofLog ∧
      ∀ stream', next = some stream' → stream'.lastLogCount = (n + (lap.page executionId n).length : Nat) := by
  have hcheck : h.At lap.check := hstates _ lap.check_mem_states
  have hverify : h.At lap.verify := hstates _ lap.verify_mem_states
  unfold LogStream.lap at hlap
  rw [hcount, Task.along_bind, Task.along_attempt] at hlap
  cases hfetches : lap.fetches with
  | true =>
      have hselect : h.At lap.select := hstates _ (Lap.select_mem_states hfetches)
      obtain ⟨total, hfetch⟩ := along_fetch hverify hselect hfetches hn
      rw [hfetch] at hlap
      obtain ⟨hsent, hnext⟩ := checkComplete_sent hcheck hlap
      rw [Lap.page, if_pos hfetches]
      refine ⟨hsent.trans (filter_map_ofLog _), fun stream' hstream => ?_⟩
      rw [hnext stream' hstream]
      push_cast
      rfl
  | false =>
      obtain ⟨e, hfetch⟩ := along_getLogs_failed hverify hfetches ⟨none, some (asI32 n), some 100⟩
      rw [hfetch] at hlap
      obtain ⟨hsent, hnext⟩ := checkComplete_sent hcheck hlap
      rw [Lap.page, if_neg (by rw [hfetches]; exact Bool.false_ne_true)]
      refine ⟨hsent, fun stream' hstream => ?_⟩
      rw [hnext stream' hstream]
      exact hcount

/-! ### All laps -/

/-- How many rows are sent after a lap, when `n` were sent before. -/
def Lap.sentAfter (executionId : Uuid) (n : Nat) (lap : Lap) : Nat :=
  if lap.fetches then min (n + pageSize) (lap.stored executionId) else n

theorem le_sentAfter {lap : Lap} {n : Nat} (hn : lap.fetches = true → n ≤ lap.stored executionId) :
    n ≤ lap.sentAfter executionId n := by
  unfold Lap.sentAfter
  split
  · have hle := hn ‹_›
    omega
  · exact Nat.le_refl n

theorem sentAfter_le {lap : Lap} {n : Nat} (hstates : ∀ w ∈ lap.states, h.At w) (hn : n ≤ h.rows.length) :
    lap.sentAfter executionId n ≤ h.rows.length := by
  unfold Lap.sentAfter
  split
  · have hle := (hstates _ (Lap.select_mem_states ‹_›)).logs.length_le
    exact Nat.le_trans (Nat.min_le_right _ _) hle
  · exact hn

theorem page_eq {lap : Lap} {n : Nat} (hstates : ∀ w ∈ lap.states, h.At w) :
    lap.page executionId n = (h.rows.drop n).take (lap.sentAfter executionId n - n) := by
  unfold Lap.page Lap.sentAfter
  cases hfetches : lap.fetches with
  | true =>
      have hprefix := List.prefix_iff_eq_take.mp (hstates _ (Lap.select_mem_states hfetches)).logs
      have hlength : min pageSize (lap.stored executionId - n) =
          min (n + pageSize) (lap.stored executionId) - n := by omega
      rw [if_pos rfl, if_pos rfl, hprefix, List.drop_take, List.take_take, ← Lap.stored, hlength]
  | false => simp

theorem take_drop_append {n a b : Nat} (hna : n ≤ a) (hab : a ≤ b) (rows : List ExecutionLog) :
    (rows.drop n).take (a - n) ++ (rows.drop a).take (b - a) = (rows.drop n).take (b - n) := by
  have htake : b - n = (a - n) + (b - a) := by omega
  have hdrop : n + (a - n) = a := by omega
  rw [htake, List.take_add, List.drop_drop, hdrop]

/-- The laps send the rows in order, from where the stream is to where it ends. -/
theorem laps_sent {stream : LogStream} {laps : List Lap} {events : List SseEvent} {n : Nat}
    (hrun : Laps executionId stream laps events) (hcount : stream.lastLogCount = n)
    (hstates : ∀ lap ∈ laps, ∀ w ∈ lap.states, h.At w) (hsize : h.rows.length < 2147483648)
    (hn : n ≤ h.rows.length) (hstored : ∀ lap ∈ laps, lap.fetches = true → n ≤ lap.stored executionId)
    (hgrows : laps.Pairwise fun a b => a.fetches = true → b.fetches = true →
      a.stored executionId ≤ b.stored executionId) :
    n ≤ laps.foldl (Lap.sentAfter executionId) n ∧ events.filter SseEvent.isLog =
      ((h.rows.drop n).take (laps.foldl (Lap.sentAfter executionId) n - n)).map SseEvent.ofLog := by
  induction hrun generalizing n with
  | @last stream lap sent rest hlap =>
      have hlapStates := hstates lap List.mem_cons_self
      refine ⟨le_sentAfter (hstored lap List.mem_cons_self), ?_⟩
      rw [(lap_sent hlapStates (by omega) hcount hlap).1, page_eq hlapStates]
      rfl
  | @more stream stream' lap laps sent events rest hlap hmore ih =>
      have hlapStates := hstates lap List.mem_cons_self
      have hafter := le_sentAfter (hstored lap List.mem_cons_self)
      have hbound := sentAfter_le hlapStates hn
      obtain ⟨hsent, hnext⟩ := lap_sent hlapStates (by omega) hcount hlap
      rw [page_eq hlapStates] at hsent hnext
      have hcount' : stream'.lastLogCount = (lap.sentAfter executionId n : Nat) := by
        rw [hnext stream' rfl, List.length_take, List.length_drop]
        congr 1
        omega
      have hstored' : ∀ l ∈ laps, l.fetches = true → lap.sentAfter executionId n ≤ l.stored executionId := by
        intro l hl hfetches
        unfold Lap.sentAfter
        split
        · have hle := List.rel_of_pairwise_cons hgrows hl ‹_› hfetches
          omega
        · exact hstored l (List.mem_cons_of_mem lap hl) hfetches
      obtain ⟨hlate, hrest⟩ := ih hcount' (fun l hl => hstates l (List.mem_cons_of_mem lap hl)) hbound
        hstored' hgrows.of_cons
      refine ⟨Nat.le_trans hafter hlate, ?_⟩
      rw [List.filter_append, hsent, hrest, List.foldl_cons, ← List.map_append]
      congr 1
      exact take_drop_append hafter hlate h.rows

/-! ### Completeness -/

theorem forall_split_cons {p : Lap → List Lap → Prop} {first : Lap} {laps : List Lap} :
    (∀ earlier lap later, first :: laps = earlier ++ lap :: later → p lap later) ↔
      p first laps ∧ ∀ earlier lap later, laps = earlier ++ lap :: later → p lap later := by
  constructor
  · intro hall
    refine ⟨hall [] first laps rfl, fun earlier lap later heq => ?_⟩
    exact hall (first :: earlier) lap later (by rw [heq, List.cons_append])
  · intro hall earlier lap later heq
    cases earlier with
    | nil =>
        cases heq
        exact hall.1
    | cons _ earlier =>
        cases heq
        exact hall.2 earlier lap later rfl

theorem le_foldl_sentAfter (before : Nat) (laps : List Lap) (n : Nat) :
    before ≤ laps.foldl (Lap.sentAfter executionId) n ↔
      before ≤ n + pageSize * laps.countP Lap.fetches ∧
        ∀ earlier lap later, laps = earlier ++ lap :: later → lap.fetches = true →
          before ≤ lap.stored executionId + pageSize * later.countP Lap.fetches := by
  induction laps generalizing n with
  | nil => simp
  | cons lap laps ih =>
      rw [List.foldl_cons, ih, forall_split_cons, List.countP_cons]
      unfold Lap.sentAfter
      cases hfetches : lap.fetches with
      | true =>
          simp only [if_true, Nat.mul_add, Nat.mul_one, forall_const]
          constructor
          · rintro ⟨hall, hrest⟩
            exact ⟨by omega, by omega, hrest⟩
          · rintro ⟨hall, hfirst, hrest⟩
            exact ⟨by omega, hrest⟩
      | false =>
          simp only [Bool.false_eq_true, if_false, false_imp_iff, Nat.add_zero, true_and]

theorem History.fits_iff (h : History executionId) (laps : List Lap) :
    h.Fits laps ↔ h.before ≤ laps.foldl (Lap.sentAfter executionId) 0 := by
  rw [le_foldl_sentAfter, Nat.zero_add]
  exact ⟨fun hfits => ⟨hfits.all, hfits.backlog⟩, fun hboth => ⟨hboth.1, hboth.2⟩⟩

theorem filter_take_iff {events : List SseEvent} (hnodup : events.Nodup) {m n : Nat} (hm : m ≤ events.length) :
    (events.take n).filter (· ∈ events.take m) = events.take m ↔ m ≤ n := by
  constructor
  · intro heq
    have hlength := congrArg List.length heq
    have hle := List.length_filter_le (fun event => decide (event ∈ events.take m)) (events.take n)
    simp only [List.length_take] at hlength hle
    omega
  · intro hle
    obtain ⟨more, rfl⟩ := Nat.exists_eq_add_of_le hle
    have hkeep : (events.take m).filter (· ∈ events.take m) = events.take m := by
      rw [List.filter_eq_self]
      intro event hevent
      exact decide_eq_true hevent
    have hdrop : ((events.drop m).take more).filter (· ∈ events.take m) = [] := by
      rw [List.filter_eq_nil_iff]
      intro event hevent hmem
      have hlate := List.mem_of_mem_take hevent
      exact List.disjoint_take_drop hnodup (le_refl m) (of_decide_eq_true hmem) hlate
    rw [List.take_add, List.filter_append, hkeep, hdrop, List.append_nil]

theorem History.nodup_events (h : History executionId) : (h.rows.map SseEvent.ofLog).Nodup := by
  rw [List.nodup_map_iff_inj_on (List.Nodup.of_map _ h.unique)]
  intro a ha b hb heq
  apply h.unique.eq_of_column ha hb
  simp only [SseEvent.ofLog, SseEvent.log.injEq] at heq
  exact heq.1

theorem Timeline.stored_le {laps : List Lap} (htime : Timeline h laps) :
    laps.Pairwise fun a b => a.fetches = true → b.fetches = true →
      a.stored executionId ≤ b.stored executionId := by
  refine (List.pairwise_flatMap.mp htime.later).2.imp fun hlater ha hb => ?_
  exact (hlater _ (Lap.select_mem_states ha) _ (Lap.select_mem_states hb)).1.length_le

/-- The stream emits every row that is stored before `completed_at`, exactly once and in order, exactly if
what is not stored at a fetch fits into the pages of the fetches after it. -/
theorem log_stream_complete_iff (h : History executionId) (hsize : h.rows.length < 2147483648)
    {initialExecution : Execution} {laps : List Lap} {events : List SseEvent} (htime : Timeline h laps)
    (hrun : Streams executionId initialExecution laps events) : h.Emitted events ↔ h.Fits laps := by
  obtain ⟨sent, hlaps, rfl⟩ := hrun
  have hstates : ∀ lap ∈ laps, ∀ w ∈ lap.states, h.At w := fun lap hlap w hw =>
    htime.states w (List.mem_flatMap.mpr ⟨lap, hlap, hw⟩)
  obtain ⟨_, hsent⟩ := laps_sent (n := 0) hlaps rfl hstates hsize (Nat.zero_le _)
    (fun _ _ _ => Nat.zero_le _) htime.stored_le
  have hexpected : h.expected = (h.rows.map SseEvent.ofLog).take h.before := by
    rw [History.expected, List.map_take]
  have hlogs : ∀ event ∈ h.expected, event.isLog = true := by
    intro event hevent
    obtain ⟨log, _, rfl⟩ := List.mem_map.mp hevent
    rfl
  -- only events of logs are expected, and those that are sent are the first rows
  have hfilter (events : List SseEvent) : events.filter (· ∈ h.expected) =
      (events.filter SseEvent.isLog).filter (· ∈ h.expected) := by
    rw [List.filter_filter]
    refine List.filter_congr fun event _ => ?_
    by_cases hmem : event ∈ h.expected <;> simp [hmem, hlogs]
  rw [h.fits_iff, History.Emitted, hfilter, List.filter_cons_of_neg Bool.false_ne_true, hsent, hexpected,
    List.map_take]
  exact filter_take_iff h.nodup_events (by simpa using h.before_le)

/-! ### A stream that is late -/

def onlyLog : ExecutionLog where
  id := 1
  executionId := 1
  logType := .stdout
  logContent := "done"
  createdAt := "2026-01-01T00:00:00+00:00"

def oneLog : History 1 where
  rows := [onlyLog]
  before := 1
  own := by decide
  ordered := List.pairwise_singleton _ _
  unique := List.nodup_singleton _
  before_le := by decide

/-- The execution while it runs. -/
def unfinished : Execution := { Execution.new 1 1 none "" with status := .running }

def beforeLog : World :=
  .start { Db.empty with executions := [unfinished] } Calendar.epoch 0

/-- The log is stored, and then the execution is complete. -/
def afterLog : World :=
  .start { Db.empty with executionLogs := [onlyLog]
                         executions := [{ unfinished with status := .success, completedAt := some "" }] } Calendar.epoch 0

theorem beforeLog_at : oneLog.At beforeLog where
  logs := ⟨[onlyLog], rfl⟩
  row := ⟨unfinished, rfl, by decide⟩

theorem afterLog_at : oneLog.At afterLog where
  logs := ⟨[], rfl⟩
  row := ⟨_, rfl, by decide⟩

/-- A lap that fetches and checks when all is done. -/
def lateLap : Lap := ⟨afterLog, afterLog, afterLog, afterLog⟩

/-- A lap that fetches too early: what happens before its check is lost. -/
def splitLap : Lap := ⟨beforeLog, beforeLog, beforeLog, afterLog⟩

theorem beforeLog_later : Later 1 beforeLog beforeLog ∧ Later 1 beforeLog afterLog :=
  ⟨⟨List.prefix_refl _, id⟩, ⟨⟨[onlyLog], rfl⟩, fun h => absurd h (by decide)⟩⟩

theorem afterLog_later : Later 1 afterLog afterLog := ⟨List.prefix_refl _, id⟩

theorem lateLap_timeline : Timeline oneLog [lateLap] where
  states := by
    show ∀ w ∈ [afterLog, afterLog, afterLog, afterLog], _
    simp [afterLog_at]
  later := by
    show [afterLog, afterLog, afterLog, afterLog].Pairwise _
    simp [afterLog_later]

theorem splitLap_timeline : Timeline oneLog [splitLap] where
  states := by
    show ∀ w ∈ [beforeLog, beforeLog, beforeLog, afterLog], _
    simp [beforeLog_at, afterLog_at]
  later := by
    show [beforeLog, beforeLog, beforeLog, afterLog].Pairwise _
    simp [beforeLog_later]

theorem lateLap_streams : Streams 1 unfinished [lateLap]
    [.status 1 .running none, .log 1 .stdout "done" "2026-01-01T00:00:00+00:00",
      .complete 1 .success none none] :=
  ⟨_, .last rfl, rfl⟩

theorem log_stream_complete_late :
    oneLog.Emitted [.status 1 .running none, .log 1 .stdout "done" "2026-01-01T00:00:00+00:00",
      .complete 1 .success none none] ↔ oneLog.Fits [lateLap] :=
  log_stream_complete_iff oneLog (by decide) lateLap_timeline
    lateLap_streams

/-- The log is stored between the fetch of the last lap and its check. -/
theorem log_before_completion_lost :
    Timeline oneLog [splitLap] ∧
      Streams 1 unfinished [splitLap] [.status 1 .running none, .complete 1 .success none none] ∧
      ¬oneLog.Emitted [.status 1 .running none, .complete 1 .success none none] := by
  refine ⟨splitLap_timeline, ⟨_, .last rfl, rfl⟩, ?_⟩
  unfold History.Emitted
  decide

end Serverust
