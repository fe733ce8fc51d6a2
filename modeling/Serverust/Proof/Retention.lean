import Serverust.Model.Repositories
import Serverust.Proof.Sequential
import Serverust.Proof.Timestamps

/-!
# What is old

The retention statements compare a stored time with the time some days or hours ago, which SQLite writes in
its own format. So nothing of the day of the cutoff is ever before it.
-/

namespace Serverust

open Calendar Resumption

namespace Retention

/-! ### Instants -/

/-- The nanoseconds of an instant some days ago, negative before year 0. -/
def daysBefore (now : DateTime) (days : Nat) : Int := now.number - days * 86400000000000

/-- The nanoseconds of an instant some hours ago, or to come. -/
def hoursBefore (now : DateTime) (hours : Int) : Int := now.number - hours * 3600000000000

/-- The row has a time, and it is before the limit. -/
def endedBefore (limit : Int) (ended : Option DateTime) : Bool := ended.any fun t => (t.number : Int) < limit

/-- The row has a time, and it is the limit or after it. -/
def endedSince (limit : Int) (ended : Option DateTime) : Bool := ended.any fun t => limit ≤ (t.number : Int)

theorem endedSince_eq (limit : Int) (ended : Option DateTime) :
    endedSince limit ended = (ended.isSome && !endedBefore limit ended) := by
  cases ended with
  | none => rfl
  | some t =>
      rw [Bool.eq_iff_iff]
      simp [endedSince, endedBefore]

/-- The times of the rows, as they are stored. -/
def Stored {ρ : Type} (completedAt : ρ → Option String) (ended : ρ → Option DateTime) (rows : List ρ) : Prop :=
  ∀ row ∈ rows, completedAt row = (ended row).map toRfc3339

/-- A time on the day of the cutoff is not before it. -/
def Clear (cutoff ended : Option DateTime) : Prop :=
  ∀ c t, cutoff = some c → ended = some t → t.date = c.date → c ≤ t

/-- The cutoff is the limit, if four digits can write its year. -/
structure Marks (cutoff : Option DateTime) (limit : Int) : Prop where
  written : ∀ c, cutoff = some c → (c.number : Int) = limit
  unwritten : cutoff = none → limit < 0

theorem marks_days (now : DateTime) (days : Nat) : Marks (now.minusDays days) (daysBefore now days) where
  written c h := by
    have hnumber := DateTime.number_minusDays h
    unfold daysBefore
    omega
  unwritten h := by
    have hnumber := DateTime.number_of_minusDays_eq_none h
    unfold daysBefore
    omega

theorem marks_hours (now : DateTime) (hours : Nat) : Marks (now.minusHours hours) (hoursBefore now hours) where
  written c h := by
    have hnumber := DateTime.number_minusHours h
    unfold hoursBefore
    omega
  unwritten h := by
    have hnumber := DateTime.number_of_minusHours_eq_none h
    unfold hoursBefore
    omega

theorem Marks.endedBefore {cutoff t : DateTime} {limit : Int} (h : Marks (some cutoff) limit)
    (hdate : t.date = cutoff.date) (hclock : t.secondOfDay < cutoff.secondOfDay) :
    endedBefore limit (some t) = true := by
  have hlimit := h.written cutoff rfl
  have hlt : t.number < cutoff.number := DateTime.lt_of_secondOfDay_lt hdate hclock
  have hbefore : (t.number : Int) < limit := by omega
  simpa only [Retention.endedBefore, Option.any_some, decide_eq_true_eq] using hbefore

/-! ### Comparisons of text -/

/-- `completed_at < ?`, where either may be `NULL`. -/
def textBefore (completedAt cutoff : Option String) : Bool :=
  match completedAt, cutoff with
  | some completedAt, some cutoff => completedAt < cutoff
  | _, _ => false

/-- The comparison is right about a time unless it is on the day of the cutoff and before it. -/
theorem textBefore_eq {cutoff : Option DateTime} {limit : Int} (h : Marks cutoff limit) (ended : Option DateTime) :
    textBefore (ended.map toRfc3339) (cutoff.map sqliteDatetime) = endedBefore limit ended ↔
      Clear cutoff ended := by
  cases ended with
  | none => simp [textBefore, endedBefore, Clear]
  | some t =>
      cases cutoff with
      | none =>
          have hlimit := h.unwritten rfl
          have hnot : ¬(t.number : Int) < limit := by omega
          simp [textBefore, endedBefore, Clear, hnot]
      | some c =>
          have hlimit := h.written c rfl
          have hlt : (t.number : Int) < limit ↔ t < c := by
            rw [← hlimit, Int.ofNat_lt]
            rfl
          simp only [textBefore, endedBefore, Clear, Option.map_some, Option.any_some, toRfc3339_lt_sqliteDatetime,
            hlt, Option.some.injEq, decide_eq_decide]
          rcases Date.before_trichotomy t.date c.date with hbefore | hsame | hafter
          · have hne : t.date ≠ c.date := fun heq => Date.before_irrefl _ (heq ▸ hbefore)
            simp [hbefore, DateTime.lt_of_date_before hbefore, hne]
          · simp [hsame, Date.before_irrefl, ← DateTime.not_le]
          · have hnot : ¬t.date.Before c.date := fun hbefore =>
              Nat.lt_asymm (DateTime.lt_of_date_before hafter) (DateTime.lt_of_date_before hbefore)
            have hle : c ≤ t := (DateTime.lt_of_date_before hafter).le
            simp [hnot, hle, DateTime.not_le.symm]

theorem endedBefore_of_textBefore {cutoff : Option DateTime} {limit : Int} (h : Marks cutoff limit)
    {ended : Option DateTime} (hbefore : textBefore (ended.map toRfc3339) (cutoff.map sqliteDatetime) = true) :
    endedBefore limit ended = true := by
  cases ended with
  | none => simp [textBefore] at hbefore
  | some t =>
      cases cutoff with
      | none => simp [textBefore] at hbefore
      | some c =>
          have hday : t.date.Before c.date :=
            (toRfc3339_lt_sqliteDatetime t c).mp (of_decide_eq_true hbefore)
          have hlt : t.number < c.number := DateTime.lt_of_date_before hday
          have hlimit := h.written c rfl
          have hlimit' : (t.number : Int) < limit := by omega
          simpa [endedBefore] using hlimit'

/-! ### Executions -/

theorem isExpired_eq (cutoff : Option String) (row : Execution) :
    ExecutionRepository.isExpired cutoff row = (row.status.isTerminal && textBefore row.completedAt cutoff) := by
  have hterminal : [ExecutionStatus.success, .failed, .timeout, .cancelled].contains row.status =
      row.status.isTerminal := by cases row.status <;> rfl
  unfold ExecutionRepository.isExpired
  rw [hterminal]
  cases row.completedAt <;> cases cutoff <;> rfl

/-- The executions that are to go: terminal, with a time before the limit. -/
def expired (limit : Int) (ended : Execution → Option DateTime) (row : Execution) : Bool :=
  row.status.isTerminal && endedBefore limit (ended row)

/-- The statement deletes what is expired exactly if no terminal execution ended on the day of the cutoff
before it. -/
theorem deleteOlderThanDays_exact {w : World} (hfault : w.fault = none) {ended : Execution → Option DateTime}
    (hstored : Stored Execution.completedAt ended w.db.executions) (days : Nat) :
    ∃ n w', (ExecutionRepository.deleteOlderThanDays days).run w = some (.ok n, w') ∧
      (w'.db.executions = w.db.executions.filter (fun row => !expired (daysBefore w.now days) ended row) ↔
        ∀ row ∈ w.db.executions, row.status.isTerminal → Clear (w.now.minusDays days) (ended row)) := by
  unfold ExecutionRepository.deleteOlderThanDays
  simp only [Task.run_bind, run_sql hfault]
  refine ⟨_, _, rfl, ?_⟩
  dsimp only
  rw [Rows.filter_eq_filter]
  refine forall₂_congr fun row hrow => ?_
  rw [isExpired_eq, hstored row hrow, expired, ← textBefore_eq (marks_days w.now days)]
  cases row.status.isTerminal
  · simp
  · simp [ExecutionRepository.daysAgo]

/-! ### Queue entries -/

theorem isOld_eq (cutoff : Option String) (row : QueueEntry) : QueueRepository.isOld cutoff row =
    ((row.status = .completed ∨ row.status = .failed) && textBefore row.completedAt cutoff) := by
  unfold QueueRepository.isOld
  cases row.completedAt <;> cases cutoff <;> rfl

theorem isRecent_eq {now : DateTime} {row : QueueEntry} {ended : Option DateTime}
    (hstored : row.completedAt = ended.map toRfc3339) : QueueRepository.isRecent now row =
      (ended.isSome && !textBefore (ended.map toRfc3339) ((now.minusHours 1).map sqliteDatetime)) := by
  unfold QueueRepository.isRecent
  rw [hstored, show QueueRepository.hoursAgo now 1 = (now.minusHours 1).map sqliteDatetime from rfl]
  cases ended with
  | none => rfl
  | some t =>
      cases now.minusHours 1 with
      | none => rfl
      | some cutoff => simp [textBefore, ← String.not_lt]

/-- The entries that are to go: completed or failed, with a time before the limit. -/
def stale (limit : Int) (ended : QueueEntry → Option DateTime) (row : QueueEntry) : Bool :=
  (row.status = .completed ∨ row.status = .failed) && endedBefore limit (ended row)

/-- No time is on the day of the cutoff and before it. There is no cutoff for a negative number of hours, and
then no time is before the limit. -/
def ClearHours (now : DateTime) (hours : Int) (ended : Option DateTime) : Prop :=
  if hours < 0 then endedBefore (hoursBefore now hours) ended = false
  else Clear (now.minusHours hours.toNat) ended

theorem textBefore_hoursAgo (now : DateTime) (hours : Int) (ended : Option DateTime) :
    textBefore (ended.map toRfc3339) (QueueRepository.hoursAgo now hours) =
      endedBefore (hoursBefore now hours) ended ↔ ClearHours now hours ended := by
  unfold QueueRepository.hoursAgo ClearHours
  split
  · have hnull : textBefore (ended.map toRfc3339) none = false := by cases ended <;> rfl
    rw [hnull, eq_comm]
  · have hhours : (hours.toNat : Int) = hours := by omega
    have hmarks := marks_hours now hours.toNat
    rw [hhours] at hmarks
    exact textBefore_eq hmarks ended

/-- The statement deletes what is stale exactly if no completed or failed entry ended on the day of the cutoff
before it. -/
theorem cleanupOld_exact {w : World} (hfault : w.fault = none) {ended : QueueEntry → Option DateTime}
    (hstored : Stored QueueEntry.completedAt ended w.db.jobQueue) (hours : Int) :
    ∃ n w', (QueueRepository.cleanupOld hours).run w = some (.ok n, w') ∧
      (w'.db.jobQueue = w.db.jobQueue.filter (fun row => !stale (hoursBefore w.now hours) ended row) ↔
        ∀ row ∈ w.db.jobQueue, row.status = .completed ∨ row.status = .failed →
          ClearHours w.now hours (ended row)) := by
  unfold QueueRepository.cleanupOld
  rw [run_sql hfault]
  refine ⟨_, _, rfl, ?_⟩
  dsimp only
  rw [Rows.filter_eq_filter]
  refine forall₂_congr fun row hrow => ?_
  rw [isOld_eq, hstored row hrow, stale, ← textBefore_hoursAgo]
  by_cases hstatus : row.status = .completed ∨ row.status = .failed
  · simp [hstatus]
  · simp [hstatus]

theorem run_countCompletedLastHour {w : World} (hfault : w.fault = none) :
    QueueRepository.countCompletedLastHour.run w =
      some (.ok (w.db.jobQueue.countP fun row => row.status = .completed && QueueRepository.isRecent w.now row), w) := by
  unfold QueueRepository.countCompletedLastHour QueueRepository.countLastHour
  rw [run_sql hfault]

/-- The count is that of the entries completed in the last hour exactly if none completed on the day on which
the hour began and before it. -/
theorem countCompletedLastHour_exact {w : World} (hfault : w.fault = none) {ended : QueueEntry → Option DateTime}
    (hstored : Stored QueueEntry.completedAt ended w.db.jobQueue) :
    ∃ n, QueueRepository.countCompletedLastHour.run w = some (.ok n, w) ∧
      (n = w.db.jobQueue.countP (fun row => row.status = .completed &&
          endedSince (hoursBefore w.now 1) (ended row)) ↔
        ∀ row ∈ w.db.jobQueue, row.status = .completed → Clear (w.now.minusHours 1) (ended row)) := by
  refine ⟨_, run_countCompletedLastHour hfault, ?_⟩
  have hmarks : Marks (w.now.minusHours 1) (hoursBefore w.now 1) := by
    simpa only [Nat.cast_one] using marks_hours w.now 1
  rw [Rows.countP_eq_countP]
  · refine forall₂_congr fun row hrow => ?_
    rw [isRecent_eq (hstored row hrow), endedSince_eq, ← textBefore_eq hmarks]
    cases hended : ended row with
    | none => simp [textBefore, endedBefore]
    | some t =>
        by_cases hstatus : row.status = .completed
        · simp [hstatus]
        · simp [hstatus]
  · intro row hrow hcounted
    obtain ⟨hstatus, hin⟩ := Bool.and_eq_true_iff.mp hcounted
    rw [endedSince_eq] at hin
    rw [isRecent_eq (hstored row hrow), hstatus, Bool.true_and]
    obtain ⟨hsome, hlate⟩ := Bool.and_eq_true_iff.mp hin
    rw [hsome, Bool.true_and, Bool.not_eq_true']
    refine Bool.eq_false_iff.mpr fun htext => ?_
    rw [endedBefore_of_textBefore hmarks htext] at hlate
    cases hlate

/-! ### The three together -/

section

variable {w : World} {executionEnded : Execution → Option DateTime} {entryEnded : QueueEntry → Option DateTime}

/-- Each statement is exact if and only if no row that it looks at ended on the day of its cutoff and before
it, and, with a negative number of hours, none ended before the limit. -/
theorem retention_exact (hfault : w.fault = none)
    (hexecutions : Stored Execution.completedAt executionEnded w.db.executions)
    (hentries : Stored QueueEntry.completedAt entryEnded w.db.jobQueue) (days : Nat) (hours : Int) :
    (∃ n w', (ExecutionRepository.deleteOlderThanDays days).run w = some (.ok n, w') ∧
      (w'.db.executions =
          w.db.executions.filter (fun row => !expired (daysBefore w.now days) executionEnded row) ↔
        ∀ row ∈ w.db.executions, row.status.isTerminal → Clear (w.now.minusDays days) (executionEnded row))) ∧
    (∃ n w', (QueueRepository.cleanupOld hours).run w = some (.ok n, w') ∧
      (w'.db.jobQueue = w.db.jobQueue.filter (fun row => !stale (hoursBefore w.now hours) entryEnded row) ↔
        ∀ row ∈ w.db.jobQueue, row.status = .completed ∨ row.status = .failed →
          ClearHours w.now hours (entryEnded row))) ∧
    (∃ n, QueueRepository.countCompletedLastHour.run w = some (.ok n, w) ∧
      (n = w.db.jobQueue.countP (fun row => row.status = .completed &&
          endedSince (hoursBefore w.now 1) (entryEnded row)) ↔
        ∀ row ∈ w.db.jobQueue, row.status = .completed → Clear (w.now.minusHours 1) (entryEnded row))) :=
  ⟨deleteOlderThanDays_exact hfault hexecutions days, cleanupOld_exact hfault hentries hours,
    countCompletedLastHour_exact hfault hentries⟩

end

/-! ### On the day of the cutoff -/

/-- An hour of a day of January, both counted from 0. -/
def january (day : Fin 31) (hour : Fin 24) : DateTime :=
  { epoch with
    date := { epoch.date with day := day + 1, day_pos := Nat.succ_pos _, day_le := day.isLt }
    hour := hour
    hour_lt := hour.isLt }

def firstOfJanuary : DateTime := january 0 0

def secondOfJanuary : DateTime := january 1 0

/-- An execution that ended at the start of a day. -/
def ended : Execution :=
  { Execution.new 1 2 none "" with status := .success, completedAt := some (toRfc3339 firstOfJanuary) }

/-- Its entry, completed at the start of the next day. -/
def entry : QueueEntry :=
  { QueueEntry.new 3 1 2 0 "" with status := .completed, completedAt := some (toRfc3339 secondOfJanuary) }

/-- Noon of the second day. -/
def noon : World :=
  .start { Db.empty with executions := [ended], jobQueue := [entry] }
    (january 1 12) 4

theorem stored_executions : Stored Execution.completedAt (fun _ => some firstOfJanuary) noon.db.executions :=
  fun _ hrow => by rw [List.mem_singleton.mp hrow]; rfl

theorem stored_entries : Stored QueueEntry.completedAt (fun _ => some secondOfJanuary) noon.db.jobQueue :=
  fun _ hrow => by rw [List.mem_singleton.mp hrow]; rfl

/-- The three statements at noon. -/
theorem retention_exact_noon :
    (∃ n w', (ExecutionRepository.deleteOlderThanDays 1).run noon = some (.ok n, w') ∧
      (w'.db.executions = noon.db.executions.filter (fun row =>
          !expired (daysBefore noon.now 1) (fun _ => some firstOfJanuary) row) ↔
        ∀ row ∈ noon.db.executions, row.status.isTerminal →
          Clear (noon.now.minusDays 1) (some firstOfJanuary))) ∧
    (∃ n w', (QueueRepository.cleanupOld 2).run noon = some (.ok n, w') ∧
      (w'.db.jobQueue = noon.db.jobQueue.filter (fun row =>
          !stale (hoursBefore noon.now 2) (fun _ => some secondOfJanuary) row) ↔
        ∀ row ∈ noon.db.jobQueue, row.status = .completed ∨ row.status = .failed →
          ClearHours noon.now 2 (some secondOfJanuary))) ∧
    (∃ n, QueueRepository.countCompletedLastHour.run noon = some (.ok n, noon) ∧
      (n = noon.db.jobQueue.countP (fun row => row.status = .completed &&
          endedSince (hoursBefore noon.now 1) (some secondOfJanuary)) ↔
        ∀ row ∈ noon.db.jobQueue, row.status = .completed →
          Clear (noon.now.minusHours 1) (some secondOfJanuary))) :=
  retention_exact rfl stored_executions stored_entries 1 2

/-- At noon an execution that ended 36 hours ago is kept for longer than a day, an entry completed 12 hours ago
for longer than two hours, and that entry counts as completed in the last hour. -/
theorem retention_misses_the_day :
    (∃ n w', (ExecutionRepository.deleteOlderThanDays 1).run noon = some (.ok n, w') ∧
      w'.db.executions = noon.db.executions ∧
      expired (daysBefore noon.now 1) (fun _ => some firstOfJanuary) ended = true) ∧
    (∃ n w', (QueueRepository.cleanupOld 2).run noon = some (.ok n, w') ∧ w'.db.jobQueue = noon.db.jobQueue ∧
      stale (hoursBefore noon.now 2) (fun _ => some secondOfJanuary) entry = true) ∧
    QueueRepository.countCompletedLastHour.run noon = some (.ok 1, noon) ∧
      endedSince (hoursBefore noon.now 1) (some secondOfJanuary) = false := by
  have hday : Marks (some (january 0 12)) (daysBefore noon.now 1) :=
    marks_days noon.now 1
  have htwo : Marks (some (january 1 10)) (hoursBefore noon.now 2) :=
    marks_hours noon.now 2
  have hone : Marks (some (january 1 11)) (hoursBefore noon.now 1) :=
    marks_hours noon.now 1
  have hcount : noon.db.jobQueue.countP (fun row => row.status = .completed &&
      QueueRepository.isRecent noon.now row) = 1 := by decide +kernel
  have hfirst : endedBefore (daysBefore noon.now 1) (some firstOfJanuary) = true :=
    hday.endedBefore rfl (by decide +kernel)
  have hsecond : endedBefore (hoursBefore noon.now 2) (some secondOfJanuary) = true :=
    htwo.endedBefore rfl (by decide +kernel)
  have hlast : endedBefore (hoursBefore noon.now 1) (some secondOfJanuary) = true :=
    hone.endedBefore rfl (by decide +kernel)
  refine ⟨⟨_, _, rfl, by decide +kernel, ?_⟩, ⟨_, _, rfl, by decide +kernel, ?_⟩, ?_, ?_⟩
  · rw [expired, hfirst]
    rfl
  · rw [stale, hsecond]
    rfl
  · rw [run_countCompletedLastHour rfl, hcount]
  · rw [endedSince_eq, hlast]
    rfl

end Retention

end Serverust
