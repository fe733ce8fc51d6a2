import Mathlib.Order.Basic
import Mathlib.Order.Lattice
import Mathlib.Tactic.Linarith
import Mathlib.Tactic.IntervalCases

/-!
# Instants of the proleptic Gregorian calendar

A civil date is a year, a month and a day that exist; an instant adds a time of day. Both are ordered
by the number of days, or of nanoseconds, since the first day of year 0, and that order is the
lexicographic order of the fields.
-/

namespace Calendar

def isLeap (year : Nat) : Bool := (year % 4 == 0 && year % 100 != 0) || year % 400 == 0

def daysInMonth (year month : Nat) : Nat :=
  match month with
  | 1 | 3 | 5 | 7 | 8 | 10 | 12 => 31
  | 4 | 6 | 9 | 11 => 30
  | 2 => if isLeap year then 29 else 28
  | _ => 0

/-- A date that exists, with a year that four digits can write. -/
structure Date where
  year : Nat
  month : Nat
  day : Nat
  year_le : year ≤ 9999
  month_pos : 1 ≤ month
  month_le : month ≤ 12
  day_pos : 1 ≤ day
  day_le : day ≤ daysInMonth year month
deriving DecidableEq

/-- An instant of coordinated universal time, to the nanosecond. -/
structure DateTime where
  date : Date
  hour : Nat
  minute : Nat
  second : Nat
  nanos : Nat
  hour_lt : hour < 24
  minute_lt : minute < 60
  second_lt : second < 60
  nanos_lt : nanos < 1000000000
deriving DecidableEq

/-- The start of 1 January 1970. -/
def epoch : DateTime where
  date := { year := 1970, month := 1, day := 1, year_le := by decide, month_pos := by decide
            month_le := by decide, day_pos := by decide, day_le := by decide }
  hour := 0
  minute := 0
  second := 0
  nanos := 0
  hour_lt := by decide
  minute_lt := by decide
  second_lt := by decide
  nanos_lt := by decide

def daysBeforeMonth (year : Nat) : Nat → Nat
  | 0 => 0
  | month + 1 => daysBeforeMonth year month + daysInMonth year month

def daysBeforeYear : Nat → Nat
  | 0 => 0
  | year + 1 => daysBeforeYear year + daysBeforeMonth year 13

theorem daysBeforeMonth_mono (year : Nat) : Monotone (daysBeforeMonth year) :=
  monotone_nat_of_le_succ fun _ => Nat.le_add_right _ _

theorem daysBeforeYear_mono : Monotone daysBeforeYear :=
  monotone_nat_of_le_succ fun _ => Nat.le_add_right _ _

theorem daysInMonth_le (year month : Nat) : daysInMonth year month ≤ 31 := by
  unfold daysInMonth
  repeat' split
  all_goals omega

namespace Date

theorem day_le_thirtyOne (d : Date) : d.day ≤ 31 := d.day_le.trans (daysInMonth_le _ _)

/-- The days between the first day of year 0 and this date. -/
def number (d : Date) : Nat := daysBeforeYear d.year + daysBeforeMonth d.year d.month + (d.day - 1)

/-- The order of the fields: the year decides, then the month, then the day. -/
def Before (a b : Date) : Prop :=
  a.year < b.year ∨ a.year = b.year ∧ (a.month < b.month ∨ a.month = b.month ∧ a.day < b.day)

theorem number_lt_nextMonth (d : Date) :
    d.number < daysBeforeYear d.year + daysBeforeMonth d.year (d.month + 1) := by
  have := d.day_pos
  have := d.day_le
  simp only [number, daysBeforeMonth]
  omega

theorem number_lt_nextYear (d : Date) : d.number < daysBeforeYear (d.year + 1) := by
  have hmonth : daysBeforeMonth d.year (d.month + 1) ≤ daysBeforeMonth d.year 13 :=
    daysBeforeMonth_mono d.year (by have := d.month_le; omega)
  have := d.number_lt_nextMonth
  simp only [daysBeforeYear]
  omega

theorem number_lt_of_before {a b : Date} (h : a.Before b) : a.number < b.number := by
  rcases h with hyear | ⟨hyear, hmonth | ⟨hmonth, hday⟩⟩
  · have hle : daysBeforeYear (a.year + 1) ≤ daysBeforeYear b.year := daysBeforeYear_mono hyear
    have := a.number_lt_nextYear
    simp only [number] at *
    omega
  · have hle : daysBeforeMonth a.year (a.month + 1) ≤ daysBeforeMonth a.year b.month :=
      daysBeforeMonth_mono a.year hmonth
    have := a.number_lt_nextMonth
    simp only [number, ← hyear] at *
    omega
  · have := a.day_pos
    simp only [number, hyear, hmonth]
    omega

theorem before_trichotomy (a b : Date) : a.Before b ∨ a = b ∨ b.Before a := by
  unfold Before
  by_cases heq : a.year = b.year ∧ a.month = b.month ∧ a.day = b.day
  · obtain ⟨year, month, day⟩ := heq
    cases a
    cases b
    simp_all
  · omega

theorem before_irrefl (a : Date) : ¬ a.Before a := by
  unfold Before
  omega

/-- Counting days and comparing fields order the dates alike. -/
theorem number_lt_iff {a b : Date} : a.number < b.number ↔ a.Before b := by
  refine ⟨fun h => ?_, number_lt_of_before⟩
  rcases before_trichotomy a b with hab | rfl | hba
  · exact hab
  · omega
  · have := number_lt_of_before hba
    omega

theorem number_injective {a b : Date} (h : a.number = b.number) : a = b := by
  rcases before_trichotomy a b with hab | hab | hba
  · have := number_lt_of_before hab
    omega
  · exact hab
  · have := number_lt_of_before hba
    omega

end Date

namespace DateTime

def secondOfDay (t : DateTime) : Nat := (t.hour * 60 + t.minute) * 60 + t.second

/-- The nanoseconds between the start of year 0 and this instant. -/
def number (t : DateTime) : Nat := (t.date.number * 86400 + t.secondOfDay) * 1000000000 + t.nanos

instance : Preorder DateTime := Preorder.lift number

instance : DecidableLE DateTime := fun a b => inferInstanceAs (Decidable (a.number ≤ b.number))

instance : DecidableLT DateTime := fun a b => inferInstanceAs (Decidable (a.number < b.number))

theorem secondOfDay_lt (t : DateTime) : t.secondOfDay < 86400 := by
  have := t.hour_lt
  have := t.minute_lt
  have := t.second_lt
  unfold secondOfDay
  omega

theorem not_le {a b : DateTime} : ¬ a ≤ b ↔ b < a := Nat.not_le

/-- Instants are ordered by day, then by the clock, then by the fraction of the second. -/
theorem lt_iff {a b : DateTime} :
    a < b ↔ a.date.Before b.date ∨ a.date = b.date ∧
      (a.secondOfDay < b.secondOfDay ∨ a.secondOfDay = b.secondOfDay ∧ a.nanos < b.nanos) := by
  have ha := a.secondOfDay_lt
  have hb := b.secondOfDay_lt
  have hanano := a.nanos_lt
  have hbnano := b.nanos_lt
  have hdate : a.date = b.date ↔ a.date.number = b.date.number :=
    ⟨fun h => by rw [h], Date.number_injective⟩
  rw [← Date.number_lt_iff, hdate]
  change a.number < b.number ↔ _
  unfold number
  omega

/-- An instant of an earlier day is earlier. -/
theorem lt_of_date_before {a b : DateTime} (h : a.date.Before b.date) : a < b := lt_iff.mpr (.inl h)

/-- The clock decides between instants of one day. -/
theorem lt_of_secondOfDay_lt {a b : DateTime} (hdate : a.date = b.date) (h : a.secondOfDay < b.secondOfDay) :
    a < b :=
  lt_iff.mpr (.inr ⟨hdate, .inl h⟩)

end DateTime

/-! ### Going back in time -/

namespace Date

/-- The day before, if it has a year that four digits can write. -/
def pred (d : Date) : Option Date :=
  if hday : 1 < d.day then
    some { d with
      day := d.day - 1
      day_pos := by omega
      day_le := by have := d.day_le; omega }
  else if hmonth : 1 < d.month then
    some { d with
      month := d.month - 1
      day := daysInMonth d.year (d.month - 1)
      month_pos := by omega
      month_le := by have := d.month_le; omega
      day_pos := by
        have hle := d.month_le
        generalize d.month = month at *
        interval_cases month <;> simp [daysInMonth]
        split <;> omega
      day_le := le_rfl }
  else if hyear : 0 < d.year then
    some { year := d.year - 1, month := 12, day := 31
           year_le := by have := d.year_le; omega
           month_pos := by omega
           month_le := by omega
           day_pos := by omega
           day_le := by simp [daysInMonth] }
  else none

/-- Go back a number of days. -/
def back (d : Date) : Nat → Option Date
  | 0 => some d
  | days + 1 => d.pred.bind fun earlier => earlier.back days

theorem daysBeforeMonth_one (year : Nat) : daysBeforeMonth year 1 = 0 := rfl

theorem number_pred {d earlier : Date} (h : d.pred = some earlier) : earlier.number + 1 = d.number := by
  have hpos := d.day_pos
  have hmonth := d.month_pos
  unfold pred at h
  split at h
  · cases h
    simp only [number]
    omega
  split at h
  · cases h
    obtain ⟨month, hsucc⟩ : ∃ month, d.month = month + 1 := ⟨d.month - 1, by omega⟩
    have hlast : 1 ≤ daysInMonth d.year month := by
      have hle := d.month_le
      have hlow : 1 ≤ month := by omega
      have hhigh : month ≤ 12 := by omega
      clear hsucc hmonth
      interval_cases month <;> simp [daysInMonth]
      split <;> omega
    simp only [number, hsucc, daysBeforeMonth, Nat.add_sub_cancel]
    omega
  split at h
  · cases h
    obtain ⟨year, hsucc⟩ : ∃ year, d.year = year + 1 := ⟨d.year - 1, by omega⟩
    have hfirst : d.month = 1 := by omega
    have hlong : daysBeforeMonth year 13 = daysBeforeMonth year 12 + 31 := rfl
    simp only [number, hsucc, hfirst, daysBeforeYear, daysBeforeMonth_one, Nat.add_sub_cancel, hlong]
    omega
  · cases h

/-- Only the first day of year 0 has no day before. -/
theorem number_of_pred_eq_none {d : Date} (h : d.pred = none) : d.number = 0 := by
  have hpos := d.day_pos
  have hmonth := d.month_pos
  unfold pred at h
  split at h
  · cases h
  split at h
  · cases h
  split at h
  · cases h
  · have hyear : d.year = 0 := by omega
    have hfirst : d.month = 1 := by omega
    simp only [number, hyear, hfirst, daysBeforeMonth_one, daysBeforeYear]
    omega

theorem number_back {d earlier : Date} {days : Nat} (h : d.back days = some earlier) :
    earlier.number + days = d.number := by
  induction days generalizing d with
  | zero =>
      cases h
      rfl
  | succ days ih =>
      obtain ⟨before, hbefore, hback⟩ := Option.bind_eq_some_iff.mp h
      have hpred := number_pred hbefore
      have hrest := ih hback
      omega

theorem number_of_back_eq_none {d : Date} {days : Nat} (h : d.back days = none) : d.number < days := by
  induction days generalizing d with
  | zero => cases h
  | succ days ih =>
      cases hbefore : d.pred with
      | none =>
          have hzero := number_of_pred_eq_none hbefore
          omega
      | some before =>
          rw [back, hbefore, Option.bind_some] at h
          have hpred := number_pred hbefore
          have hrest := ih h
          omega

end Date

namespace DateTime

/-- The instant a number of days earlier. -/
def minusDays (t : DateTime) (days : Nat) : Option DateTime :=
  (t.date.back days).map fun date => { t with date }

theorem number_minusDays {t earlier : DateTime} {days : Nat} (h : t.minusDays days = some earlier) :
    earlier.number + days * 86400000000000 = t.number := by
  obtain ⟨date, hdate, rfl⟩ := Option.map_eq_some_iff.mp h
  have hnumber := Date.number_back hdate
  simp only [number, secondOfDay]
  omega

theorem number_of_minusDays_eq_none {t : DateTime} {days : Nat} (h : t.minusDays days = none) :
    t.number < days * 86400000000000 := by
  have hnumber := Date.number_of_back_eq_none (Option.map_eq_none_iff.mp h)
  have hsecond := t.secondOfDay_lt
  have hnanos := t.nanos_lt
  simp only [number]
  omega

/-- The instant a number of hours earlier, to the second. -/
def minusHours (t : DateTime) (hours : Nat) : Option DateTime :=
  (t.date.back ((hours + 23 - t.hour) / 24)).map fun date =>
    { date
      hour := (t.hour + 23 * hours) % 24
      minute := t.minute
      second := t.second
      nanos := t.nanos
      hour_lt := Nat.mod_lt _ (by omega)
      minute_lt := t.minute_lt
      second_lt := t.second_lt
      nanos_lt := t.nanos_lt }

theorem number_minusHours {t earlier : DateTime} {hours : Nat} (h : t.minusHours hours = some earlier) :
    earlier.number + hours * 3600000000000 = t.number := by
  obtain ⟨date, hdate, rfl⟩ := Option.map_eq_some_iff.mp h
  have hnumber := Date.number_back hdate
  have hhour := t.hour_lt
  have hclock : (t.hour + 23 * hours) % 24 + hours = t.hour + 24 * ((hours + 23 - t.hour) / 24) := by omega
  simp only [number, secondOfDay]
  omega

theorem number_of_minusHours_eq_none {t : DateTime} {hours : Nat} (h : t.minusHours hours = none) :
    t.number < hours * 3600000000000 := by
  have hnumber := Date.number_of_back_eq_none (Option.map_eq_none_iff.mp h)
  have hhour := t.hour_lt
  have hminute := t.minute_lt
  have hsecond := t.second_lt
  have hnanos := t.nanos_lt
  simp only [number, secondOfDay]
  omega

end DateTime

end Calendar
