import Serverust.Library.Lexicographic
import Serverust.Model.Time

/-!
# The order of stored timestamps

Both text formats start with the date in ten characters, whose order is the order of dates. They differ
in the next character: `T` in a stored timestamp, a space in SQLite's current time.
-/

namespace Serverust

open Calendar

/-! ### Digits -/

theorem digit_lt_digit {a b : Nat} (ha : a < 10) (hb : b < 10) : digit a < digit b ↔ a < b := by
  interval_cases a <;> interval_cases b <;> decide

theorem digit_injective {a b : Nat} (ha : a < 10) (hb : b < 10) (h : digit a = digit b) : a = b := by
  rcases Nat.lt_trichotomy a b with hlt | heq | hgt
  · exact absurd h ((digit_lt_digit ha hb).mpr hlt).ne
  · exact heq
  · exact absurd h.symm ((digit_lt_digit hb ha).mpr hgt).ne

@[simp] theorem length_pad (width n : Nat) : (pad width n).length = width := by
  induction width generalizing n with
  | zero => rfl
  | succ width ih => simp only [pad, List.length_append, ih, List.length_singleton]

theorem pad_injective {width a b : Nat} (ha : a < 10 ^ width) (hb : b < 10 ^ width)
    (h : pad width a = pad width b) : a = b := by
  induction width generalizing a b with
  | zero => omega
  | succ width ih =>
      rw [pow_succ] at ha hb
      have hparts := List.append_inj h (by simp only [length_pad])
      have hhigh := ih (a := a / 10) (b := b / 10) (by omega) (by omega) hparts.1
      have hlow := digit_injective (Nat.mod_lt a (by omega)) (Nat.mod_lt b (by omega))
        (List.singleton_inj.mp hparts.2)
      omega

theorem pad_lt_pad {width a b : Nat} (ha : a < 10 ^ width) (hb : b < 10 ^ width) :
    pad width a < pad width b ↔ a < b := by
  induction width generalizing a b with
  | zero =>
      have : ¬ a < b := by omega
      simpa only [pad, List.not_lt_nil, false_iff] using this
  | succ width ih =>
      rw [pow_succ] at ha hb
      have hmod : ∀ n, n % 10 < 10 := fun n => Nat.mod_lt n (by omega)
      have hhigh : pad width (a / 10) = pad width (b / 10) ↔ a / 10 = b / 10 :=
        ⟨pad_injective (by omega) (by omega), fun h => by rw [h]⟩
      rw [pad, pad, Lexicographic.append_lt_append_iff (by simp only [length_pad]), ih (by omega) (by omega),
        hhigh, List.cons_lt_cons_iff, digit_lt_digit (hmod a) (hmod b)]
      simp only [List.not_lt_nil, and_false, or_false]
      omega

theorem pad_add (m k n : Nat) : pad (m + k) n = pad m (n / 10 ^ k) ++ pad k n := by
  induction k generalizing n with
  | zero => simp only [Nat.add_zero, pow_zero, Nat.div_one, pad, List.append_nil]
  | succ k ih =>
      rw [← Nat.add_assoc, pad, ih, pad, List.append_assoc, Nat.div_div_eq_div_mul, pow_succ']

theorem pad_succ_eq_cons (width n : Nat) : ∃ d < 10, ∃ rest, pad (width + 1) n = digit d :: rest := by
  refine ⟨n / 10 ^ width % 10, Nat.mod_lt _ (by omega), pad width n, ?_⟩
  rw [Nat.add_comm, pad_add]
  rfl

theorem plus_lt_digit {d : Nat} (hd : d < 10) : '+' < digit d := by
  interval_cases d <;> decide

/-! ### Dates -/

@[simp] theorem length_dateText (d : Date) : (dateText d).length = 10 := by
  simp only [dateText, List.length_append, length_pad, List.length_cons]

theorem dateText_lt_dateText (a b : Date) : dateText a < dateText b ↔ a.Before b := by
  have hyear : ∀ d : Date, d.year < 10 ^ 4 := fun d => by have := d.year_le; omega
  have hmonth : ∀ d : Date, d.month < 10 ^ 2 := fun d => by have := d.month_le; omega
  have hday : ∀ d : Date, d.day < 10 ^ 2 := fun d => by
    have := d.day_le_thirtyOne
    omega
  have hyearEq : pad 4 a.year = pad 4 b.year ↔ a.year = b.year :=
    ⟨pad_injective (hyear a) (hyear b), fun h => by rw [h]⟩
  have hmonthEq : pad 2 a.month = pad 2 b.month ↔ a.month = b.month :=
    ⟨pad_injective (hmonth a) (hmonth b), fun h => by rw [h]⟩
  rw [dateText, dateText, Lexicographic.append_lt_append_iff (by simp only [length_pad]),
    Lexicographic.cons_lt_cons_iff, Lexicographic.append_lt_append_iff (by simp only [length_pad]),
    Lexicographic.cons_lt_cons_iff, pad_lt_pad (hyear a) (hyear b), pad_lt_pad (hmonth a) (hmonth b),
    pad_lt_pad (hday a) (hday b), hyearEq, hmonthEq]
  rfl

theorem dateText_injective {a b : Date} (h : dateText a = dateText b) : a = b := by
  rcases Date.before_trichotomy a b with hab | hab | hba
  · exact absurd h ((dateText_lt_dateText a b).mpr hab).ne
  · exact hab
  · exact absurd h.symm ((dateText_lt_dateText b a).mpr hba).ne

/-! ### Times of day -/

@[simp] theorem length_timeText (t : DateTime) : (timeText t).length = 8 := by
  simp only [timeText, List.length_append, length_pad, List.length_cons]

theorem timeText_injective {a b : DateTime} (h : timeText a = timeText b) :
    a.hour = b.hour ∧ a.minute = b.minute ∧ a.second = b.second := by
  have hhour : ∀ t : DateTime, t.hour < 10 ^ 2 := fun t => by have := t.hour_lt; omega
  have hminute : ∀ t : DateTime, t.minute < 10 ^ 2 := fun t => by have := t.minute_lt; omega
  have hsecond : ∀ t : DateTime, t.second < 10 ^ 2 := fun t => by have := t.second_lt; omega
  have houter := List.append_inj h (by simp only [length_pad])
  have hinner := List.append_inj (List.cons.inj houter.2).2 (by simp only [length_pad])
  exact ⟨pad_injective (hhour a) (hhour b) houter.1, pad_injective (hminute a) (hminute b) hinner.1,
    pad_injective (hsecond a) (hsecond b) (List.cons.inj hinner.2).2⟩

theorem timeText_lt_timeText (a b : DateTime) : timeText a < timeText b ↔ a.secondOfDay < b.secondOfDay := by
  have hhour : ∀ t : DateTime, t.hour < 10 ^ 2 := fun t => by have := t.hour_lt; omega
  have hminute : ∀ t : DateTime, t.minute < 10 ^ 2 := fun t => by have := t.minute_lt; omega
  have hsecond : ∀ t : DateTime, t.second < 10 ^ 2 := fun t => by have := t.second_lt; omega
  have hhourEq : pad 2 a.hour = pad 2 b.hour ↔ a.hour = b.hour :=
    ⟨pad_injective (hhour a) (hhour b), fun h => by rw [h]⟩
  have hminuteEq : pad 2 a.minute = pad 2 b.minute ↔ a.minute = b.minute :=
    ⟨pad_injective (hminute a) (hminute b), fun h => by rw [h]⟩
  rw [timeText, timeText, Lexicographic.append_lt_append_iff (by simp only [length_pad]),
    Lexicographic.cons_lt_cons_iff, Lexicographic.append_lt_append_iff (by simp only [length_pad]),
    Lexicographic.cons_lt_cons_iff, pad_lt_pad (hhour a) (hhour b), pad_lt_pad (hminute a) (hminute b),
    pad_lt_pad (hsecond a) (hsecond b), hhourEq, hminuteEq]
  have haminute := a.minute_lt
  have hbminute := b.minute_lt
  have hasecond := a.second_lt
  have hbsecond := b.second_lt
  unfold DateTime.secondOfDay
  omega

/-- The text of a fraction with so many digits. -/
def digits (width nanos : Nat) : List Char :=
  if width = 0 then [] else '.' :: pad width (nanos / 10 ^ (9 - width))

theorem length_digits (width nanos : Nat) : (digits width nanos).length = if width = 0 then 0 else width + 1 := by
  unfold digits
  split
  · rfl
  · simp only [List.length_cons, length_pad]

/-- A fraction has as many digits as it needs. -/
theorem fractionText_eq (nanos : Nat) :
    ∃ width ≤ 9, nanos % 10 ^ (9 - width) = 0 ∧ fractionText nanos = digits width nanos := by
  unfold fractionText
  split
  · exact ⟨0, by omega, by omega, rfl⟩
  split
  · exact ⟨3, by omega, by omega, rfl⟩
  split
  · exact ⟨6, by omega, by omega, rfl⟩
  · exact ⟨9, by omega, by omega, by simp [digits]⟩

theorem fractionText_injective {a b : Nat} (ha : a < 10 ^ 9) (hb : b < 10 ^ 9)
    (h : fractionText a = fractionText b) : a = b := by
  obtain ⟨width, hwidth, hamod, hatext⟩ := fractionText_eq a
  obtain ⟨width', hwidth', hbmod, hbtext⟩ := fractionText_eq b
  rw [hatext, hbtext] at h
  have hlength := congrArg List.length h
  rw [length_digits, length_digits] at hlength
  obtain rfl : width = width' := by
    split at hlength <;> split at hlength <;> omega
  by_cases hzero : width = 0
  · subst hzero
    omega
  · have hscale : 10 ^ 9 = 10 ^ width * 10 ^ (9 - width) := by rw [← pow_add, Nat.add_sub_cancel' hwidth]
    rw [hscale] at ha hb
    simp only [digits, hzero, if_false, List.cons.injEq, true_and] at h
    have hhigh := pad_injective (Nat.div_lt_of_lt_mul (by rwa [Nat.mul_comm]))
      (Nat.div_lt_of_lt_mul (by rwa [Nat.mul_comm])) h
    rw [← Nat.div_add_mod a (10 ^ (9 - width)), ← Nat.div_add_mod b (10 ^ (9 - width)), hhigh, hamod, hbmod]

/-! ### The fraction and the offset -/

/-- The number that the first so many of the nine digits of a fraction form. -/
def leading (width nanos : Nat) : Nat := nanos / 10 ^ (9 - width)

section

variable {width width' a b : Nat}

theorem leading_lt (hwidth : width ≤ 9) (ha : a < 10 ^ 9) : leading width a < 10 ^ width := by
  have hscale : 10 ^ 9 = 10 ^ (9 - width) * 10 ^ width := by rw [← pow_add, Nat.sub_add_cancel hwidth]
  exact Nat.div_lt_of_lt_mul (hscale ▸ ha)

theorem leading_le_leading (h : a ≤ b) : leading width a ≤ leading width b := Nat.div_le_div_right h

/-- A fraction without further digits is greater than all that lead with less. -/
theorem leading_lt_leading (hexact : b % 10 ^ (9 - width) = 0) (h : a < b) :
    leading width a < leading width b := by
  apply Nat.div_lt_of_lt_mul
  calc a < b := h
    _ = 10 ^ (9 - width) * leading width b := (Nat.mul_div_cancel' (Nat.dvd_of_mod_eq_zero hexact)).symm

/-- The digits of a finer fraction are those of the coarser one and some more. -/
theorem pad_leading (hle : width ≤ width') (hwidth' : width' ≤ 9) (n : Nat) :
    pad width' (leading width' n) = pad width (leading width n) ++ pad (width' - width) (leading width' n) := by
  have hdiv : leading width' n / 10 ^ (width' - width) = leading width n := by
    rw [leading, leading, Nat.div_div_eq_div_mul, ← pow_add]
    congr 2
    omega
  rw [← hdiv, ← pad_add, Nat.add_sub_cancel' hle]

theorem append_lt_of_leading (hwidth : width ≤ 9) (ha : a < 10 ^ 9) (hb : b < 10 ^ 9)
    (h : leading width a < leading width b) (xs ys : List Char) :
    pad width (leading width a) ++ xs < pad width (leading width b) ++ ys := by
  rw [Lexicographic.append_lt_append_iff (by simp only [length_pad])]
  exact .inl ((pad_lt_pad (leading_lt hwidth ha) (leading_lt hwidth hb)).mpr h)

/-- The sign of the offset is less than every digit, so of two fractions that agree the shorter comes first. -/
theorem append_plus_lt (hlt : width < width') (hwidth' : width' ≤ 9) (ha : a < 10 ^ 9) (hb : b < 10 ^ 9)
    (hab : a < b) (xs ys : List Char) :
    pad width (leading width a) ++ '+' :: xs < pad width' (leading width' b) ++ ys := by
  rw [pad_leading hlt.le hwidth', List.append_assoc]
  have hle : leading width a ≤ leading width b := leading_le_leading hab.le
  rcases hle.lt_or_eq with hlead | hlead
  · exact append_lt_of_leading (by omega) ha hb hlead _ _
  · obtain ⟨d, hd, rest, hcons⟩ := pad_succ_eq_cons (width' - width - 1) (leading width' b)
    rw [hlead, Lexicographic.append_lt_append_iff rfl, show width' - width = width' - width - 1 + 1 by omega,
      hcons, List.cons_append, List.cons_lt_cons_iff]
    exact .inr ⟨rfl, .inl (plus_lt_digit hd)⟩

end

/-- What stands behind the seconds: the fraction and the offset. -/
def tailText (nanos : Nat) : List Char := fractionText nanos ++ "+00:00".toList

theorem tailText_strictMono {a b : Nat} (ha : a < 10 ^ 9) (hb : b < 10 ^ 9) (h : a < b) :
    tailText a < tailText b := by
  obtain ⟨width, hwidth, hamod, hatext⟩ := fractionText_eq a
  obtain ⟨width', hwidth', hbmod, hbtext⟩ := fractionText_eq b
  have hoffset : "+00:00".toList = '+' :: "00:00".toList := rfl
  have hbpos : width' ≠ 0 := by
    rintro rfl
    omega
  rw [tailText, tailText, hatext, hbtext, hoffset]
  unfold digits
  rw [if_neg hbpos]
  by_cases hapos : width = 0
  · rw [if_pos hapos, List.nil_append, List.cons_append, List.cons_lt_cons_iff]
    exact .inl (by decide)
  · rw [if_neg hapos, List.cons_append, List.cons_append, Lexicographic.cons_lt_cons_iff]
    change pad width (leading width a) ++ _ < pad width' (leading width' b) ++ _
    rcases Nat.lt_or_ge width width' with hlt | hge
    · exact append_plus_lt hlt hwidth' ha hb h _ _
    · rw [pad_leading hge hwidth, List.append_assoc]
      exact append_lt_of_leading hwidth' ha hb (leading_lt_leading hbmod h) _ _

theorem tailText_lt_tailText {a b : Nat} (ha : a < 10 ^ 9) (hb : b < 10 ^ 9) :
    tailText a < tailText b ↔ a < b := by
  constructor
  · intro h
    by_contra hnot
    rcases Nat.lt_or_eq_of_le (Nat.le_of_not_lt hnot) with hba | heq
    · exact absurd (tailText_strictMono hb ha hba) h.asymm
    · exact absurd (heq ▸ h) (lt_irrefl _)
  · exact tailText_strictMono ha hb

/-! ### Stored timestamps -/

theorem toRfc3339_injective {a b : DateTime} (h : toRfc3339 a = toRfc3339 b) : a = b := by
  have hdate := List.append_inj (String.ofList_injective h) (by simp only [length_dateText])
  have htime := List.append_inj (List.cons.inj hdate.2).2 (by simp only [length_timeText])
  obtain ⟨hhour, hminute, hsecond⟩ := timeText_injective htime.1
  have hnanos := fractionText_injective a.nanos_lt b.nanos_lt (List.append_cancel_right htime.2)
  have hday := dateText_injective hdate.1
  cases a
  cases b
  simp_all

/-- The stored texts are in the order of the instants. -/
theorem toRfc3339_lt_toRfc3339 (a b : DateTime) : toRfc3339 a < toRfc3339 b ↔ a < b := by
  have htime : timeText a = timeText b ↔ a.secondOfDay = b.secondOfDay := by
    constructor
    · intro h
      obtain ⟨hhour, hminute, hsecond⟩ := timeText_injective h
      rw [DateTime.secondOfDay, DateTime.secondOfDay, hhour, hminute, hsecond]
    · intro h
      by_contra hne
      rcases lt_or_gt_of_ne hne with hab | hba
      · exact absurd h ((timeText_lt_timeText a b).mp hab).ne
      · exact absurd h ((timeText_lt_timeText b a).mp hba).ne'
  have hdate : dateText a.date = dateText b.date ↔ a.date = b.date :=
    ⟨dateText_injective, fun h => by rw [h]⟩
  rw [String.lt_iff, toRfc3339, toRfc3339]
  simp only [String.toList_ofList]
  rw [Lexicographic.append_lt_append_iff (by simp only [length_dateText]), dateText_lt_dateText,
    Lexicographic.cons_lt_cons_iff, Lexicographic.append_lt_append_iff (by simp only [length_timeText]),
    timeText_lt_timeText, htime, hdate, DateTime.lt_iff]
  rw [show fractionText a.nanos ++ "+00:00".toList = tailText a.nanos from rfl,
    show fractionText b.nanos ++ "+00:00".toList = tailText b.nanos from rfl,
    tailText_lt_tailText a.nanos_lt b.nanos_lt]

theorem toRfc3339_le_toRfc3339 (a b : DateTime) : toRfc3339 a ≤ toRfc3339 b ↔ a ≤ b := by
  rw [← not_lt, toRfc3339_lt_toRfc3339]
  exact Nat.not_lt

/-! ### Stored timestamps against the current time -/

/-- A stored timestamp is before SQLite's time only when its day is over. -/
theorem toRfc3339_lt_sqliteDatetime (t n : DateTime) :
    toRfc3339 t < sqliteDatetime n ↔ t.date.Before n.date := by
  have hseparator : ¬ ('T' : Char) < ' ' := by decide
  rw [String.lt_iff, toRfc3339, sqliteDatetime]
  simp only [String.toList_ofList]
  rw [Lexicographic.append_lt_append_iff (by simp only [length_dateText]), dateText_lt_dateText,
    List.cons_lt_cons_iff]
  constructor
  · rintro (hdate | ⟨_, hlt | ⟨heq, _⟩⟩)
    · exact hdate
    · exact absurd hlt hseparator
    · exact absurd heq (by decide)
  · exact fun hdate => .inl hdate

theorem toRfc3339_ne_sqliteDatetime (t n : DateTime) : toRfc3339 t ≠ sqliteDatetime n := by
  intro heq
  have hparts := List.append_inj (String.ofList_injective heq) (by simp only [length_dateText])
  exact absurd (List.cons.inj hparts.2).1 (by decide)

theorem toRfc3339_le_sqliteDatetime (t n : DateTime) :
    toRfc3339 t ≤ sqliteDatetime n ↔ t.date.Before n.date := by
  rw [le_iff_lt_or_eq, or_iff_left (toRfc3339_ne_sqliteDatetime t n), toRfc3339_lt_sqliteDatetime]

end Serverust
