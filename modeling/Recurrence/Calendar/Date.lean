import Recurrence.Calendar.Month

/-!
# Dates

A `Date` is a day of the calendar, kept as its number: **one number per date**,
so that dates compare and shift as numbers do. Year, month and day of the month
are read off the number, and `Date.ofYmd?` and `Date.ofYearDay?` find the date
with given ones. The calendar is finite: every operation that can leave it
answers with an `Option`.
-/

namespace Recurrence

open Calendar

/-- A day of the calendar. -/
@[ext] structure Date where
  /-- The number of the day; day 0 is 1 January of year 0. -/
  day : Int
  /-- The day is not before the calendar begins. -/
  first_le : firstDay ≤ day
  /-- The day is not after the calendar ends. -/
  le_last : day ≤ lastDay
deriving DecidableEq

namespace Date

/-- Dates are ordered by their numbers. -/
instance : LE Date := ⟨fun a b => a.day ≤ b.day⟩

/-- The order on dates, strictly. -/
instance : LT Date := ⟨fun a b => a.day < b.day⟩

instance (a b : Date) : Decidable (a ≤ b) := inferInstanceAs (Decidable (a.day ≤ b.day))

instance (a b : Date) : Decidable (a < b) := inferInstanceAs (Decidable (a.day < b.day))

/-- The date with a given number, if the calendar has it. -/
def ofDay? (n : Int) : Option Date :=
  if h : firstDay ≤ n ∧ n ≤ lastDay then some ⟨n, h.1, h.2⟩ else none

/-- **A date is found by its own number and by no other.** -/
theorem ofDay?_eq_some_iff {n : Int} {d : Date} : ofDay? n = some d ↔ d.day = n := by
  unfold ofDay?
  constructor
  · intro h
    split at h
    · cases h; rfl
    · cases h
  · rintro rfl
    rw [dif_pos ⟨d.first_le, d.le_last⟩]

/-- The date `n` days later; earlier, when `n` is negative. -/
def addDays? (d : Date) (n : Int) : Option Date :=
  ofDay? (d.day + n)

/-- The year of a date. -/
def year (d : Date) : Int :=
  yearOfDay d.day

/-- The day of the year, counted from 0. -/
def yearOffset (d : Date) : Nat :=
  (d.day - newYear d.year).toNat

/-- The day of the year, from 1 to 366. -/
def yearDay (d : Date) : Nat :=
  d.yearOffset + 1

/-- The month of a date, from 1 to 12. -/
def month (d : Date) : Nat :=
  monthOfDay (isLeap d.year) d.yearOffset

/-- The day of the month, from 1 to 31. -/
def monthDay (d : Date) : Nat :=
  d.yearOffset - daysBeforeMonth (isLeap d.year) d.month + 1

/-- The date in year `y` with day of the year `n`, counted from 1. -/
def ofYearDay? (y : Int) (n : Nat) : Option Date :=
  if 1 ≤ n ∧ n ≤ yearLength y then ofDay? (newYear y + n - 1) else none

/-- The date in year `y` with month `m` and day of the month `d`. -/
def ofYmd? (y : Int) (m d : Nat) : Option Date :=
  if (1 ≤ m ∧ m ≤ 12) ∧ 1 ≤ d ∧ d ≤ monthLength (isLeap y) m then
    ofDay? (newYear y + daysBeforeMonth (isLeap y) m + d - 1)
  else
    none

/-- The date in year `y` with month `m` and day of the month `d` or, **in a month
that is too short, its last day.** -/
def ofYmdClamped? (y : Int) (m d : Nat) : Option Date :=
  ofYmd? y m (min d (monthLength (isLeap y) m))

/-- The months since the beginning of year 0, complete ones only. -/
def monthIndex (d : Date) : Int :=
  12 * d.year + d.month - 1

/-- The number of a date is the first day of its year and the days after it. -/
theorem newYear_add_yearOffset (d : Date) : newYear d.year + d.yearOffset = d.day := by
  have := newYear_yearOfDay_le d.day
  simp only [yearOffset, year]
  omega

/-- The day of the year stays within the year. -/
theorem yearOffset_lt (d : Date) : d.yearOffset < yearLength d.year := by
  have h := lt_newYear_yearOfDay_succ d.day
  rw [newYear_succ] at h
  have := d.newYear_add_yearOffset
  simp only [year] at *
  omega

/-- The date lies in its month. -/
theorem month_bounds (d : Date) :
    (1 ≤ d.month ∧ d.month ≤ 12) ∧
      daysBeforeMonth (isLeap d.year) d.month ≤ d.yearOffset ∧
      d.yearOffset < daysBeforeMonth (isLeap d.year) (d.month + 1) := by
  refine monthOfDay_bounds _ ?_
  have h := d.yearOffset_lt
  simp only [yearLength] at h
  cases hl : isLeap d.year <;> simp [hl] at h ⊢ <;> exact h

/-- **The day of the month exists in its month.** -/
theorem monthDay_bounds (d : Date) :
    1 ≤ d.monthDay ∧ d.monthDay ≤ monthLength (isLeap d.year) d.month := by
  have h := d.month_bounds
  have := daysBeforeMonth_succ (isLeap d.year) h.1.1 h.1.2
  simp only [monthDay]
  omega

/-- **A date is the date of its own year, month and day.** -/
theorem ofYmd?_self (d : Date) : ofYmd? d.year d.month d.monthDay = some d := by
  have h := d.month_bounds
  have hd := d.monthDay_bounds
  have := d.newYear_add_yearOffset
  unfold ofYmd?
  rw [if_pos ⟨h.1, hd⟩, ofDay?_eq_some_iff]
  simp only [monthDay] at *
  omega

end Date

end Recurrence
