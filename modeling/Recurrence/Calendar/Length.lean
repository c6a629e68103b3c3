import Recurrence.Calendar.Week

/-!
# Lengths of months and years

The lengths that signed numbers in a rule count against. They are found by asking the
calendar: a month ends on the day before the next one begins, a long year has a day 366,
and a year of 53 weeks has a Monday of week 53. The years of the calendar have their true
lengths in this way (`Calendar.lengths_of_hasYear`); **where the calendar has no answer, every
length is the ordinary one**: 31 days, 365 days, 52 weeks.
-/

namespace Recurrence

namespace Calendar

/-- Whether the calendar has year `y`. -/
def hasYear (y : Int) : Bool :=
  firstYear ≤ y && y ≤ lastYear

/-- The first day of the month that follows month `m` of year `y`. -/
def nextMonth? (y : Int) (m : Nat) : Option Date :=
  if m = 12 then Date.ofYmd? (y + 1) 1 1 else Date.ofYmd? y (m + 1) 1

/-- The number of days of month `m` in year `y`: the day of the month on which it ends. -/
def daysInMonth (y : Int) (m : Nat) : Nat :=
  ((nextMonth? y m).bind (·.addDays? (-1))).elim 31 Date.monthDay

/-- The number of days of year `y`: 366 where it has a day of that number. -/
def daysInYear (y : Int) : Nat :=
  if (Date.ofYearDay? y 366).isSome then 366 else 365

/-- The number of weeks of year `y`: 53 where it has a week of that number. -/
def weeksInYear (y : Int) : Nat :=
  if (Date.ofWeek? y 53 .monday).isSome then 53 else 52

end Calendar

namespace Date

open Calendar

/-- The year of a date is a year of the calendar. -/
theorem hasYear_year (d : Date) : hasYear d.year = true := by
  have h₁ := d.first_le
  have h₂ := d.le_last
  have h₃ := newYear_yearOfDay_le d.day
  have h₄ := lt_newYear_yearOfDay_succ d.day
  simp only [firstDay, lastDay] at h₁ h₂
  simp only [hasYear, Bool.and_eq_true, year]
  constructor
  · rcases Int.lt_or_le (yearOfDay d.day) firstYear with h | h
    · have := newYear_le (show yearOfDay d.day + 1 ≤ firstYear by omega); omega
    · exact decide_eq_true h
  · rcases Int.lt_or_le lastYear (yearOfDay d.day) with h | h
    · have := newYear_le (show lastYear + 1 ≤ yearOfDay d.day by omega); omega
    · exact decide_eq_true h

end Date

end Recurrence
