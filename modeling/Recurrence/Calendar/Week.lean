import Recurrence.Calendar.Date
import Recurrence.Text.Name

/-!
# Weekdays and weeks

A week begins on Monday. The weeks of a year are numbered so that **a week
belongs to the year that holds its Thursday**; week 1 is therefore the one with
4 January in it, and a year has 53 weeks exactly when it begins or ends on a
Thursday.
-/

namespace Recurrence

open Calendar

/-- A day of the week. -/
inductive Weekday where
  | monday
  | tuesday
  | wednesday
  | thursday
  | friday
  | saturday
  | sunday
deriving DecidableEq

namespace Weekday

/-- The days from Monday to this day. -/
def index : Weekday → Nat
  | monday => 0
  | tuesday => 1
  | wednesday => 2
  | thursday => 3
  | friday => 4
  | saturday => 5
  | sunday => 6

/-- The day that lies `n` days after a Monday. -/
def ofIndex (n : Nat) : Weekday :=
  match n % 7 with
  | 0 => monday
  | 1 => tuesday
  | 2 => wednesday
  | 3 => thursday
  | 4 => friday
  | 5 => saturday
  | _ => sunday

/-- The days of a week, in order. -/
def all : List Weekday :=
  [monday, tuesday, wednesday, thursday, friday, saturday, sunday]

/-- Counting to a day and back gives the day. -/
theorem ofIndex_index (w : Weekday) : ofIndex w.index = w := by
  cases w <;> rfl

/-- A day is counted within its week. -/
theorem index_lt (w : Weekday) : w.index < 7 := by
  cases w <;> decide

/-- Counting a number of days from Monday forgets whole weeks. -/
theorem index_ofIndex (n : Nat) : (ofIndex n).index = n % 7 := by
  have : n % 7 = 0 ∨ n % 7 = 1 ∨ n % 7 = 2 ∨ n % 7 = 3 ∨ n % 7 = 4 ∨ n % 7 = 5 ∨ n % 7 = 6 := by
    omega
  rcases this with h | h | h | h | h | h | h <;> simp [ofIndex, h, index]

/-- The two-letter name of a weekday. -/
def name : Weekday → String
  | monday => "MO"
  | tuesday => "TU"
  | wednesday => "WE"
  | thursday => "TH"
  | friday => "FR"
  | saturday => "SA"
  | sunday => "SU"

/-- The weekday that a text names, in capitals or small letters. -/
def ofName? (cs : List Char) : Option Weekday :=
  Text.named? all name cs

/-- **A weekday is read back from its name.** -/
theorem ofName?_name (w : Weekday) : ofName? w.name.toList = some w := by
  cases w <;> decide

end Weekday

namespace Calendar

/-- The days from Monday to the day with a given number; day 0 is a Saturday. -/
def weekdayIndex (n : Int) : Nat :=
  ((n + 5) % 7).toNat

/-- The Monday on which the weeks of year `y` begin: the one of the week that
holds 4 January. -/
def weekYearStart (y : Int) : Int :=
  newYear y + 3 - weekdayIndex (newYear y + 3)

/-- Whether year `y` has 53 weeks: it begins on a Thursday, or it is a leap year
and begins on a Wednesday. -/
def isLongWeekYear (y : Int) : Bool :=
  weekdayIndex (newYear y) == 3 || (isLeap y && weekdayIndex (newYear y) == 2)

/-- The number of weeks of year `y`. -/
def weekCount (y : Int) : Nat :=
  if isLongWeekYear y then 53 else 52

/-- **The weeks of a year fill the time to the next year's first week.** -/
theorem weekYearStart_succ (y : Int) :
    weekYearStart (y + 1) = weekYearStart y + 7 * weekCount y := by
  have hn := newYear_succ y
  unfold yearLength at hn
  cases hl : isLeap y with
  | false =>
    have hc : (weekCount y : Int) = if (newYear y + 5) % 7 = 3 then 53 else 52 := by
      simp only [weekCount, isLongWeekYear, hl, weekdayIndex, Bool.false_and, Bool.or_false,
        beq_iff_eq]
      split <;> split <;> omega
    rw [if_neg (by simp [hl])] at hn
    simp only [weekYearStart, weekdayIndex, hn, hc]
    split <;> omega
  | true =>
    have hc : (weekCount y : Int) =
        if (newYear y + 5) % 7 = 3 ∨ (newYear y + 5) % 7 = 2 then 53 else 52 := by
      simp only [weekCount, isLongWeekYear, hl, weekdayIndex, Bool.true_and, Bool.or_eq_true,
        beq_iff_eq]
      split <;> split <;> omega
    rw [if_pos hl] at hn
    simp only [weekYearStart, weekdayIndex, hn, hc]
    split <;> omega

end Calendar

namespace Date

/-- The weekday of a date. -/
def weekday (d : Date) : Weekday :=
  Weekday.ofIndex (weekdayIndex d.day)

/-- The Monday of the week that holds a date. -/
def weekStart? (d : Date) : Option Date :=
  d.addDays? (-d.weekday.index)

/-- The date of weekday `w` in week `k` of year `y`. -/
def ofWeek? (y : Int) (k : Nat) (w : Weekday) : Option Date :=
  if 1 ≤ k ∧ k ≤ weekCount y then
    ofDay? (weekYearStart y + 7 * (k - 1) + w.index)
  else
    none

/-- The year to which the week of a date belongs: the year of its Thursday. -/
def weekYear (d : Date) : Int :=
  yearOfDay (d.day - d.weekday.index + 3)

/-- The number of the week of a date. -/
def weekNo (d : Date) : Nat :=
  ((d.day - weekYearStart d.weekYear) / 7).toNat + 1

end Date

end Recurrence
