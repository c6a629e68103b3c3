/-!
# Years of the Gregorian calendar

The Gregorian rule is used for all years, before its introduction and before
year 0 as well. Days are numbered: **day 0 is 1 January of year 0**, and
`newYear y` is the number of the day on which year `y` begins. `yearOfDay` goes
back, and the two fit together exactly: a day lies in year `y` when its number
is at least `newYear y` and less than `newYear (y + 1)` (`yearOfDay_eq_iff`).
-/

namespace Recurrence

namespace Calendar

/-- Every fourth year is a leap year, of the century years only every fourth. -/
def isLeap (y : Int) : Bool :=
  y % 4 == 0 && (y % 100 != 0 || y % 400 == 0)

/-- A leap year has 366 days, any other year 365. -/
def yearLength (y : Int) : Nat :=
  if isLeap y then 366 else 365

/-- The number of the day on which year `y` begins: 365 days for every year
before it, and one for every leap year among them. -/
def newYear (y : Int) : Int :=
  365 * y + (y + 3) / 4 - (y + 99) / 100 + (y + 399) / 400

/-- Four centuries always have 146097 days. -/
theorem newYear_add_four_centuries (c y : Int) :
    newYear (400 * c + y) = 146097 * c + newYear y := by
  simp only [newYear]; omega

/-- **A year is as long as its rule says**: the next one begins `yearLength y` days later. -/
theorem newYear_succ (y : Int) : newYear (y + 1) = newYear y + yearLength y := by
  have h : (yearLength y : Int) =
      if y % 4 = 0 ∧ (y % 100 ≠ 0 ∨ y % 400 = 0) then 366 else 365 := by
    simp only [yearLength, isLeap]
    by_cases h4 : y % 4 = 0 <;> by_cases h100 : y % 100 = 0 <;> by_cases h400 : y % 400 = 0 <;>
      simp [h4, h100, h400]
  rw [h]
  simp only [newYear]
  split <;> omega

/-- No later year begins earlier. -/
theorem newYear_le {y z : Int} (h : y ≤ z) : newYear y ≤ newYear z := by
  simp only [newYear]; omega

/-- The year that holds day `d`. Within its four centuries the quotient by 365
is the year itself or, late in the cycle, one too many. -/
def yearOfDay (d : Int) : Int :=
  let cycle := d / 146097
  let rest := d % 146097
  let guess := rest / 365
  400 * cycle + if rest < newYear guess then guess - 1 else guess

/-- No day lies before its year. -/
theorem newYear_yearOfDay_le (d : Int) : newYear (yearOfDay d) ≤ d := by
  simp only [yearOfDay, newYear_add_four_centuries]
  split
  · simp only [newYear] at *; omega
  · omega

/-- No day lies after its year. -/
theorem lt_newYear_yearOfDay_succ (d : Int) : d < newYear (yearOfDay d + 1) := by
  simp only [yearOfDay, Int.add_assoc, newYear_add_four_centuries]
  split
  · simp only [Int.sub_add_cancel]; omega
  · simp only [newYear] at *; omega

/-- **Each day lies in exactly one year.** -/
theorem yearOfDay_eq_iff {d y : Int} :
    yearOfDay d = y ↔ newYear y ≤ d ∧ d < newYear (y + 1) := by
  constructor
  · rintro rfl
    exact ⟨newYear_yearOfDay_le d, lt_newYear_yearOfDay_succ d⟩
  · rintro ⟨h₁, h₂⟩
    have h₃ := newYear_yearOfDay_le d
    have h₄ := lt_newYear_yearOfDay_succ d
    rcases Int.lt_trichotomy (yearOfDay d) y with h | h | h
    · have := newYear_le (show yearOfDay d + 1 ≤ y by omega); omega
    · exact h
    · have := newYear_le (show y + 1 ≤ yearOfDay d by omega); omega

/-- The first year of the calendar. -/
def firstYear : Int := -262143

/-- The last year of the calendar. -/
def lastYear : Int := 262142

/-- The first day of the calendar. -/
def firstDay : Int := newYear firstYear

/-- The last day of the calendar. -/
def lastDay : Int := newYear (lastYear + 1) - 1

end Calendar

end Recurrence
