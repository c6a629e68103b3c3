import Recurrence.Calendar.Year

/-!
# Months of a year

Months are numbered from 1. The length of a month depends on its year only
through the leap day. `daysBeforeMonth` sums the lengths, and `monthOfDay` goes
back from a day of the year, counted from 0, to its month.
-/

namespace Recurrence

namespace Calendar

/-- The length of month `m`; **a number that is no month is given 31 days.** -/
def monthLength (leap : Bool) (m : Nat) : Nat :=
  match m with
  | 2 => if leap then 29 else 28
  | 4 | 6 | 9 | 11 => 30
  | _ => 31

/-- No month is longer than 31 days. -/
theorem monthLength_le (leap : Bool) (m : Nat) : monthLength leap m ≤ 31 := by
  unfold monthLength
  split
  · split <;> decide
  all_goals decide

/-- The number of days in the year before month `m`. -/
def daysBeforeMonth (leap : Bool) (m : Nat) : Nat :=
  match m with
  | 0 | 1 => 0
  | 2 => 31
  | 3 => 59 + leap.toNat
  | 4 => 90 + leap.toNat
  | 5 => 120 + leap.toNat
  | 6 => 151 + leap.toNat
  | 7 => 181 + leap.toNat
  | 8 => 212 + leap.toNat
  | 9 => 243 + leap.toNat
  | 10 => 273 + leap.toNat
  | 11 => 304 + leap.toNat
  | 12 => 334 + leap.toNat
  | _ => 365 + leap.toNat

/-- The months fill the year: each begins where the one before it ends. -/
theorem daysBeforeMonth_succ (leap : Bool) {m : Nat} (h₁ : 1 ≤ m) (h₂ : m ≤ 12) :
    daysBeforeMonth leap (m + 1) = daysBeforeMonth leap m + monthLength leap m := by
  have : m = 1 ∨ m = 2 ∨ m = 3 ∨ m = 4 ∨ m = 5 ∨ m = 6 ∨ m = 7 ∨ m = 8 ∨ m = 9 ∨ m = 10 ∨
      m = 11 ∨ m = 12 := by omega
  rcases this with rfl | rfl | rfl | rfl | rfl | rfl | rfl | rfl | rfl | rfl | rfl | rfl <;>
    cases leap <;> rfl

/-- The month that holds day `n` of the year, counted from 0. No month is longer
than 32 days, so `n / 32 + 1` is never too late, and it is at most one too early. -/
def monthOfDay (leap : Bool) (n : Nat) : Nat :=
  let guess := n / 32 + 1
  if daysBeforeMonth leap (guess + 1) ≤ n then guess + 1 else guess

/-- A day of the year lies in its month. -/
theorem monthOfDay_bounds (leap : Bool) {n : Nat} (h : n < 365 + leap.toNat) :
    (1 ≤ monthOfDay leap n ∧ monthOfDay leap n ≤ 12) ∧
      daysBeforeMonth leap (monthOfDay leap n) ≤ n ∧
      n < daysBeforeMonth leap (monthOfDay leap n + 1) := by
  have all : ∀ n < 366, n < 365 + leap.toNat →
      (1 ≤ monthOfDay leap n ∧ monthOfDay leap n ≤ 12) ∧
        daysBeforeMonth leap (monthOfDay leap n) ≤ n ∧
        n < daysBeforeMonth leap (monthOfDay leap n + 1) := by
    cases leap <;> decide +kernel
  have : leap.toNat ≤ 1 := by cases leap <;> decide
  exact all n (by omega) h

end Calendar

end Recurrence
