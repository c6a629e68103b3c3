import Recurrence.Text.Name

/-!
# Frequencies

How often a rule repeats. Frequencies are ordered from the finest to the
coarsest.
-/

namespace Recurrence

/-- The unit of time in which a rule repeats. -/
inductive Frequency where
  | secondly
  | minutely
  | hourly
  | daily
  | weekly
  | monthly
  | yearly
deriving DecidableEq

namespace Frequency

/-- All frequencies, from the finest to the coarsest. -/
def all : List Frequency :=
  [secondly, minutely, hourly, daily, weekly, monthly, yearly]

/-- The place of a frequency in the order from the finest to the coarsest. -/
def rank : Frequency → Nat
  | secondly => 0
  | minutely => 1
  | hourly => 2
  | daily => 3
  | weekly => 4
  | monthly => 5
  | yearly => 6

instance : LT Frequency := ⟨fun a b => a.rank < b.rank⟩

instance : LE Frequency := ⟨fun a b => a.rank ≤ b.rank⟩

instance (a b : Frequency) : Decidable (a < b) := inferInstanceAs (Decidable (a.rank < b.rank))

instance (a b : Frequency) : Decidable (a ≤ b) := inferInstanceAs (Decidable (a.rank ≤ b.rank))

instance : Ord Frequency := ⟨fun a b => compare a.rank b.rank⟩

/-- The name of a frequency in a rule. -/
def name : Frequency → String
  | secondly => "SECONDLY"
  | minutely => "MINUTELY"
  | hourly => "HOURLY"
  | daily => "DAILY"
  | weekly => "WEEKLY"
  | monthly => "MONTHLY"
  | yearly => "YEARLY"

/-- The frequency that a text names, in capitals or small letters. -/
def ofName? (cs : List Char) : Option Frequency :=
  Text.named? all name cs

/-- **A frequency is read back from its name.** -/
theorem ofName?_name (f : Frequency) : ofName? f.name.toList = some f := by
  cases f <;> decide

end Frequency

end Recurrence
