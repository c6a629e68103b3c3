import Recurrence.Calendar.FineInstant
import Recurrence.Rule.Frequency

/-!
# Steps

A step moves an instant by some units of a frequency. Seconds to weeks have a
fixed length; months and years keep the day of the month where they can.
`unitsBetween` measures what steps walk. Expansion steps in whole seconds; from a
finer instant the same step carries the nanoseconds along.
-/

namespace Recurrence

namespace Instant

/-- The instant `n` units later, **unless the calendar ends before.** -/
def advance? (t : Instant) (freq : Frequency) (n : Nat) : Option Instant :=
  match freq with
  | .secondly => t.addSeconds? n
  | .minutely => t.addSeconds? (60 * n)
  | .hourly => t.addSeconds? (3600 * n)
  | .daily => t.addDays? n
  | .weekly => t.addDays? (7 * n)
  | .monthly => t.addMonths? n
  | .yearly => t.addMonths? (12 * n)

/-- The units from one instant to another, negative when the other is earlier.
Seconds, minutes and hours count elapsed time and weeks count elapsed days,
**rounded toward zero**; days, months and years compare the calendar only. -/
def unitsBetween (a b : Instant) (freq : Frequency) : Int :=
  match freq with
  | .secondly => b.seconds - a.seconds
  | .minutely => (b.seconds - a.seconds).tdiv 60
  | .hourly => (b.seconds - a.seconds).tdiv 3600
  | .daily => b.date.day - a.date.day
  | .weekly => (b.date.day - a.date.day).tdiv 7
  | .monthly => b.date.monthIndex - a.date.monthIndex
  | .yearly => b.date.year - a.date.year

end Instant

namespace FineInstant

/-- The nanoseconds after a step of `n` units. **A step of a fixed length leaves the leap second**
in which it begins; months and years keep the time of day as it is. -/
def nanosAfter (freq : Frequency) (n nanos : Nat) : Nat :=
  if freq < .monthly ∧ 0 < n then nanos % 1000000000 else nanos

/-- No step adds nanoseconds, so that they stay before the next second. -/
theorem nanosAfter_le (freq : Frequency) (n nanos : Nat) : nanosAfter freq n nanos ≤ nanos := by
  unfold nanosAfter
  split
  · exact Nat.mod_le _ _
  · exact Nat.le_refl _

/-- The instant `n` units later, unless the calendar ends before. -/
def advance? (a : FineInstant) (freq : Frequency) (n : Nat) : Option FineInstant :=
  (a.instant.advance? freq n).map fun t =>
    ⟨t, nanosAfter freq n a.nanos, Nat.lt_of_le_of_lt (nanosAfter_le freq n a.nanos) a.nanos_lt⟩

/-- The units from one instant to another. Minutes and hours count the whole seconds that have
passed; days and longer units do not look at the time of day. -/
def unitsBetween (a b : FineInstant) (freq : Frequency) : Int :=
  match freq with
  | .secondly => a.secondsTo b
  | .minutely => (a.secondsTo b).tdiv 60
  | .hourly => (a.secondsTo b).tdiv 3600
  | .daily | .weekly | .monthly | .yearly => a.instant.unitsBetween b.instant freq

end FineInstant

end Recurrence
