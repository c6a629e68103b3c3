import Recurrence.Calendar.Instant

/-!
# Windows

A window is the span of time that is asked for. Both its ends belong to it, and
**nothing before the anchor of a rule or after its last instant is in it.**
-/

namespace Recurrence

/-- The bounds on the instants of a rule. -/
structure Window where
  /-- The first instant of the rule. -/
  anchor : Instant
  /-- The first instant that is asked for. -/
  start : Instant
  /-- The last instant that is asked for. -/
  finish : Option Instant
  /-- The last instant of the rule. -/
  last : Option Instant

namespace Window

/-- Whether an instant lies within all bounds. -/
def contains (w : Window) (t : Instant) : Bool :=
  decide (max w.start w.anchor ≤ t) && w.finish.all (t ≤ ·) && w.last.all (t ≤ ·)

/-- The first `count` candidates, and of these the ones in the window: **a
candidate that the window leaves out is counted all the same.** -/
def limit (w : Window) (count : Option Nat) (candidates : List Instant) : List Instant :=
  (match count with
    | some n => candidates.take n
    | none => candidates).filter w.contains

end Window

end Recurrence
