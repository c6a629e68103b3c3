import Recurrence.Calendar.Instant

/-!
# Instants with a fraction of a second

Rules are written and expanded in whole seconds. Steps are made and measured for callers too,
who may have finer times: a `FineInstant` adds the nanoseconds since its second began. There
may be **two billion of them before the next second**, the second billion being a leap second.
Leap seconds are not known in advance, so that any second may be followed by one.

A leap second between two instants is known only where one of them lies in it. It is then
counted when that one has the earlier time of day (`leapSecondsTo`); between instants outside
leap seconds none is ever counted.
-/

namespace Recurrence

/-- An instant and the nanoseconds since its second began. -/
@[ext] structure FineInstant where
  /-- The instant at which the second began. -/
  instant : Instant
  /-- The nanoseconds since then; from a billion on they lie in a leap second. -/
  nanos : Nat
  /-- The next second begins after the leap second, at the latest. -/
  nanos_lt : nanos < 2000000000
deriving DecidableEq

/-- The beginning of a second. -/
def Instant.fine (t : Instant) : FineInstant :=
  ⟨t, 0, by decide⟩

namespace FineInstant

/-- Whether an instant lies in a leap second. -/
def inLeapSecond (a : FineInstant) : Bool :=
  1000000000 ≤ a.nanos

/-- An earlier second comes first; in one second, fewer nanoseconds. -/
instance : LT FineInstant :=
  ⟨fun a b => a.instant < b.instant ∨ a.instant = b.instant ∧ a.nanos < b.nanos⟩

/-- The order on finer instants, equality allowed. -/
instance : LE FineInstant :=
  ⟨fun a b => a.instant < b.instant ∨ a.instant = b.instant ∧ a.nanos ≤ b.nanos⟩

instance (a b : FineInstant) : Decidable (a < b) :=
  inferInstanceAs (Decidable (_ ∨ _))

instance (a b : FineInstant) : Decidable (a ≤ b) :=
  inferInstanceAs (Decidable (_ ∨ _))

/-- The leap seconds that are counted from one instant to another. **Only the times of day are
compared**, whatever the dates are. -/
def leapSecondsTo (a b : FineInstant) : Int :=
  if a.inLeapSecond ∧ a.instant.time.seconds < b.instant.time.seconds then 1
  else if b.inLeapSecond ∧ b.instant.time.seconds < a.instant.time.seconds then -1
  else 0

/-- The nanoseconds from one instant to another, negative when the other is earlier. -/
def nanosTo (a b : FineInstant) : Int :=
  1000000000 * (b.instant.seconds - a.instant.seconds + a.leapSecondsTo b) + (b.nanos - a.nanos)

/-- The whole seconds from one instant to another, **rounded toward zero**. -/
def secondsTo (a b : FineInstant) : Int :=
  (a.nanosTo b).tdiv 1000000000

end FineInstant

end Recurrence
