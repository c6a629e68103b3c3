/-!
# Times of day

A `TimeOfDay` counts hours, minutes and whole seconds. Every day has the same
86400 of them, so that a time of day is also a number of seconds since midnight
(`seconds`), and `ofSeconds` goes back.

**Fractions of a second and leap seconds are left out.** No literal and no list of a
rule names one, and what is shown of rules and their occurrences is shown for anchors
and bounds on whole seconds. A `FineInstant` adds the fraction where it makes a
difference: a step that begins in a leap second is not always measured as what it is.
-/

namespace Recurrence

/-- A time of day, to the second. -/
@[ext] structure TimeOfDay where
  /-- The hour, from 0 to 23. -/
  hour : Nat
  /-- The minute, from 0 to 59. -/
  minute : Nat
  /-- The second, from 0 to 59. -/
  second : Nat
  /-- A day has 24 hours. -/
  hour_lt : hour < 24
  /-- An hour has 60 minutes. -/
  minute_lt : minute < 60
  /-- A minute has 60 seconds. -/
  second_lt : second < 60
deriving DecidableEq

namespace TimeOfDay

/-- The beginning of a day. -/
def midnight : TimeOfDay :=
  ⟨0, 0, 0, by decide, by decide, by decide⟩

/-- The time with a given hour, minute and second, if there is one. -/
def ofHms? (h m s : Nat) : Option TimeOfDay :=
  if hh : h < 24 ∧ m < 60 ∧ s < 60 then some ⟨h, m, s, hh.1, hh.2.1, hh.2.2⟩ else none

/-- The seconds since midnight. -/
def seconds (t : TimeOfDay) : Nat :=
  3600 * t.hour + 60 * t.minute + t.second

/-- The time `n` seconds after midnight; **after a whole day it is midnight again.** -/
def ofSeconds (n : Nat) : TimeOfDay :=
  ⟨n / 3600 % 24, n / 60 % 60, n % 60, Nat.mod_lt _ (by decide), Nat.mod_lt _ (by decide),
    Nat.mod_lt _ (by decide)⟩

/-- A day has 86400 seconds. -/
theorem seconds_lt (t : TimeOfDay) : t.seconds < 86400 := by
  have := t.hour_lt
  have := t.minute_lt
  have := t.second_lt
  simp only [seconds]
  omega

/-- Counting the seconds of a time and back gives the time. -/
theorem ofSeconds_seconds (t : TimeOfDay) : ofSeconds t.seconds = t := by
  have := t.hour_lt
  have := t.minute_lt
  have := t.second_lt
  ext <;> simp only [ofSeconds, seconds] <;> omega

/-- Counting a number of seconds from midnight forgets whole days. -/
theorem seconds_ofSeconds (n : Nat) : (ofSeconds n).seconds = n % 86400 := by
  simp only [ofSeconds, seconds]
  omega

/-- **Different times lie a different number of seconds after midnight.** -/
theorem seconds_inj {a b : TimeOfDay} : a.seconds = b.seconds ↔ a = b :=
  ⟨fun h => by rw [← ofSeconds_seconds a, h, ofSeconds_seconds], fun h => h ▸ rfl⟩

/-- The same minute and second in hour `h`, if a day has that hour. -/
def withHour? (t : TimeOfDay) (h : Nat) : Option TimeOfDay :=
  if hh : h < 24 then some { t with hour := h, hour_lt := hh } else none

/-- The same hour and second in minute `m`, if an hour has that minute. -/
def withMinute? (t : TimeOfDay) (m : Nat) : Option TimeOfDay :=
  if hm : m < 60 then some { t with minute := m, minute_lt := hm } else none

/-- The same hour and minute with second `s`, if a minute has that second. -/
def withSecond? (t : TimeOfDay) (s : Nat) : Option TimeOfDay :=
  if hs : s < 60 then some { t with second := s, second_lt := hs } else none

end TimeOfDay

end Recurrence
