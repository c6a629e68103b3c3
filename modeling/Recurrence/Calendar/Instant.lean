import Recurrence.Calendar.TimeOfDay
import Recurrence.Calendar.Week

/-!
# Instants

An `Instant` is a date and a time of day to the second: what a clock and a calendar
on the wall show, without a time zone. Instants are ordered by date and then by time,
which is the order of their seconds since the beginning of year 0
(`lt_iff_seconds_lt`).
-/

namespace Recurrence

open Calendar

/-- A date and a time of day. -/
@[ext] structure Instant where
  /-- The date. -/
  date : Date
  /-- The time of day. -/
  time : TimeOfDay
deriving DecidableEq

/-- Midnight at the beginning of a date. -/
def Date.midnight (d : Date) : Instant :=
  ⟨d, TimeOfDay.midnight⟩

namespace Instant

/-- The seconds since the beginning of year 0. -/
def seconds (t : Instant) : Int :=
  86400 * t.date.day + t.time.seconds

/-- An earlier date comes first; on one date, an earlier time. -/
instance : LT Instant :=
  ⟨fun a b => a.date.day < b.date.day ∨ a.date.day = b.date.day ∧ a.time.seconds < b.time.seconds⟩

/-- The order on instants, equality allowed. -/
instance : LE Instant :=
  ⟨fun a b => a.date.day < b.date.day ∨ a.date.day = b.date.day ∧ a.time.seconds ≤ b.time.seconds⟩

instance (a b : Instant) : Decidable (a < b) :=
  inferInstanceAs (Decidable (_ ∨ _))

instance (a b : Instant) : Decidable (a ≤ b) :=
  inferInstanceAs (Decidable (_ ∨ _))

instance : Ord Instant := ⟨fun a b => compareOfLessAndEq a b⟩

instance : Max Instant := maxOfLe

instance : Min Instant := minOfLe

/-- **Instants are ordered as their seconds are.** -/
theorem lt_iff_seconds_lt {a b : Instant} : a < b ↔ a.seconds < b.seconds := by
  have := a.time.seconds_lt
  have := b.time.seconds_lt
  show _ ∨ _ ↔ _
  simp only [seconds]
  omega

/-- The order of instants and of their seconds, equality allowed. -/
theorem le_iff_seconds_le {a b : Instant} : a ≤ b ↔ a.seconds ≤ b.seconds := by
  have := a.time.seconds_lt
  have := b.time.seconds_lt
  show _ ∨ _ ↔ _
  simp only [seconds]
  omega

/-- Different instants lie a different number of seconds from year 0. -/
theorem seconds_inj {a b : Instant} : a.seconds = b.seconds ↔ a = b := by
  refine ⟨fun h => ?_, fun h => h ▸ rfl⟩
  have := a.time.seconds_lt
  have := b.time.seconds_lt
  simp only [seconds] at h
  have hd : a.date = b.date := Date.ext (by omega)
  have ht : a.time = b.time := TimeOfDay.seconds_inj.1 (by omega)
  exact Instant.ext hd ht

/-- The instant `n` seconds later. -/
def addSeconds? (t : Instant) (n : Nat) : Option Instant :=
  let total := t.time.seconds + n
  (t.date.addDays? (total / 86400)).map fun d => ⟨d, TimeOfDay.ofSeconds total⟩

/-- **Adding seconds adds to the seconds**, and fails only where the calendar ends. -/
theorem addSeconds?_eq_some_iff {t u : Instant} {n : Nat} :
    t.addSeconds? n = some u ↔ u.seconds = t.seconds + n := by
  simp only [addSeconds?, Date.addDays?, Option.map_eq_some_iff, Date.ofDay?_eq_some_iff]
  have := u.time.seconds_lt
  have hs := TimeOfDay.seconds_ofSeconds (t.time.seconds + n)
  constructor
  · rintro ⟨d, hd, rfl⟩
    simp only [seconds, hs]
    omega
  · intro h
    simp only [seconds] at h
    refine ⟨u.date, by omega, ?_⟩
    refine Instant.ext rfl (TimeOfDay.seconds_inj.1 ?_)
    simp only [hs]
    omega

/-- The same time of day `n` days later. -/
def addDays? (t : Instant) (n : Int) : Option Instant :=
  (t.date.addDays? n).map fun d => { t with date := d }

/-- The same time of day `n` months later, on the same day of the month or, **in
a month that is too short, on its last day.** -/
def addMonths? (t : Instant) (n : Nat) : Option Instant :=
  let index := t.date.monthIndex + n
  (Date.ofYmdClamped? (index / 12) ((index % 12).toNat + 1) t.date.monthDay).map
    fun d => { t with date := d }

/-- The same day and time in month `m` of the same year, the day clamped to the
length of the month. -/
def withMonth? (t : Instant) (m : Nat) : Option Instant :=
  (Date.ofYmdClamped? t.date.year m t.date.monthDay).map fun d => { t with date := d }

end Instant

end Recurrence
