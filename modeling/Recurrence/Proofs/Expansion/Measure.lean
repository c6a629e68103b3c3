import Recurrence.Proofs.Calendar.Lengths
import Recurrence.Proofs.Expansion.Unit

/-!
# Measuring what steps walk

`Instant.unitsBetween` takes back what `Instant.advance?` does: **a step of `n` units is
measured as `n` units** (`unitsBetween_advance?`), also where a month end has cut it short
and where the quotient is rounded. Measuring never falls as the other instant grows later
(`unitsBetween_mono`), and a step that ends in the calendar counts fewer months than the
limit of counting (`MonthsLater.lt`). Units of a fixed length add up, wherever the calendar
ends (`advance?_add_eq_bind`); months do not, but they are counted from the first instant
and so never drift.
-/

namespace Recurrence

open Calendar

namespace Instant

variable {t u v : Instant} {f : Frequency} {m n : Nat}

/-! ## Back from a step -/

/-- What is made of whole units is measured without a rest. -/
theorem tdiv_eq_of_eq_mul {x k n : Int} (hk : k ≠ 0) (h : x = k * n) : x.tdiv k = n := by
  rw [h, Int.mul_tdiv_cancel_left _ hk]

/-- **A step of `n` units is measured as `n` units.** -/
theorem unitsBetween_advance? (h : t.advance? f n = some u) : t.unitsBetween u f = n := by
  cases f with
  | secondly =>
    have := addSeconds?_eq_some_iff.1 h
    simp only [unitsBetween]
    omega
  | minutely =>
    have := addSeconds?_eq_some_iff.1 h
    exact tdiv_eq_of_eq_mul (by decide) (by omega)
  | hourly =>
    have := addSeconds?_eq_some_iff.1 h
    exact tdiv_eq_of_eq_mul (by decide) (by omega)
  | daily =>
    have := (addDays?_eq_some_iff.1 h).1
    simp only [unitsBetween]
    omega
  | weekly =>
    have := (addDays?_eq_some_iff.1 h).1
    exact tdiv_eq_of_eq_mul (by decide) (by omega)
  | monthly =>
    have := (addMonths?_eq_some_iff.1 h).1
    simp only [unitsBetween]
    omega
  | yearly =>
    have := year_of_addMonths? h
    simp only [unitsBetween]
    omega

/-- **No later instant is fewer units away.** Rounding toward zero does not change that. -/
theorem unitsBetween_mono (t : Instant) (f : Frequency) (h : u ≤ v) :
    t.unitsBetween u f ≤ t.unitsBetween v f := by
  have hseconds := le_iff_seconds_le.1 h
  have hdays := day_le_of_le h
  cases f with
  | secondly => simp only [unitsBetween]; omega
  | minutely | hourly => exact Int.tdiv_le_tdiv (by decide) (by omega)
  | daily => simp only [unitsBetween]; omega
  | weekly => exact Int.tdiv_le_tdiv (by decide) (by omega)
  | monthly =>
    have := Date.monthIndex_mono hdays
    simp only [unitsBetween]
    omega
  | yearly =>
    have := Date.year_mono hdays
    simp only [unitsBetween]
    omega

/-! ## Steps of a fixed length -/

/-- **Steps of a fixed length add up**, and one that leads out of the calendar does so in two
parts as well. -/
theorem advance?_add_eq_bind (t : Instant) (hf : f < .monthly) (m n : Nat) :
    t.advance? f (m + n) = (t.advance? f m).bind (·.advance? f n) := by
  cases hm : t.advance? f m with
  | none =>
    rw [Option.bind_none, Option.eq_none_iff_forall_ne_some]
    intro v hv
    obtain ⟨u, hu⟩ := exists_advance? hv (Nat.le_add_right m n)
    rw [hm] at hu
    cases hu
  | some u =>
    rw [Option.bind_some, advance?_add hm]
    intro hle
    exact absurd hf (Nat.not_lt.2 hle)

/-! ## Steps of months -/

/-- An instant that lies `n` months after another: the day of the month is the last one
where the month is too short. -/
structure MonthsLater (t : Instant) (n : Nat) (u : Instant) : Prop where
  /-- Months are counted from the first instant. -/
  monthIndex_eq : u.date.monthIndex = t.date.monthIndex + n
  /-- The day of the month is kept where the month is long enough. -/
  monthDay_eq : u.date.monthDay = min t.date.monthDay (daysInMonth u.date.year u.date.month)
  /-- The time of day is kept. -/
  time_eq : u.time = t.time

/-- A step of months leads that many months on, and nowhere else. -/
theorem addMonths?_eq_some_iff_monthsLater : t.addMonths? n = some u ↔ t.MonthsLater n u := by
  have hlength : daysInMonth u.date.year u.date.month =
      monthLength (isLeap u.date.year) u.date.month :=
    daysInMonth_of_hasYear u.date.hasYear_year u.date.month_bounds.1
  rw [addMonths?_eq_some_iff, ← hlength]
  exact ⟨fun ⟨hindex, hday, htime⟩ => ⟨hindex, hday, htime⟩,
    fun h => ⟨h.monthIndex_eq, h.monthDay_eq, h.time_eq⟩⟩

/-- **The calendar has fewer months than are counted**: no product of years and twelve that
leads to an instant is too large. -/
theorem MonthsLater.lt (h : t.MonthsLater n u) : n < Nat.pow 2 32 := by
  have ht := t.date.hasYear_year
  have hu := u.date.hasYear_year
  have htm := t.date.monthIndex_div.1
  have hum := u.date.monthIndex_div.1
  have hindex := h.monthIndex_eq
  simp only [hasYear, Bool.and_eq_true, decide_eq_true_eq] at ht hu
  simp only [firstYear, lastYear] at ht hu
  show n < 4294967296
  omega

end Instant

end Recurrence
