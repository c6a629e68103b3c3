import Recurrence.Calendar.Instant
import Recurrence.Text.Cut
import Recurrence.Text.Decimal

/-!
# Date literals

A date is written `YYYYMMDD`, an instant `YYYYMMDDTHHMMSS`. A year beyond 9999
is written with a plus sign and a year before 0 with a minus sign; such literals
are written but not read. Reading takes **eight and six digits, no more and no
fewer**, and an optional `Z` after the time.
-/

namespace Recurrence

open Text

namespace Literal

/-- The text of a year: four digits, or a sign and as many as it needs. -/
def year (y : Int) : List Char :=
  (if y < 0 then ['-'] else if 9999 < y then ['+'] else []) ++ padded 4 y.natAbs

/-- The text of a date. -/
def date (d : Date) : List Char :=
  year d.year ++ padded 2 d.month ++ padded 2 d.monthDay

/-- The text of a time of day. -/
def time (t : TimeOfDay) : List Char :=
  padded 2 t.hour ++ padded 2 t.minute ++ padded 2 t.second

/-- The text of an instant. -/
def dateTime (t : Instant) : List Char :=
  date t.date ++ 'T' :: time t.time

/-- The number that a text of exactly `width` digits writes. -/
def fixed? (width : Nat) (cs : List Char) : Option Nat :=
  if cs.length = width then natural? cs else none

/-- Reads `YYYYMMDD`, the date of a day that exists. -/
def date? (cs : List Char) : Option Date := do
  let y ← fixed? 4 (cs.take 4)
  let m ← fixed? 2 ((cs.drop 4).take 2)
  let d ← fixed? 2 (cs.drop 6)
  Date.ofYmd? y m d

/-- Reads `HHMMSS`, a time of day that exists. -/
def time? (cs : List Char) : Option TimeOfDay := do
  let h ← fixed? 2 (cs.take 2)
  let m ← fixed? 2 ((cs.drop 2).take 2)
  let s ← fixed? 2 (cs.drop 4)
  TimeOfDay.ofHms? h m s

/-- A text without one final `Z`, and whether it had one. -/
def stripZulu (cs : List Char) : List Char × Bool :=
  if cs.getLast? = some 'Z' then (cs.dropLast, true) else (cs, false)

/-- Reads `YYYYMMDDTHHMMSS` with an optional final `Z`, and tells whether the
`Z` is there. -/
def dateTime? (cs : List Char) : Option (Instant × Bool) := do
  let (before, after) ← cut? 'T' cs
  let (clock, utc) := stripZulu after
  let d ← date? before
  let t ← time? clock
  some (⟨d, t⟩, utc)

/-! ## Reading what is written -/

/-- A number that fits into a width is read back from it. -/
theorem fixed?_padded {width n : Nat} (h : (padded width n).length = width) :
    fixed? width (padded width n) = some n := by
  rw [fixed?, if_pos h, natural?_padded]

/-- A year of four digits has no sign. -/
theorem year_eq_padded {y : Int} (h₀ : 0 ≤ y) (h : y ≤ 9999) : year y = padded 4 y.toNat := by
  rw [year, if_neg (by omega), if_neg (by omega), List.nil_append]
  congr 1
  omega

/-- **A date of a year with four digits is read back from its literal.** -/
theorem date?_date {d : Date} (h₀ : 0 ≤ d.year) (h : d.year ≤ 9999) : date? (date d) = some d := by
  have hm := d.month_bounds.1
  have hd := d.monthDay_bounds
  have hl := Calendar.monthLength_le (Calendar.isLeap d.year) d.month
  have ly : (padded 4 d.year.toNat).length = 4 :=
    length_padded (by decide) (show _ < 10000 by omega)
  have lm : (padded 2 d.month).length = 2 := length_padded (by decide) (show _ < 100 by omega)
  have ld : (padded 2 d.monthDay).length = 2 := length_padded (by decide) (show _ < 100 by omega)
  have e₁ : (date d).take 4 = padded 4 d.year.toNat := by
    rw [date, year_eq_padded h₀ h, List.append_assoc, List.take_left' ly]
  have e₂ : ((date d).drop 4).take 2 = padded 2 d.month := by
    rw [date, year_eq_padded h₀ h, List.append_assoc, List.drop_left' ly, List.take_left' lm]
  have e₃ : (date d).drop 6 = padded 2 d.monthDay := by
    rw [date, year_eq_padded h₀ h, List.drop_left' (by rw [List.length_append, ly, lm])]
  rw [date?, e₁, e₂, e₃, fixed?_padded ly, fixed?_padded lm, fixed?_padded ld]
  simp only [Option.bind_eq_bind, Option.bind_some]
  rw [show (d.year.toNat : Int) = d.year by omega, d.ofYmd?_self]

/-- **A time of day is read back from its literal.** -/
theorem time?_time (t : TimeOfDay) : time? (time t) = some t := by
  have := t.hour_lt
  have := t.minute_lt
  have := t.second_lt
  have lh : (padded 2 t.hour).length = 2 := length_padded (by decide) (show _ < 100 by omega)
  have lm : (padded 2 t.minute).length = 2 := length_padded (by decide) (show _ < 100 by omega)
  have ls : (padded 2 t.second).length = 2 := length_padded (by decide) (show _ < 100 by omega)
  have e₁ : (time t).take 2 = padded 2 t.hour := by
    rw [time, List.append_assoc, List.take_left' lh]
  have e₂ : ((time t).drop 2).take 2 = padded 2 t.minute := by
    rw [time, List.append_assoc, List.drop_left' lh, List.take_left' lm]
  have e₃ : (time t).drop 4 = padded 2 t.second := by
    rw [time, List.drop_left' (by rw [List.length_append, lh, lm])]
  rw [time?, e₁, e₂, e₃, fixed?_padded lh, fixed?_padded lm, fixed?_padded ls]
  simp only [Option.bind_eq_bind, Option.bind_some, TimeOfDay.ofHms?]
  rw [dif_pos ⟨by assumption, by assumption, by assumption⟩]

end Literal

end Recurrence
