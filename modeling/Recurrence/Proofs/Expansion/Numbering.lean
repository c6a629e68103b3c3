import Recurrence.Proofs.Calendar.Lengths
import Recurrence.Proofs.Expansion.Stages

/-!
# Signed numbers of days and weeks

The lists of month days, year days and weeks move an instant to the day or the week with a
number, counted from the beginning or, with a sign, from the end. `Instant.Numbering` says
what the three have in common: **an instant is kept exactly when its number is not past the
length that it counts against**, a signed number names what its distance from the end does,
and the time of day stays. The lengths are those of the calendar (`lengths_agree`).
-/

namespace Recurrence

open Calendar

namespace Position

variable {i : Int} {len : Nat}

/-- Exactly the numbers up to the length are resolved, with and without a sign. -/
theorem exists_resolve_iff :
    (∃ k, resolve i len = some k) ↔ 1 ≤ i.natAbs ∧ i.natAbs ≤ len := by
  unfold resolve
  split
  · next h => exact ⟨fun _ => by omega, fun _ => ⟨_, rfl⟩⟩
  · split
    · next h => exact ⟨fun _ => by omega, fun _ => ⟨_, rfl⟩⟩
    · next h₁ h₂ =>
      constructor
      · rintro ⟨k, hk⟩
        cases hk
      · intro h
        omega

/-- A number up to the length stands for itself. -/
theorem resolve_natCast {k : Nat} (h₁ : 1 ≤ k) (h₂ : k ≤ len) : resolve k len = some k := by
  rw [resolve, if_pos (by omega), Int.toNat_natCast]

/-- A signed number stands for its distance from the end. -/
theorem resolve_neg (h₁ : 1 ≤ i) (h₂ : i ≤ len) :
    resolve (-i) len = resolve (len + 1 - i) len := by
  rw [resolve, if_neg (by omega), if_pos (by omega), resolve, if_pos (by omega)]
  congr 2

end Position

namespace Instant

variable {t : Instant}

/-- What signed numbers make of an instant, when they count against a length: `made v` is
the instant on the date that number `v` names, and `Names k d` says that `d` is the date
with number `k`. -/
structure Numbering (t : Instant) (len : Nat) (made : Int → Option Instant)
    (Names : Nat → Date → Prop) : Prop where
  /-- The instant is kept exactly when the number is one of the length. -/
  exists_iff : ∀ v, (∃ u, made v = some u) ↔ 1 ≤ v.natAbs ∧ v.natAbs ≤ len
  /-- A signed number names what its distance from the end does. -/
  made_neg : ∀ v : Int, 1 ≤ v → v ≤ len → made (-v) = made (len + 1 - v)
  /-- A number without a sign names the date that has it. -/
  names : ∀ (k : Nat) u, made k = some u → Names k u.date
  /-- The time of day stays. -/
  time_eq : ∀ v u, made v = some u → u.time = t.time

/-- **Where a date is found for each number of the length, signed numbers find them all.** -/
theorem Numbering.of_resolve {len : Nat} {date? : Nat → Option Date} {Names : Nat → Date → Prop}
    (hdate : ∀ k, (∃ d, date? k = some d) ↔ 1 ≤ k ∧ k ≤ len)
    (hnames : ∀ k d, date? k = some d → Names k d) :
    t.Numbering len
      (fun v => (Position.resolve v len).bind fun k =>
        (date? k).map fun d => { t with date := d }) Names where
  exists_iff v := by
    rw [← Position.exists_resolve_iff]
    constructor
    · rintro ⟨u, hu⟩
      obtain ⟨k, hk, -⟩ := Option.bind_eq_some_iff.1 hu
      exact ⟨k, hk⟩
    · rintro ⟨k, hk⟩
      obtain ⟨d, hd⟩ := (hdate k).2 (Position.resolve_bounds hk)
      exact ⟨_, Option.bind_eq_some_iff.2 ⟨k, hk, Option.map_eq_some_iff.2 ⟨d, hd, rfl⟩⟩⟩
  made_neg v h₁ h₂ := by
    simp only [Position.resolve_neg h₁ h₂]
  names k u hu := by
    obtain ⟨j, hj, hu⟩ := Option.bind_eq_some_iff.1 hu
    obtain ⟨d, hd, rfl⟩ := Option.map_eq_some_iff.1 hu
    -- The number is of the length, and so it stands for itself.
    obtain ⟨h₁, h₂⟩ := Position.exists_resolve_iff.1 ⟨j, hj⟩
    rw [Position.resolve_natCast (by omega) (by omega), Option.some.injEq] at hj
    exact hnames k d (hj ▸ hd)
  time_eq v u hu := by
    obtain ⟨k, -, hu⟩ := Option.bind_eq_some_iff.1 hu
    obtain ⟨d, -, rfl⟩ := Option.map_eq_some_iff.1 hu
    rfl

/-- **Month days number the days of the month.** -/
theorem numbering_onMonthDay? (t : Instant) :
    t.Numbering (daysInMonth t.date.year t.date.month) t.onMonthDay? fun k d =>
      d.year = t.date.year ∧ d.month = t.date.month ∧ d.monthDay = k := by
  refine .of_resolve (fun k => ?_) fun k d => Date.ofYmd?_eq_some_iff.1
  rw [Date.exists_ofYmd?_iff t.date.hasYear_year, and_iff_right t.date.month_bounds.1]

/-- **Year days number the days of the year.** -/
theorem numbering_onYearDay? (t : Instant) :
    t.Numbering (daysInYear t.date.year) t.onYearDay? fun k d =>
      d.year = t.date.year ∧ d.yearDay = k :=
  .of_resolve (fun _ => Date.exists_ofYearDay?_iff t.date.hasYear_year) fun _ _ =>
    Date.ofYearDay?_eq_some_iff.1

/-- **Weeks number the weeks of the year**, on the weekday of the instant. -/
theorem numbering_inWeek? (h : firstYear < t.date.year) :
    t.Numbering (weeksInYear t.date.year) t.inWeek? fun k d =>
      d.weekYear = t.date.year ∧ d.weekNo = k ∧ d.weekday = t.date.weekday := by
  have hy := t.date.hasYear_year
  simp only [hasYear, Bool.and_eq_true, decide_eq_true_eq] at hy
  exact .of_resolve (fun k => Date.exists_ofWeek?_iff h hy.2) fun _ _ =>
    Date.ofWeek?_eq_some_iff.1

end Instant

/-- **Signed numbers agree with the calendar.** In each year after the first one of the
calendar and before its last, the days of a month and of the year and the weeks are those
from 1 to the lengths, the months make the year, and the weeks end where those of the next
year begin. Month days, year days and weeks number them with and without a sign, and the
weekday and the time of day stay. -/
theorem lengths_agree :
    (∀ y : Int, -262142 ≤ y → y ≤ 262141 →
      (∀ m k, (∃ d : Date, d.year = y ∧ d.month = m ∧ d.monthDay = k) ↔
        (1 ≤ m ∧ m ≤ 12) ∧ 1 ≤ k ∧ k ≤ daysInMonth y m) ∧
      (∀ n, (∃ d : Date, d.year = y ∧ d.yearDay = n) ↔ 1 ≤ n ∧ n ≤ daysInYear y) ∧
      daysInYear y = ((List.range 12).map fun m => daysInMonth y (m + 1)).sum ∧
      (∀ k w, (∃ d : Date, d.weekYear = y ∧ d.weekNo = k ∧ d.weekday = w) ↔
        1 ≤ k ∧ k ≤ weeksInYear y) ∧
      ∃ monday next, Date.ofWeek? y 1 .monday = some monday ∧
        Date.ofWeek? (y + 1) 1 .monday = some next ∧
        monday.addDays? (7 * weeksInYear y) = some next) ∧
    ∀ t : Instant,
      (t.Numbering (daysInMonth t.date.year t.date.month) t.onMonthDay? fun k d =>
        d.year = t.date.year ∧ d.month = t.date.month ∧ d.monthDay = k) ∧
      (t.Numbering (daysInYear t.date.year) t.onYearDay? fun k d =>
        d.year = t.date.year ∧ d.yearDay = k) ∧
      (-262142 ≤ t.date.year →
        t.Numbering (weeksInYear t.date.year) t.inWeek? fun k d =>
          d.weekYear = t.date.year ∧ d.weekNo = k ∧ d.weekday = t.date.weekday) := by
  constructor
  · intro y h₁ h₂
    have hfirst : firstYear < y := by unfold firstYear; omega
    have hlast : y < lastYear := by unfold lastYear; omega
    have hy : hasYear y := by simp [hasYear]; omega
    refine ⟨?_, ?_, ?_, ?_, ?_⟩
    · exact fun m k => Date.exists_monthDay_iff hy
    · exact fun n => Date.exists_yearDay_iff hy
    · exact (sum_daysInMonth hy).symm
    · exact fun k w => Date.exists_weekNo_iff hfirst (by omega)
    · exact Date.exists_addDays?_firstMonday hfirst hlast
  · intro t
    refine ⟨t.numbering_onMonthDay?, t.numbering_onYearDay?, fun h => ?_⟩
    exact Instant.numbering_inWeek? (by unfold firstYear; omega)

/-- In 2020, which has 53 weeks, the last of them ends on a Sunday of 2021, and counting 53
weeks back from it leads to its first. -/
theorem longYear_lengths_agree :
    (-262142 ≤ (2020 : Int) ∧ (2020 : Int) ≤ 262141) ∧
      (∃ d : Date, d.weekYear = 2020 ∧ d.weekNo = 53 ∧ d.weekday = .sunday) ∧
      (∃ u, (Date.ymd 2020 12 31).midnight.inWeek? (-53) = some u) ∧
      (Date.ymd 2020 12 31).midnight.inWeek? (-53) =
        (Date.ymd 2020 12 31).midnight.inWeek? 1 := by
  refine ⟨by decide, ?_, ?_⟩
  · exact ((lengths_agree.1 2020 (by decide) (by decide)).2.2.2.1 53 .sunday).2 (by decide)
  · have hweeks := (lengths_agree.2 (Date.ymd 2020 12 31).midnight).2.2 (by decide)
    exact ⟨(hweeks.exists_iff (-53)).2 (by decide),
      hweeks.made_neg 53 (by decide) (by decide)⟩

-- The calendar begins on a Thursday: its first week has no Monday.
example : (Date.ymd firstYear 1 5).weekday = .monday ∧
    (Date.ymd firstYear 1 5).midnight.inWeek? 1 = none := by
  decide +kernel

end Recurrence
