import Recurrence.Proofs.Calendar.Fields

/-!
# Week years

The weeks of a year begin up to three days before it or after it, so that a date
near New Year can belong to the weeks of another year than its own. The year of
its week **is never further off than one** (`Date.weekYear_bounds`), and like the
year it never falls from one day to the next.
-/

namespace Recurrence

namespace Date

open Calendar

variable {d e : Date} {y : Int}

/-- The days from Monday to the weekday of a date. -/
theorem weekday_index_eq (d : Date) : d.weekday.index = weekdayIndex d.day := by
  rw [weekday, Weekday.index_ofIndex, weekdayIndex]
  omega

/-- The days from the Monday of its week to a date. -/
theorem weekday_index (d : Date) : (d.weekday.index : Int) = (d.day + 5) % 7 := by
  rw [weekday_index_eq, weekdayIndex]
  omega

/-- **The weeks of a year run from its first Monday to the next year's.** -/
theorem weekYear_eq_iff :
    d.weekYear = y ↔ weekYearStart y ≤ d.day ∧ d.day < weekYearStart (y + 1) := by
  have hidx := d.weekday_index
  rw [weekYear, yearOfDay_eq_iff]
  simp only [weekYearStart, weekdayIndex]
  omega

/-- A later day never belongs to the weeks of an earlier year. -/
theorem weekYear_mono (h : d.day ≤ e.day) : d.weekYear ≤ e.weekYear := by
  have hd := (weekYear_eq_iff (d := d)).1 rfl
  have he := (weekYear_eq_iff (d := e)).1 rfl
  rcases Int.lt_or_le e.weekYear d.weekYear with hlt | hle
  · have := newYear_le (show e.weekYear + 1 ≤ d.weekYear by omega)
    simp only [weekYearStart, weekdayIndex] at hd he
    omega
  · exact hle

/-- **A week belongs to the year of its dates or to a neighbour of it.** -/
theorem weekYear_bounds (d : Date) : d.year - 1 ≤ d.weekYear ∧ d.weekYear ≤ d.year + 1 := by
  obtain ⟨h₁, h₂⟩ := (year_eq_iff (d := d)).1 rfl
  obtain ⟨h₃, h₄⟩ := (weekYear_eq_iff (d := d)).1 rfl
  simp only [weekYearStart, weekdayIndex] at h₃ h₄
  constructor
  · rcases Int.lt_or_le d.weekYear (d.year - 1) with hlt | hle
    · have := newYear_add_le (d.weekYear + 1)
      have := newYear_le (show d.weekYear + 1 + 1 ≤ d.year by omega)
      omega
    · exact hle
  · rcases Int.lt_or_le (d.year + 1) d.weekYear with hlt | hle
    · have := newYear_add_le (d.year + 1)
      have := newYear_le (show d.year + 1 + 1 ≤ d.weekYear by omega)
      omega
    · exact hle

/-- A weekday of a week lies in the year of the week. -/
theorem weekYear_of_ofWeek? {k : Nat} {w : Weekday} (h : ofWeek? y k w = some d) :
    d.weekYear = y := by
  unfold ofWeek? at h
  split at h
  · next hk =>
    have hw := w.index_lt
    rw [ofDay?_eq_some_iff] at h
    rw [weekYear_eq_iff, weekYearStart_succ]
    omega
  · cases h

/-- A weekday of a week lies in that week. -/
theorem weekNo_of_ofWeek? {k : Nat} {w : Weekday} (h : ofWeek? y k w = some d) :
    d.weekNo = k := by
  have hyear := weekYear_of_ofWeek? h
  unfold ofWeek? at h
  split at h
  · have hw := w.index_lt
    rw [ofDay?_eq_some_iff] at h
    rw [weekNo, hyear]
    omega
  · cases h

/-- Dates of one week belong to one year. -/
theorem weekYear_congr (h : (d.day + 5) / 7 = (e.day + 5) / 7) : d.weekYear = e.weekYear := by
  have he := (weekYear_eq_iff (d := e)).1 rfl
  refine weekYear_eq_iff.2 ?_
  simp only [weekYearStart, weekdayIndex] at he ⊢
  omega

/-- Dates of one week have the number of that week. -/
theorem weekNo_congr (h : (d.day + 5) / 7 = (e.day + 5) / 7) : d.weekNo = e.weekNo := by
  rw [weekNo, weekNo, weekYear_congr h]
  simp only [weekYearStart, weekdayIndex]
  omega

end Date

end Recurrence
