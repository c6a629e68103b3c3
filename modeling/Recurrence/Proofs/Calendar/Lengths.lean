import Mathlib.Algebra.GroupWithZero.Nat
import Recurrence.Proofs.Calendar.WeekYear

/-!
# Lengths and the dates they count

The lengths of months, years and years of weeks are those of the calendar: **a number names
a date exactly when it is counted** (`Date.exists_monthDay_iff`, `Date.exists_yearDay_iff`,
`Date.exists_weekNo_iff`). The months of a year are together as long as the year. Weeks
reach over New Year, so that the first year of the calendar lacks the days of its first week
that lie before it; every later year has all its weeks.
-/

namespace Recurrence

open Calendar

namespace Calendar

variable {y : Int}

/-! ## What the calendar answers -/

/-- The month after a month begins where that one ends; after December it is January. -/
theorem day_of_nextMonth? {m : Nat} {first : Date} (h : nextMonth? y m = some first) :
    first.day = newYear y + daysBeforeMonth (isLeap y) (m + 1) := by
  unfold nextMonth? at h
  split at h
  · next hdec =>
    have hday := (Date.day_of_ofYmd? h).2
    have hjan : daysBeforeMonth (isLeap (y + 1)) 1 = 0 := rfl
    rw [hjan, newYear_succ] at hday
    rw [hdec, daysBeforeMonth_thirteen]
    omega
  · have hday := (Date.day_of_ofYmd? h).2
    omega

/-- **The day before the next month is the last one of the month.** The month after the last
December of the calendar is not in it, and December has the 31 days that are then assumed. -/
theorem daysInMonth_of_hasYear (hy : hasYear y) {m : Nat} (hm : 1 ≤ m ∧ m ≤ 12) :
    daysInMonth y m = monthLength (isLeap y) m := by
  obtain ⟨last, hlast⟩ := (Date.exists_ofYmd?_of_hasYear hy).2
    ⟨hm, monthLength_pos (isLeap y) m, Nat.le_refl _⟩
  have hday := (Date.day_of_ofYmd? hlast).2
  have hlength := (Date.ofYmd?_eq_some_iff.1 hlast).2.2
  have hsucc := daysBeforeMonth_succ (isLeap y) hm.1 hm.2
  unfold daysInMonth
  cases hnext : nextMonth? y m with
  | some first =>
    have hfirst := day_of_nextMonth? hnext
    have hpred : first.addDays? (-1) = some last := Date.ofDay?_eq_some_iff.2 (by omega)
    rw [Option.bind_some, hpred, Option.elim_some, hlength]
  | none =>
    rcases Nat.lt_or_eq_of_le hm.2 with hlt | rfl
    · obtain ⟨first, hfirst⟩ := (Date.exists_ofYmd?_of_hasYear hy).2
        ⟨show 1 ≤ m + 1 ∧ m + 1 ≤ 12 by omega, Nat.le_refl 1, monthLength_pos _ _⟩
      rw [nextMonth?, if_neg (Nat.ne_of_lt hlt), hfirst] at hnext
      cases hnext
    · rfl

/-- **Only a leap year has a day 366**, and so every year has its length. -/
theorem daysInYear_of_hasYear (hy : hasYear y) : daysInYear y = yearLength y := by
  have hlast : (Date.ofYearDay? y 366).isSome ↔ isLeap y := by
    rw [Option.isSome_iff_exists, Date.exists_ofYearDay?_of_hasYear hy, yearLength]
    cases isLeap y <;> decide
  simp only [daysInYear, yearLength, hlast]

/-- The first week of a year begins within three days of New Year. -/
theorem weekYearStart_near (y : Int) :
    newYear y - 3 ≤ weekYearStart y ∧ weekYearStart y ≤ newYear y + 3 := by
  simp only [weekYearStart, weekdayIndex]
  omega

/-- **Only a long year has a Monday of week 53.** That Monday lies in the year itself, so that
the calendar has it in its first and its last year as well. -/
theorem weeksInYear_of_hasYear (hy : hasYear y) : weeksInYear y = weekCount y := by
  have hlast : (Date.ofWeek? y 53 .monday).isSome ↔ isLongWeekYear y := by
    have hsucc := weekYearStart_succ y
    have hstart := weekYearStart_near y
    have hend := weekYearStart_near (y + 1)
    have hmonday : Weekday.monday.index = 0 := rfl
    rw [Option.isSome_iff_exists, Date.ofWeek?, hmonday]
    cases hl : isLongWeekYear y with
    | true =>
      have hcount : weekCount y = 53 := if_pos hl
      rw [hcount] at hsucc ⊢
      rw [if_pos (by decide)]
      exact iff_of_true (Date.exists_ofDay? hy (by omega) (by omega)) rfl
    | false =>
      have hcount : weekCount y = 52 := if_neg (by rw [hl]; decide)
      rw [hcount, if_neg (by decide)]
      simp
  simp only [weeksInYear, weekCount, hlast]

/-- **A year of the calendar has the lengths of its rule.** -/
theorem lengths_of_hasYear (hy : hasYear y) :
    (∀ m, 1 ≤ m ∧ m ≤ 12 → daysInMonth y m = monthLength (isLeap y) m) ∧
      daysInYear y = yearLength y ∧ weeksInYear y = weekCount y :=
  ⟨fun _ => daysInMonth_of_hasYear hy, daysInYear_of_hasYear hy, weeksInYear_of_hasYear hy⟩

/-! ## Years as a whole -/

/-- The months before a month are as long as the part of the year before it. -/
theorem sum_monthLength (leap : Bool) {n : Nat} (hn : n ≤ 12) :
    ((List.range n).map fun m => monthLength leap (m + 1)).sum = daysBeforeMonth leap (n + 1) := by
  induction n with
  | zero => rfl
  | succ n ih =>
    rw [List.range_succ, List.map_append, List.map_singleton, List.sum_append, ih (by omega),
      List.sum_singleton, daysBeforeMonth_succ leap (by omega) hn]

/-- **The twelve months make the year.** -/
theorem sum_daysInMonth (hy : hasYear y) :
    ((List.range 12).map fun m => daysInMonth y (m + 1)).sum = daysInYear y := by
  obtain ⟨hmonth, hyear, -⟩ := lengths_of_hasYear hy
  have hmonths : (List.range 12).map (fun m => daysInMonth y (m + 1)) =
      (List.range 12).map fun m => monthLength (isLeap y) (m + 1) :=
    List.map_congr_left fun m hm => hmonth _ (by have := List.mem_range.1 hm; omega)
  rw [hmonths, sum_monthLength (isLeap y) (Nat.le_refl 12), daysBeforeMonth_thirteen, hyear]

/-- A year after the first one of the calendar has all the days of its weeks. -/
theorem weekYearStart_bounds (h₁ : firstYear < y) (h₂ : y ≤ lastYear) :
    firstDay ≤ weekYearStart y ∧ weekYearStart (y + 1) ≤ lastDay + 1 := by
  have hstart := weekYearStart_near
  constructor
  · have := newYear_add_le firstYear
    have := newYear_le (show firstYear + 1 ≤ y by omega)
    have := hstart y
    simp only [firstDay]
    omega
  · rcases Int.lt_or_eq_of_le h₂ with hlt | rfl
    · have := newYear_add_le lastYear
      have := newYear_le (show y + 1 ≤ lastYear by omega)
      have := hstart (y + 1)
      simp only [lastDay]
      omega
    · -- The year after the last one would begin on a Tuesday.
      decide

end Calendar

namespace Date

variable {y : Int} {d : Date}

/-! ## Days -/

/-- The calendar has every day that a month of its years counts. -/
theorem exists_ofYmd?_iff (hy : hasYear y) {m k : Nat} :
    (∃ d, ofYmd? y m k = some d) ↔ (1 ≤ m ∧ m ≤ 12) ∧ 1 ≤ k ∧ k ≤ daysInMonth y m := by
  rw [exists_ofYmd?_of_hasYear hy]
  exact and_congr_right fun hm => by rw [daysInMonth_of_hasYear hy hm]

/-- The calendar has every day that one of its years counts. -/
theorem exists_ofYearDay?_iff (hy : hasYear y) {n : Nat} :
    (∃ d, ofYearDay? y n = some d) ↔ 1 ≤ n ∧ n ≤ daysInYear y := by
  rw [daysInYear_of_hasYear hy]
  exact exists_ofYearDay?_of_hasYear hy

/-- **A month has the days from 1 to its length.** -/
theorem exists_monthDay_iff (hy : hasYear y) {m k : Nat} :
    (∃ d : Date, d.year = y ∧ d.month = m ∧ d.monthDay = k) ↔
      (1 ≤ m ∧ m ≤ 12) ∧ 1 ≤ k ∧ k ≤ daysInMonth y m := by
  simp only [← exists_ofYmd?_iff hy, ofYmd?_eq_some_iff]

/-- **A year has the days from 1 to its length.** -/
theorem exists_yearDay_iff (hy : hasYear y) {n : Nat} :
    (∃ d : Date, d.year = y ∧ d.yearDay = n) ↔ 1 ≤ n ∧ n ≤ daysInYear y := by
  simp only [← exists_ofYearDay?_iff hy, ofYearDay?_eq_some_iff]

/-! ## Weeks -/

/-- **A date is found by its own week and weekday and by no others.** -/
theorem ofWeek?_eq_some_iff {k : Nat} {w : Weekday} :
    ofWeek? y k w = some d ↔ d.weekYear = y ∧ d.weekNo = k ∧ d.weekday = w := by
  constructor
  · intro h
    refine ⟨weekYear_of_ofWeek? h, weekNo_of_ofWeek? h, ?_⟩
    unfold ofWeek? at h
    split at h
    · have hw := w.index_lt
      rw [ofDay?_eq_some_iff, weekYearStart, weekdayIndex] at h
      rw [weekday, weekdayIndex, ← w.ofIndex_index]
      congr 1
      omega
    · cases h
  · rintro ⟨rfl, rfl, rfl⟩
    obtain ⟨h₁, h₂⟩ := (weekYear_eq_iff (d := d)).1 rfl
    have hidx := d.weekday_index
    rw [weekYearStart_succ] at h₂
    have hstart : (weekYearStart d.weekYear + 5) % 7 = 0 := by
      simp only [weekYearStart, weekdayIndex]
      omega
    rw [ofWeek?, weekNo, if_pos (by omega), ofDay?_eq_some_iff]
    omega

/-- A year after the first one of the calendar has every weekday of the weeks that it
counts. -/
theorem exists_ofWeek?_iff (h₁ : firstYear < y) (h₂ : y ≤ lastYear) {k : Nat} {w : Weekday} :
    (∃ d, ofWeek? y k w = some d) ↔ 1 ≤ k ∧ k ≤ weeksInYear y := by
  have hy : hasYear y := by simp [hasYear]; omega
  rw [weeksInYear_of_hasYear hy]
  unfold ofWeek?
  constructor
  · rintro ⟨d, hd⟩
    split at hd
    · assumption
    · cases hd
  · intro hk
    have hw := w.index_lt
    obtain ⟨hfirst, hlast⟩ := weekYearStart_bounds h₁ h₂
    rw [weekYearStart_succ] at hlast
    rw [if_pos hk]
    exact ⟨⟨_, by omega, by omega⟩, ofDay?_eq_some_iff.2 rfl⟩

/-- **A year has the weeks from 1 to its number of weeks**, with all their days. -/
theorem exists_weekNo_iff (h₁ : firstYear < y) (h₂ : y ≤ lastYear) {k : Nat} {w : Weekday} :
    (∃ d : Date, d.weekYear = y ∧ d.weekNo = k ∧ d.weekday = w) ↔
      1 ≤ k ∧ k ≤ weeksInYear y := by
  rw [← exists_ofWeek?_iff h₁ h₂ (w := w)]
  simp only [ofWeek?_eq_some_iff]

/-- **The weeks of a year end where those of the next one begin.** -/
theorem exists_addDays?_firstMonday (h₁ : firstYear < y) (h₂ : y < lastYear) :
    ∃ monday next, ofWeek? y 1 .monday = some monday ∧
      ofWeek? (y + 1) 1 .monday = some next ∧
      monday.addDays? (7 * weeksInYear y) = some next := by
  have hpos : ∀ z, 1 ≤ weekCount z := by
    intro z
    unfold weekCount
    split <;> omega
  have hy : hasYear y := by simp [hasYear]; omega
  have hnext : hasYear (y + 1) := by simp [hasYear]; omega
  rw [weeksInYear_of_hasYear hy]
  obtain ⟨monday, hm⟩ := (exists_ofWeek?_iff h₁ (by omega) (k := 1) (w := .monday)).2
    ⟨Nat.le_refl 1, by rw [weeksInYear_of_hasYear hy]; exact hpos y⟩
  obtain ⟨next, hn⟩ := (exists_ofWeek?_iff (y := y + 1) (by omega) (by omega) (k := 1)
    (w := .monday)).2 ⟨Nat.le_refl 1, by rw [weeksInYear_of_hasYear hnext]; exact hpos _⟩
  refine ⟨monday, next, hm, hn, ?_⟩
  rw [ofWeek?, if_pos ⟨Nat.le_refl 1, hpos _⟩, ofDay?_eq_some_iff, Weekday.index] at hm hn
  rw [addDays?, ofDay?_eq_some_iff, hm, hn, weekYearStart_succ]
  omega

end Date

end Recurrence
