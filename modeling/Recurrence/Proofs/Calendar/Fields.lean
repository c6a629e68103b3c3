import Recurrence.Calendar.Instant
import Recurrence.Calendar.Length

/-!
# Fields of dates

Year, month and day of the month are read off the number of a day. Here they are
shown to be **the only ones that lead back to it** (`Date.ofYmd?_eq_some_iff`),
to follow the order of the days, and to exist wherever the calendar has the year.
-/

namespace Recurrence

namespace Calendar

/-- No year is shorter than 365 days. -/
theorem newYear_add_le (y : Int) : newYear y + 365 ≤ newYear (y + 1) := by
  simp only [newYear]; omega

/-- No month is shorter than 28 days. -/
theorem le_monthLength (leap : Bool) (m : Nat) : 28 ≤ monthLength leap m := by
  unfold monthLength
  split
  · split <;> decide
  all_goals decide

/-- Every month has days. -/
theorem monthLength_pos (leap : Bool) (m : Nat) : 1 ≤ monthLength leap m :=
  Nat.le_trans (by decide) (le_monthLength leap m)

/-- A later month begins after the earlier one has ended. -/
theorem daysBeforeMonth_mono (leap : Bool) {m n : Nat} (h : m ≤ n) (hn : n ≤ 13) :
    daysBeforeMonth leap m ≤ daysBeforeMonth leap n := by
  -- The months are few enough to be compared one by one.
  have all : ∀ n < 14, ∀ m < 14, m ≤ n →
      daysBeforeMonth leap m ≤ daysBeforeMonth leap n := by
    cases leap <;> decide
  exact all n (by omega) m (by omega) h

/-- The twelve months are as long as the year. -/
theorem daysBeforeMonth_thirteen (y : Int) : daysBeforeMonth (isLeap y) 13 = yearLength y := by
  unfold yearLength
  cases isLeap y <;> rfl

/-- **A day of the year lies in one month only.** -/
theorem monthOfDay_eq {leap : Bool} {m n : Nat} (h : 1 ≤ m ∧ m ≤ 12)
    (h₁ : daysBeforeMonth leap m ≤ n) (h₂ : n < daysBeforeMonth leap (m + 1)) :
    monthOfDay leap n = m := by
  have hlast := daysBeforeMonth_mono leap (show m + 1 ≤ 13 by omega) (Nat.le_refl 13)
  have hn : n < 365 + leap.toNat := Nat.lt_of_lt_of_le h₂ hlast
  obtain ⟨hm, h₃, h₄⟩ := monthOfDay_bounds leap hn
  rcases Nat.lt_trichotomy (monthOfDay leap n) m with hlt | heq | hgt
  · have := daysBeforeMonth_mono leap (show monthOfDay leap n + 1 ≤ m by omega) (by omega)
    omega
  · exact heq
  · have := daysBeforeMonth_mono leap (show m + 1 ≤ monthOfDay leap n by omega) (by omega)
    omega

end Calendar

namespace Date

open Calendar

variable {d e : Date} {y : Int}

/-! ## Years -/

/-- The year of a date holds its day. -/
theorem year_eq_iff : d.year = y ↔ newYear y ≤ d.day ∧ d.day < newYear (y + 1) :=
  yearOfDay_eq_iff

/-- A later day lies in no earlier year. -/
theorem year_mono (h : d.day ≤ e.day) : d.year ≤ e.year := by
  have hd := (year_eq_iff (d := d)).1 rfl
  have he := (year_eq_iff (d := e)).1 rfl
  rcases Int.lt_or_le e.year d.year with hlt | hle
  · have := newYear_le (show e.year + 1 ≤ d.year by omega)
    omega
  · exact hle

/-- The day of the year of a date in a given year. -/
theorem yearOffset_eq (h : d.year = y) {n : Nat} (hn : d.day = newYear y + n) :
    d.yearOffset = n := by
  have := d.newYear_add_yearOffset
  rw [h] at this
  omega

/-! ## Months -/

/-- On a later day of one year it is no earlier month. -/
theorem month_mono (hy : d.year = e.year) (h : d.day ≤ e.day) : d.month ≤ e.month := by
  have hd := d.month_bounds
  have he := e.month_bounds
  have h₁ := d.newYear_add_yearOffset
  have h₂ := e.newYear_add_yearOffset
  rw [hy] at h₁ hd
  rcases Nat.lt_or_ge e.month d.month with hlt | hge
  · have := daysBeforeMonth_mono (isLeap e.year) (show e.month + 1 ≤ d.month by omega) (by omega)
    omega
  · exact hge

/-- **Later days never lie in earlier months.** -/
theorem monthIndex_mono (h : d.day ≤ e.day) : d.monthIndex ≤ e.monthIndex := by
  have hd := d.month_bounds.1
  have he := e.month_bounds.1
  unfold monthIndex
  rcases Int.lt_or_eq_of_le (year_mono h) with hlt | heq
  · omega
  · have := month_mono heq h
    omega

/-- The year and the month in it, from the number of the month. -/
theorem monthIndex_div (d : Date) :
    d.monthIndex / 12 = d.year ∧ (d.monthIndex % 12).toNat + 1 = d.month := by
  have := d.month_bounds.1
  simp only [monthIndex]
  omega

/-! ## Finding a date -/

/-- The number of a day that is found by year, month and day of the month. -/
theorem day_of_ofYmd? {m k : Nat} (h : ofYmd? y m k = some d) :
    ((1 ≤ m ∧ m ≤ 12) ∧ 1 ≤ k ∧ k ≤ monthLength (isLeap y) m) ∧
      d.day = newYear y + daysBeforeMonth (isLeap y) m + k - 1 := by
  unfold ofYmd? at h
  split at h
  · next hb => exact ⟨hb, ofDay?_eq_some_iff.1 h⟩
  · cases h

/-- **A date is found by its own year, month and day and by no others.** -/
theorem ofYmd?_eq_some_iff {m k : Nat} :
    ofYmd? y m k = some d ↔ d.year = y ∧ d.month = m ∧ d.monthDay = k := by
  constructor
  · intro h
    obtain ⟨⟨hm, hk⟩, hday⟩ := day_of_ofYmd? h
    have hsucc := daysBeforeMonth_succ (isLeap y) hm.1 hm.2
    have hlast := daysBeforeMonth_mono (isLeap y) (show m + 1 ≤ 13 by omega) (Nat.le_refl 13)
    rw [daysBeforeMonth_thirteen] at hlast
    -- The day lies within the month, and the month within the year.
    have hyear : d.year = y := by
      rw [year_eq_iff, newYear_succ]
      omega
    have hoff : d.yearOffset = daysBeforeMonth (isLeap y) m + k - 1 :=
      yearOffset_eq hyear (by omega)
    have hmonth : d.month = m := by
      rw [month, hyear, hoff]
      exact monthOfDay_eq hm (by omega) (by omega)
    refine ⟨hyear, hmonth, ?_⟩
    rw [monthDay, hmonth, hyear, hoff]
    omega
  · rintro ⟨rfl, rfl, rfl⟩
    exact d.ofYmd?_self

/-- The first day of the month of a date. -/
theorem day_sub_monthDay (d : Date) :
    d.day - d.monthDay + 1 = newYear d.year + daysBeforeMonth (isLeap d.year) d.month := by
  have := d.month_bounds.2.1
  have := d.newYear_add_yearOffset
  simp only [monthDay]
  omega

/-- Dates of one month lie as many days apart as their days of the month. -/
theorem day_sub_day (h : d.monthIndex = e.monthIndex) :
    d.day - e.day = (d.monthDay : Int) - e.monthDay := by
  have hd := d.monthIndex_div
  have he := e.monthIndex_div
  have hfirst := d.day_sub_monthDay
  rw [← hd.1, ← hd.2, h, he.1, he.2, ← e.day_sub_monthDay] at hfirst
  omega

/-- **The days of a month run from its first to its last**, and no day outside them has its
year and month. -/
theorem month_eq_iff {m : Nat} (hm : 1 ≤ m ∧ m ≤ 12) :
    d.year = y ∧ d.month = m ↔
      newYear y + daysBeforeMonth (isLeap y) m ≤ d.day ∧
        d.day < newYear y + daysBeforeMonth (isLeap y) m + monthLength (isLeap y) m := by
  constructor
  · rintro ⟨rfl, rfl⟩
    have hfirst := d.day_sub_monthDay
    have hday := d.monthDay_bounds
    omega
  · rintro ⟨h₁, h₂⟩
    have hd : ofYmd? y m (d.day - (newYear y + daysBeforeMonth (isLeap y) m) + 1).toNat =
        some d := by
      unfold ofYmd?
      rw [if_pos ⟨hm, by omega, by omega⟩, ofDay?_eq_some_iff]
      omega
    obtain ⟨hy, hm, -⟩ := ofYmd?_eq_some_iff.1 hd
    exact ⟨hy, hm⟩

/-- No day of the week after a month lies in a month of that name. -/
theorem month_ne_of_next {m : Nat} (hm : 1 ≤ m ∧ m ≤ 12)
    (h₁ : newYear y + daysBeforeMonth (isLeap y) (m + 1) ≤ d.day)
    (h₂ : d.day < newYear y + daysBeforeMonth (isLeap y) (m + 1) + 7) : d.month ≠ m := by
  rcases Nat.lt_or_ge m 12 with hlt | hge
  · have hlen := le_monthLength (isLeap y) (m + 1)
    obtain ⟨-, hnext⟩ := (month_eq_iff (d := d) (y := y) (m := m + 1) (by omega)).2
      ⟨h₁, by omega⟩
    omega
  · -- After December the next year begins.
    obtain rfl : m = 12 := by omega
    have hlen := le_monthLength (isLeap (y + 1)) 1
    have hjan : daysBeforeMonth (isLeap (y + 1)) 1 = 0 := rfl
    rw [daysBeforeMonth_thirteen, ← newYear_succ] at h₁ h₂
    obtain ⟨-, hnext⟩ := (month_eq_iff (d := d) (y := y + 1) (m := 1) (by omega)).2
      ⟨by omega, by omega⟩
    omega

/-- **A date is found by its own year and day of the year and by no others.** -/
theorem ofYearDay?_eq_some_iff {n : Nat} :
    ofYearDay? y n = some d ↔ d.year = y ∧ d.yearDay = n := by
  have hoff := d.newYear_add_yearOffset
  have hlt := d.yearOffset_lt
  unfold ofYearDay? yearDay
  constructor
  · intro h
    split at h
    · next hb =>
      rw [ofDay?_eq_some_iff] at h
      have hyear : d.year = y := by
        rw [year_eq_iff, newYear_succ]
        omega
      rw [hyear] at hoff
      exact ⟨hyear, by omega⟩
    · cases h
  · rintro ⟨rfl, rfl⟩
    rw [if_pos ⟨by omega, by omega⟩, ofDay?_eq_some_iff]
    omega

/-- **A clamped date keeps year and month**, and its day is the last of the month
at most. -/
theorem ofYmdClamped?_eq_some_iff {m k : Nat} :
    ofYmdClamped? y m k = some d ↔
      d.year = y ∧ d.month = m ∧ d.monthDay = min k (monthLength (isLeap y) m) :=
  ofYmd?_eq_some_iff

/-- A day in a year of the calendar is a day of the calendar. -/
theorem exists_ofDay? (hy : hasYear y) {n : Int} (h₁ : newYear y ≤ n) (h₂ : n < newYear (y + 1)) :
    ∃ d, ofDay? n = some d := by
  simp only [hasYear, Bool.and_eq_true, decide_eq_true_eq] at hy
  have := newYear_le hy.1
  have := newYear_le (show y + 1 ≤ lastYear + 1 by omega)
  exact ⟨⟨n, by unfold firstDay; omega, by unfold lastDay; omega⟩, ofDay?_eq_some_iff.2 rfl⟩

/-- The calendar has the days that its rule gives the months of a year. -/
theorem exists_ofYmd?_of_hasYear (hy : hasYear y) {m k : Nat} :
    (∃ d, ofYmd? y m k = some d) ↔
      (1 ≤ m ∧ m ≤ 12) ∧ 1 ≤ k ∧ k ≤ monthLength (isLeap y) m := by
  constructor
  · rintro ⟨d, hd⟩
    exact (day_of_ofYmd? hd).1
  · rintro ⟨hm, hk⟩
    have hsucc := daysBeforeMonth_succ (isLeap y) hm.1 hm.2
    have hlast := daysBeforeMonth_mono (isLeap y) (show m + 1 ≤ 13 by omega) (Nat.le_refl 13)
    rw [daysBeforeMonth_thirteen] at hlast
    unfold ofYmd?
    rw [if_pos ⟨hm, hk⟩]
    refine exists_ofDay? hy (by omega) ?_
    rw [newYear_succ]
    omega

/-- The calendar has the days that its rule gives a year. -/
theorem exists_ofYearDay?_of_hasYear (hy : hasYear y) {n : Nat} :
    (∃ d, ofYearDay? y n = some d) ↔ 1 ≤ n ∧ n ≤ yearLength y := by
  unfold ofYearDay?
  constructor
  · rintro ⟨d, hd⟩
    split at hd
    · assumption
    · cases hd
  · intro hn
    have hsucc := newYear_succ y
    rw [if_pos hn]
    exact exists_ofDay? hy (by omega) (by omega)

/-- **Clamping always finds a date**, where the calendar has the year. -/
theorem exists_ofYmdClamped? (hy : hasYear y) {m k : Nat} (hm : 1 ≤ m ∧ m ≤ 12) (hk : 1 ≤ k) :
    ∃ d, ofYmdClamped? y m k = some d :=
  (exists_ofYmd?_of_hasYear hy).2
    ⟨hm, Nat.le_min.2 ⟨hk, monthLength_pos _ _⟩, Nat.min_le_right _ _⟩

/-- The first day of the month of a date is in the calendar. -/
theorem exists_first_of_month (d : Date) :
    ∃ first, ofYmd? d.year d.month 1 = some first ∧
      first.day = newYear d.year + daysBeforeMonth (isLeap d.year) d.month := by
  obtain ⟨first, hfirst⟩ := (exists_ofYmd?_of_hasYear d.hasYear_year).2
    ⟨d.month_bounds.1, Nat.le_refl 1, monthLength_pos _ _⟩
  refine ⟨first, hfirst, ?_⟩
  have := (day_of_ofYmd? hfirst).2
  omega

/-- The first day of the year of a date is in the calendar. -/
theorem exists_first_of_year (d : Date) :
    ∃ first, ofYearDay? d.year 1 = some first ∧ first.day = newYear d.year := by
  have hlen := newYear_add_le d.year
  have hsucc := newYear_succ d.year
  obtain ⟨first, hfirst⟩ := exists_ofDay? d.hasYear_year (Int.le_refl _)
    (show newYear d.year < newYear (d.year + 1) by omega)
  refine ⟨first, ?_, ofDay?_eq_some_iff.1 hfirst⟩
  rw [ofYearDay?, if_pos (by omega), ← hfirst]
  congr 1
  omega

/-! ## Naming a date -/

/-- The date in year `y` with month `m` and day of the month `k`, where there is one. -/
def ymd (y : Int) (m k : Nat) (h : (ofYmd? y m k).isSome := by decide) : Date :=
  (ofYmd? y m k).get h

/-- An hour of a date. -/
def atHour (d : Date) (h : Nat) (hh : h < 24 := by decide) : Instant :=
  ⟨d, { TimeOfDay.midnight with hour := h, hour_lt := hh }⟩

end Date

end Recurrence
