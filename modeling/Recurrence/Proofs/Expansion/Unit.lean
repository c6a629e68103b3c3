import Recurrence.Expansion.Step
import Recurrence.Proofs.Calendar.Fields

/-!
# Units of a frequency

Every frequency divides time into calendar units: seconds, minutes, hours, days,
weeks from Monday to Sunday, months and years. The units are numbered, and
`Instant.unit` is the number of the one that holds an instant. The number never
falls as time goes on (`unit_mono`), and **a step of `n` units adds `n` to it**
(`unit_advance?`), wherever in its unit the instant lies and whatever month end
the step is clamped to. So steps never drift, and later ones lead to later
instants.
-/

namespace Recurrence

open Calendar

namespace Instant

variable {t u v : Instant}

/-! ## The order of instants -/

theorem le_refl (t : Instant) : t ≤ t := le_iff_seconds_le.2 (Int.le_refl _)

theorem le_trans (h₁ : t ≤ u) (h₂ : u ≤ v) : t ≤ v := by
  rw [le_iff_seconds_le] at *
  omega

theorem lt_of_lt_of_le (h₁ : t < u) (h₂ : u ≤ v) : t < v := by
  rw [le_iff_seconds_le] at h₂
  rw [lt_iff_seconds_lt] at *
  omega

theorem lt_of_le_of_lt (h₁ : t ≤ u) (h₂ : u < v) : t < v := by
  rw [le_iff_seconds_le] at h₁
  rw [lt_iff_seconds_lt] at *
  omega

theorem le_of_lt (h : t < u) : t ≤ u := by
  rw [le_iff_seconds_le]
  rw [lt_iff_seconds_lt] at h
  omega

theorem not_le : ¬ t ≤ u ↔ u < t := by
  rw [le_iff_seconds_le, lt_iff_seconds_lt]
  omega

theorem not_lt : ¬ t < u ↔ u ≤ t := by
  rw [le_iff_seconds_le, lt_iff_seconds_lt]
  omega

/-- The later of two instants. -/
theorem max_le_iff : max t u ≤ v ↔ t ≤ v ∧ u ≤ v := by
  show (if t ≤ u then u else t) ≤ v ↔ _
  simp only [le_iff_seconds_le]
  split <;> omega

/-- The earlier of two instants. -/
theorem le_min_iff : v ≤ min t u ↔ v ≤ t ∧ v ≤ u := by
  show v ≤ (if t ≤ u then t else u) ↔ _
  simp only [le_iff_seconds_le]
  split <;> omega

/-- An earlier instant has no later date. -/
theorem day_le_of_le (h : t ≤ u) : t.date.day ≤ u.date.day := by
  rcases h with h | h
  · exact Int.le_of_lt h
  · exact Int.le_of_eq h.1

/-! ## Units -/

/-- The number of the unit of a frequency that holds an instant. **Weeks begin on
Monday.** -/
def unit (t : Instant) : Frequency → Int
  | .secondly => t.seconds
  | .minutely => t.seconds / 60
  | .hourly => t.seconds / 3600
  | .daily => t.date.day
  | .weekly => (t.date.day + 5) / 7
  | .monthly => t.date.monthIndex
  | .yearly => t.date.year

/-- **Later instants never lie in earlier units.** -/
theorem unit_mono (f : Frequency) (h : t ≤ u) : t.unit f ≤ u.unit f := by
  have hs := le_iff_seconds_le.1 h
  have hd := day_le_of_le h
  cases f with
  | secondly => exact hs
  | minutely => simp only [unit]; omega
  | hourly => simp only [unit]; omega
  | daily => exact hd
  | weekly => simp only [unit]; omega
  | monthly => exact Date.monthIndex_mono hd
  | yearly => exact Date.year_mono hd

/-- An instant in an earlier unit is earlier. -/
theorem lt_of_unit_lt {f : Frequency} (h : t.unit f < u.unit f) : t < u := by
  rw [← not_le]
  intro hle
  have := unit_mono f hle
  omega

/-! ## Steps -/

/-- The day that a step of days leads to. -/
theorem addDays?_eq_some_iff {n : Int} :
    t.addDays? n = some u ↔ u.date.day = t.date.day + n ∧ u.time = t.time := by
  simp only [addDays?, Date.addDays?, Option.map_eq_some_iff, Date.ofDay?_eq_some_iff]
  constructor
  · rintro ⟨d, hd, rfl⟩
    exact ⟨hd, rfl⟩
  · rintro ⟨hd, ht⟩
    exact ⟨u.date, hd, Instant.ext rfl ht.symm⟩

/-- **A step of months counts months**, and keeps the day of the month where the
month is long enough, and the time of day. -/
theorem addMonths?_eq_some_iff {n : Nat} :
    t.addMonths? n = some u ↔
      u.date.monthIndex = t.date.monthIndex + n ∧
        u.date.monthDay = min t.date.monthDay (monthLength (isLeap u.date.year) u.date.month) ∧
        u.time = t.time := by
  have hu := u.date.monthIndex_div
  have hm := u.date.month_bounds.1
  simp only [addMonths?, Option.map_eq_some_iff, Date.ofYmdClamped?_eq_some_iff]
  constructor
  · rintro ⟨d, ⟨h₁, h₂, h₃⟩, rfl⟩
    refine ⟨?_, h₁ ▸ h₂ ▸ h₃, rfl⟩
    simp only [Date.monthIndex] at *
    omega
  · rintro ⟨h₁, h₂, h₃⟩
    rw [h₁] at hu
    exact ⟨u.date, ⟨hu.1.symm, hu.2.symm, hu.1.symm ▸ hu.2.symm ▸ h₂⟩, Instant.ext rfl h₃.symm⟩

/-- A step of years is a step of twelve times as many months. -/
theorem year_of_addMonths? {n : Nat} (h : t.addMonths? (12 * n) = some u) :
    u.date.year = t.date.year + n := by
  have hm := (addMonths?_eq_some_iff.1 h).1
  have := t.date.monthIndex_div
  have := u.date.monthIndex_div
  omega

/-- **A step of `n` units leads `n` units on.** -/
theorem unit_advance? {f : Frequency} {n : Nat} (h : t.advance? f n = some u) :
    u.unit f = t.unit f + n := by
  cases f with
  | secondly => exact addSeconds?_eq_some_iff.1 h
  | minutely =>
    have := addSeconds?_eq_some_iff.1 h
    simp only [unit]
    omega
  | hourly =>
    have := addSeconds?_eq_some_iff.1 h
    simp only [unit]
    omega
  | daily => exact (addDays?_eq_some_iff.1 h).1
  | weekly =>
    have := (addDays?_eq_some_iff.1 h).1
    simp only [unit]
    omega
  | monthly => exact (addMonths?_eq_some_iff.1 h).1
  | yearly => exact year_of_addMonths? h

/-- A longer step leads to a later instant. -/
theorem advance?_lt {f : Frequency} {m n : Nat} (hm : t.advance? f m = some u)
    (hn : t.advance? f n = some v) (h : m < n) : u < v := by
  have := unit_advance? hm
  have := unit_advance? hn
  exact lt_of_unit_lt (f := f) (by omega)

/-- No step leads nowhere else. -/
theorem advance?_zero (t : Instant) (f : Frequency) : t.advance? f 0 = some t := by
  have hseconds : t.addSeconds? 0 = some t := addSeconds?_eq_some_iff.2 (by simp)
  have hdays : t.addDays? 0 = some t := addDays?_eq_some_iff.2 (by simp)
  have hmonths : t.addMonths? 0 = some t :=
    addMonths?_eq_some_iff.2 ⟨by simp, (Nat.min_eq_left t.date.monthDay_bounds.2).symm, rfl⟩
  cases f with
  | secondly | minutely | hourly => exact hseconds
  | daily | weekly => exact hdays
  | monthly | yearly => exact hmonths

/-- No step leads back. -/
theorem le_of_advance? {f : Frequency} {n : Nat} (h : t.advance? f n = some u) : t ≤ u := by
  rcases Nat.eq_zero_or_pos n with rfl | hn
  · cases (advance?_zero t f).symm.trans h
    exact le_refl t
  · exact le_of_lt (advance?_lt (advance?_zero t f) h hn)

/-! ## Steps after steps -/

/-- Steps of seconds add up. -/
theorem addSeconds?_add {m n : Nat} (h : t.addSeconds? m = some u) :
    u.addSeconds? n = t.addSeconds? (m + n) := by
  ext v
  rw [addSeconds?_eq_some_iff] at h
  rw [addSeconds?_eq_some_iff, addSeconds?_eq_some_iff]
  omega

/-- Steps of days add up. -/
theorem addDays?_add {m n : Int} (h : t.addDays? m = some u) :
    u.addDays? n = t.addDays? (m + n) := by
  ext v
  obtain ⟨hday, htime⟩ := addDays?_eq_some_iff.1 h
  rw [addDays?_eq_some_iff, addDays?_eq_some_iff, hday, htime, Int.add_assoc]

/-- Steps of months add up **where every month is long enough**. -/
theorem addMonths?_add {m n : Nat} (h : t.addMonths? m = some u) (hday : t.date.monthDay ≤ 28) :
    u.addMonths? n = t.addMonths? (m + n) := by
  obtain ⟨hindex, hu, htime⟩ := addMonths?_eq_some_iff.1 h
  have hkept : u.date.monthDay = t.date.monthDay := by
    rw [hu]
    exact Nat.min_eq_left (Nat.le_trans hday (le_monthLength _ _))
  ext v
  rw [addMonths?_eq_some_iff, addMonths?_eq_some_iff, hindex, hkept, htime, Int.add_assoc,
    Int.natCast_add]

/-- **A step after a step is one step**, unless a month end cuts the first one short. -/
theorem advance?_add {f : Frequency} {m n : Nat} (h : t.advance? f m = some u)
    (hday : Frequency.monthly ≤ f → t.date.monthDay ≤ 28) :
    u.advance? f n = t.advance? f (m + n) := by
  cases f with
  | secondly => exact addSeconds?_add h
  | minutely => exact (addSeconds?_add h).trans (by rw [← Nat.mul_add]; rfl)
  | hourly => exact (addSeconds?_add h).trans (by rw [← Nat.mul_add]; rfl)
  | daily => exact addDays?_add h
  | weekly => exact (addDays?_add h).trans (by rw [← Int.mul_add]; rfl)
  | monthly => exact addMonths?_add h (hday (by decide))
  | yearly => exact (addMonths?_add h (hday (by decide))).trans (by rw [← Nat.mul_add]; rfl)

/-! ## Where the calendar ends -/

/-- A step of days ends in the calendar where a day of the calendar is as late. -/
theorem exists_addDays? {n : Nat} (h : t.date.day + n ≤ u.date.day) :
    ∃ v, t.addDays? n = some v := by
  have h₁ := t.date.first_le
  have h₂ := u.date.le_last
  exact ⟨⟨⟨t.date.day + n, by omega, by omega⟩, t.time⟩, addDays?_eq_some_iff.2 ⟨rfl, rfl⟩⟩

/-- A step of seconds ends in the calendar where an instant of the calendar is as late. -/
theorem exists_addSeconds? {n : Nat} (h : t.seconds + n ≤ u.seconds) :
    ∃ v, t.addSeconds? n = some v := by
  have h₁ := t.date.first_le
  have h₂ := u.date.le_last
  have h₃ := u.time.seconds_lt
  simp only [seconds] at h
  refine ⟨⟨⟨t.date.day + ((t.time.seconds + n) / 86400 : Nat), by omega, by omega⟩,
    TimeOfDay.ofSeconds (t.time.seconds + n)⟩, addSeconds?_eq_some_iff.2 ?_⟩
  simp only [seconds, TimeOfDay.seconds_ofSeconds]
  omega

/-- A step of months ends in the calendar where a month of the calendar is as late. -/
theorem exists_addMonths? {n : Nat} (h : t.date.monthIndex + n ≤ u.date.monthIndex) :
    ∃ v, t.addMonths? n = some v := by
  have ht := t.date.hasYear_year
  have hy := u.date.hasYear_year
  have h₁ := t.date.monthIndex_div.1
  have h₂ := u.date.monthIndex_div.1
  -- Where the step leads lies between two years of the calendar.
  have hbetween : hasYear ((t.date.monthIndex + n) / 12) := by
    simp only [hasYear, Bool.and_eq_true, decide_eq_true_eq] at *
    omega
  obtain ⟨d, hd⟩ := Date.exists_ofYmdClamped? hbetween
    (m := ((t.date.monthIndex + n) % 12).toNat + 1) (by omega) t.date.monthDay_bounds.1
  exact ⟨⟨d, t.time⟩, by rw [addMonths?, hd]; rfl⟩

/-- **A step ends in the calendar when one does that begins no earlier** and is no shorter. -/
theorem exists_advance?_of_le {f : Frequency} {m n : Nat} (h : u.advance? f n = some v)
    (htu : t ≤ u) (hm : m ≤ n) : ∃ w, t.advance? f m = some w := by
  have hseconds := le_iff_seconds_le.1 htu
  have hdays := day_le_of_le htu
  cases f with
  | secondly | minutely | hourly =>
    have hv := addSeconds?_eq_some_iff.1 h
    exact exists_addSeconds? (u := v) (by omega)
  | daily =>
    have hv := (addDays?_eq_some_iff.1 h).1
    exact exists_addDays? (u := v) (by omega)
  | weekly =>
    have hv := (addDays?_eq_some_iff.1 h).1
    obtain ⟨w, hw⟩ := exists_addDays? (t := t) (u := v) (n := 7 * m) (by omega)
    exact ⟨w, by simpa [advance?] using hw⟩
  | monthly | yearly =>
    have hv := (addMonths?_eq_some_iff.1 h).1
    have hindex := Date.monthIndex_mono hdays
    exact exists_addMonths? (u := v) (by omega)

/-- A step ends in the calendar when a longer one does. -/
theorem exists_advance? {f : Frequency} {m n : Nat} (h : t.advance? f n = some u) (hm : m ≤ n) :
    ∃ v, t.advance? f m = some v :=
  exists_advance?_of_le h (le_refl t) hm

/-! ## Measuring -/

/-- An instant is no units away from itself. -/
@[simp] theorem unitsBetween_self (t : Instant) (f : Frequency) : t.unitsBetween t f = 0 := by
  cases f <;> simp [unitsBetween]

/-- A positive quotient that is rounded toward zero is rounded down. -/
theorem tdiv_eq_ediv_of_pos {x k : Int} (hk : 0 < k) (h : 0 < x.tdiv k) : x.tdiv k = x / k := by
  apply Int.tdiv_eq_ediv_of_nonneg
  rw [← Int.not_lt]
  intro hx
  have := Int.tdiv_nonneg (show 0 ≤ -x by omega) (Int.le_of_lt hk)
  rw [Int.neg_tdiv] at this
  omega

/-- **Measuring in units never overshoots**: an instant lies at least as many units
later as are counted. -/
theorem unit_add_unitsBetween_le {f : Frequency} (h : 0 < t.unitsBetween u f) :
    t.unit f + t.unitsBetween u f ≤ u.unit f := by
  -- Seconds, days, months and years are counted; the others are quotients.
  cases f with
  | secondly => simp only [unit, unitsBetween]; omega
  | minutely =>
    simp only [unit, unitsBetween] at *
    rw [tdiv_eq_ediv_of_pos (by decide) h]
    omega
  | hourly =>
    simp only [unit, unitsBetween] at *
    rw [tdiv_eq_ediv_of_pos (by decide) h]
    omega
  | daily => simp only [unit, unitsBetween]; omega
  | weekly =>
    simp only [unit, unitsBetween] at *
    rw [tdiv_eq_ediv_of_pos (by decide) h]
    omega
  | monthly => simp only [unit, unitsBetween]; omega
  | yearly => simp only [unit, unitsBetween]; omega

end Instant

end Recurrence
