import Recurrence.Proofs.Expansion.Stages

/-!
# Weekdays of a scope

The days of a weekday are listed by their number, not searched for. Here they are shown to be
**the ones that a search from the first day of the scope finds**, which steps on a week at a
time until a day lies outside (`Scope.days_eq_search`), and to be all the days with that name
in the date, the week, the month or the year around a date (`Scope.mem_days_iff_holds`). An
ordinal picks one of them, from the front or from the back
(`DayEntry.instants_eq_weekdays_of_scope`).
-/

namespace Recurrence

open Calendar

variable {d e : Date} {w : Weekday} {scope : Scope} {t : Instant}

namespace Scope

/-! ## Searching for the days -/

/-- The days left in the calendar from a date on, none where there is no date. -/
def daysLeft : Option Date → Nat
  | none => 0
  | some d => (lastDay + 1 - d.day).toNat

/-- A week later fewer days are left. -/
theorem daysLeft_addDays?_lt (d : Date) : daysLeft (d.addDays? 7) < daysLeft (some d) := by
  have hd := d.le_last
  cases h : d.addDays? 7 with
  | none => simp only [daysLeft]; omega
  | some e =>
    have he : e.day = d.day + 7 := Date.ofDay?_eq_some_iff.1 h
    simp only [daysLeft, he]
    omega

/-- The days found by stepping on from a day, a week at a time, **until one lies outside the
period** or the calendar ends. -/
def everyWeek (inPeriod : Date → Bool) : Option Date → List Date
  | none => []
  | some d => if inPeriod d then d :: everyWeek inPeriod (d.addDays? 7) else []
termination_by d => daysLeft d
decreasing_by exact daysLeft_addDays?_lt d

/-- The days with weekday `w` in a period, searched for from its first day on. -/
def everyWeekday (first : Date) (w : Weekday) (inPeriod : Date → Bool) : List Date :=
  everyWeek inPeriod (first.addDays? ((7 + w.index - first.weekday.index) % 7 : Nat))

/-- The days with weekday `w` in the scope around a date, searched for. In a month only the
month is compared: the search has ended before it comes round again. -/
def search (scope : Scope) (d : Date) (w : Weekday) : List Date :=
  match scope with
  | day => if d.weekday = w then [d] else []
  | week => (d.weekStart?.bind fun monday => monday.addDays? w.index).toList
  | month =>
    (Date.ofYmd? d.year d.month 1).elim [] fun first =>
      everyWeekday first w fun e => e.month == d.month
  | year =>
    (Date.ofYearDay? d.year 1).elim [] fun first =>
      everyWeekday first w fun e => e.year == d.year

/-- **The search finds the days at distances of whole weeks**, as many as lie before the day
on which the period ends. The search comes to no day later than a week after that one. -/
theorem everyWeek_ofDay? {inPeriod : Date → Bool} {start stop : Int} {n : Nat}
    (hfirst : firstDay ≤ start) (hlast : stop ≤ start + 7 * n) (hnext : start + 7 * n < stop + 7)
    (hin : ∀ e : Date, start ≤ e.day → e.day < stop + 7 →
      (inPeriod e = true ↔ e.day < stop)) :
    everyWeek inPeriod (Date.ofDay? start) =
      (List.range n).filterMap fun (k : Nat) => Date.ofDay? (start + 7 * (k : Int)) := by
  induction n generalizing start with
  | zero =>
    cases h : Date.ofDay? start with
    | none => rw [everyWeek]; rfl
    | some d =>
      have hd := Date.ofDay?_eq_some_iff.1 h
      have hout : ¬ inPeriod d = true := by
        rw [hin d (by omega) (by omega)]
        omega
      rw [everyWeek, if_neg hout]
      rfl
  | succ n ih =>
    have hrest : everyWeek inPeriod (Date.ofDay? (start + 7)) =
        (List.range n).filterMap fun (k : Nat) => Date.ofDay? (start + 7 + 7 * (k : Int)) :=
      ih (by omega) (by omega) (by omega) fun e he => hin e (by omega)
    have hlater : (fun k : Nat => Date.ofDay? (start + 7 * (k : Int))) ∘ Nat.succ =
        fun k : Nat => Date.ofDay? (start + 7 + 7 * (k : Int)) := by
      funext k
      refine congrArg Date.ofDay? ?_
      push_cast
      omega
    rw [List.range_succ_eq_map, List.filterMap_cons, List.filterMap_map, hlater, ← hrest]
    simp only [Int.natCast_zero, Int.mul_zero, Int.add_zero]
    cases h : Date.ofDay? start with
    | none =>
      -- Past the end of the calendar there is no later day either.
      have hend : Date.ofDay? (start + 7) = none := by
        unfold Date.ofDay? at h ⊢
        split at h
        · cases h
        · rw [dif_neg (by omega)]
      rw [hend, everyWeek]
    | some d =>
      have hd := Date.ofDay?_eq_some_iff.1 h
      rw [everyWeek, if_pos ((hin d (by omega) (by omega)).2 (by omega)), Date.addDays?, hd]

/-- The search in a period finds the days that are listed for its span. -/
theorem everyWeekday_eq {first : Date} {len : Nat} {inPeriod : Date → Bool}
    (hin : ∀ e : Date, first.day ≤ e.day → e.day < first.day + len + 7 →
      (inPeriod e = true ↔ e.day < first.day + len)) :
    everyWeekday first w inPeriod = (daysFrom first.day len w).filterMap Date.ofDay? := by
  have hidx := first.weekday_index_eq
  have hfirst := first.first_le
  have hlt := w.index_lt
  rw [everyWeekday, daysFrom, List.filterMap_map, Date.addDays?, hidx]
  exact everyWeek_ofDay? (by omega) (by omega) (by omega) fun e he => hin e (by omega)

/-- The one day of a date is found by looking at it. -/
theorem days_day_eq_search : day.days d w = day.search d w := by
  have hw := w.index_lt
  have hd := d.weekday.index_lt
  simp only [days, span?, search, daysFrom, ← d.weekday_index_eq]
  by_cases h : d.weekday = w
  · have hself : Date.ofDay? d.day = some d := Date.ofDay?_eq_some_iff.2 rfl
    simp [h, hself]
  · have hne : d.weekday.index ≠ w.index := by
      intro heq
      rw [← d.weekday.ofIndex_index, heq, w.ofIndex_index] at h
      exact h rfl
    rw [if_neg h, show (1 + 6 - (7 + w.index - d.weekday.index) % 7) / 7 = 0 by omega]
    rfl

/-- A week is gone through from its Monday. -/
theorem days_week_eq_search : week.days d w = week.search d w := by
  have hw := w.index_lt
  simp only [days, span?, search]
  cases h : d.weekStart? with
  | none => rfl
  | some monday =>
    have hmonday : weekdayIndex monday.day = 0 := by
      have hday : monday.day = d.day + -d.weekday.index := Date.ofDay?_eq_some_iff.1 h
      have := d.weekday_index
      rw [weekdayIndex]
      omega
    simp only [Option.map_some, Option.bind_some, daysFrom, hmonday, Date.addDays?]
    rw [show (7 + w.index - 0) % 7 = w.index by omega, show (7 + 6 - w.index) / 7 = 1 by omega]
    cases h : Date.ofDay? (monday.day + w.index) <;> simp [h]

/-- **A month is searched to its end**: the next day of the search lies in the month after
it, which has another number. -/
theorem days_month_eq_search : month.days d w = month.search d w := by
  have hm := d.month_bounds.1
  have hsucc := daysBeforeMonth_succ (isLeap d.year) hm.1 hm.2
  obtain ⟨first, hfirst, hday⟩ := d.exists_first_of_month
  simp only [days, span?, search, hfirst, Option.elim_some, d.day_sub_monthDay, ← hday]
  refine (everyWeekday_eq fun e h₁ h₂ => ?_).symm
  rw [beq_iff_eq]
  constructor
  · intro he
    rcases Int.lt_or_le e.day (first.day + monthLength (isLeap d.year) d.month) with hlt | hle
    · exact hlt
    · exact absurd he (Date.month_ne_of_next (y := d.year) hm (by omega) (by omega))
  · intro hlt
    exact ((Date.month_eq_iff (y := d.year) hm).2 ⟨by omega, by omega⟩).2

/-- A year is searched to its end. -/
theorem days_year_eq_search : year.days d w = year.search d w := by
  obtain ⟨first, hfirst, hday⟩ := d.exists_first_of_year
  simp only [days, span?, search, hfirst, Option.elim_some, ← hday]
  refine (everyWeekday_eq fun e h₁ _ => ?_).symm
  rw [beq_iff_eq, Date.year_eq_iff, newYear_succ, ← hday]
  exact ⟨fun h => h.2, fun h => ⟨h₁, h⟩⟩

/-- **Listing the days and searching for them is the same.** -/
theorem days_eq_search (scope : Scope) (d : Date) (w : Weekday) :
    scope.days d w = scope.search d w := by
  cases scope with
  | day => exact days_day_eq_search
  | week => exact days_week_eq_search
  | month => exact days_month_eq_search
  | year => exact days_year_eq_search

/-! ## The days of a scope -/

/-- The scope around `d` holds `e`: it is the same date, or a date of the week with the same
Monday, of the same month of the same year, or of the same year. -/
def Holds (scope : Scope) (d e : Date) : Prop :=
  match scope with
  | day => e = d
  | week => e.day - e.weekday.index = d.day - d.weekday.index
  | month => e.year = d.year ∧ e.month = d.month
  | year => e.year = d.year

/-- **The span around a date covers what its scope holds.** Only the first week of the calendar
may have no Monday to begin with. -/
theorem exists_span?_eq_some (scope : Scope) (hd : firstDay + 7 ≤ d.day) :
    ∃ first len, scope.span? d = some (first, len) ∧
      ∀ e, scope.Holds d e ↔ first ≤ e.day ∧ e.day < first + len := by
  cases scope with
  | day =>
    refine ⟨d.day, 1, rfl, fun e => ⟨?_, fun h => Date.ext (by omega)⟩⟩
    rintro rfl
    omega
  | week =>
    have hidx := d.weekday_index
    have hlast := d.le_last
    have hmonday : d.weekStart? = some ⟨d.day + -d.weekday.index, by omega, by omega⟩ :=
      Date.ofDay?_eq_some_iff.2 rfl
    refine ⟨d.day + -d.weekday.index, 7, by rw [span?, hmonday]; rfl, fun e => ?_⟩
    have heidx := e.weekday_index
    rw [Holds]
    omega
  | month =>
    refine ⟨_, _, rfl, fun e => ?_⟩
    rw [d.day_sub_monthDay]
    exact Date.month_eq_iff d.month_bounds.1
  | year =>
    refine ⟨_, _, rfl, fun e => ?_⟩
    rw [← newYear_succ]
    exact Date.year_eq_iff

/-- **The days of a scope are all the days with the weekday that it holds.** -/
theorem mem_days_iff_holds (hd : firstDay + 7 ≤ d.day) :
    e ∈ scope.days d w ↔ scope.Holds d e ∧ e.weekday = w := by
  obtain ⟨first, len, hspan, hholds⟩ := scope.exists_span?_eq_some hd
  rw [mem_days_iff, hspan, hholds]
  constructor
  · rintro ⟨_, _, hsame, hin, hw⟩
    cases hsame
    exact ⟨hin, hw⟩
  · rintro ⟨hin, hw⟩
    exact ⟨first, len, rfl, hin, hw⟩

/-- No span is longer than a leap year. -/
theorem span?_len_le {first : Int} {len : Nat} (h : scope.span? d = some (first, len)) :
    len ≤ 366 := by
  cases scope with
  | day => cases h; decide
  | week =>
    obtain ⟨_, -, heq⟩ := Option.map_eq_some_iff.1 h
    cases heq
    decide
  | month =>
    cases h
    exact Nat.le_trans (monthLength_le _ _) (by decide)
  | year =>
    cases h
    unfold yearLength
    split <;> decide

/-- There are fewer days in a scope than places are counted. -/
theorem length_days_le : (scope.days d w).length ≤ Position.lastPlace := by
  have hplaces : 366 ≤ Position.lastPlace := by decide
  unfold days
  split
  · exact Nat.zero_le _
  · next first len hspan =>
    have hlen := span?_len_le hspan
    have hdays : (daysFrom first len w).length ≤ len := by
      rw [daysFrom, List.length_map, List.length_range]
      omega
    have hfound := List.length_filterMap_le Date.ofDay? (daysFrom first len w)
    omega

end Scope

namespace DayEntry

/-- **An ordinal picks from what the entry stands for without it.** -/
theorem instants_some (n : SignedWord) :
    (⟨some n, w⟩ : DayEntry).instants scope t =
      (Position.pick? ((⟨none, w⟩ : DayEntry).instants scope t) n.val).toList := by
  simp only [instants, Position.pick?_map, Option.toList_map]

/-- **A weekday entry stands for the days of its scope with its name**, from the first to the
last and each at the same time of day, where the date lies at least a week after the calendar
begins. A positive ordinal picks one of them counting from the first, a negative one counting
from the last; ordinal `0` picks nothing, nor does one past either end. -/
theorem instants_eq_weekdays_of_scope (scope : Scope) (w : Weekday)
    (ht : firstDay + 7 ≤ t.date.day) :
    ∃ ts, (⟨none, w⟩ : DayEntry).instants scope t = ts ∧ ts.Pairwise (· < ·) ∧
      (∀ u, u ∈ ts ↔ scope.Holds t.date u.date ∧ u.date.weekday = w ∧ u.time = t.time) ∧
      ∀ n : SignedWord,
        (1 ≤ n.val →
          (⟨some n, w⟩ : DayEntry).instants scope t = ts[n.val.toNat - 1]?.toList) ∧
        (n.val ≤ -1 →
          (⟨some n, w⟩ : DayEntry).instants scope t = ts.reverse[(-n.val).toNat - 1]?.toList) ∧
        (n.val = 0 ∨ ts.length < n.val.natAbs →
          (⟨some n, w⟩ : DayEntry).instants scope t = []) := by
  have hlen : ((⟨none, w⟩ : DayEntry).instants scope t).length ≤ Position.lastPlace := by
    simp only [instants, List.length_map]
    exact Scope.length_days_le
  refine ⟨_, rfl, ?_, ?_, ?_⟩
  · exact List.pairwise_map.2 ((scope.days_pairwise t.date w).imp .inl)
  · intro u
    simp only [instants, List.mem_map, Scope.mem_days_iff_holds ht]
    constructor
    · rintro ⟨e, ⟨hholds, hw⟩, rfl⟩
      exact ⟨hholds, hw, rfl⟩
    · rintro ⟨hholds, hw, htime⟩
      exact ⟨u.date, ⟨hholds, hw⟩, Instant.ext rfl htime.symm⟩
  · intro n
    rw [instants_some]
    refine ⟨fun hn => ?_, fun hn => ?_, fun hn => ?_⟩
    · rw [Position.pick?_of_pos hlen hn]
    · rw [Position.pick?_of_neg hlen hn]
    · rw [Position.pick?_eq_none hlen hn, Option.toList_none]

/-- The Mondays of the week that holds the eighth day of the calendar: the earliest date with a
week before it. -/
theorem mondays_of_second_week :
    let t := (Date.ymd (-262143) 1 8).atHour 10
    firstDay + 7 ≤ t.date.day ∧
      ∃ ts, (⟨none, .monday⟩ : DayEntry).instants .week t = ts ∧ ts.Pairwise (· < ·) ∧
        (∀ u, u ∈ ts ↔
          Scope.week.Holds t.date u.date ∧ u.date.weekday = .monday ∧ u.time = t.time) ∧
        ∀ n : SignedWord,
          (1 ≤ n.val →
            (⟨some n, .monday⟩ : DayEntry).instants .week t = ts[n.val.toNat - 1]?.toList) ∧
          (n.val ≤ -1 →
            (⟨some n, .monday⟩ : DayEntry).instants .week t =
              ts.reverse[(-n.val).toNat - 1]?.toList) ∧
          (n.val = 0 ∨ ts.length < n.val.natAbs →
            (⟨some n, .monday⟩ : DayEntry).instants .week t = []) := by
  intro t
  have ht : firstDay + 7 ≤ t.date.day := by decide +kernel
  exact ⟨ht, instants_eq_weekdays_of_scope .week .monday ht⟩

end DayEntry

end Recurrence
