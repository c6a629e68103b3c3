import Recurrence.Expansion.Candidates
import Recurrence.Proofs.Calendar.WeekYear
import Recurrence.Proofs.Expansion.Unit
import Recurrence.Proofs.Position

/-!
# What the stages make

Every stage moves an instant within some span of time around it: a month list
within the year, a list of month days within the month, a time list within the
day, the hour or the minute, and **a weekday within its scope**
(`Scope.mem_days_iff`). Week numbers alone leave the year: what they make
belongs to the weeks of the year (`Instant.inWeek?_weekYear`). The candidates of
a period have whatever every stage keeps (`Parts.forall_mem_candidates`).
-/

namespace Recurrence

open Calendar

variable {t u c : Instant}

namespace Instant

/-! ## Dates -/

/-- A month list keeps the year. -/
theorem withMonth?_year {m : Nat} (h : t.withMonth? m = some c) : c.date.year = t.date.year := by
  obtain ⟨d, hd, rfl⟩ := Option.map_eq_some_iff.1 h
  exact (Date.ofYmdClamped?_eq_some_iff.1 hd).1

/-- **What a week list makes belongs to the weeks of the year.** -/
theorem inWeek?_weekYear {n : Int} (h : t.inWeek? n = some c) :
    c.date.weekYear = t.date.year := by
  obtain ⟨k, -, hk⟩ := Option.bind_eq_some_iff.1 h
  obtain ⟨d, hd, rfl⟩ := Option.map_eq_some_iff.1 hk
  exact Date.weekYear_of_ofWeek? hd

/-- A list of year days keeps the year. -/
theorem onYearDay?_year {n : Int} (h : t.onYearDay? n = some c) :
    c.date.year = t.date.year := by
  obtain ⟨k, -, hk⟩ := Option.bind_eq_some_iff.1 h
  obtain ⟨d, hd, rfl⟩ := Option.map_eq_some_iff.1 hk
  exact (Date.ofYearDay?_eq_some_iff.1 hd).1

/-- A list of month days keeps the month. -/
theorem onMonthDay?_monthIndex {n : Int} (h : t.onMonthDay? n = some c) :
    c.date.monthIndex = t.date.monthIndex := by
  obtain ⟨k, -, hk⟩ := Option.bind_eq_some_iff.1 h
  obtain ⟨d, hd, rfl⟩ := Option.map_eq_some_iff.1 hk
  obtain ⟨hy, hm, -⟩ := Date.ofYmd?_eq_some_iff.1 hd
  simp only [Date.monthIndex, hy, hm]

/-! ## Times -/

/-- **An hour list sets the hour and nothing else.** -/
theorem atHour?_time {h : Nat} (hc : t.atHour? h = some c) :
    c.date = t.date ∧ c.time.hour = h ∧ c.time.minute = t.time.minute ∧
      c.time.second = t.time.second := by
  obtain ⟨w, hw, rfl⟩ := Option.map_eq_some_iff.1 hc
  unfold TimeOfDay.withHour? at hw
  split at hw <;> cases hw
  exact ⟨rfl, rfl, rfl, rfl⟩

/-- A minute list sets the minute and nothing else. -/
theorem atMinute?_time {m : Nat} (hc : t.atMinute? m = some c) :
    c.date = t.date ∧ c.time.hour = t.time.hour ∧ c.time.minute = m ∧
      c.time.second = t.time.second := by
  obtain ⟨w, hw, rfl⟩ := Option.map_eq_some_iff.1 hc
  unfold TimeOfDay.withMinute? at hw
  split at hw <;> cases hw
  exact ⟨rfl, rfl, rfl, rfl⟩

/-- A second list sets the second and nothing else. -/
theorem atSecond?_time {s : Nat} (hc : t.atSecond? s = some c) :
    c.date = t.date ∧ c.time.hour = t.time.hour ∧ c.time.minute = t.time.minute ∧
      c.time.second = s := by
  obtain ⟨w, hw, rfl⟩ := Option.map_eq_some_iff.1 hc
  unfold TimeOfDay.withSecond? at hw
  split at hw <;> cases hw
  exact ⟨rfl, rfl, rfl, rfl⟩

/-- An hour list keeps the date. -/
theorem atHour?_date {h : Nat} (hc : t.atHour? h = some c) : c.date = t.date :=
  (atHour?_time hc).1

/-- A minute list keeps date and hour. -/
theorem atMinute?_hour {m : Nat} (hc : t.atMinute? m = some c) :
    c.date = t.date ∧ c.time.hour = t.time.hour := by
  obtain ⟨hd, hh, -, -⟩ := atMinute?_time hc
  exact ⟨hd, hh⟩

/-- A second list keeps date, hour and minute. -/
theorem atSecond?_minute {s : Nat} (hc : t.atSecond? s = some c) :
    c.date = t.date ∧ c.time.hour = t.time.hour ∧ c.time.minute = t.time.minute := by
  obtain ⟨hd, hh, hm, -⟩ := atSecond?_time hc
  exact ⟨hd, hh, hm⟩

end Instant

/-! ## Weekdays -/

namespace Scope

variable {d e : Date} {w : Weekday}

/-- **The days of a scope** are the days of the calendar in its span that have the
weekday. -/
theorem mem_days_iff {scope : Scope} :
    e ∈ scope.days d w ↔
      ∃ first len, scope.span? d = some (first, len) ∧
        (first ≤ e.day ∧ e.day < first + len) ∧ e.weekday = w := by
  have hw : weekdayIndex e.day = w.index ↔ e.weekday = w := by
    rw [Date.weekday]
    constructor
    · intro h
      rw [h, Weekday.ofIndex_index]
    · rintro rfl
      rw [Weekday.index_ofIndex, weekdayIndex]
      omega
  unfold days
  split
  · next h => simp [h]
  · next first len h =>
    simp only [List.mem_filterMap, mem_daysFrom, Date.ofDay?_eq_some_iff, h, Option.some.injEq,
      Prod.mk.injEq]
    constructor
    · rintro ⟨n, ⟨hn, hwn⟩, rfl⟩
      exact ⟨first, len, ⟨rfl, rfl⟩, hn, hw.1 hwn⟩
    · rintro ⟨_, _, ⟨rfl, rfl⟩, hn, hwe⟩
      exact ⟨e.day, ⟨hn, hw.2 hwe⟩, rfl⟩

/-- The days of a scope come in order. -/
theorem days_pairwise (scope : Scope) (d : Date) (w : Weekday) :
    (scope.days d w).Pairwise fun e e' => e.day < e'.day := by
  unfold days
  split
  · exact .nil
  · next first len _ =>
    rw [List.pairwise_filterMap]
    refine (daysFrom_pairwise first len w).imp ?_
    intro m n hmn e he e' he'
    rw [Date.ofDay?_eq_some_iff] at he he'
    omega

/-- The day of a date, alone. -/
theorem eq_of_mem_days_day (h : e ∈ Scope.day.days d w) : e = d := by
  obtain ⟨first, len, hs, ⟨h₁, h₂⟩, -⟩ := mem_days_iff.1 h
  cases hs
  exact Date.ext (by omega)

/-- The days of a week share its Monday. -/
theorem week_of_mem_days_week (h : e ∈ Scope.week.days d w) :
    (e.day + 5) / 7 = (d.day + 5) / 7 := by
  obtain ⟨first, len, hs, ⟨h₁, h₂⟩, -⟩ := mem_days_iff.1 h
  obtain ⟨monday, hm, heq⟩ := Option.map_eq_some_iff.1 hs
  cases heq
  have hday := Date.ofDay?_eq_some_iff.1 hm
  have := d.weekday_index
  omega

/-- The days of a month share year and month. -/
theorem monthIndex_of_mem_days_month (h : e ∈ Scope.month.days d w) :
    e.monthIndex = d.monthIndex := by
  obtain ⟨first, len, hs, ⟨h₁, h₂⟩, -⟩ := mem_days_iff.1 h
  cases hs
  rw [d.day_sub_monthDay] at h₁ h₂
  obtain ⟨hy, hm⟩ := (Date.month_eq_iff d.month_bounds.1).2 ⟨h₁, h₂⟩
  simp only [Date.monthIndex, hy, hm]

/-- The days of a year share the year. -/
theorem year_of_mem_days_year (h : e ∈ Scope.year.days d w) : e.year = d.year := by
  obtain ⟨first, len, hs, ⟨h₁, h₂⟩, -⟩ := mem_days_iff.1 h
  cases hs
  rw [Date.year_eq_iff, newYear_succ]
  exact ⟨h₁, h₂⟩

end Scope

/-- **A weekday entry keeps the time of day** and moves within its scope. -/
theorem DayEntry.exists_of_mem_instants {e : DayEntry} {scope : Scope}
    (h : c ∈ e.instants scope t) : c.date ∈ scope.days t.date e.weekday ∧ c.time = t.time := by
  unfold DayEntry.instants at h
  obtain ⟨d, hd, rfl⟩ := List.mem_map.1 h
  refine ⟨?_, rfl⟩
  split at hd
  · exact hd
  · exact Position.mem_of_pick? (Option.mem_toList.1 hd)

/-! ## Periods -/

/-- The place of a stage in the order in which the stages run. -/
def Stage.rank : Stage → Nat
  | month => 0
  | weekNo => 1
  | yearDay => 2
  | monthDay => 3
  | day => 4
  | hour => 5
  | minute => 6
  | second => 7

namespace Parts

variable {p : Parts} {f : Frequency}

theorem mem_stages {s : Stage} : s ∈ p.stages ↔ s.isActive p := by
  have hall : s ∈ Stage.all := by cases s <;> decide
  simp [stages, hall]

/-- A position is picked from what its stage makes. -/
theorem mem_of_mem_select {α : Type} {xs : List α} {ps : List Int} {a : α}
    (h : a ∈ Position.select xs ps) : a ∈ xs := by
  obtain ⟨i, -, hi⟩ := List.mem_filterMap.1 h
  exact Position.mem_of_pick? hi

/-- After a stage there are only instants that the stage has made. -/
theorem exists_of_mem_afterStage {scope : Scope} {s : Stage} {period : List Instant}
    (h : c ∈ p.afterStage scope s period) : ∃ t ∈ period, c ∈ s.instants p scope t := by
  unfold afterStage at h
  split at h
  · exact List.mem_flatMap.1 (mem_of_mem_select h)
  · exact List.mem_flatMap.1 h

/-- Without positions nothing is picked after a stage. -/
theorem afterStage_eq_flatMap (h : p.bySetPos = []) {scope : Scope} {s : Stage}
    {period : List Instant} :
    p.afterStage scope s period = period.flatMap fun t => s.instants p scope t := by
  have hpicks : p.picksAfter s = false := by simp [picksAfter, h]
  simp only [afterStage, hpicks, Bool.false_eq_true, if_false]

/-- Every period is filled on its own. -/
theorem foldl_map_afterStage {scope : Scope} (stages : List Stage)
    (periods : List (List Instant)) :
    stages.foldl (fun periods s => periods.map (p.afterStage scope s)) periods =
      periods.map fun period => stages.foldl (fun period s => p.afterStage scope s period)
        period := by
  induction stages generalizing periods with
  | nil => simp
  | cons s stages ih => simp [ih, Function.comp_def]

/-- The candidates of one period, stage after stage. -/
theorem candidates_singleton :
    p.candidates f [t] =
      p.stages.foldl (fun period s => p.afterStage (p.scope f) s period) [t] := by
  simp [candidates, foldl_map_afterStage]

/-- **Periods do not mix**: the candidates of some instants are those of the
first, then those of the second, and so on. -/
theorem candidates_eq_flatMap (ts : List Instant) :
    p.candidates f ts = ts.flatMap fun t => p.candidates f [t] := by
  simp only [candidates_singleton]
  simp [candidates, foldl_map_afterStage, List.flatMap_def, Function.comp_def]

/-- **What every stage keeps, all instants have** after the stages have run. -/
theorem forall_mem_foldl_afterStage {scope : Scope} {P : Instant → Prop} {stages : List Stage}
    (hstep : ∀ s ∈ stages, ∀ u, P u → ∀ c ∈ s.instants p scope u, P c) {period : List Instant}
    (hp : ∀ u ∈ period, P u) :
    ∀ c ∈ stages.foldl (fun period s => p.afterStage scope s period) period, P c := by
  induction stages generalizing period with
  | nil => exact hp
  | cons s stages ih =>
    apply ih
    · intro s' hs'
      exact hstep s' (List.mem_cons_of_mem _ hs')
    · intro c hc
      obtain ⟨u, hu, hcu⟩ := exists_of_mem_afterStage hc
      exact hstep s List.mem_cons_self u (hp u hu) c hcu

/-- The stages of a rule run in their order. -/
theorem stages_pairwise (p : Parts) : p.stages.Pairwise fun s s' => s.rank < s'.rank :=
  (show Stage.all.Pairwise fun s s' => s.rank < s'.rank by decide).filter _

/-- **What a stage makes and every later stage keeps, all candidates of a period
have.** The stage may rely on what the instant that opens the period has and every
earlier stage keeps. -/
theorem forall_mem_candidates_of_stage {P Q : Instant → Prop} {s : Stage} (hs : s.isActive p)
    (ht : Q t)
    (hbefore : ∀ s' ∈ p.stages, s'.rank < s.rank →
      ∀ u, Q u → ∀ c ∈ s'.instants p (p.scope f) u, Q c)
    (hmade : ∀ u, Q u → ∀ c ∈ s.instants p (p.scope f) u, P c)
    (hafter : ∀ s' ∈ p.stages, s.rank < s'.rank →
      ∀ u, P u → ∀ c ∈ s'.instants p (p.scope f) u, P c) :
    ∀ c ∈ p.candidates f [t], P c := by
  have hmem := mem_stages.2 hs
  have hrank := p.stages_pairwise
  obtain ⟨before, after, heq⟩ := List.append_of_mem hmem
  rw [heq, List.pairwise_append, List.pairwise_cons] at hrank
  rw [heq] at hbefore hafter
  rw [candidates_singleton, heq, List.foldl_append, List.foldl_cons]
  apply forall_mem_foldl_afterStage
  · intro s' hs' u hu c hc
    refine hafter s' ?_ (hrank.2.1.1 s' hs') u hu c hc
    exact List.mem_append_right _ (List.mem_cons_of_mem _ hs')
  · intro c hc
    obtain ⟨u, hu, hcu⟩ := exists_of_mem_afterStage hc
    refine hmade u ?_ c hcu
    refine forall_mem_foldl_afterStage (P := Q) ?_ (by simpa using ht) u hu
    intro s' hs' v hv c hc
    refine hbefore s' ?_ (hrank.2.2 s' hs' s List.mem_cons_self) v hv c hc
    exact List.mem_append_left _ hs'

/-- What every stage keeps, all candidates of a period have. -/
theorem forall_mem_candidates {P : Instant → Prop} (ht : P t)
    (hstep : ∀ s ∈ p.stages, ∀ u, P u → ∀ c ∈ s.instants p (p.scope f) u, P c) :
    ∀ c ∈ p.candidates f [t], P c := by
  rw [candidates_singleton]
  exact forall_mem_foldl_afterStage hstep (by simpa using ht)

end Parts

end Recurrence
