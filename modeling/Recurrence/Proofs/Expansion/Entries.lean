import Recurrence.Proofs.Expansion.Stages

/-!
# The entries that candidates keep

Every stage sets some fields of an instant to the entries of its list, and a later
stage may move the instant again. Time lists set one field each and leave the date
alone, so that **the time of day always keeps its entries**. Of the dates, the
weekday is set last and always kept; the others are kept where no later list moves
the date, or moves it only within the month or the week that was set. `Parts.Obeys`
says which entries these are, and every candidate of a period obeys them.
-/

namespace Recurrence

open Calendar

variable {p : Parts} {f : Frequency} {scope : Scope} {s : Stage} {t c : Instant}

/-! ## What a stage makes -/

namespace Instant

/-- A month list sets the month. -/
theorem withMonth?_month {m : Nat} (h : t.withMonth? m = some c) : c.date.month = m := by
  obtain ⟨d, hd, rfl⟩ := Option.map_eq_some_iff.1 h
  exact (Date.ofYmdClamped?_eq_some_iff.1 hd).2.1

/-- A week list sets the week, counted in the year of the week. -/
theorem resolve_of_inWeek? {n : Int} (h : t.inWeek? n = some c) :
    Position.resolve n (weeksInYear c.date.weekYear) = some c.date.weekNo := by
  obtain ⟨k, hk, hkc⟩ := Option.bind_eq_some_iff.1 h
  obtain ⟨d, hd, rfl⟩ := Option.map_eq_some_iff.1 hkc
  rw [Date.weekYear_of_ofWeek? hd, Date.weekNo_of_ofWeek? hd, hk]

/-- A list of year days sets the day of the year. -/
theorem resolve_of_onYearDay? {n : Int} (h : t.onYearDay? n = some c) :
    Position.resolve n (daysInYear c.date.year) = some c.date.yearDay := by
  obtain ⟨k, hk, hkc⟩ := Option.bind_eq_some_iff.1 h
  obtain ⟨d, hd, rfl⟩ := Option.map_eq_some_iff.1 hkc
  obtain ⟨hy, hday⟩ := Date.ofYearDay?_eq_some_iff.1 hd
  rw [hy, hday, hk]

/-- A list of month days sets the day of the month. -/
theorem resolve_of_onMonthDay? {n : Int} (h : t.onMonthDay? n = some c) :
    Position.resolve n (daysInMonth c.date.year c.date.month) = some c.date.monthDay := by
  obtain ⟨k, hk, hkc⟩ := Option.bind_eq_some_iff.1 h
  obtain ⟨d, hd, rfl⟩ := Option.map_eq_some_iff.1 hkc
  obtain ⟨hy, hm, hday⟩ := Date.ofYmd?_eq_some_iff.1 hd
  rw [hy, hm, hday, hk]

end Instant

/-! ## What a stage leaves alone -/

namespace Stage

/-- The stages of dates keep the time of day. -/
theorem time_of_mem_instants (hs : s.rank < hour.rank) (hc : c ∈ s.instants p scope t) :
    c.time = t.time := by
  cases s with
  | month =>
    obtain ⟨m, -, hm⟩ := List.mem_filterMap.1 hc
    obtain ⟨d, -, rfl⟩ := Option.map_eq_some_iff.1 hm
    rfl
  | weekNo | yearDay | monthDay =>
    obtain ⟨n, -, hn⟩ := List.mem_filterMap.1 hc
    obtain ⟨k, -, hk⟩ := Option.bind_eq_some_iff.1 hn
    obtain ⟨d, -, rfl⟩ := Option.map_eq_some_iff.1 hk
    rfl
  | day =>
    obtain ⟨e, -, he⟩ := List.mem_flatMap.1 hc
    exact (DayEntry.exists_of_mem_instants he).2
  | hour | minute | second => exact absurd hs (by decide)

/-- The stages of times keep the date. -/
theorem date_of_mem_instants (hs : day.rank < s.rank) (hc : c ∈ s.instants p scope t) :
    c.date = t.date := by
  cases s with
  | hour =>
    obtain ⟨n, -, hn⟩ := List.mem_filterMap.1 hc
    exact Instant.atHour?_date hn
  | minute =>
    obtain ⟨n, -, hn⟩ := List.mem_filterMap.1 hc
    exact (Instant.atMinute?_hour hn).1
  | second =>
    obtain ⟨n, -, hn⟩ := List.mem_filterMap.1 hc
    exact (Instant.atSecond?_minute hn).1
  | month | weekNo | yearDay | monthDay | day => exact absurd hs (by decide)

/-- Only the hours set the hour. -/
theorem hour_of_mem_instants (hs : s ≠ hour) (hc : c ∈ s.instants p scope t) :
    c.time.hour = t.time.hour := by
  cases s with
  | hour => exact absurd rfl hs
  | minute =>
    obtain ⟨n, -, hn⟩ := List.mem_filterMap.1 hc
    exact (Instant.atMinute?_time hn).2.1
  | second =>
    obtain ⟨n, -, hn⟩ := List.mem_filterMap.1 hc
    exact (Instant.atSecond?_time hn).2.1
  | month | weekNo | yearDay | monthDay | day => rw [time_of_mem_instants (by decide) hc]

/-- Only the minutes set the minute. -/
theorem minute_of_mem_instants (hs : s ≠ minute) (hc : c ∈ s.instants p scope t) :
    c.time.minute = t.time.minute := by
  cases s with
  | hour =>
    obtain ⟨n, -, hn⟩ := List.mem_filterMap.1 hc
    exact (Instant.atHour?_time hn).2.2.1
  | minute => exact absurd rfl hs
  | second =>
    obtain ⟨n, -, hn⟩ := List.mem_filterMap.1 hc
    exact (Instant.atSecond?_time hn).2.2.1
  | month | weekNo | yearDay | monthDay | day => rw [time_of_mem_instants (by decide) hc]

/-- Only the seconds set the second. -/
theorem second_of_mem_instants (hs : s ≠ second) (hc : c ∈ s.instants p scope t) :
    c.time.second = t.time.second := by
  cases s with
  | hour =>
    obtain ⟨n, -, hn⟩ := List.mem_filterMap.1 hc
    exact (Instant.atHour?_time hn).2.2.2
  | minute =>
    obtain ⟨n, -, hn⟩ := List.mem_filterMap.1 hc
    exact (Instant.atMinute?_time hn).2.2.2
  | second => exact absurd rfl hs
  | month | weekNo | yearDay | monthDay | day => rw [time_of_mem_instants (by decide) hc]

end Stage

namespace Parts

/-! ## Obeying a list -/

/-- A field has one of the numbers of a list or, **without a list, the number that
it had.** -/
def ChosenFrom (xs : List Octet) (old new : Nat) : Prop :=
  (xs = [] ∧ new = old) ∨ ∃ x ∈ xs, new = x.toNat

/-- No weekday moves a date that has been set: there are none, or they only choose
among the dates. -/
def DateStands (p : Parts) (f : Frequency) : Prop :=
  p.byDay = [] ∨ p.scope f = .day

instance (p : Parts) (f : Frequency) : Decidable (p.DateStands f) :=
  inferInstanceAs (Decidable (_ ∨ _))

/-- A candidate has the entries of all lists that no later list overrides. Signed
entries count from the beginning or from the end of the candidate's own month or
year, or of the weeks of its year. -/
structure Obeys (p : Parts) (f : Frequency) (opening c : Instant) : Prop where
  /-- The hour is an entry, or the hour at which the period opens. -/
  hour : ChosenFrom p.byHour opening.time.hour c.time.hour
  /-- The minute is an entry, or the minute at which the period opens. -/
  minute : ChosenFrom p.byMinute opening.time.minute c.time.minute
  /-- The second is an entry, or the second at which the period opens. -/
  second : ChosenFrom p.bySecond opening.time.second c.time.second
  /-- The weekday is always kept. -/
  weekday : p.byDay ≠ [] → ∃ e ∈ p.byDay, c.date.weekday = e.weekday
  /-- The day of the month is kept where the date stands. -/
  monthDay : p.byMonthDay ≠ [] → p.DateStands f →
    ∃ n ∈ p.byMonthDay,
      Position.resolve n.val (daysInMonth c.date.year c.date.month) = some c.date.monthDay
  /-- The day of the year is kept where no day of the month is set after it. -/
  yearDay : p.byYearDay ≠ [] → p.byMonthDay = [] → p.DateStands f →
    ∃ n ∈ p.byYearDay, Position.resolve n.val (daysInYear c.date.year) = some c.date.yearDay
  /-- The week is kept where no day is set after it; weekdays stay in the week. -/
  weekNo : p.byWeekNo ≠ [] → p.byYearDay = [] → p.byMonthDay = [] →
    ∃ n ∈ p.byWeekNo, Position.resolve n.val (weeksInYear c.date.weekYear) = some c.date.weekNo
  /-- The month is kept where no week and no day of the year is set after it, and
  weekdays do not reach into another month. -/
  month : p.byMonth ≠ [] → p.byWeekNo = [] → p.byYearDay = [] →
    (p.byDay = [] ∨ p.scope f ≠ .week) → ∃ m ∈ p.byMonth, c.date.month = m.toNat

/-! ## Times -/

/-- **A field of the time of day obeys its list**: one stage sets it, and no other
changes it. -/
theorem chosenFrom_of_mem_candidates (field : Instant → Nat) {xs : List Octet}
    (hactive : s.isActive p = !xs.isEmpty)
    (hmade : ∀ u, ∀ c ∈ s.instants p (p.scope f) u, ∃ x ∈ xs, field c = x.toNat)
    (hkept : ∀ s' ≠ s, ∀ u, ∀ c ∈ s'.instants p (p.scope f) u, field c = field u)
    (hc : c ∈ p.candidates f [t]) : ChosenFrom xs (field t) (field c) := by
  by_cases hxs : xs = []
  · have hinactive : s.isActive p = false := by rw [hactive, hxs]; rfl
    refine .inl ⟨hxs, ?_⟩
    refine forall_mem_candidates (P := fun c => field c = field t) rfl ?_ c hc
    intro s' hs' u hu c hc
    have hne : s' ≠ s := by
      rintro rfl
      rw [mem_stages, hinactive] at hs'
      cases hs'
    rw [hkept s' hne u c hc, hu]
  · refine .inr ?_
    refine forall_mem_candidates_of_stage (s := s) (P := fun c => ∃ x ∈ xs, field c = x.toNat)
      (Q := fun _ => True) (by simp [hactive, hxs]) trivial (fun _ _ _ _ _ _ _ => trivial)
      (fun u _ => hmade u) ?_ c hc
    intro s' _ hrank u hu c hc
    have hne : s' ≠ s := by
      rintro rfl
      exact Nat.lt_irrefl _ hrank
    rwa [hkept s' hne u c hc]

theorem chosenFrom_hour (hc : c ∈ p.candidates f [t]) :
    ChosenFrom p.byHour t.time.hour c.time.hour := by
  refine chosenFrom_of_mem_candidates (s := .hour) (fun c => c.time.hour) rfl ?_ ?_ hc
  · intro u c hc
    obtain ⟨x, hx, hxc⟩ := List.mem_filterMap.1 hc
    exact ⟨x, hx, (Instant.atHour?_time hxc).2.1⟩
  · intro s' hs' u c hc
    exact Stage.hour_of_mem_instants hs' hc

theorem chosenFrom_minute (hc : c ∈ p.candidates f [t]) :
    ChosenFrom p.byMinute t.time.minute c.time.minute := by
  refine chosenFrom_of_mem_candidates (s := .minute) (fun c => c.time.minute) rfl ?_ ?_ hc
  · intro u c hc
    obtain ⟨x, hx, hxc⟩ := List.mem_filterMap.1 hc
    exact ⟨x, hx, (Instant.atMinute?_time hxc).2.2.1⟩
  · intro s' hs' u c hc
    exact Stage.minute_of_mem_instants hs' hc

theorem chosenFrom_second (hc : c ∈ p.candidates f [t]) :
    ChosenFrom p.bySecond t.time.second c.time.second := by
  refine chosenFrom_of_mem_candidates (s := .second) (fun c => c.time.second) rfl ?_ ?_ hc
  · intro u c hc
    obtain ⟨x, hx, hxc⟩ := List.mem_filterMap.1 hc
    exact ⟨x, hx, (Instant.atSecond?_time hxc).2.2.2⟩
  · intro s' hs' u c hc
    exact Stage.second_of_mem_instants hs' hc

/-! ## Dates -/

/-- **A date has what one stage sets and no later stage of dates changes.** -/
theorem forall_mem_candidates_of_date {P : Date → Prop} (hs : s.isActive p)
    (hmade : ∀ u, ∀ c ∈ s.instants p (p.scope f) u, P c.date)
    (hkept : ∀ s' : Stage, s'.isActive p → s.rank < s'.rank → s'.rank ≤ Stage.day.rank →
      ∀ u : Instant, P u.date → ∀ c ∈ s'.instants p (p.scope f) u, P c.date)
    (hc : c ∈ p.candidates f [t]) : P c.date := by
  refine forall_mem_candidates_of_stage (P := fun c => P c.date) (Q := fun _ => True) hs trivial
    (fun _ _ _ _ _ _ _ => trivial) (fun u _ => hmade u) ?_ c hc
  intro s' hs' hrank u hu c hc
  rcases Nat.lt_or_ge Stage.day.rank s'.rank with hlt | hge
  · rwa [Stage.date_of_mem_instants hlt hc]
  · exact hkept s' (mem_stages.1 hs') hrank hge u hu c hc

/-- Where the date stands, the weekdays keep it. -/
theorem DateStands.date_of_mem_instants (h : p.DateStands f) (hs : Stage.day.isActive p)
    (hc : c ∈ Stage.day.instants p (p.scope f) t) : c.date = t.date := by
  obtain hnil | hscope := h
  · simp [Stage.isActive, hnil] at hs
  · obtain ⟨e, -, he⟩ := List.mem_flatMap.1 hc
    have hday := (DayEntry.exists_of_mem_instants he).1
    rw [hscope] at hday
    exact Scope.eq_of_mem_days_day hday

/-- With week numbers the weekdays stay in the week. -/
theorem week_of_mem_instants_day (hweek : p.byWeekNo ≠ [])
    (hc : c ∈ Stage.day.instants p (p.scope f) t) :
    (c.date.day + 5) / 7 = (t.date.day + 5) / 7 := by
  obtain ⟨e, -, he⟩ := List.mem_flatMap.1 hc
  have hday := (DayEntry.exists_of_mem_instants he).1
  have hempty : p.byWeekNo.isEmpty = false := by simpa using hweek
  cases f with
  | secondly | minutely | hourly | daily => rw [Scope.eq_of_mem_days_day hday]
  | weekly => exact Scope.week_of_mem_days_week hday
  | monthly | yearly =>
    simp only [scope, hempty] at hday
    exact Scope.week_of_mem_days_week hday

/-- With months and without week numbers, the weekdays stay in the month unless they
look in the week. -/
theorem month_of_mem_instants_day (hmonth : p.byMonth ≠ []) (hweek : p.byWeekNo = [])
    (hscope : p.scope f ≠ .week) (hc : c ∈ Stage.day.instants p (p.scope f) t) :
    c.date.month = t.date.month := by
  have hindex : c.date.monthIndex = t.date.monthIndex := by
    obtain ⟨e, -, he⟩ := List.mem_flatMap.1 hc
    have hday := (DayEntry.exists_of_mem_instants he).1
    have hempty : p.byMonth.isEmpty = false := by simpa using hmonth
    cases f with
    | secondly | minutely | hourly | daily => rw [Scope.eq_of_mem_days_day hday]
    | weekly => exact absurd rfl hscope
    | monthly | yearly =>
      simp only [scope, hweek, hempty] at hday
      exact Scope.monthIndex_of_mem_days_month hday
  rw [← c.date.monthIndex_div.2, hindex, t.date.monthIndex_div.2]

/-- The weekday is one of the entries: no later list moves the date. -/
theorem exists_weekday_of_mem_candidates (hne : p.byDay ≠ []) (hc : c ∈ p.candidates f [t]) :
    ∃ e ∈ p.byDay, c.date.weekday = e.weekday := by
  refine forall_mem_candidates_of_date (s := .day)
    (P := fun d => ∃ e ∈ p.byDay, d.weekday = e.weekday) (by simp [Stage.isActive, hne]) ?_ ?_ hc
  · intro u c hc
    obtain ⟨e, he, hce⟩ := List.mem_flatMap.1 hc
    obtain ⟨first, len, -, -, hw⟩ := Scope.mem_days_iff.1 (DayEntry.exists_of_mem_instants hce).1
    exact ⟨e, he, hw⟩
  · intro s' _ hlt hle
    omega

/-- The day of the month is one of the entries where the date stands. -/
theorem exists_monthDay_of_mem_candidates (hne : p.byMonthDay ≠ []) (hstands : p.DateStands f)
    (hc : c ∈ p.candidates f [t]) :
    ∃ n ∈ p.byMonthDay,
      Position.resolve n.val (daysInMonth c.date.year c.date.month) = some c.date.monthDay := by
  refine forall_mem_candidates_of_date (s := .monthDay)
    (P := fun d => ∃ n ∈ p.byMonthDay,
      Position.resolve n.val (daysInMonth d.year d.month) = some d.monthDay)
    (by simp [Stage.isActive, hne]) ?_ ?_ hc
  · intro u c hc
    obtain ⟨n, hn, hnc⟩ := List.mem_filterMap.1 hc
    exact ⟨n, hn, Instant.resolve_of_onMonthDay? hnc⟩
  · intro s' hs' hlt hle u hu c hc
    cases s' with
    | day => rwa [hstands.date_of_mem_instants hs' hc]
    | _ => simp [Stage.rank] at hlt hle

/-- The day of the year is one of the entries where no day of the month is set after it
and the date stands. -/
theorem exists_yearDay_of_mem_candidates (hne : p.byYearDay ≠ []) (hmonthDay : p.byMonthDay = [])
    (hstands : p.DateStands f) (hc : c ∈ p.candidates f [t]) :
    ∃ n ∈ p.byYearDay, Position.resolve n.val (daysInYear c.date.year) = some c.date.yearDay := by
  refine forall_mem_candidates_of_date (s := .yearDay)
    (P := fun d => ∃ n ∈ p.byYearDay, Position.resolve n.val (daysInYear d.year) = some d.yearDay)
    (by simp [Stage.isActive, hne]) ?_ ?_ hc
  · intro u c hc
    obtain ⟨n, hn, hnc⟩ := List.mem_filterMap.1 hc
    exact ⟨n, hn, Instant.resolve_of_onYearDay? hnc⟩
  · intro s' hs' hlt hle u hu c hc
    cases s' with
    | monthDay => simp [Stage.isActive, hmonthDay] at hs'
    | day => rwa [hstands.date_of_mem_instants hs' hc]
    | _ => simp [Stage.rank] at hlt hle

/-- The week is one of the entries where no day is set after it: **weekdays stay in the
week.** -/
theorem exists_weekNo_of_mem_candidates (hne : p.byWeekNo ≠ []) (hyearDay : p.byYearDay = [])
    (hmonthDay : p.byMonthDay = []) (hc : c ∈ p.candidates f [t]) :
    ∃ n ∈ p.byWeekNo,
      Position.resolve n.val (weeksInYear c.date.weekYear) = some c.date.weekNo := by
  refine forall_mem_candidates_of_date (s := .weekNo)
    (P := fun d => ∃ n ∈ p.byWeekNo,
      Position.resolve n.val (weeksInYear d.weekYear) = some d.weekNo)
    (by simp [Stage.isActive, hne]) ?_ ?_ hc
  · intro u c hc
    obtain ⟨n, hn, hnc⟩ := List.mem_filterMap.1 hc
    exact ⟨n, hn, Instant.resolve_of_inWeek? hnc⟩
  · intro s' hs' hlt hle u hu c hc
    cases s' with
    | yearDay => simp [Stage.isActive, hyearDay] at hs'
    | monthDay => simp [Stage.isActive, hmonthDay] at hs'
    | day =>
      have hsame := week_of_mem_instants_day hne hc
      rwa [Date.weekYear_congr hsame, Date.weekNo_congr hsame]
    | _ => simp [Stage.rank] at hlt hle

/-- The month is one of the entries where no week and no day of the year is set after
it: days of the month stay in it, and so do weekdays that do not look in the week. -/
theorem exists_month_of_mem_candidates (hne : p.byMonth ≠ []) (hweek : p.byWeekNo = [])
    (hyearDay : p.byYearDay = []) (hscope : p.byDay = [] ∨ p.scope f ≠ .week)
    (hc : c ∈ p.candidates f [t]) : ∃ m ∈ p.byMonth, c.date.month = m.toNat := by
  refine forall_mem_candidates_of_date (s := .month)
    (P := fun d => ∃ m ∈ p.byMonth, d.month = m.toNat) (by simp [Stage.isActive, hne]) ?_ ?_ hc
  · intro u c hc
    obtain ⟨m, hm, hmc⟩ := List.mem_filterMap.1 hc
    exact ⟨m, hm, Instant.withMonth?_month hmc⟩
  · intro s' hs' hlt hle u hu c hc
    cases s' with
    | weekNo => simp [Stage.isActive, hweek] at hs'
    | yearDay => simp [Stage.isActive, hyearDay] at hs'
    | monthDay =>
      obtain ⟨n, -, hn⟩ := List.mem_filterMap.1 hc
      have hindex := Instant.onMonthDay?_monthIndex hn
      rwa [← c.date.monthIndex_div.2, hindex, u.date.monthIndex_div.2]
    | day =>
      have hnot : p.scope f ≠ .week := by
        refine hscope.resolve_left ?_
        intro hnil
        simp [Stage.isActive, hnil] at hs'
      rwa [month_of_mem_instants_day hne hweek hnot hc]
    | _ => simp [Stage.rank] at hlt hle

/-! ## Candidates -/

/-- **Candidates obey the lists of their rule.** The candidates of some instants are
those of one period after the other, and each has the entries of all lists that no
later list overrides; with positions and without. -/
theorem candidates_obey (p : Parts) (f : Frequency) (opening : List Instant) :
    p.candidates f opening = (opening.flatMap fun t => p.candidates f [t]) ∧
      ∀ t ∈ opening, ∀ c ∈ p.candidates f [t], p.Obeys f t c := by
  refine ⟨candidates_eq_flatMap opening, ?_⟩
  intro t _ c hc
  exact
    { hour := chosenFrom_hour hc
      minute := chosenFrom_minute hc
      second := chosenFrom_second hc
      weekday := fun hne => exists_weekday_of_mem_candidates hne hc
      monthDay := fun hne hstands => exists_monthDay_of_mem_candidates hne hstands hc
      yearDay := fun hne hmonthDay hstands =>
        exists_yearDay_of_mem_candidates hne hmonthDay hstands hc
      weekNo := fun hne hyearDay hmonthDay =>
        exists_weekNo_of_mem_candidates hne hyearDay hmonthDay hc
      month := fun hne hweek hyearDay hscope =>
        exists_month_of_mem_candidates hne hweek hyearDay hscope hc }

/-- The last day of February and March of every year, in the morning and in the evening;
of these the last and the first. -/
def endOfFebruaryAndMarch : Parts where
  freq := some .yearly
  byMonth := [.of 2, .of 3]
  byMonthDay := [.of (-1)]
  byHour := [.of 9, .of 17]
  bySetPos := [.of (-1), .of 1]

/-- The year 2020, whose first point lies on a day that February does not have. -/
theorem endOfFebruaryAndMarch_obeys :
    let t := (Date.ymd 2020 1 30).atHour 8
    let c := (Date.ymd 2020 2 29).atHour 9
    c ∈ endOfFebruaryAndMarch.candidates .yearly [t] ∧
      endOfFebruaryAndMarch.Obeys .yearly t c := by
  intro t c
  have hc : c ∈ endOfFebruaryAndMarch.candidates .yearly [t] := by decide +kernel
  exact ⟨hc, (candidates_obey endOfFebruaryAndMarch .yearly [t]).2 t List.mem_cons_self c hc⟩

end Parts

end Recurrence
