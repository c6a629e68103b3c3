import Recurrence.Proofs.Expansion.Stages

/-!
# Rules that stay in their periods

A rule stays in its periods when no list of it moves an instant out of the unit in
which the rule repeats: months move within a year, month days within a month,
hours within a day. `Frequency.confinedStages` names the lists that do, frequency
by frequency, and **the candidates of a period of such a rule lie in the unit of
the instant that opens it** (`Parts.Confined.unit_of_mem_candidates`).
-/

namespace Recurrence

/-- The stages that stay in a unit of the frequency. -/
def Frequency.confinedStages : Frequency → List Stage
  | secondly => [.day]
  | minutely => [.day, .second]
  | hourly => [.day, .minute, .second]
  | daily | weekly => [.day, .hour, .minute, .second]
  | monthly => [.monthDay, .day, .hour, .minute, .second]
  | yearly => [.month, .yearDay, .monthDay, .day, .hour, .minute, .second]

/-- The frequencies from which on a stage stays in their units: **none for week
numbers**, and all for weekdays, whose scope follows the frequency. -/
def Stage.StaysIn (f : Frequency) : Stage → Prop
  | month | yearDay => f = .yearly
  | weekNo => False
  | monthDay => Frequency.monthly ≤ f
  | day => True
  | hour => Frequency.daily ≤ f
  | minute => Frequency.hourly ≤ f
  | second => Frequency.minutely ≤ f

/-- The stages of a frequency are those that stay in its units. -/
theorem Stage.staysIn_of_mem {s : Stage} {f : Frequency} (h : s ∈ f.confinedStages) :
    s.StaysIn f := by
  revert h
  cases s <;> cases f <;> simp [StaysIn, Frequency.confinedStages] <;> decide

/-- The rule has no list that leaves the units of the frequency; **positions are
free**. -/
def Parts.Confined (p : Parts) (f : Frequency) : Prop :=
  ∀ s ∈ p.stages, s ∈ f.confinedStages

instance (p : Parts) (f : Frequency) : Decidable (p.Confined f) :=
  inferInstanceAs (Decidable (∀ s ∈ p.stages, s ∈ f.confinedStages))

namespace Instant

variable {t c : Instant} {f : Frequency}

/-! ## Units that are shared -/

/-- Instants of one month lie in one year. -/
theorem unit_congr_month (h : c.date.monthIndex = t.date.monthIndex)
    (hf : Frequency.monthly ≤ f) : c.unit f = t.unit f := by
  have hc := c.date.monthIndex_div.1
  have ht := t.date.monthIndex_div.1
  cases f with
  | monthly => exact h
  | yearly => simp only [unit, ← hc, ← ht, h]
  | secondly | minutely | hourly | daily | weekly => exact absurd hf (by decide)

/-- Instants of one day lie in one unit of every frequency from days on. -/
theorem unit_congr_date (h : c.date = t.date) (hf : Frequency.daily ≤ f) :
    c.unit f = t.unit f := by
  cases f with
  | daily | weekly | monthly | yearly => simp only [unit, h]
  | secondly | minutely | hourly => exact absurd hf (by decide)

/-- Instants of one hour lie in one unit of every frequency from hours on. -/
theorem unit_congr_hour (h : c.date = t.date ∧ c.time.hour = t.time.hour)
    (hf : Frequency.hourly ≤ f) : c.unit f = t.unit f := by
  have := c.time.minute_lt
  have := c.time.second_lt
  have := t.time.minute_lt
  have := t.time.second_lt
  cases f with
  | hourly =>
    simp only [unit, seconds, TimeOfDay.seconds, h.1, h.2]
    omega
  | daily | weekly | monthly | yearly => exact unit_congr_date h.1 (by decide)
  | secondly | minutely => exact absurd hf (by decide)

/-- Instants of one minute lie in one unit of every frequency from minutes on. -/
theorem unit_congr_minute
    (h : c.date = t.date ∧ c.time.hour = t.time.hour ∧ c.time.minute = t.time.minute)
    (hf : Frequency.minutely ≤ f) : c.unit f = t.unit f := by
  have := c.time.second_lt
  have := t.time.second_lt
  cases f with
  | minutely =>
    simp only [unit, seconds, TimeOfDay.seconds, h.1, h.2.1, h.2.2]
    omega
  | hourly | daily | weekly | monthly | yearly =>
    exact unit_congr_hour ⟨h.1, h.2.1⟩ (by decide)
  | secondly => exact absurd hf (by decide)

end Instant

namespace Parts

variable {p : Parts} {f : Frequency} {t c : Instant}

namespace Confined

/-- Without week numbers the scope of a weekday is the unit of the frequency, or a
part of it. -/
theorem unit_of_mem_days (h : p.Confined f) {w : Weekday}
    (hd : c.date ∈ (p.scope f).days t.date w) (ht : c.time = t.time) : c.unit f = t.unit f := by
  have hempty : p.byWeekNo.isEmpty = true := by
    rw [← Bool.not_eq_false]
    intro hw
    have hactive : Stage.weekNo.isActive p := by simp [Stage.isActive, hw]
    exact (Stage.staysIn_of_mem (h .weekNo (mem_stages.2 hactive))).elim
  cases f with
  | secondly | minutely | hourly | daily =>
    have hdate : c.date = t.date := Scope.eq_of_mem_days_day hd
    rw [Instant.ext hdate ht]
  | weekly => exact Scope.week_of_mem_days_week hd
  | monthly =>
    simp only [scope, hempty, if_true] at hd
    exact Scope.monthIndex_of_mem_days_month hd
  | yearly =>
    simp only [scope, hempty, if_true] at hd
    split at hd
    · exact Scope.year_of_mem_days_year hd
    · exact Instant.unit_congr_month (Scope.monthIndex_of_mem_days_month hd) (by decide)

/-- **No stage of the rule leaves the unit.** -/
theorem unit_of_mem_instants (h : p.Confined f) {s : Stage} (hs : s ∈ p.stages)
    (hc : c ∈ s.instants p (p.scope f) t) : c.unit f = t.unit f := by
  have hf := Stage.staysIn_of_mem (h s hs)
  cases s with
  | month =>
    obtain ⟨m, -, hm⟩ := List.mem_filterMap.1 hc
    cases hf
    exact Instant.withMonth?_year hm
  | weekNo => exact hf.elim
  | yearDay =>
    obtain ⟨n, -, hn⟩ := List.mem_filterMap.1 hc
    cases hf
    exact Instant.onYearDay?_year hn
  | monthDay =>
    obtain ⟨n, -, hn⟩ := List.mem_filterMap.1 hc
    exact Instant.unit_congr_month (Instant.onMonthDay?_monthIndex hn) hf
  | day =>
    obtain ⟨e, -, he⟩ := List.mem_flatMap.1 hc
    obtain ⟨hd, ht⟩ := DayEntry.exists_of_mem_instants he
    exact h.unit_of_mem_days hd ht
  | hour =>
    obtain ⟨n, -, hn⟩ := List.mem_filterMap.1 hc
    exact Instant.unit_congr_date (Instant.atHour?_date hn) hf
  | minute =>
    obtain ⟨n, -, hn⟩ := List.mem_filterMap.1 hc
    exact Instant.unit_congr_hour (Instant.atMinute?_hour hn) hf
  | second =>
    obtain ⟨n, -, hn⟩ := List.mem_filterMap.1 hc
    exact Instant.unit_congr_minute (Instant.atSecond?_minute hn) hf

/-- **The candidates of a period lie in the unit of the instant that opens it.** -/
theorem unit_of_mem_candidates (h : p.Confined f) (hc : c ∈ p.candidates f [t]) :
    c.unit f = t.unit f := by
  refine forall_mem_candidates (P := fun c => c.unit f = t.unit f) rfl ?_ c hc
  intro s hs u hu c hc
  rw [h.unit_of_mem_instants hs hc, hu]

end Confined

end Parts

end Recurrence
