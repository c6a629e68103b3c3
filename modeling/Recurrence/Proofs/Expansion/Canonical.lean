import Recurrence.Proofs.Expansion.Chronology
import Recurrence.Proofs.Expansion.Entries

/-!
# Rules that keep the order of time

The stages never sort: what they make comes in the order of the rule's lists. A rule
is canonical when its lists are in order themselves and each stage sets a finer unit
than the one in which it moves: months in a year, days in a month or a week, hours in
a day. Each stage then turns instants of different units, in order, into instants of
**different finer units, in order** (`Instant.Ascending.flatMap`), and the answer to a
request is strictly increasing (`Rule.occurrences_strictly_increasing`).
-/

namespace Recurrence

open Calendar

/-! ## Finer units -/

/-- In one month, a later day of the month is a later day. -/
theorem Date.day_lt_of_monthDay_lt {d e : Date} (hm : d.monthIndex = e.monthIndex)
    (h : d.monthDay < e.monthDay) : d.day < e.day := by
  have := day_sub_day hm
  omega

namespace Instant

variable {t u : Instant} {ts : List Instant} {f g : Frequency}

/-- **Instants that share a unit share every coarser one**; only weeks do not lie in
months. -/
theorem unit_congr_of_le (h : t.unit g = u.unit g) (hg : g ≤ f) (hw : g ≠ .weekly) :
    t.unit f = u.unit f := by
  have htm := t.time.minute_lt
  have hts := t.time.second_lt
  have hum := u.time.minute_lt
  have hus := u.time.second_lt
  have htd := t.time.seconds_lt
  have hud := u.time.seconds_lt
  cases g with
  | secondly => rw [seconds_inj.1 h]
  | minutely =>
    simp only [unit, seconds] at h
    have hdate : t.date = u.date := Date.ext (by omega)
    simp only [TimeOfDay.seconds, hdate] at h
    exact unit_congr_minute ⟨hdate, by omega, by omega⟩ hg
  | hourly =>
    simp only [unit, seconds] at h
    have hdate : t.date = u.date := Date.ext (by omega)
    simp only [TimeOfDay.seconds, hdate] at h
    exact unit_congr_hour ⟨hdate, by omega⟩ hg
  | daily => exact unit_congr_date (Date.ext h) hg
  | weekly => exact absurd rfl hw
  | monthly => exact unit_congr_month h hg
  | yearly =>
    cases f with
    | yearly => exact h
    | secondly | minutely | hourly | daily | weekly | monthly => exact absurd hg (by decide)

/-- An instant in an earlier unit lies in an earlier one of every finer kind. -/
theorem unit_lt_of_le (h : t.unit f < u.unit f) (hg : g ≤ f) (hw : g ≠ .weekly) :
    t.unit g < u.unit g := by
  rcases Int.lt_or_eq_of_le (unit_mono g (le_of_lt (lt_of_unit_lt h))) with hlt | heq
  · exact hlt
  · have := unit_congr_of_le heq hg hw
    omega

/-- Instants in different units of a frequency, the earlier ones first. -/
def Ascending (f : Frequency) (ts : List Instant) : Prop :=
  ts.Pairwise fun t u => t.unit f < u.unit f

namespace Ascending

theorem lt (h : Ascending f ts) : ts.Pairwise (· < ·) :=
  h.imp lt_of_unit_lt

/-- Different units are different in every finer kind. -/
theorem finer (h : Ascending f ts) (hg : g ≤ f) (hw : g ≠ .weekly) : Ascending g ts :=
  h.imp fun htu => unit_lt_of_le htu hg hw

/-- **Order is kept from unit to finer unit.** What is made of each instant stays in
the unit of the instant and is in order there; so all of it is. -/
theorem flatMap {make : Instant → List Instant} (h : Ascending f ts) (hg : g ≤ f)
    (hw : g ≠ .weekly) (hmade : ∀ t, Ascending g (make t))
    (hstays : ∀ t, ∀ c ∈ make t, c.unit f = t.unit f) : Ascending g (ts.flatMap make) := by
  rw [Ascending, List.pairwise_flatMap]
  refine ⟨fun t _ => hmade t, h.imp ?_⟩
  intro t u htu c hc d hd
  rw [← hstays t c hc, ← hstays u d hd] at htu
  exact unit_lt_of_le htu hg hw

/-- Instants that entries in order set are in order. -/
theorem filterMap {α : Type} {R : α → α → Prop} {xs : List α} {make : α → Option Instant}
    (hxs : xs.Pairwise R)
    (hmake : ∀ x y, R x y → ∀ c, make x = some c → ∀ d, make y = some d → c.unit g < d.unit g) :
    Ascending g (xs.filterMap make) := by
  rw [Ascending, List.pairwise_filterMap]
  exact hxs.imp fun hxy c hc d hd => hmake _ _ hxy c hc d hd

end Ascending

/-! ## What entries in order make -/

variable {c d : Instant}

/-- Later months of a year. -/
theorem monthly_lt_of_withMonth? {m n : Nat} (hc : t.withMonth? m = some c)
    (hd : t.withMonth? n = some d) (h : m < n) : c.unit .monthly < d.unit .monthly := by
  simp only [unit, Date.monthIndex, withMonth?_year hc, withMonth?_year hd, withMonth?_month hc,
    withMonth?_month hd]
  omega

/-- A positive entry is the day of the month that it sets. -/
theorem monthDay_of_onMonthDay? {n : Int} (hc : t.onMonthDay? n = some c) (hn : 1 ≤ n) :
    (c.date.monthDay : Int) = n := by
  have h := resolve_of_onMonthDay? hc
  unfold Position.resolve at h
  split at h
  · have := Option.some.inj h
    omega
  · rw [if_neg (by omega)] at h
    cases h

/-- Later days of a month. -/
theorem daily_lt_of_onMonthDay? {m n : Int} (hc : t.onMonthDay? m = some c)
    (hd : t.onMonthDay? n = some d) (hm : 1 ≤ m) (h : m < n) : c.unit .daily < d.unit .daily := by
  apply Date.day_lt_of_monthDay_lt
  · rw [onMonthDay?_monthIndex hc, onMonthDay?_monthIndex hd]
  · have := monthDay_of_onMonthDay? hc hm
    have := monthDay_of_onMonthDay? hd (by omega)
    omega

/-- Later hours of a day. -/
theorem hourly_lt_of_atHour? {m n : Nat} (hc : t.atHour? m = some c) (hd : t.atHour? n = some d)
    (h : m < n) : c.unit .hourly < d.unit .hourly := by
  obtain ⟨hcd, hch, -, -⟩ := atHour?_time hc
  obtain ⟨hdd, hdh, -, -⟩ := atHour?_time hd
  have := c.time.minute_lt
  have := c.time.second_lt
  simp only [unit, seconds, TimeOfDay.seconds, hcd, hdd, hch, hdh]
  omega

/-- Later minutes of an hour. -/
theorem minutely_lt_of_atMinute? {m n : Nat} (hc : t.atMinute? m = some c)
    (hd : t.atMinute? n = some d) (h : m < n) : c.unit .minutely < d.unit .minutely := by
  obtain ⟨hcd, hch, hcm, -⟩ := atMinute?_time hc
  obtain ⟨hdd, hdh, hdm, -⟩ := atMinute?_time hd
  have := c.time.second_lt
  simp only [unit, seconds, TimeOfDay.seconds, hcd, hdd, hch, hdh, hcm, hdm]
  omega

/-- Later seconds of a minute. -/
theorem secondly_lt_of_atSecond? {m n : Nat} (hc : t.atSecond? m = some c)
    (hd : t.atSecond? n = some d) (h : m < n) : c.unit .secondly < d.unit .secondly := by
  obtain ⟨hcd, hch, hcm, hcs⟩ := atSecond?_time hc
  obtain ⟨hdd, hdh, hdm, hds⟩ := atSecond?_time hd
  simp only [unit, seconds, TimeOfDay.seconds, hcd, hdd, hch, hdh, hcm, hdm, hcs, hds]
  omega

end Instant

/-- An entry without an ordinal stands for days in order. -/
theorem DayEntry.ascending_instants {e : DayEntry} (h : e.ordinal = none) (scope : Scope)
    (t : Instant) : Instant.Ascending .daily (e.instants scope t) := by
  simp only [instants, h]
  exact List.pairwise_map.2 (scope.days_pairwise t.date e.weekday)

/-! ## Canonical rules -/

/-- The stages that a canonical rule may have. -/
def Frequency.canonicalStages : Frequency → List Stage
  | secondly => []
  | minutely => [.second]
  | hourly => [.minute, .second]
  | daily | weekly => [.day, .hour, .minute, .second]
  | monthly => [.monthDay, .hour, .minute, .second]
  | yearly => [.month, .monthDay, .hour, .minute, .second]

namespace Stage

/-- The unit in which a stage of a canonical rule moves. -/
def span (f : Frequency) : Stage → Frequency
  | month | weekNo | yearDay => .yearly
  | monthDay => .monthly
  | day => f
  | hour => .daily
  | minute => .hourly
  | second => .minutely

/-- The unit that a stage sets. -/
def grain : Stage → Frequency
  | month => .monthly
  | weekNo | yearDay | monthDay | day => .daily
  | hour => .hourly
  | minute => .minutely
  | second => .secondly

/-- A stage sets a unit of the one in which it moves. -/
theorem grain_le_span (f : Frequency) :
    ∀ s ∈ f.canonicalStages, s.grain ≤ s.span f ∧ s.grain ≠ .weekly := by
  cases f <;> decide

/-- A later stage moves in a unit of those that earlier stages have set. -/
theorem span_le_grain (f : Frequency) :
    ∀ s ∈ f.canonicalStages, ∀ s' ∈ f.canonicalStages, s.rank < s'.rank →
      s'.span f ≤ s.grain ∧ s'.span f ≠ .weekly := by
  cases f <;> decide

end Stage

/-- One weekday may stand before another: **where each date is looked at on its own,
every other one**; in a week, those that come later. -/
def DayEntry.Precedes (f : Frequency) (e e' : DayEntry) : Prop :=
  if f = .daily then e.weekday ≠ e'.weekday else e.weekday.index < e'.weekday.index

instance (f : Frequency) (e e' : DayEntry) : Decidable (e.Precedes f e') :=
  inferInstanceAs (Decidable (if f = .daily then _ else _))

/-- A rule without positions whose lists are in order. -/
structure Parts.Canonical (p : Parts) (f : Frequency) : Prop where
  /-- Each list sets a finer unit than the one in which it moves. -/
  stages : ∀ s ∈ p.stages, s ∈ f.canonicalStages
  /-- Positions would choose among the instants, in any order. -/
  bySetPos : p.bySetPos = []
  /-- Months are in order. -/
  byMonth : p.byMonth.Pairwise (·.val < ·.val)
  /-- Days of the month are in order, and counted from its beginning. -/
  byMonthDay : p.byMonthDay.Pairwise (·.val < ·.val) ∧ ∀ n ∈ p.byMonthDay, 1 ≤ n.val
  /-- Weekdays are in order, each once and without an ordinal. -/
  byDay : p.byDay.Pairwise (DayEntry.Precedes f) ∧ ∀ e ∈ p.byDay, e.ordinal = none
  /-- Hours are in order. -/
  byHour : p.byHour.Pairwise (·.val < ·.val)
  /-- Minutes are in order. -/
  byMinute : p.byMinute.Pairwise (·.val < ·.val)
  /-- Seconds are in order. -/
  bySecond : p.bySecond.Pairwise (·.val < ·.val)

namespace Parts

variable {p : Parts} {f : Frequency} {anchor start bound t c : Instant} {s : Stage}

namespace Canonical

/-- A canonical rule stays in its periods. -/
theorem confined (h : p.Canonical f) : p.Confined f := by
  have hsub : ∀ s ∈ f.canonicalStages, s ∈ f.confinedStages := by cases f <;> decide
  intro s hs
  exact hsub s (h.stages s hs)

/-- No stage leaves the unit in which it moves. -/
theorem unit_of_mem_instants (h : p.Canonical f) (hs : s ∈ p.stages)
    (hc : c ∈ s.instants p (p.scope f) t) : c.unit (s.span f) = t.unit (s.span f) := by
  have hcanonical := h.stages s hs
  cases s with
  | month =>
    obtain ⟨m, -, hm⟩ := List.mem_filterMap.1 hc
    exact Instant.withMonth?_year hm
  | weekNo | yearDay => exact absurd hcanonical (by cases f <;> decide)
  | monthDay =>
    obtain ⟨n, -, hn⟩ := List.mem_filterMap.1 hc
    exact Instant.onMonthDay?_monthIndex hn
  | day => exact h.confined.unit_of_mem_instants hs hc
  | hour =>
    obtain ⟨n, -, hn⟩ := List.mem_filterMap.1 hc
    exact Instant.unit_congr_date (f := .daily) (Instant.atHour?_date hn) (by decide)
  | minute =>
    obtain ⟨n, -, hn⟩ := List.mem_filterMap.1 hc
    exact Instant.unit_congr_hour (f := .hourly) (Instant.atMinute?_hour hn) (by decide)
  | second =>
    obtain ⟨n, -, hn⟩ := List.mem_filterMap.1 hc
    exact Instant.unit_congr_minute (f := .minutely) (Instant.atSecond?_minute hn) (by decide)

/-- The weekdays of a rule stand for days in order: of one date at most one of them, and
of a week each in its place. -/
theorem ascending_instants_day (h : p.Canonical f) (hs : Stage.day ∈ p.stages) (t : Instant) :
    Instant.Ascending .daily (Stage.day.instants p (p.scope f) t) := by
  have hcanonical := h.stages _ hs
  obtain ⟨horder, hplain⟩ := h.byDay
  show Instant.Ascending _ (p.byDay.flatMap _)
  rw [Instant.Ascending, List.pairwise_flatMap]
  refine ⟨fun e he => e.ascending_instants (hplain e he) _ t, horder.imp ?_⟩
  intro e e' hprecedes c hc d hd
  obtain ⟨hcd, -⟩ := DayEntry.exists_of_mem_instants hc
  obtain ⟨hdd, -⟩ := DayEntry.exists_of_mem_instants hd
  obtain ⟨_, _, -, -, hcw⟩ := Scope.mem_days_iff.1 hcd
  obtain ⟨_, _, -, -, hdw⟩ := Scope.mem_days_iff.1 hdd
  cases f with
  | daily =>
    -- One date has one weekday.
    have hdate : c.date = d.date :=
      (Scope.eq_of_mem_days_day hcd).trans (Scope.eq_of_mem_days_day hdd).symm
    exact absurd (hcw.symm.trans ((congrArg Date.weekday hdate).trans hdw)) hprecedes
  | weekly =>
    have hcweek := Scope.week_of_mem_days_week hcd
    have hdweek := Scope.week_of_mem_days_week hdd
    have hci := c.date.weekday_index
    have hdi := d.date.weekday_index
    have hindex : e.weekday.index < e'.weekday.index := hprecedes
    rw [hcw] at hci
    rw [hdw] at hdi
    simp only [Instant.unit]
    omega
  | secondly | minutely | hourly | monthly | yearly => exact absurd hcanonical (by decide)

/-- **Each stage makes instants in order**, in different units of those that it sets. -/
theorem ascending_instants (h : p.Canonical f) (hs : s ∈ p.stages) (t : Instant) :
    Instant.Ascending s.grain (s.instants p (p.scope f) t) := by
  have hcanonical := h.stages s hs
  have hlt : ∀ {m n : Octet}, m.val < n.val → m.toNat < n.toNat := by
    intro m n hmn
    have := m.lo_le
    unfold Ranged.toNat
    omega
  cases s with
  | month =>
    exact .filterMap h.byMonth fun m n hmn c hc d hd =>
      Instant.monthly_lt_of_withMonth? hc hd (hlt hmn)
  | weekNo | yearDay => exact absurd hcanonical (by cases f <;> decide)
  | monthDay =>
    obtain ⟨horder, hpos⟩ := h.byMonthDay
    exact .filterMap (horder.imp_of_mem fun hm _ hmn => And.intro (hpos _ hm) hmn)
      fun m n hmn c hc d hd => Instant.daily_lt_of_onMonthDay? hc hd hmn.1 hmn.2
  | day => exact h.ascending_instants_day hs t
  | hour =>
    exact .filterMap h.byHour fun m n hmn c hc d hd =>
      Instant.hourly_lt_of_atHour? hc hd (hlt hmn)
  | minute =>
    exact .filterMap h.byMinute fun m n hmn c hc d hd =>
      Instant.minutely_lt_of_atMinute? hc hd (hlt hmn)
  | second =>
    exact .filterMap h.bySecond fun m n hmn c hc d hd =>
      Instant.secondly_lt_of_atSecond? hc hd (hlt hmn)

/-- **A stage keeps the order of a period**: instants of different units of those in which
it moves become instants of different units of those that it sets. -/
theorem ascending_afterStage (h : p.Canonical f) (hs : s ∈ p.stages) {period : List Instant}
    (hperiod : Instant.Ascending (s.span f) period) :
    Instant.Ascending s.grain (p.afterStage (p.scope f) s period) := by
  obtain ⟨hle, hweekly⟩ := Stage.grain_le_span f s (h.stages s hs)
  rw [afterStage_eq_flatMap h.bySetPos]
  exact hperiod.flatMap hle hweekly (fun t => h.ascending_instants hs t)
    fun t c hc => h.unit_of_mem_instants hs hc

/-- All stages keep the order of a period. -/
theorem foldl_afterStage_pairwise (h : p.Canonical f) {stages : List Stage}
    (hmem : ∀ s ∈ stages, s ∈ p.stages)
    (hrank : stages.Pairwise fun s s' => s.rank < s'.rank) {period : List Instant}
    (hlt : period.Pairwise (· < ·))
    (hperiod : ∀ s ∈ stages, Instant.Ascending (s.span f) period) :
    (stages.foldl (fun period s => p.afterStage (p.scope f) s period) period).Pairwise
      (· < ·) := by
  -- What carries the induction is that the instants differ in the unit of every stage to come.
  induction stages generalizing period with
  | nil => exact hlt
  | cons s stages ih =>
    have hs := hmem s List.mem_cons_self
    have hmade := h.ascending_afterStage hs (hperiod s List.mem_cons_self)
    refine ih (fun s' hs' => hmem s' (List.mem_cons_of_mem _ hs')) hrank.of_cons hmade.lt ?_
    intro s' hs'
    obtain ⟨hle, hweekly⟩ := Stage.span_le_grain f s (h.stages s hs) s'
      (h.stages s' (hmem s' (List.mem_cons_of_mem _ hs'))) (List.rel_of_pairwise_cons hrank hs')
    exact hmade.finer hle hweekly

/-- **The candidates of a period are in order.** -/
theorem candidates_pairwise (h : p.Canonical f) (t : Instant) :
    (p.candidates f [t]).Pairwise (· < ·) := by
  rw [candidates_singleton]
  exact h.foldl_afterStage_pairwise (fun _ hs => hs) p.stages_pairwise
    (List.pairwise_singleton _ _) fun _ _ => List.pairwise_singleton _ _

end Canonical

end Parts

namespace Rule

variable {r : Rule} {f : Frequency} {q : Request}

/-- The periods that a request visits follow one another. -/
theorem opening_pairwise (hc : r.Chronological f) (q : Request) :
    (r.opening f q).Pairwise fun t u =>
      Instant.AllBefore (r.candidates f [t]) (r.candidates f [u]) := by
  unfold opening
  split
  · exact hc.lattice_pairwise r.one_le_step
  · exact .nil

/-- **The occurrences of a canonical rule are in order, each once**, from every anchor, in
every window, in steps of every length and however the rule ends. -/
theorem occurrences_strictly_increasing (hf : r.freq = some f) (hc : r.Canonical f)
    (hk : q.kind = .dateTime) :
    ∃ l, r.occurrences q = .ok l ∧ l.dates.Pairwise (· < ·) ∧ l.dates.Nodup := by
  obtain ⟨l, cs, hl, hdates, hcs⟩ := exists_sublist_candidates hf q
  have hcandidates : (r.candidates f (r.opening f q)).Pairwise (· < ·) := by
    rw [Parts.candidates_eq_flatMap, List.pairwise_flatMap]
    exact ⟨fun t _ => hc.candidates_pairwise t, opening_pairwise (.inl hc.confined) q⟩
  have hlt : l.dates.Pairwise (· < ·) := by
    rw [hdates, hk]
    exact List.pairwise_map.2 (hcandidates.sublist hcs)
  refine ⟨l, hl, hlt, hlt.imp ?_⟩
  rintro v _ hv rfl
  exact Instant.not_lt.2 (Instant.le_refl v.instant) hv

/-- The last days of June and November, every fourth year, in the morning and in the
evening; twenty times. Not all of these days and seconds exist. -/
def lateInJuneAndNovember : Rule where
  freq := some .yearly
  interval := some (.of 4)
  termination := some (.count (.of 20))
  byMonth := [.of 6, .of 11]
  byMonthDay := [.of 29, .of 30, .of 31]
  byHour := [.of 7, .of 19]
  bySecond := [.of 0, .of 60]
  valid := Parts.fault?_eq_none_iff.1 (by decide)

/-- From a day on that neither month has. -/
theorem lateInJuneAndNovember_strictly_increasing :
    let anchor := (Date.ymd 2019 1 31).atHour 8
    let q := Request.between anchor anchor ((Date.ymd 2030 1 1).atHour 0)
    lateInJuneAndNovember.Canonical .yearly ∧
      ∃ l, lateInJuneAndNovember.occurrences q = .ok l ∧ l.dates.Pairwise (· < ·) ∧
        l.dates.Nodup := by
  intro anchor q
  have hc : lateInJuneAndNovember.Canonical .yearly :=
    ⟨by decide, rfl, by decide, by decide, by decide, by decide, by decide, by decide⟩
  exact ⟨hc, occurrences_strictly_increasing rfl hc rfl⟩

end Rule

end Recurrence
