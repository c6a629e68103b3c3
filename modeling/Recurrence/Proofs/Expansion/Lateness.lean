import Recurrence.Proofs.Expansion.Seed
import Recurrence.Rule.Edit

/-!
# How late a seed is

A seed never lies before its window, and **its date is never later than one unit after the
beginning**. Neither is the seed itself, but for one case: steps of months from two days of a
month can end on one day, the last of a shorter month, and then the times of day decide
(`Instant.advance?_lt_iff`). `Parts.CutShort` says when a seed is late in this way, and by the
hours of one day only.
-/

namespace Recurrence

open Calendar

namespace Instant

variable {finest : Field} {f : Frequency} {t u v w m a : Instant} {n : Nat}

/-! ## Steps from two instants -/

/-- Steps of a fixed length keep the order of instants. -/
theorem advance?_le_of_lt_monthly (hf : f < .monthly) (h : t ≤ u) (ht : t.advance? f n = some v)
    (hu : u.advance? f n = some w) : v ≤ w := by
  rw [le_iff_seconds_le] at *
  cases f with
  | secondly | minutely | hourly =>
    have hv := addSeconds?_eq_some_iff.1 ht
    have hw := addSeconds?_eq_some_iff.1 hu
    omega
  | daily | weekly =>
    obtain ⟨hvday, hvtime⟩ := addDays?_eq_some_iff.1 ht
    obtain ⟨hwday, hwtime⟩ := addDays?_eq_some_iff.1 hu
    simp only [seconds, hvday, hvtime, hwday, hwtime] at h ⊢
    omega
  | monthly | yearly => exact absurd hf (by decide)

/-- Steps of months keep the order of dates, and **that of instants unless a month end cuts
the steps from two days of one month back to the same day** and the time of the earlier day
is the later one. -/
theorem addMonths?_order (h : t ≤ u) (ht : t.addMonths? n = some v) (hu : u.addMonths? n = some w) :
    v.date ≤ w.date ∧
      (w < v ↔ t.date.monthIndex = u.date.monthIndex ∧ w.date.monthDay ≤ t.date.monthDay ∧
        t.date.monthDay < u.date.monthDay ∧ u.time.seconds < t.time.seconds) := by
  obtain ⟨hvindex, hvday, hvtime⟩ := addMonths?_eq_some_iff.1 ht
  obtain ⟨hwindex, hwday, hwtime⟩ := addMonths?_eq_some_iff.1 hu
  rcases Int.lt_or_eq_of_le (Date.monthIndex_mono (day_le_of_le h)) with hlt | heq
  · have hvw : v < w := lt_of_unit_lt (f := .monthly) (by simp only [unit]; omega)
    refine ⟨day_le_of_le (le_of_lt hvw), ?_⟩
    rw [← not_le, iff_false_intro (Int.ne_of_lt hlt), false_and, iff_false, Classical.not_not]
    exact le_of_lt hvw
  · -- In one month days are compared as days of the month, before the steps and after them.
    have hindex : v.date.monthIndex = w.date.monthIndex := by omega
    have htu := Date.day_sub_day heq
    have hvw := Date.day_sub_day hindex
    rw [← v.date.monthIndex_div.1, ← v.date.monthIndex_div.2, hindex, w.date.monthIndex_div.1,
      w.date.monthIndex_div.2] at hvday
    have hday := day_le_of_le h
    refine ⟨show v.date.day ≤ w.date.day by omega, ?_⟩
    replace h : t.date.day < u.date.day ∨
      t.date.day = u.date.day ∧ t.time.seconds ≤ u.time.seconds := h
    show w.date.day < v.date.day ∨
      w.date.day = v.date.day ∧ w.time.seconds < v.time.seconds ↔ _
    rw [hvtime, hwtime]
    omega

/-- **A step from a later instant leads to no earlier date.** -/
theorem advance?_date_le (h : t ≤ u) (ht : t.advance? f n = some v) (hu : u.advance? f n = some w) :
    v.date ≤ w.date := by
  cases f with
  | secondly | minutely | hourly | daily | weekly =>
    exact day_le_of_le (advance?_le_of_lt_monthly (by decide) h ht hu)
  | monthly | yearly => exact (addMonths?_order h ht hu).1

/-- **A step from a later instant leads to an earlier one in months and years only**, and
there only where a month end cuts both steps back to one day. -/
theorem advance?_lt_iff (h : t ≤ u) (ht : t.advance? f n = some v) (hu : u.advance? f n = some w) :
    w < v ↔ Frequency.monthly ≤ f ∧ t.date.monthIndex = u.date.monthIndex ∧
      w.date.monthDay ≤ t.date.monthDay ∧ t.date.monthDay < u.date.monthDay ∧
      u.time.seconds < t.time.seconds := by
  rcases Nat.lt_or_ge f.rank Frequency.monthly.rank with hf | hf
  · have hle := advance?_le_of_lt_monthly hf h ht hu
    constructor
    · intro hlt
      exact absurd hle (not_le.2 hlt)
    · intro hcut
      exact absurd hf (Nat.not_lt.2 hcut.1)
  · rw [and_iff_right (show Frequency.monthly ≤ f from hf)]
    cases f with
    | secondly | minutely | hourly | daily | weekly => exact absurd hf (by decide)
    | monthly | yearly => exact (addMonths?_order h ht hu).2

/-! ## Fields of the time of day -/

/-- Two times of day have the same fields below `finest`. -/
structure AgreeBelow (finest : Field) (b c : TimeOfDay) : Prop where
  /-- The hours are the same when they are finer. -/
  hour : ¬ Field.hour ≤ finest → b.hour = c.hour
  /-- The minutes are the same when they are finer. -/
  minute : ¬ Field.minute ≤ finest → b.minute = c.minute
  /-- The seconds are the same when they are finer. -/
  second : ¬ Field.second ≤ finest → b.second = c.second

/-- A blend of times has the finer fields of the fine one. -/
theorem agreeBelow_blendTime (finest : Field) (coarse fine : TimeOfDay) :
    AgreeBelow finest (blendTime finest coarse fine) fine := by
  cases finest <;> constructor <;> intro h <;> first | rfl | exact absurd (by decide) h

/-- **A step leaves the fields below its own as they are.** -/
theorem agreeBelow_advance? (h : t.advance? f n = some u) : AgreeBelow f.field u.time t.time := by
  have htm := t.time.minute_lt
  have hts := t.time.second_lt
  have hum := u.time.minute_lt
  have hus := u.time.second_lt
  cases f with
  | secondly =>
    constructor <;> intro hfiner <;> exact absurd (by decide) hfiner
  | minutely =>
    have hu := addSeconds?_eq_some_iff.1 h
    simp only [seconds, TimeOfDay.seconds] at hu
    constructor <;> intro hfiner <;> first | omega | exact absurd (by decide) hfiner
  | hourly =>
    have hu := addSeconds?_eq_some_iff.1 h
    simp only [seconds, TimeOfDay.seconds] at hu
    constructor <;> intro hfiner <;> first | omega | exact absurd (by decide) hfiner
  | daily | weekly =>
    rw [(addDays?_eq_some_iff.1 h).2]
    exact ⟨fun _ => rfl, fun _ => rfl, fun _ => rfl⟩
  | monthly | yearly =>
    rw [(addMonths?_eq_some_iff.1 h).2.2]
    exact ⟨fun _ => rfl, fun _ => rfl, fun _ => rfl⟩

/-- Times that agree below one field agree below finer ones. -/
theorem AgreeBelow.trans {coarser : Field} {b c d : TimeOfDay} (hle : coarser ≤ finest)
    (h : AgreeBelow coarser b c) (h' : AgreeBelow finest c d) : AgreeBelow finest b d := by
  have hfiner : ∀ {x : Field}, ¬ x ≤ finest → ¬ x ≤ coarser := fun hx hxc =>
    hx (Nat.le_trans hxc hle)
  exact ⟨fun hx => (h.hour (hfiner hx)).trans (h'.hour hx),
    fun hx => (h.minute (hfiner hx)).trans (h'.minute hx),
    fun hx => (h.second (hfiner hx)).trans (h'.second hx)⟩

/-! ## Blends -/

/-- The finer fields of the time of day are the anchor's. -/
theorem agreeBelow_blend? (h : blend? finest m a = some t) : AgreeBelow finest t.time a.time := by
  obtain ⟨d, -, rfl⟩ := Option.map_eq_some_iff.1 h
  exact agreeBelow_blendTime finest m.time a.time

/-- **When a blend lies on an earlier day of the month than the window's beginning**: where
nothing finer than months is set and the anchor's day of the month is an earlier one. -/
theorem blend?_monthDay_lt_iff (h : blend? finest m a = some t) :
    t.date.monthIndex = m.date.monthIndex ∧ t.date.monthDay < m.date.monthDay ↔
      (finest = .month ∨ finest = .year ∧ a.date.month = m.date.month) ∧
        a.date.monthDay < m.date.monthDay := by
  have hlength := m.date.monthDay_bounds.2
  cases finest with
  | day | hour | minute | second =>
    rw [(date_blend? h (by decide)).1]
    simp
  | month =>
    obtain ⟨d, hd, rfl⟩ := Option.map_eq_some_iff.1 h
    obtain ⟨hyear, hmonth, hday⟩ := Date.ofYmdClamped?_eq_some_iff.1 hd
    simp only [Date.monthIndex, hyear, hmonth, hday, true_or, true_and]
    omega
  | year =>
    obtain ⟨d, hd, rfl⟩ := Option.map_eq_some_iff.1 h
    obtain ⟨hyear, hmonth, hday⟩ := Date.ofYmdClamped?_eq_some_iff.1 hd
    have hindex : d.monthIndex = m.date.monthIndex ↔ a.date.month = m.date.month := by
      have hm := m.date.month_bounds.1
      have ha := a.date.month_bounds.1
      simp only [Date.monthIndex, hyear, hmonth]
      omega
    simp only [hindex, hday, reduceCtorEq, false_or, true_and]
    refine and_congr_right fun heq => ?_
    rw [heq]
    omega

/-- Such a blend has the anchor's day of the month, which its month has, and the anchor's time
of day. -/
theorem blend?_of_monthDay_lt (h : blend? finest m a = some t)
    (hlt : t.date.monthIndex = m.date.monthIndex ∧ t.date.monthDay < m.date.monthDay) :
    t.date.monthDay = a.date.monthDay ∧ t.time = a.time := by
  obtain ⟨hfield, hday⟩ := (blend?_monthDay_lt_iff h).1 hlt
  have hlength := m.date.monthDay_bounds.2
  obtain ⟨d, hd, rfl⟩ := Option.map_eq_some_iff.1 h
  rcases hfield with rfl | ⟨rfl, hmonth⟩
  · have hkept := (Date.ofYmdClamped?_eq_some_iff.1 hd).2.2
    exact ⟨hkept.trans (Nat.min_eq_left (by omega)), rfl⟩
  · have hkept := (Date.ofYmdClamped?_eq_some_iff.1 hd).2.2
    rw [hmonth] at hkept
    exact ⟨hkept.trans (Nat.min_eq_left (by omega)), rfl⟩

end Instant

namespace Parts

variable {p : Parts} {f : Frequency} {anchor start m b s u : Instant}

/-- The fields of the time of day that the rule leaves open are the anchor's. -/
theorem agreeBelow_seed? (h : p.seed? f anchor start = some s) :
    Instant.AgreeBelow (p.finestField f) s.time anchor.time := by
  obtain ⟨b, hb, -, ⟨-, hs⟩ | ⟨-, rfl⟩⟩ := exists_blend?_of_seed? h
  · exact (Instant.agreeBelow_advance? hs).trans (p.field_le_finestField f)
      (Instant.agreeBelow_blend? hb)
  · exact Instant.agreeBelow_blend? hb

/-- A month end brings the seed and `u`, one unit after `m`, to one day, and the seed to the
later hour. -/
structure CutShort (p : Parts) (f : Frequency) (anchor m u : Instant) : Prop where
  /-- The day of the month is taken from the anchor, and the month is that of `m`. -/
  field : p.finestField f = .month ∨ p.finestField f = .year ∧ anchor.date.month = m.date.month
  /-- The anchor's is an earlier day of the month. -/
  monthDay_lt : anchor.date.monthDay < m.date.monthDay
  /-- The month that one unit leads to ends with the anchor's day or before. -/
  monthDay_le : u.date.monthDay ≤ anchor.date.monthDay
  /-- The anchor's is a later time of day. -/
  time_lt : m.time.seconds < anchor.time.seconds

/-- A rule that sets nothing finer than months steps in months or years. -/
theorem CutShort.monthly_le (h : p.CutShort f anchor m u) : Frequency.monthly ≤ f := by
  have hle := p.field_le_finestField f
  rcases h.field with hfield | ⟨hfield, -⟩ <;> rw [hfield] at hle <;>
    cases f <;> first | decide | exact absurd hle (by decide)

/-- **A seed is later than one unit after the beginning only where a month end cuts both short
to one day.** -/
theorem lt_seed?_iff_cutShort (h : p.seed? f anchor start = some s)
    (hu : (max start anchor).advance? f 1 = some u) :
    u < s ↔ p.CutShort f anchor (max start anchor) u := by
  obtain ⟨b, hb, hunit, hcases⟩ := exists_blend?_of_seed? h
  have hearlier := Instant.blend?_monthDay_lt_iff hb
  rcases hcases with ⟨hlt, hs⟩ | ⟨hle, rfl⟩
  · rw [Instant.advance?_lt_iff (Instant.le_of_lt hlt) hs hu]
    constructor
    · rintro ⟨-, hindex, hcut, hday, htime⟩
      obtain ⟨hkept, htimes⟩ := Instant.blend?_of_monthDay_lt hb ⟨hindex, hday⟩
      obtain ⟨hfield, hanchor⟩ := hearlier.1 ⟨hindex, hday⟩
      exact ⟨hfield, hanchor, hkept ▸ hcut, htimes ▸ htime⟩
    · intro hcut
      obtain ⟨hindex, hday⟩ := hearlier.2 ⟨hcut.field, hcut.monthDay_lt⟩
      obtain ⟨hkept, htimes⟩ := Instant.blend?_of_monthDay_lt hb ⟨hindex, hday⟩
      exact ⟨hcut.monthly_le, hindex, hkept ▸ hcut.monthDay_le, hday, htimes ▸ hcut.time_lt⟩
  · constructor
    · intro hlt
      -- The blend is in the unit before that of `u`.
      have hstep := Instant.unit_advance? hu
      have hsu : s < u := Instant.lt_of_unit_lt (f := f) (by omega)
      exact absurd (Instant.le_of_lt hsu) (Instant.not_le.2 hlt)
    · intro hcut
      obtain ⟨hindex, hday⟩ := hearlier.2 ⟨hcut.field, hcut.monthDay_lt⟩
      have hdays := Date.day_sub_day hindex
      exact absurd (show s < max start anchor from .inl (by omega)) (Instant.not_lt.2 hle)

/-- **The date of a seed is no later than one unit after the beginning.** -/
theorem seed?_date_le (h : p.seed? f anchor start = some s)
    (hu : (max start anchor).advance? f 1 = some u) : s.date ≤ u.date := by
  obtain ⟨b, -, hunit, ⟨hlt, hs⟩ | ⟨-, rfl⟩⟩ := exists_blend?_of_seed? h
  · exact Instant.advance?_date_le (Instant.le_of_lt hlt) hs hu
  · have hstep := Instant.unit_advance? hu
    exact Instant.day_le_of_le (Instant.le_of_lt (Instant.lt_of_unit_lt (f := f) (by omega)))

/-- **A seed lies neither before its window nor more than one unit late**, but for the hours
of a day where a month end cuts it short. Its finer fields are the anchor's, it is the anchor
itself where the window begins no later, it is missing only where the calendar ends within
one unit, and the interval of the rule does not move it. -/
theorem seed?_lateness (p : Parts) (f : Frequency) (anchor start : Instant) :
    (∀ s, p.seed? f anchor start = some s →
      max start anchor ≤ s ∧
      (∀ u, (max start anchor).advance? f 1 = some u →
        s.date ≤ u.date ∧ (u < s ↔ p.CutShort f anchor (max start anchor) u)) ∧
      Instant.AgreeBelow (p.finestField f) s.time anchor.time ∧
      (start ≤ anchor → s = anchor)) ∧
    (p.seed? f anchor start = none →
      (max start anchor).advance? f 1 = none ∧
      ∃ b, Instant.blend? (p.finestField f) (max start anchor) anchor = some b ∧
        b < max start anchor ∧ b.advance? f 1 = none) ∧
    ∀ i, ({ p with interval := i } : Parts).seed? f anchor start = p.seed? f anchor start := by
  refine ⟨?_, ?_, fun _ => rfl⟩
  · intro s hs
    refine ⟨le_seed? hs, fun u hu => ⟨seed?_date_le hs hu, lt_seed?_iff_cutShort hs hu⟩,
      agreeBelow_seed? hs, ?_⟩
    intro hle
    rw [seed?_of_le hle] at hs
    exact (Option.some.inj hs).symm
  · intro hnone
    obtain ⟨b, hb, hlt, hb'⟩ := seed?_eq_none_iff.1 hnone
    refine ⟨?_, b, hb, hlt, hb'⟩
    rw [Option.eq_none_iff_forall_ne_some]
    intro u hu
    obtain ⟨v, hv⟩ := Instant.exists_advance?_of_le hu (Instant.le_of_lt hlt) (Nat.le_refl 1)
    rw [hb'] at hv
    cases hv

/-- From the 30th of a month, seen on the 31st of January: the seed and the month after the
beginning both fall on the last day of February, and the seed has the later hour. Seen from an
earlier day the seed is the anchor, and on the last day of the calendar there is none. -/
theorem monthly_seed?_lateness :
    let p := ofFrequency .monthly
    let anchor := (Date.ymd 2019 1 30).atHour 23
    let early := (Date.ymd 2018 1 1).atHour 0
    let start := (Date.ymd 2021 1 31).atHour 1
    let last := (Date.ymd 262142 12 31).atHour 1
    let s := (Date.ymd 2021 2 28).atHour 23
    let u := (Date.ymd 2021 2 28).atHour 1
    p.seed? .monthly anchor start = some s ∧ start.advance? .monthly 1 = some u ∧ start ≤ s ∧
      s.date ≤ u.date ∧ u < s ∧ p.CutShort .monthly anchor start u ∧
      Instant.AgreeBelow (p.finestField .monthly) s.time anchor.time ∧
      (∀ t, p.seed? .monthly anchor early = some t → t = anchor) ∧
      p.seed? .monthly anchor last = none ∧ last.advance? .monthly 1 = none := by
  intro p anchor early start last s u
  have hs : p.seed? .monthly anchor start = some s := by decide +kernel
  have hu : start.advance? .monthly 1 = some u := by decide +kernel
  have hlast : p.seed? .monthly anchor last = none := by decide +kernel
  have hlt : u < s := by decide
  obtain ⟨hle, hlate, hfields, -⟩ := (seed?_lateness p .monthly anchor start).1 s hs
  obtain ⟨hdate, hcut⟩ := hlate u hu
  refine ⟨hs, hu, hle, hdate, hlt, hcut.1 hlt, hfields, ?_, hlast,
    ((seed?_lateness p .monthly anchor last).2.1 hlast).1⟩
  intro t ht
  exact ((seed?_lateness p .monthly anchor early).1 t ht).2.2.2 (by decide)

/-- **A seed may be later than one unit after the beginning.** -/
theorem exists_seed?_later :
    ∃ s u, (ofFrequency .monthly).seed? .monthly ((Date.ymd 2019 1 30).atHour 23)
        ((Date.ymd 2021 1 31).atHour 1) = some s ∧
      (max ((Date.ymd 2021 1 31).atHour 1) ((Date.ymd 2019 1 30).atHour 23)).advance? .monthly 1 =
        some u ∧ ¬ s ≤ u :=
  ⟨(Date.ymd 2021 2 28).atHour 23, (Date.ymd 2021 2 28).atHour 1, by decide +kernel,
    by decide +kernel, by decide⟩

end Parts

end Recurrence
