import Recurrence.Proofs.Expansion.Measure

/-!
# Steps from a fraction of a second

A step from a finer instant is the step from its second, with the nanoseconds carried along.
So finer instants inherit what whole seconds have: longer steps lead to later instants, steps
of a fixed length add up, months do not drift. **Measuring does not always take a step back**:
a step that leaves a leap second and ends on no later time of day is measured as one second
less than it is, and so as one unit less (`Misses`). Away from leap seconds it does take it
back, and no later instant is measured as fewer units.
-/

namespace Recurrence

open Calendar

namespace FineInstant

variable {a b c : FineInstant} {f : Frequency} {m n : Nat}

/-! ## Steps -/

/-- **A step is one of whole seconds**, and the nanoseconds are known beforehand. -/
theorem advance?_eq_some_iff :
    a.advance? f n = some b ↔
      a.instant.advance? f n = some b.instant ∧ b.nanos = nanosAfter f n a.nanos := by
  rw [advance?, Option.map_eq_some_iff]
  constructor
  · rintro ⟨t, ht, rfl⟩
    exact ⟨ht, rfl⟩
  · rintro ⟨ht, hnanos⟩
    exact ⟨b.instant, ht, FineInstant.ext rfl hnanos.symm⟩

/-- The nanoseconds after two steps are those after one. -/
theorem nanosAfter_add (f : Frequency) (m n k : Nat) :
    nanosAfter f (m + n) k = nanosAfter f n (nanosAfter f m k) := by
  by_cases hf : f < .monthly
  · simp only [nanosAfter, hf, true_and]
    split <;> split <;> split <;> omega
  · simp only [nanosAfter, hf, false_and, if_false]

/-- Months and years keep the nanoseconds. -/
theorem nanosAfter_of_monthly_le (hf : Frequency.monthly ≤ f) (n k : Nat) :
    nanosAfter f n k = k :=
  if_neg fun h => absurd h.1 (Nat.not_lt.2 hf)

/-- A longer step leads to a later instant. -/
theorem advance?_lt (hm : a.advance? f m = some b) (hn : a.advance? f n = some c) (h : m < n) :
    b < c :=
  .inl (Instant.advance?_lt (advance?_eq_some_iff.1 hm).1 (advance?_eq_some_iff.1 hn).1 h)

/-- **Steps of a fixed length add up**, also where the calendar ends: once a leap second is
left, it stays left. -/
theorem advance?_add_eq_bind (a : FineInstant) (hf : f < .monthly) (m n : Nat) :
    a.advance? f (m + n) = (a.advance? f m).bind (·.advance? f n) := by
  ext c
  rw [advance?_eq_some_iff, Instant.advance?_add_eq_bind a.instant hf, nanosAfter_add,
    Option.bind_eq_some_iff, Option.bind_eq_some_iff]
  simp only [advance?_eq_some_iff]
  constructor
  · rintro ⟨⟨t, ht, htc⟩, hnanos⟩
    have hlt := Nat.lt_of_le_of_lt (nanosAfter_le f m a.nanos) a.nanos_lt
    exact ⟨⟨t, nanosAfter f m a.nanos, hlt⟩, ⟨ht, rfl⟩, htc, hnanos⟩
  · rintro ⟨b, ⟨hb, hbnanos⟩, hbc, hnanos⟩
    exact ⟨⟨b.instant, hb, hbc⟩, hbnanos ▸ hnanos⟩

/-- An instant that lies `n` months after another, on the same fraction of a second. -/
structure MonthsLater (a : FineInstant) (n : Nat) (b : FineInstant) : Prop where
  /-- Its second lies `n` months after that of the other. -/
  instant : a.instant.MonthsLater n b.instant
  /-- The nanoseconds are kept, and so is a leap second. -/
  nanos_eq : b.nanos = a.nanos

/-- A step of months leads that many months on, and nowhere else. -/
theorem advance?_monthly_eq_some_iff : a.advance? .monthly n = some b ↔ a.MonthsLater n b := by
  rw [advance?_eq_some_iff, nanosAfter_of_monthly_le (by decide)]
  exact ⟨fun h => ⟨Instant.addMonths?_eq_some_iff_monthsLater.1 h.1, h.2⟩,
    fun h => ⟨Instant.addMonths?_eq_some_iff_monthsLater.2 h.instant, h.nanos_eq⟩⟩

/-- A step of years leads twelve times as many months on, and their number can be counted. -/
theorem advance?_yearly_eq_some_iff :
    a.advance? .yearly n = some b ↔ 12 * n < Nat.pow 2 32 ∧ a.MonthsLater (12 * n) b := by
  rw [← advance?_monthly_eq_some_iff, advance?_eq_some_iff, advance?_eq_some_iff,
    nanosAfter_of_monthly_le (by decide), nanosAfter_of_monthly_le (by decide)]
  exact ⟨fun h => ⟨(Instant.addMonths?_eq_some_iff_monthsLater.1 h.1).lt, h⟩, And.right⟩

/-! ## Measuring a step -/

/-- Whether measuring a step misses the leap second that the step leaves. Measuring in days and
longer units does not look at seconds; in finer units, the leap second is counted only where the
step ends on a later time of day. -/
structure Misses (a : FineInstant) (f : Frequency) (n : Nat) (b : FineInstant) : Prop where
  /-- The step begins in a leap second. -/
  inLeapSecond : a.inLeapSecond
  /-- It is made of seconds, minutes or hours. -/
  lt_daily : f < .daily
  /-- It leads on. -/
  pos : 0 < n
  /-- It ends on the same time of day or an earlier one. -/
  time_le : b.instant.time.seconds ≤ a.instant.time.seconds

/-- The seconds that are measured where the nanoseconds are the same **or those of a leap second
that is left**. -/
theorem secondsTo_of_nanos_eq (h : b.nanos = a.nanos % 1000000000) :
    a.secondsTo b = b.instant.seconds - a.instant.seconds -
      if a.inLeapSecond ∧ b.instant.time.seconds ≤ a.instant.time.seconds then 1 else 0 := by
  have hlt := a.nanos_lt
  have hb : ¬ b.inLeapSecond := by
    simp only [inLeapSecond, decide_eq_true_eq]
    omega
  refine Instant.tdiv_eq_of_eq_mul (by decide) ?_
  unfold nanosTo leapSecondsTo
  by_cases ha : a.inLeapSecond
  · have hnanos : (b.nanos : Int) = a.nanos - 1000000000 := by
      simp only [inLeapSecond, decide_eq_true_eq] at ha
      omega
    simp only [ha, hb, true_and, Bool.false_eq_true, false_and, if_false, hnanos]
    split <;> split <;> omega
  · have hnanos : b.nanos = a.nanos := by
      simp only [inLeapSecond, decide_eq_true_eq] at ha
      omega
    simp only [ha, hb, Bool.false_eq_true, false_and, if_false, hnanos]
    omega

/-- Days and longer units are measured between the seconds. -/
theorem unitsBetween_of_daily_le (hf : Frequency.daily ≤ f) :
    a.unitsBetween b f = a.instant.unitsBetween b.instant f := by
  cases f with
  | secondly | minutely | hourly => exact absurd hf (by decide)
  | daily | weekly | monthly | yearly => rfl

/-- An instant is no units away from itself. -/
theorem unitsBetween_self (a : FineInstant) (f : Frequency) : a.unitsBetween a f = 0 := by
  have hseconds : a.secondsTo a = 0 := by simp [secondsTo, nanosTo, leapSecondsTo]
  cases f with
  | secondly => exact hseconds
  | minutely | hourly => simp only [unitsBetween, hseconds, Int.zero_tdiv]
  | daily | weekly | monthly | yearly =>
    rw [unitsBetween_of_daily_le (by decide), Instant.unitsBetween_self]

/-- A second that measuring misses is a unit that it misses, however long the unit is: what is
left does not fill the last one. -/
theorem unitsBetween_of_secondsTo (h : a.instant.advance? f n = some b.instant)
    (hf : f < .daily) (hn : 0 < n) {k : Int} (hk : 0 ≤ k ∧ k ≤ 1)
    (hs : a.secondsTo b = b.instant.seconds - a.instant.seconds - k) :
    a.unitsBetween b f = n - k := by
  cases f with
  | secondly =>
    have := Instant.addSeconds?_eq_some_iff.1 h
    simp only [unitsBetween]
    omega
  | minutely | hourly =>
    have := Instant.addSeconds?_eq_some_iff.1 h
    rw [unitsBetween, Int.tdiv_eq_ediv_of_nonneg (by omega)]
    omega
  | daily | weekly | monthly | yearly => exact absurd hf (by decide)

/-- **A step of `n` units is measured as `n` units**, or as one unit less where a leap second is
missed. -/
theorem unitsBetween_advance? (h : a.advance? f n = some b) :
    (a.Misses f n b → a.unitsBetween b f = n - 1) ∧
      (¬ a.Misses f n b → a.unitsBetween b f = n) := by
  obtain ⟨hstep, hnanos⟩ := advance?_eq_some_iff.1 h
  -- A step of no units stays in its leap second, and days and longer units look at none.
  rcases Nat.eq_zero_or_pos n with rfl | hn
  · obtain rfl : b = a := by
      rw [Instant.advance?_zero, Option.some_inj] at hstep
      exact FineInstant.ext hstep.symm (hnanos.trans (if_neg fun h => Nat.lt_irrefl 0 h.2))
    exact ⟨fun hm => absurd hm.pos (Nat.lt_irrefl 0), fun _ => unitsBetween_self b f⟩
  · rcases Nat.lt_or_ge f.rank Frequency.daily.rank with hf | hf
    · have hmonthly : f < .monthly := Nat.lt_trans hf (by decide)
      rw [nanosAfter, if_pos ⟨hmonthly, hn⟩] at hnanos
      have hseconds := secondsTo_of_nanos_eq hnanos
      constructor
      · intro hm
        rw [if_pos ⟨hm.inLeapSecond, hm.time_le⟩] at hseconds
        exact unitsBetween_of_secondsTo hstep hf hn (by decide) hseconds
      · intro hm
        rw [if_neg fun hc => hm ⟨hc.1, hf, hn, hc.2⟩] at hseconds
        simpa using unitsBetween_of_secondsTo hstep hf hn (by decide) hseconds
    · rw [unitsBetween_of_daily_le hf]
      exact ⟨fun hm => absurd hm.lt_daily (Nat.not_lt.2 hf),
        fun _ => Instant.unitsBetween_advance? hstep⟩

/-! ## Measuring as time goes on -/

/-- No leap second is counted between instants outside leap seconds. -/
theorem leapSecondsTo_eq_zero (ha : ¬ a.inLeapSecond) (hb : ¬ b.inLeapSecond) :
    a.leapSecondsTo b = 0 := by
  rw [leapSecondsTo, if_neg fun h => ha h.1, if_neg fun h => hb h.1]

/-- At most one leap second is counted, and backward only from the one in which the other
instant lies. -/
theorem leapSecondsTo_bounds (a b : FineInstant) :
    a.leapSecondsTo b ≤ 1 ∧
      (a.leapSecondsTo b = -1 ∧ 1000000000 ≤ b.nanos ∨ 0 ≤ a.leapSecondsTo b) := by
  unfold leapSecondsTo
  split
  · omega
  · split
    · next h => exact ⟨by decide, .inl ⟨rfl, by simpa [inLeapSecond] using h.1⟩⟩
    · omega

/-- **More time passes until a later instant**, where no leap second is involved; and in any case
until an instant that is three seconds later. -/
theorem nanosTo_mono (h : b ≤ c)
    (hleap : b.instant.seconds + 3 ≤ c.instant.seconds ∨
      ¬ (a.inLeapSecond ∨ b.inLeapSecond ∨ c.inLeapSecond)) :
    a.nanosTo b ≤ a.nanosTo c := by
  have hb := b.nanos_lt
  have hc := c.nanos_lt
  unfold nanosTo
  rcases hleap with hfar | hno
  · have := a.leapSecondsTo_bounds b
    have := a.leapSecondsTo_bounds c
    omega
  · obtain ⟨hal, hbl, hcl⟩ : ¬ a.inLeapSecond ∧ ¬ b.inLeapSecond ∧ ¬ c.inLeapSecond := by
      simpa only [not_or] using hno
    rw [leapSecondsTo_eq_zero hal hbl, leapSecondsTo_eq_zero hal hcl]
    simp only [inLeapSecond, decide_eq_true_eq, Nat.not_le] at hbl hcl
    rcases h with hlt | ⟨heq, hnanos⟩
    · rw [Instant.lt_iff_seconds_lt] at hlt
      omega
    · rw [heq]
      omega

/-- The second of a later instant is no earlier one. -/
theorem instant_le (h : b ≤ c) : b.instant ≤ c.instant := by
  rcases h with hlt | ⟨heq, -⟩
  · exact Instant.le_of_lt hlt
  · rw [heq]
    exact Instant.le_refl _

/-- **No later instant is fewer units away**, unless the units are shorter than days and a leap
second is near. -/
theorem unitsBetween_mono (a : FineInstant) (f : Frequency) (h : b ≤ c)
    (hleap : Frequency.daily ≤ f ∨ b.instant.seconds + 3 ≤ c.instant.seconds ∨
      ¬ (a.inLeapSecond ∨ b.inLeapSecond ∨ c.inLeapSecond)) :
    a.unitsBetween b f ≤ a.unitsBetween c f := by
  rcases Nat.lt_or_ge f.rank Frequency.daily.rank with hf | hf
  · have hseconds : a.secondsTo b ≤ a.secondsTo c :=
      Int.tdiv_le_tdiv (by decide) (nanosTo_mono h (hleap.resolve_left (Nat.not_le.2 hf)))
    cases f with
    | secondly => exact hseconds
    | minutely | hourly => exact Int.tdiv_le_tdiv (by decide) hseconds
    | daily | weekly | monthly | yearly => exact absurd hf (by decide)
  · rw [unitsBetween_of_daily_le hf, unitsBetween_of_daily_le hf]
    exact Instant.unitsBetween_mono a.instant f (instant_le h)

/-! ## Whole seconds -/

/-- A step from the beginning of a second ends at the beginning of one. -/
theorem fine_advance? (t : Instant) (f : Frequency) (n : Nat) :
    t.fine.advance? f n = (t.advance? f n).map Instant.fine := by
  ext b
  rw [advance?_eq_some_iff, Option.map_eq_some_iff]
  have hnanos : nanosAfter f n 0 = 0 := Nat.le_zero.1 (nanosAfter_le f n 0)
  constructor
  · rintro ⟨ht, hb⟩
    exact ⟨b.instant, ht, FineInstant.ext rfl (hb.trans hnanos).symm⟩
  · rintro ⟨u, hu, rfl⟩
    exact ⟨hu, hnanos.symm⟩

/-- Between the beginnings of two seconds it is measured as between the seconds. -/
theorem fine_unitsBetween (t u : Instant) (f : Frequency) :
    t.fine.unitsBetween u.fine f = t.unitsBetween u f := by
  have hseconds : t.fine.secondsTo u.fine = u.seconds - t.seconds :=
    (secondsTo_of_nanos_eq rfl).trans (by simp [Instant.fine, inLeapSecond])
  cases f with
  | secondly => exact hseconds
  | minutely | hourly => simp only [unitsBetween, hseconds, Instant.unitsBetween]
  | daily | weekly | monthly | yearly => exact unitsBetween_of_daily_le (by decide)

/-! ## Stepping and measuring -/

/-- **Stepping never drifts, and measuring takes it back wherever no leap second is missed.** A
step of `n` units is measured as `n` units, or as `n - 1` where measuring misses the leap second
in which the step begins; longer steps lead to later instants and exist only where shorter ones
do; a step of months or years leads that many months on, keeps the day of the month where the
month is long enough and the time of day, and never counts too many months; seconds to weeks
add up, also where the calendar ends; no later instant is measured as fewer units, unless these
are shorter than days and a leap second is near; and from whole seconds all this is about the
steps of whole seconds. -/
theorem advance?_inverse_unitsBetween (a : FineInstant) :
    (∀ f n b, a.advance? f n = some b →
      (a.Misses f n b → a.unitsBetween b f = n - 1) ∧
        (¬ a.Misses f n b → a.unitsBetween b f = n)) ∧
    (∀ f m n b c, a.advance? f m = some b → a.advance? f n = some c → m < n → b < c) ∧
    (∀ f m n, m ≤ n → (a.advance? f n).isSome → (a.advance? f m).isSome) ∧
    (∀ n b, a.advance? .monthly n = some b ↔ a.MonthsLater n b) ∧
    (∀ n b, a.advance? .yearly n = some b ↔ 12 * n < Nat.pow 2 32 ∧ a.MonthsLater (12 * n) b) ∧
    (∀ f < Frequency.monthly, ∀ m n,
      a.advance? f (m + n) = (a.advance? f m).bind (·.advance? f n)) ∧
    (∀ f b c, b ≤ c →
      Frequency.daily ≤ f ∨ b.instant.seconds + 3 ≤ c.instant.seconds ∨
        ¬ (a.inLeapSecond ∨ b.inLeapSecond ∨ c.inLeapSecond) →
      a.unitsBetween b f ≤ a.unitsBetween c f) ∧
    (∀ f n, a.instant.fine.advance? f n = (a.instant.advance? f n).map Instant.fine) ∧
    ∀ f t, a.instant.fine.unitsBetween t.fine f = a.instant.unitsBetween t f := by
  refine ⟨fun _ _ _ => unitsBetween_advance?, fun _ _ _ _ _ => advance?_lt, ?_,
    fun _ _ => advance?_monthly_eq_some_iff, fun _ _ => advance?_yearly_eq_some_iff,
    fun _ hf => advance?_add_eq_bind a hf, fun _ _ _ => unitsBetween_mono a _,
    fine_advance? a.instant, fun f t => fine_unitsBetween a.instant t f⟩
  intro f m n hm hn
  rw [advance?, Option.isSome_map] at hn ⊢
  obtain ⟨t, ht⟩ := Option.isSome_iff_exists.1 hn
  exact Option.isSome_iff_exists.2 (Instant.exists_advance? ht hm)

/-- From the leap second at the end of 2016: an hour later it is not yet an hour, a day later it
is a day, and two months later, at the end of February, it is still a leap second. -/
theorem endOf2016_inverse_unitsBetween :
    let a : FineInstant := ⟨⟨Date.ymd 2016 12 31, .ofSeconds 86399⟩, 1500000000, by decide⟩
    let b : FineInstant := ⟨⟨Date.ymd 2017 1 1, .ofSeconds 3599⟩, 500000000, by decide⟩
    let c : FineInstant := ⟨⟨Date.ymd 2017 1 1, .ofSeconds 86399⟩, 500000000, by decide⟩
    let d : FineInstant := ⟨⟨Date.ymd 2017 2 28, .ofSeconds 86399⟩, 1500000000, by decide⟩
    a.Misses .hourly 1 b ∧ a.unitsBetween b .hourly = 0 ∧ a.unitsBetween c .daily = 1 ∧
      b < c ∧ (a.advance? .hourly 1).isSome ∧ a.MonthsLater 2 d ∧
      a.advance? .hourly (1 + 23) = (a.advance? .hourly 1).bind (·.advance? .hourly 23) ∧
      a.unitsBetween b .hourly ≤ a.unitsBetween c .hourly := by
  intro a b c d
  have hb : a.advance? .hourly 1 = some b := by decide +kernel
  have hc : a.advance? .hourly 24 = some c := by decide +kernel
  have hday : a.advance? .daily 1 = some c := by decide +kernel
  have hd : a.advance? .monthly 2 = some d := by decide +kernel
  have hmisses : a.Misses .hourly 1 b :=
    ⟨by decide +kernel, by decide, by decide, by decide +kernel⟩
  obtain ⟨hinverse, hlater, hshorter, hmonths, -, hadd, hmono, -⟩ :=
    advance?_inverse_unitsBetween a
  have hbc : b < c := hlater .hourly 1 24 b c hb hc (by decide)
  exact ⟨hmisses, (hinverse .hourly 1 b hb).1 hmisses,
    (hinverse .daily 1 c hday).2 fun h => absurd h.lt_daily (by decide), hbc,
    hshorter .hourly 1 24 (by decide) (by rw [hc]; rfl), (hmonths 2 d).1 hd,
    hadd .hourly (by decide) 1 23,
    hmono .hourly b c (by decide +kernel) (.inr (.inl (by decide +kernel)))⟩

/-- At the end of 2016 neither holds of leap seconds: the hour that begins in one is measured as
no hour, and midnight, which comes after it, is fewer seconds away from noon than it is. -/
theorem endOf2016_not_inverse :
    let noon : FineInstant := ⟨⟨Date.ymd 2016 12 31, .ofSeconds 43200⟩, 400000000, by decide⟩
    let a : FineInstant := ⟨⟨Date.ymd 2016 12 31, .ofSeconds 86399⟩, 1500000000, by decide⟩
    let b : FineInstant := ⟨⟨Date.ymd 2017 1 1, .ofSeconds 3599⟩, 500000000, by decide⟩
    let midnight := (Date.ymd 2017 1 1).midnight.fine
    (a.advance? .hourly 1 = some b ∧ a.unitsBetween b .hourly = 0) ∧
      a ≤ midnight ∧ noon.unitsBetween midnight .secondly < noon.unitsBetween a .secondly := by
  decide +kernel

end FineInstant

end Recurrence
