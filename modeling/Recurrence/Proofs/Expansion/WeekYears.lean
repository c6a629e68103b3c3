import Recurrence.Proofs.Expansion.Requests

/-!
# Rules with week numbers

The weeks of a year begin up to three days before it or after it, so that a
yearly rule with week numbers can leave the year of the instant that opens its
period. What it cannot leave are **the weeks of that year**
(`Parts.WeekNumbered.weekYear_of_mem_candidates`). The two ends of the loop look at
calendar years only, and a window misses the candidates that lie across New Year
from their period when the loop begins too late or stops too early.
`Parts.losesWeek` says which these are, and a window gives **all that the series
has in it but these** (`Rule.instants_eq_filter_losesWeek`).
-/

namespace Recurrence

/-! ## The weeks of a period -/

/-- The stages that run after the week numbers. -/
def Stage.afterWeekNo : List Stage :=
  [yearDay, monthDay, day, hour, minute, second]

namespace Parts

variable {p : Parts} {anchor start bound t c : Instant} {n : Nat}

/-- The rule has week numbers, and no list that leads out of a week again. -/
structure WeekNumbered (p : Parts) : Prop where
  /-- There are week numbers. -/
  byWeekNo_ne : p.byWeekNo ≠ []
  /-- There are no days of the year. -/
  byYearDay_eq : p.byYearDay = []
  /-- There are no days of the month. -/
  byMonthDay_eq : p.byMonthDay = []

namespace WeekNumbered

/-- The scope of a weekday is the week. -/
theorem scope_yearly (h : p.WeekNumbered) : p.scope .yearly = .week := by
  simp [scope, h.byWeekNo_ne]

/-- The lists that run after the week numbers. -/
theorem mem_afterWeekNo {s : Stage} (hs : s ∈ p.stages) (h : Stage.weekNo.rank < s.rank) :
    s ∈ Stage.afterWeekNo.filter (Stage.isActive p) := by
  refine List.mem_filter.2 ⟨?_, mem_stages.1 hs⟩
  cases s with
  | month | weekNo => exact absurd h (by decide)
  | yearDay | monthDay | day | hour | minute | second => decide

/-- The lists after the week numbers stay in the weeks of a year. -/
theorem weekYear_of_mem_instants (h : p.WeekNumbered) {s : Stage}
    (hs : s ∈ Stage.afterWeekNo.filter (Stage.isActive p))
    (hc : c ∈ s.instants p (p.scope .yearly) t) : c.date.weekYear = t.date.weekYear := by
  rw [h.scope_yearly] at hc
  cases s with
  | month | weekNo => simp [Stage.afterWeekNo] at hs
  | yearDay => simp [Stage.isActive, h.byYearDay_eq] at hs
  | monthDay => simp [Stage.isActive, h.byMonthDay_eq] at hs
  | day =>
    obtain ⟨e, -, he⟩ := List.mem_flatMap.1 hc
    obtain ⟨hd, -⟩ := DayEntry.exists_of_mem_instants he
    exact Date.weekYear_congr (Scope.week_of_mem_days_week hd)
  | hour =>
    obtain ⟨n, -, hn⟩ := List.mem_filterMap.1 hc
    rw [Instant.atHour?_date hn]
  | minute =>
    obtain ⟨n, -, hn⟩ := List.mem_filterMap.1 hc
    rw [(Instant.atMinute?_hour hn).1]
  | second =>
    obtain ⟨n, -, hn⟩ := List.mem_filterMap.1 hc
    rw [(Instant.atSecond?_minute hn).1]

/-- **The candidates of a period belong to the weeks of its year.** -/
theorem weekYear_of_mem_candidates (h : p.WeekNumbered) (hc : c ∈ p.candidates .yearly [t]) :
    c.date.weekYear = t.date.year := by
  have hactive : Stage.weekNo.isActive p := by simp [Stage.isActive, h.byWeekNo_ne]
  refine forall_mem_candidates_of_stage (P := fun c => c.date.weekYear = t.date.year)
    (Q := fun u => u.date.year = t.date.year) hactive rfl ?_ ?_ ?_ c hc
  · intro s _ hrank u hu c hc
    -- Only the months run before the week numbers.
    obtain rfl : s = .month := by
      cases s with
      | month => rfl
      | _ => exact absurd hrank (by decide)
    obtain ⟨m, -, hm⟩ := List.mem_filterMap.1 hc
    exact (Instant.withMonth?_year hm).trans hu
  · intro u hu c hc
    obtain ⟨n, -, hn⟩ := List.mem_filterMap.1 hc
    exact (Instant.inWeek?_weekYear hn).trans hu
  · intro s hs hrank u hu c hc
    exact (h.weekYear_of_mem_instants (mem_afterWeekNo hs hrank) hc).trans hu

/-- A candidate of a period belongs to the weeks of the year that many steps after the
anchor's. -/
theorem weekYear_of_mem_periodAt (h : p.WeekNumbered) (hc : c ∈ p.periodAt .yearly anchor n) :
    c.date.weekYear = anchor.date.year + n * p.step := by
  obtain ⟨t, ht, hct⟩ := mem_periodAt.1 hc
  rw [h.weekYear_of_mem_candidates hct]
  exact unit_latticePoint? ht

end WeekNumbered

/-! ## The edges of a window -/

/-- The week of an instant belongs to the year before the one in which a window
begins, and **the seed of the window lies in the year after it**. -/
def losesFirstWeek (p : Parts) (anchor start c : Instant) : Bool :=
  c.date.weekYear < (max start anchor).date.year &&
    (p.seed? .yearly anchor start).any fun t => (max start anchor).date.year < t.date.year

/-- The week of an instant belongs to the year after the one of the bound, and **the
point of the bound's own year lies past the bound**. -/
def losesLastWeek (p : Parts) (anchor bound c : Instant) : Bool :=
  bound.date.year < c.date.weekYear &&
    (p.latticePoint? .yearly anchor (bound.date.year - anchor.date.year).toNat).any (bound < ·)

/-- The instants that a window misses at its edges. **Only rules for every year lose
any**: with longer steps the point before is too far off. -/
def losesWeek (p : Parts) (anchor start bound c : Instant) : Bool :=
  p.step == 1 && (p.losesFirstWeek anchor start c || p.losesLastWeek anchor bound c)

theorem losesFirstWeek_iff :
    p.losesFirstWeek anchor start c ↔
      c.date.weekYear < (max start anchor).date.year ∧
        ∃ t, p.seed? .yearly anchor start = some t ∧
          (max start anchor).date.year < t.date.year := by
  simp only [losesFirstWeek, Bool.and_eq_true, decide_eq_true_eq, Option.any_eq_true]

theorem losesLastWeek_iff :
    p.losesLastWeek anchor bound c ↔
      bound.date.year < c.date.weekYear ∧
        ∃ t, p.latticePoint? .yearly anchor (bound.date.year - anchor.date.year).toNat = some t ∧
          bound < t := by
  simp only [losesLastWeek, Bool.and_eq_true, decide_eq_true_eq, Option.any_eq_true]

namespace WeekNumbered

/-- **The loop begins too late** for exactly the candidates in the first week. -/
theorem lt_firstIndex_iff (h : p.WeekNumbered) (hcount : p.count = none) (hstep : 1 ≤ p.step)
    (hc : c ∈ p.periodAt .yearly anchor n) (hstart : max start anchor ≤ c) :
    n < p.firstIndex .yearly anchor start ↔ p.step = 1 ∧ p.losesFirstWeek anchor start c := by
  have hweek := h.weekYear_of_mem_periodAt hc
  have hyear := Instant.unit_mono .yearly hstart
  have hnear := c.date.weekYear_bounds
  rw [Parts.lt_firstIndex_iff hstep, losesFirstWeek_iff, hcount]
  simp only [Option.isNone_none, true_and, Instant.unitsBetween, Int.add_mul]
  simp only [Instant.unit] at hyear
  constructor
  · rintro ⟨seed, hseed, hle⟩
    have hnext := unit_seed?_le hseed
    simp only [Instant.unit] at hnext
    exact ⟨by omega, by omega, seed, hseed, by omega⟩
  · rintro ⟨hone, hfirst, seed, hseed, hlt⟩
    rw [hone] at hweek ⊢
    exact ⟨seed, hseed, by omega⟩

/-- **The loop stops too early** for exactly the candidates in the last week. -/
theorem exists_point_iff (h : p.WeekNumbered) (hstep : 1 ≤ p.step) {m : Nat}
    (hc : c ∈ p.periodAt .yearly anchor (m + 1)) (hbound : c ≤ bound) :
    (∃ u, p.latticePoint? .yearly anchor m = some u ∧ bound < u) ↔
      p.step = 1 ∧ p.losesLastWeek anchor bound c := by
  have hweek := h.weekYear_of_mem_periodAt hc
  have hyear := Instant.unit_mono .yearly hbound
  have hnear := c.date.weekYear_bounds
  rw [losesLastWeek_iff]
  simp only [Instant.unit] at hyear
  rw [Int.natCast_add, Int.add_mul] at hweek
  constructor
  · rintro ⟨u, hu, hlt⟩
    have huyear := unit_latticePoint? hu
    have hule := Instant.unit_mono .yearly (Instant.le_of_lt hlt)
    simp only [Instant.unit] at huyear hule
    have hone : p.step = 1 := by omega
    rw [hone] at hweek huyear
    have hm : (bound.date.year - anchor.date.year).toNat = m := by omega
    exact ⟨hone, by omega, u, by rw [hm, hu], hlt⟩
  · rintro ⟨hone, hlast, u, hu, hlt⟩
    rw [hone] at hweek
    have hm : (bound.date.year - anchor.date.year).toNat = m := by omega
    exact ⟨u, by rw [← hm, hu], hlt⟩

/-- **A window visits the period of a candidate in it unless it loses the candidate.** -/
theorem visits_iff (h : p.WeekNumbered) (hcount : p.count = none) (hstep : 1 ≤ p.step)
    (hc : c ∈ p.periodAt .yearly anchor n) (hstart : max start anchor ≤ c)
    (hbound : c ≤ bound) :
    p.visits .yearly anchor start bound n ↔ ¬ p.losesWeek anchor start bound c := by
  have hfirst := h.lt_firstIndex_iff hcount hstep hc hstart
  have hloses : p.losesWeek anchor start bound c ↔
      p.step = 1 ∧ p.losesFirstWeek anchor start c ∨
        p.step = 1 ∧ p.losesLastWeek anchor bound c := by
    rw [losesWeek, Bool.and_eq_true, Bool.or_eq_true, beq_iff_eq, and_or_left]
  rw [hloses, ← hfirst, Parts.visits_iff, not_or, Nat.not_lt]
  refine and_congr_right fun hle => ?_
  rcases Nat.eq_or_lt_of_le hle with heq | hlt
  · -- The first period is visited, and its year is not after the bound's.
    refine iff_of_true (.inl heq.symm) ?_
    rintro ⟨hone, hlast⟩
    have hweek := h.weekYear_of_mem_periodAt hc
    have hlast := (losesLastWeek_iff.1 hlast).1
    have hyear := Instant.unit_mono .yearly (Instant.le_trans hstart hbound)
    rw [hone] at hweek
    cases n with
    | zero =>
      have := Instant.unit_mono .yearly (Instant.max_le_iff.1 hstart).2
      have := Instant.unit_mono .yearly hbound
      simp only [Instant.unit] at *
      omega
    | succ m =>
      obtain ⟨t, ht, -⟩ := mem_periodAt.1 hc
      obtain ⟨u, hu⟩ := exists_latticePoint? ht (Nat.le_succ m)
      have hm : m < p.firstIndex .yearly anchor start := by omega
      have := unit_lt_of_lt_firstIndex hstep hm hu
      have := unit_latticePoint? hu
      rw [hone] at this
      simp only [Instant.unit] at *
      omega
  · cases n with
    | zero => omega
    | succ m =>
      obtain ⟨t, ht, -⟩ := mem_periodAt.1 hc
      obtain ⟨u, hu⟩ := exists_latticePoint? ht (Nat.le_succ m)
      rw [← h.exists_point_iff hstep hc hbound, Nat.add_sub_cancel, hu]
      simp only [Option.some.injEq, exists_eq_left', Instant.not_lt]
      exact ⟨fun hv => hv.resolve_left (by omega), .inr⟩

end WeekNumbered

end Parts

namespace Rule

variable {r : Rule} {q q' : Request} {anchor start b : Instant} {finish : Option Instant}

/-- **A window gives all that the series has in it but the candidates that it
loses.** -/
theorem instants_eq_filter_losesWeek (hw : r.WeekNumbered) (hcount : r.count = none)
    (hb : earlier? (r.endsAt.map Until.instant) finish = some b) :
    r.instants .yearly anchor start finish =
      (r.series .yearly anchor).filter fun c =>
        (r.window anchor start finish).contains c && !r.losesWeek anchor start b c := by
  rw [instants_eq_flatMap hcount hb, Parts.series, List.filter_flatMap]
  apply List.flatMap_congr
  intro n _
  have hvisits : ∀ c ∈ r.periodAt .yearly anchor n, (r.window anchor start finish).contains c →
      (r.visits .yearly anchor start b n ↔ ¬ r.losesWeek anchor start b c) := by
    intro c hc hin
    obtain ⟨hstart, hbound⟩ := (Window.contains_iff hb).1 hin
    exact hw.visits_iff hcount r.one_le_step hc hstart hbound
  by_cases hv : r.visits .yearly anchor start b n
  · rw [if_pos hv]
    apply List.filter_congr
    intro c hc
    cases hin : (r.window anchor start finish).contains c with
    | false => rfl
    | true => simp [(hvisits c hc hin).1 hv]
  · rw [if_neg hv]
    refine (List.filter_eq_nil_iff.2 ?_).symm
    intro c hc hkeep
    obtain ⟨hin, hkeep⟩ := (Bool.and_eq_true _ _).mp hkeep
    exact hv ((hvisits c hc hin).2 (by simpa using hkeep))

/-- **Two windows agree exactly where they lose alike.** What a rule with week numbers
gives in a window is what it gives in a wider one, less the values that the narrower
one does not cover, if and only if of the candidates in the narrower window both lose
the same ones. -/
theorem occurrences_eq_filter_iff_losesWeek (hf : r.freq = some .yearly) (hw : r.WeekNumbered)
    (hcount : r.count = none) (hk : q.kind = .dateTime) (hk' : q'.kind = .dateTime)
    (h : q.Within q') (hb : q'.BoundedFor r) {a : DateValue} (ha : q.anchor = some a) :
    ∃ b b' l l', q.bound? r = some b ∧ q'.bound? r = some b' ∧
      r.occurrences q = .ok l ∧ r.occurrences q' = .ok l' ∧
      (l.dates = l'.dates.filter q.covers ↔
        ∀ c ∈ r.series .yearly a.instant, (q.window r a.instant).contains c →
          r.losesWeek a.instant q.start.instant b c =
            r.losesWeek a.instant q'.start.instant b' c) := by
  obtain ⟨b, b', l, l', hbound, hbound', hl, hl', hdates, hdates'⟩ :=
    exists_occurrences_within hf hk hk' h hb ha
  refine ⟨b, b', l, l', hbound, hbound', hl, hl', ?_⟩
  rw [hdates, hdates', instants_eq_filter_losesWeek hw hcount hbound,
    instants_eq_filter_losesWeek hw hcount hbound', List.filter_map, List.filter_filter,
    List.map_inj_right DateValue.dateTime_injective, filter_eq_filter_iff]
  apply forall₂_congr
  intro c _
  -- What the narrower window holds is covered; what is not covered is in neither list.
  have hcontains : (q.window r a.instant).contains c =
      ((q'.window r a.instant).contains c && q.covers (.dateTime c)) :=
    Bool.eq_iff_iff.2 (by rw [Bool.and_eq_true]; exact h.contains_iff r a.instant c)
  show ((q.window r a.instant).contains c && !_) =
    (q.covers (.dateTime c) && ((q'.window r a.instant).contains c && !_)) ↔ _
  rw [hcontains]
  cases q.covers (.dateTime c) with
  | false => simp
  | true => cases (q'.window r a.instant).contains c <;> simp

/-- The first and the 53rd week of every year, on Mondays and Sundays. -/
def firstAndLastWeek : Rule where
  freq := some .yearly
  byWeekNo := [⟨1, by decide, by decide⟩, ⟨53, by decide, by decide⟩]
  byDay := [⟨none, .monday⟩, ⟨none, .sunday⟩]
  valid := Parts.fault?_eq_none_iff.1 (by decide)

/-- A window that ends on the Monday of a first week in December, and a longer one. -/
theorem firstAndLastWeek_occurrences_eq_filter_iff :
    let anchor := (Date.ymd 2018 12 31).atHour 9
    let december := (Date.ymd 2024 12 1).atHour 0
    let q := Request.between anchor december ((Date.ymd 2024 12 30).atHour 9)
    let q' := Request.between anchor december ((Date.ymd 2025 6 1).atHour 0)
    ∃ b b' l l', q.bound? firstAndLastWeek = some b ∧ q'.bound? firstAndLastWeek = some b' ∧
      firstAndLastWeek.occurrences q = .ok l ∧ firstAndLastWeek.occurrences q' = .ok l' ∧
      (l.dates = l'.dates.filter q.covers ↔
        ∀ c ∈ firstAndLastWeek.series .yearly anchor,
          (q.window firstAndLastWeek anchor).contains c →
          firstAndLastWeek.losesWeek anchor december b c =
            firstAndLastWeek.losesWeek anchor december b' c) := by
  intro anchor december q q'
  have hf : firstAndLastWeek.freq = some .yearly := rfl
  have hw : firstAndLastWeek.WeekNumbered := ⟨by decide, rfl, rfl⟩
  have hcount : firstAndLastWeek.count = none := rfl
  have h : q.Within q' := .between (by decide) (by decide)
  have hb : q'.BoundedFor firstAndLastWeek := .inr rfl
  have ha : q.anchor = some (.dateTime anchor) := rfl
  have hall := occurrences_eq_filter_iff_losesWeek hf hw hcount rfl rfl h hb ha
  exact hall

/-- **Weeks are lost at both edges.** The first window ends on a Monday of a first week
and the longer one has that Monday; the second begins in the 53rd week of the year
before, and the one that begins earlier has the Sunday of that week. -/
theorem firstAndLastWeek_loses_occurrences :
    let anchor := (Date.ymd 2018 12 31).atHour 9
    let december := (Date.ymd 2024 12 1).atHour 0
    let q₁ := Request.between anchor december ((Date.ymd 2024 12 30).atHour 9)
    let q₁' := Request.between anchor december ((Date.ymd 2025 6 1).atHour 0)
    let june := (Date.ymd 2021 6 1).atHour 0
    let q₂ := Request.between anchor ((Date.ymd 2021 1 1).atHour 10) june
    let q₂' := Request.between anchor ((Date.ymd 2020 12 1).atHour 0) june
    (q₁.Within q₁' ∧ ∃ l l', firstAndLastWeek.occurrences q₁ = .ok l ∧
      firstAndLastWeek.occurrences q₁' = .ok l' ∧ l.dates ≠ l'.dates.filter q₁.covers) ∧
    (q₂.Within q₂' ∧ ∃ l l', firstAndLastWeek.occurrences q₂ = .ok l ∧
      firstAndLastWeek.occurrences q₂' = .ok l' ∧ l.dates ≠ l'.dates.filter q₂.covers) := by
  intro anchor december q₁ q₁' june q₂ q₂'
  refine ⟨⟨.between ?_ ?_, exists_occurrences_ne rfl ?_⟩,
    ⟨.between ?_ ?_, exists_occurrences_ne rfl ?_⟩⟩
  all_goals decide +kernel

end Rule

end Recurrence
