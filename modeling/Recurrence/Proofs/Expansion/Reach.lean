import Recurrence.Proofs.Expansion.Windows
import Recurrence.Proofs.Value.Literal

/-!
# How far a lattice reaches

The loop that lists a lattice stops at one number and for one of three reasons
(`Parts.EndsAt.unique`): the point lies past the bound, the calendar ends before it, or its
units can no longer be counted. The last happens where **the last number that can be counted
comes before the window or its point not after the bound** (`Parts.EndsAt.counting_iff`).
Between instants with four digits for the year this takes seconds or minutes: of hours and
coarser units there are too few (`Parts.mul_step_lt_stepLimit`), and so no rule that repeats
in these loses an instant to the counting.
-/

namespace Recurrence

namespace Parts

variable {p : Parts} {f : Frequency} {anchor start bound t c : Instant} {m n : Nat}

/-! ## Where the loop stops -/

/-- Why no further point of a lattice is listed. -/
inductive Stop where
  /-- The point is the first one past the bound. -/
  | pastBound
  /-- The calendar ends before the point. -/
  | calendar
  /-- The units up to the point are too many to be counted. -/
  | counting

/-- The loop goes on after point number `n`: there is one, and it is not past the bound. -/
def GoesOn (p : Parts) (f : Frequency) (anchor bound : Instant) (n : Nat) : Prop :=
  ∃ t, p.latticePoint? f anchor n = some t ∧ t ≤ bound

/-- The loop stops at number `n`, and why. -/
inductive StopsAt (p : Parts) (f : Frequency) (anchor bound : Instant) (n : Nat) : Stop → Prop
  /-- The point is listed, and no later one. -/
  | pastBound {t : Instant} : n * p.step < stepLimit → anchor.advance? f (n * p.step) = some t →
      bound < t → StopsAt p f anchor bound n .pastBound
  /-- The units can be counted, but they lead out of the calendar. -/
  | calendar : n * p.step < stepLimit → anchor.advance? f (n * p.step) = none →
      StopsAt p f anchor bound n .calendar
  /-- The units cannot be counted. -/
  | counting : stepLimit ≤ n * p.step → StopsAt p f anchor bound n .counting

/-- At every number the loop goes on or stops. -/
theorem goesOn_or_stopsAt (p : Parts) (f : Frequency) (anchor bound : Instant) (n : Nat) :
    p.GoesOn f anchor bound n ∨ ∃ why, p.StopsAt f anchor bound n why := by
  rcases Nat.lt_or_ge (n * p.step) stepLimit with hlt | hge
  · cases h : anchor.advance? f (n * p.step) with
    | none => exact .inr ⟨_, .calendar hlt h⟩
    | some t =>
      by_cases hb : t ≤ bound
      · exact .inl ⟨t, latticePoint?_eq_some_iff.2 ⟨hlt, h⟩, hb⟩
      · exact .inr ⟨_, .pastBound hlt h (Instant.not_le.1 hb)⟩
  · exact .inr ⟨_, .counting hge⟩

/-- And it does not do both. -/
theorem StopsAt.not_goesOn {why : Stop} (h : p.StopsAt f anchor bound n why) :
    ¬ p.GoesOn f anchor bound n := by
  rintro ⟨t, ht, hle⟩
  obtain ⟨hlt, ht⟩ := latticePoint?_eq_some_iff.1 ht
  cases h with
  | pastBound _ hu hb =>
    cases ht.symm.trans hu
    exact Instant.not_lt.2 hle hb
  | calendar _ hnone => exact absurd (ht.symm.trans hnone) (by simp)
  | counting hge => omega

/-- The reason to stop is the counting where the units cannot be counted. -/
theorem StopsAt.counting_iff {why : Stop} (h : p.StopsAt f anchor bound n why) :
    why = .counting ↔ stepLimit ≤ n * p.step := by
  cases h with
  | pastBound hlt _ _ => simp [Nat.not_le.2 hlt]
  | calendar hlt _ => simp [Nat.not_le.2 hlt]
  | counting hge => simp [hge]

/-- There is one reason. -/
theorem StopsAt.unique {why why' : Stop} (h : p.StopsAt f anchor bound n why)
    (h' : p.StopsAt f anchor bound n why') : why = why' := by
  cases h with
  | pastBound hlt ht _ =>
    cases h' with
    | pastBound => rfl
    | calendar _ hnone => exact absurd (ht.symm.trans hnone) (by simp)
    | counting hge => omega
  | calendar hlt hnone =>
    cases h' with
    | pastBound _ ht _ => exact absurd (ht.symm.trans hnone) (by simp)
    | calendar => rfl
    | counting hge => omega
  | counting hge =>
    cases h' with
    | pastBound hlt => omega
    | calendar hlt => omega
    | counting => rfl

/-- Where the loop goes on it has gone on before. -/
theorem GoesOn.of_le (hstep : 1 ≤ p.step) (h : p.GoesOn f anchor bound n) (hm : m ≤ n) :
    p.GoesOn f anchor bound m := by
  obtain ⟨t, ht, hle⟩ := h
  obtain ⟨u, hu⟩ := exists_latticePoint? ht hm
  exact ⟨u, hu, Instant.le_trans (le_of_latticePoint? hstep hu ht hm) hle⟩

/-- **One pass through the loop that goes on** lists the point. -/
theorem pointsFrom_of_le (hstep : 1 ≤ p.step) (ht : p.latticePoint? f anchor n = some t)
    (hle : t ≤ bound) :
    pointsFrom (p.latticePoint? f anchor) bound n [] =
      t :: pointsFrom (p.latticePoint? f anchor) bound (n + 1) [] := by
  rw [pointsFrom, if_pos (lt_stepLimit hstep ht), ht]
  simp only [if_neg (Instant.not_lt.2 hle)]
  rw [pointsFrom_eq_append]
  rfl

/-- **The last pass** lists the point if there is one. -/
theorem StopsAt.pointsFrom_eq {why : Stop} (h : p.StopsAt f anchor bound n why)
    (hstep : 1 ≤ p.step) :
    pointsFrom (p.latticePoint? f anchor) bound n [] = (p.latticePoint? f anchor n).toList := by
  cases hpoint : p.latticePoint? f anchor n with
  | none =>
    rw [pointsFrom]
    split
    · rw [hpoint]
      rfl
    · rfl
  | some t =>
    have hb : bound < t := by
      rw [← Instant.not_le]
      intro hle
      exact h.not_goesOn ⟨t, hpoint, hle⟩
    rw [pointsFrom, if_pos (lt_stepLimit hstep hpoint), hpoint]
    simp only [if_pos hb]
    rfl

/-- **The whole run**: from any number on the loop lists points up to a number at which it
stops. -/
theorem exists_stopsAt (f : Frequency) (anchor bound : Instant) (hstep : 1 ≤ p.step) (n : Nat) :
    ∃ last why, n ≤ last ∧ (∀ i, n ≤ i → i < last → p.GoesOn f anchor bound i) ∧
      p.StopsAt f anchor bound last why ∧
      pointsFrom (p.latticePoint? f anchor) bound n [] =
        (List.range' n (last + 1 - n)).filterMap (p.latticePoint? f anchor) := by
  -- The induction is on the numbers that remain below the limit.
  induction hk : stepLimit - n generalizing n with
  | zero =>
    have hstop : p.StopsAt f anchor bound n .counting :=
      .counting (Nat.le_trans (by omega) (Nat.le_mul_of_pos_right n hstep))
    refine ⟨n, _, Nat.le_refl n, by omega, hstop, ?_⟩
    rw [hstop.pointsFrom_eq hstep, Nat.add_sub_cancel_left]
    cases h : p.latticePoint? f anchor n <;> simp [h]
  | succ k ih =>
    rcases p.goesOn_or_stopsAt f anchor bound n with ⟨t, ht, hle⟩ | ⟨why, hstop⟩
    · obtain ⟨last, why, hlast, hon, hstop, hpoints⟩ := ih (n + 1) (by omega)
      refine ⟨last, why, by omega, ?_, hstop, ?_⟩
      · intro i hi hlt
        rcases Nat.eq_or_lt_of_le hi with rfl | hgt
        · exact ⟨t, ht, hle⟩
        · exact hon i hgt hlt
      · rw [pointsFrom_of_le hstep ht hle, hpoints, show last + 1 - n = last - n + 1 by omega,
          List.range'_succ, List.filterMap_cons, ht, Nat.add_sub_add_right]
    · refine ⟨n, why, Nat.le_refl n, by omega, hstop, ?_⟩
      rw [hstop.pointsFrom_eq hstep, Nat.add_sub_cancel_left]
      cases h : p.latticePoint? f anchor n <;> simp [h]

/-- The lattice of a window ends at number `n`, and why. -/
structure EndsAt (p : Parts) (f : Frequency) (anchor start bound : Instant) (n : Nat)
    (why : Stop) : Prop where
  /-- The loop begins with the first number of the window. -/
  firstIndex_le : p.firstIndex f anchor start ≤ n
  /-- It does not stop before. -/
  goesOn : ∀ i, p.firstIndex f anchor start ≤ i → i < n → p.GoesOn f anchor bound i
  /-- It stops at `n`. -/
  stopsAt : p.StopsAt f anchor bound n why
  /-- All points that it has come by are listed. -/
  lattice_eq : p.lattice f anchor start bound =
    (List.range' (p.firstIndex f anchor start) (n + 1 - p.firstIndex f anchor start)).filterMap
      (p.latticePoint? f anchor)

/-- The loop ends. -/
theorem exists_endsAt (f : Frequency) (anchor start bound : Instant) (hstep : 1 ≤ p.step) :
    ∃ n why, p.EndsAt f anchor start bound n why := by
  obtain ⟨n, why, hle, hon, hstop, hpoints⟩ :=
    exists_stopsAt f anchor bound hstep (p.firstIndex f anchor start)
  exact ⟨n, why, hle, hon, hstop, hpoints⟩

/-- **It ends at one number and for one reason.** -/
theorem EndsAt.unique {why why' : Stop} (h : p.EndsAt f anchor start bound n why)
    (h' : p.EndsAt f anchor start bound m why') : m = n ∧ why' = why := by
  rcases Nat.lt_trichotomy m n with hlt | rfl | hgt
  · exact absurd (h.goesOn m h'.firstIndex_le hlt) h'.stopsAt.not_goesOn
  · exact ⟨rfl, h'.stopsAt.unique h.stopsAt⟩
  · exact absurd (h'.goesOn n h.firstIndex_le hgt) h.stopsAt.not_goesOn

/-! ## Where the counting ends -/

/-- The last point that can be counted. -/
def lastNumber (p : Parts) : Nat :=
  (stepLimit - 1) / p.step

theorem le_lastNumber_iff (hstep : 1 ≤ p.step) : n ≤ p.lastNumber ↔ n * p.step < stepLimit := by
  have hpos : 0 < stepLimit := by decide
  rw [lastNumber, Nat.le_div_iff_mul_le hstep]
  omega

/-- **The counting ends a lattice where the last number comes before the window, or its point
not after the bound.** -/
theorem EndsAt.counting_iff {why : Stop} (h : p.EndsAt f anchor start bound n why)
    (hstep : 1 ≤ p.step) :
    why = .counting ↔
      p.lastNumber < p.firstIndex f anchor start ∨ p.GoesOn f anchor bound p.lastNumber := by
  rw [h.stopsAt.counting_iff, ← Nat.not_lt, ← le_lastNumber_iff hstep, Nat.not_le]
  constructor
  · intro hlast
    rcases Nat.lt_or_ge p.lastNumber (p.firstIndex f anchor start) with hlt | hge
    · exact .inl hlt
    · exact .inr (h.goesOn _ hge hlast)
  · rintro (hlt | hon)
    · exact Nat.lt_of_lt_of_le hlt h.firstIndex_le
    · rw [← Nat.not_le]
      intro hle
      exact h.stopsAt.not_goesOn (hon.of_le hstep hle)

/-- **What a lattice lists**: the instants whole steps after the anchor, from the first number
of the window to the first one past the bound, as far as their units can be counted. -/
theorem mem_lattice_iff (hstep : 1 ≤ p.step) :
    t ∈ p.lattice f anchor start bound ↔
      ∃ n, p.firstIndex f anchor start ≤ n ∧ n * p.step < stepLimit ∧
        anchor.advance? f (n * p.step) = some t ∧
        (n = p.firstIndex f anchor start ∨
          ∃ u, anchor.advance? f ((n - 1) * p.step) = some u ∧ u ≤ bound) := by
  rw [lattice_eq_filterMap hstep, List.mem_filterMap]
  simp only [List.mem_range, Option.ite_none_right_eq_some, visits_iff, latticePoint?_eq_some_iff]
  constructor
  · rintro ⟨n, -, ⟨hfirst, hprev⟩, hlt, ht⟩
    refine ⟨n, hfirst, hlt, ht, hprev.imp_right ?_⟩
    rintro ⟨u, hu, hle⟩
    exact ⟨u, hu.2, hle⟩
  · rintro ⟨n, hfirst, hlt, ht, hprev⟩
    have hn := Nat.le_mul_of_pos_right n hstep
    have hmul := Nat.mul_le_mul_right p.step (Nat.sub_le n 1)
    refine ⟨n, by omega, ⟨hfirst, hprev.imp_right ?_⟩, hlt, ht⟩
    rintro ⟨u, hu, hle⟩
    exact ⟨u, ⟨by omega, hu⟩, hle⟩

end Parts

/-! ## Years of four digits -/

/-- **Between two years of four digits there are fewer than ninety million hours**, and no more
of a coarser unit. -/
theorem Instant.unit_lt_of_hasFourDigitYear {f : Frequency} {t u : Instant}
    (ht : t.date.HasFourDigitYear) (hu : u.date.HasFourDigitYear) (hf : Frequency.hourly ≤ f) :
    u.unit f < t.unit f + 90000000 := by
  have htd := (Date.year_eq_iff (d := t.date)).1 rfl
  have hud := (Date.year_eq_iff (d := u.date)).1 rfl
  have hfirst := Calendar.newYear_le ht.1
  have hlast := Calendar.newYear_le (show u.date.year + 1 ≤ 10000 by have := hu.2; omega)
  have hdays : Calendar.newYear 10000 - Calendar.newYear 0 = 3652425 := by decide
  have hts := t.time.seconds_lt
  have hus := u.time.seconds_lt
  have htm := t.date.month_bounds.1
  have hum := u.date.month_bounds.1
  obtain ⟨ht₀, ht₁⟩ := ht
  obtain ⟨hu₀, hu₁⟩ := hu
  cases f with
  | secondly | minutely => exact absurd hf (by decide)
  | hourly => simp only [unit, seconds]; omega
  | daily | weekly => simp only [unit]; omega
  | monthly => simp only [unit, Date.monthIndex]; omega
  | yearly => simp only [unit]; omega

namespace Parts

variable {p : Parts} {f : Frequency} {anchor start bound : Instant} {n : Nat}

/-- An interval can be counted. -/
theorem step_lt_stepLimit (p : Parts) : p.step < stepLimit := by
  unfold step
  split
  · next k _ =>
    have := k.le_hi
    show k.val.toNat < 4294967296
    omega
  · decide

/-- **Between years of four digits hours and coarser units can all be counted**: up to the
first point of a window and to the first one past its bound. -/
theorem mul_step_lt_stepLimit (hstep : 1 ≤ p.step) (hf : Frequency.hourly ≤ f)
    (ha : anchor.date.HasFourDigitYear) (hs : start.date.HasFourDigitYear)
    (hb : bound.date.HasFourDigitYear)
    (h : n = p.firstIndex f anchor start ∨
      ∃ u, anchor.advance? f ((n - 1) * p.step) = some u ∧ u ≤ bound) :
    n * p.step < stepLimit := by
  have hlimit : stepLimit = 4294967296 := rfl
  cases n with
  | zero => omega
  | succ k =>
    rw [Nat.succ_mul]
    rcases h with hfirst | ⟨u, hu, hle⟩
    · -- The first number is one less than the whole steps to the seed.
      have hlt : k < p.firstIndex f anchor start := by omega
      obtain ⟨-, seed, hseed, hunits⟩ := (lt_firstIndex_iff hstep).1 hlt
      have hseedUnit := unit_seed?_le hseed
      have hmax : (max start anchor).date.HasFourDigitYear := by
        show (if start ≤ anchor then anchor else start).date.HasFourDigitYear
        split
        · exact ha
        · exact hs
      have hyears := Instant.unit_lt_of_hasFourDigitYear ha hmax hf
      rw [Int.add_mul] at hunits
      have hk : (0 : Int) ≤ k * p.step := Int.mul_nonneg (by omega) (by omega)
      have hmeasure := Instant.unit_add_unitsBetween_le
        (show 0 < anchor.unitsBetween seed f by omega)
      omega
    · -- The point before is not past the bound, and one step more can still be counted.
      have hunit := Instant.unit_advance? hu
      have hmono := Instant.unit_mono f hle
      have hyears := Instant.unit_lt_of_hasFourDigitYear ha hb hf
      rw [Nat.add_sub_cancel] at hunit
      have hone := p.step_lt_stepLimit
      rcases Nat.eq_zero_or_pos k with rfl | hk
      · omega
      · have := Nat.le_mul_of_pos_left p.step hk
        omega

/-- A lattice that ends because units cannot be counted is one of seconds or minutes. -/
theorem EndsAt.lt_hourly (h : p.EndsAt f anchor start bound n .counting) (hstep : 1 ≤ p.step)
    (ha : anchor.date.HasFourDigitYear) (hs : start.date.HasFourDigitYear)
    (hb : bound.date.HasFourDigitYear) : f < .hourly := by
  by_contra hf
  have hlimit := h.stopsAt.counting_iff.1 rfl
  refine Nat.not_lt.2 hlimit (mul_step_lt_stepLimit hstep (Nat.not_lt.1 hf) ha hs hb ?_)
  rcases Nat.eq_or_lt_of_le h.firstIndex_le with heq | hlt
  · exact .inl heq.symm
  · obtain ⟨u, hu, hle⟩ := h.goesOn (n - 1) (by omega) (by omega)
    exact .inr ⟨u, (latticePoint?_eq_some_iff.1 hu).2, hle⟩

end Parts

/-- What always holds of hours and coarser units needs a condition for finer ones only. -/
theorem Frequency.lt_hourly_imp_iff {f : Frequency} {P : Prop} (h : hourly ≤ f → P) :
    (f < hourly → P) ↔ P := by
  refine ⟨fun himp => ?_, fun hP _ => hP⟩
  by_cases hf : f < hourly
  · exact himp hf
  · exact h (Nat.not_lt.1 hf)

namespace Rule

variable {r : Rule} {f : Frequency} {anchor start bound c : Instant} {finish : Option Instant}

/-- What a rule without a count gives in a window **if it stays in its periods**: the
candidates in the window of all instants whole steps after the anchor, as far as their units
can be counted. -/
theorem mem_instants_iff_of_confined (hc : r.Confined f) (hcount : r.count = none)
    (hb : earlier? (r.endsAt.map Until.instant) finish = some bound) :
    c ∈ r.instants f anchor start finish ↔
      (max start anchor ≤ c ∧ c ≤ bound) ∧
        ∃ n t, n * r.step < stepLimit ∧ anchor.advance? f (n * r.step) = some t ∧
          c ∈ r.candidates f [t] := by
  rw [instants_eq_filter_series hc hcount hb, List.mem_filter, window, Window.contains_iff hb,
    and_comm, Parts.series, List.mem_flatMap]
  simp only [List.mem_range, Parts.mem_periodAt, Parts.latticePoint?_eq_some_iff]
  refine and_congr_right fun _ => ?_
  constructor
  · rintro ⟨n, -, t, ⟨hlt, ht⟩, hmem⟩
    exact ⟨n, t, hlt, ht, hmem⟩
  · rintro ⟨n, t, hlt, ht, hmem⟩
    have hn := Nat.le_mul_of_pos_right n r.one_le_step
    exact ⟨n, by omega, t, ⟨hlt, ht⟩, hmem⟩

/-- **The counting ends no series in hours or coarser units early.** Between years of four
digits the lattice of a rule ends at one number for one reason, and never because units
cannot be counted, but for seconds and minutes, where that happens if the last number that
can be counted comes before the window or its point not after the bound. So the lattice has
every instant whole steps after the anchor from the first to the one past the bound, and a
rule without a count that stays in its periods gives all their candidates in the window; in
seconds and minutes these are the ones whose units can be counted. -/
theorem lattice_endsAt_counting_iff (r : Rule) (f : Frequency) (anchor start bound : Instant)
    (ha : anchor.date.HasFourDigitYear) (hs : start.date.HasFourDigitYear)
    (hb : bound.date.HasFourDigitYear) :
    (∃ n why, r.EndsAt f anchor start bound n why ∧
      (∀ m why', r.EndsAt f anchor start bound m why' → m = n ∧ why' = why) ∧
      (why = .counting ↔ f < .hourly ∧
        (r.lastNumber < r.firstIndex f anchor start ∨ r.GoesOn f anchor bound r.lastNumber))) ∧
    (∀ t, t ∈ r.lattice f anchor start bound ↔
      ∃ n, r.firstIndex f anchor start ≤ n ∧ (f < .hourly → n * r.step < Nat.pow 2 32) ∧
        anchor.advance? f (n * r.step) = some t ∧
        (n = r.firstIndex f anchor start ∨
          ∃ u, anchor.advance? f ((n - 1) * r.step) = some u ∧ u ≤ bound)) ∧
    (r.Confined f → r.count = none →
      ∀ finish, earlier? (r.endsAt.map Until.instant) finish = some bound →
      ∀ c, c ∈ r.instants f anchor start finish ↔
        (max start anchor ≤ c ∧ c ≤ bound) ∧
          ∃ n t, (f < .hourly → n * r.step < Nat.pow 2 32) ∧
            anchor.advance? f (n * r.step) = some t ∧ c ∈ r.candidates f [t]) := by
  refine ⟨?_, ?_, ?_⟩
  · obtain ⟨n, why, hend⟩ := Parts.exists_endsAt f anchor start bound r.one_le_step
    refine ⟨n, why, hend, fun m why' h => hend.unique h, ?_⟩
    rw [← hend.counting_iff r.one_le_step, iff_and_self]
    rintro rfl
    exact hend.lt_hourly r.one_le_step ha hs hb
  · intro t
    rw [Parts.mem_lattice_iff r.one_le_step]
    refine exists_congr fun n => and_congr_right fun _ => and_congr_left fun ⟨_, hprev⟩ => ?_
    refine (Frequency.lt_hourly_imp_iff fun hf => ?_).symm
    exact Parts.mul_step_lt_stepLimit r.one_le_step hf ha hs hb hprev
  · intro hc hcount finish hbound c
    rw [mem_instants_iff_of_confined hc hcount hbound]
    refine and_congr_right fun hin => exists_congr fun n => exists_congr fun t =>
      and_congr_left fun ⟨ht, hmem⟩ => ?_
    refine (Frequency.lt_hourly_imp_iff fun hf => ?_).symm
    -- The candidate lies in the unit of the instant, and not past the bound.
    have hunit := Instant.unit_advance? ht
    have hcandidate := hc.unit_of_mem_candidates hmem
    have hmono := Instant.unit_mono f hin.2
    have hyears := Instant.unit_lt_of_hasFourDigitYear ha hb hf
    show n * r.step < 4294967296
    omega

/-- Every twelve hours, at a quarter past and at half past. -/
def everyTwelveHours : Rule where
  freq := some .hourly
  interval := some (.of 12)
  byMinute := [.of 15, .of 30]
  valid := Parts.fault?_eq_none_iff.1 (by decide)

/-- From the first hour of the year 0 to the last days of the year 9999. -/
theorem everyTwelveHours_lattice_endsAt :
    let r := everyTwelveHours
    let anchor := (Date.ymd 0 1 1).atHour 0
    let start := (Date.ymd 9999 12 30).atHour 0
    let bound := (Date.ymd 9999 12 31).atHour 0
    anchor.date.HasFourDigitYear ∧ start.date.HasFourDigitYear ∧ bound.date.HasFourDigitYear ∧
    (∃ n why, r.EndsAt .hourly anchor start bound n why ∧ why ≠ .counting) ∧
    ∀ c, c ∈ r.instants .hourly anchor start (some bound) ↔
      (max start anchor ≤ c ∧ c ≤ bound) ∧
        ∃ n t, anchor.advance? .hourly (n * r.step) = some t ∧ c ∈ r.candidates .hourly [t] := by
  intro r anchor start bound
  have ha : anchor.date.HasFourDigitYear := by decide
  have hs : start.date.HasFourDigitYear := by decide
  have hb : bound.date.HasFourDigitYear := by decide
  obtain ⟨⟨n, why, hend, -, hwhy⟩, -, hinstants⟩ :=
    lattice_endsAt_counting_iff r .hourly anchor start bound ha hs hb
  refine ⟨ha, hs, hb, ⟨n, why, hend, ?_⟩, ?_⟩
  · intro hcounting
    exact absurd (hwhy.1 hcounting).1 (by decide)
  · have hnot : ¬ Frequency.hourly < .hourly := by decide
    simpa only [hnot, false_imp_iff, true_and] using
      hinstants (by decide) rfl (some bound) rfl

/-- Every second. -/
def everySecond : Rule where
  freq := some .secondly
  valid := Parts.fault?_eq_none_iff.1 (by decide)

/-- **From 1800 on, seconds cannot be counted up to 2020**: the lattice ends before it begins,
and the instant that is asked for is missing, though it lies whole seconds after the anchor. -/
theorem everySecond_lattice_endsAt_counting :
    let anchor := (Date.ymd 1800 1 1).atHour 0
    let start := (Date.ymd 2020 1 1).atHour 0
    (∃ n, everySecond.EndsAt .secondly anchor start start n .counting) ∧
      (∃ n, anchor.advance? .secondly n = some start) ∧
      start ∉ everySecond.instants .secondly anchor start (some start) := by
  intro anchor start
  refine ⟨?_, ⟨6942499200, by decide +kernel⟩, ?_⟩
  · obtain ⟨n, why, hend⟩ :=
      Parts.exists_endsAt .secondly anchor start start everySecond.one_le_step
    have hbefore : everySecond.lastNumber < everySecond.firstIndex .secondly anchor start := by
      decide +kernel
    obtain rfl := (hend.counting_iff everySecond.one_le_step).2 (.inl hbefore)
    exact ⟨n, hend⟩
  · intro hmem
    have hconfined : everySecond.Confined .secondly := by decide
    obtain ⟨-, n, t, hlt, ht, hc⟩ := (mem_instants_iff_of_confined hconfined rfl rfl).1 hmem
    have hunit := Instant.unit_advance? ht
    have hcandidate := hconfined.unit_of_mem_candidates hc
    have hfar : anchor.unit .secondly + stepLimit ≤ start.unit .secondly := by decide +kernel
    omega

end Rule

end Recurrence
