import Recurrence.Expansion.Seed
import Recurrence.Proofs.Expansion.Unit

/-!
# Where seeds lie

The blend of a window's beginning with the anchor takes every field down to the
frequency's own from the beginning, and so it **stays in the unit in which the
window begins** (`unit_blend?`). The seed is the blend or, where that comes too
early, one unit later (`Parts.exists_blend?_of_seed?`): it never lies before the
window (`Parts.le_seed?`), nor further on than the unit after
(`Parts.unit_seed?_le`).
-/

namespace Recurrence

namespace Field

/-- The finer of two fields stands later in the order. -/
theorem rank_max (a b : Field) : (max a b).rank = max a.rank b.rank := by
  cases a <;> cases b <;> decide

/-- A field is no finer than the finest of a list that begins with it. -/
theorem le_foldl_max (a : Field) (l : List Field) : a ≤ l.foldl max a := by
  induction l generalizing a with
  | nil => exact Nat.le_refl _
  | cons b l ih =>
    have h : a.rank ≤ (max a b).rank := by rw [rank_max]; exact Nat.le_max_left _ _
    exact Nat.le_trans h (ih (max a b))

end Field

/-- A rule sets no coarser field than the one in which it steps. -/
theorem Parts.field_le_finestField (p : Parts) (f : Frequency) : f.field ≤ p.finestField f :=
  Field.le_foldl_max _ _

namespace Instant

variable {finest : Field} {m a t : Instant}

/-- Down to the days, a blend has the date of the window's beginning. -/
theorem date_blend? (h : blend? finest m a = some t) (hd : Field.day ≤ finest) :
    t.date = m.date ∧ t.time = blendTime finest m.time a.time := by
  cases finest with
  | year => exact absurd hd (by decide)
  | month => exact absurd hd (by decide)
  | day | hour | minute | second =>
    cases h
    exact ⟨rfl, rfl⟩

/-- A blend of times down to the hours has the hour of the coarse one. -/
theorem hour_blendTime {c g : TimeOfDay} (h : Field.hour ≤ finest) :
    (blendTime finest c g).hour = c.hour := by
  cases finest <;> first | rfl | exact absurd h (by decide)

/-- A blend of times down to the minutes has the minute of the coarse one. -/
theorem minute_blendTime {c g : TimeOfDay} (h : Field.minute ≤ finest) :
    (blendTime finest c g).minute = c.minute := by
  cases finest <;> first | rfl | exact absurd h (by decide)

/-- A blend of times down to the seconds is the coarse one. -/
theorem blendTime_second {c g : TimeOfDay} (h : Field.second ≤ finest) :
    blendTime finest c g = c := by
  cases finest <;> first | rfl | exact absurd h (by decide)

/-- An instant blended with itself is itself. -/
theorem blend?_self (finest : Field) (t : Instant) : blend? finest t t = some t := by
  have hdate : Date.ofYmdClamped? t.date.year t.date.month t.date.monthDay = some t.date := by
    rw [Date.ofYmdClamped?_eq_some_iff]
    exact ⟨rfl, rfl, (Nat.min_eq_left t.date.monthDay_bounds.2).symm⟩
  cases finest <;> simp [blend?, blendDate?, blendTime, hdate]

/-- **A blend stays in the unit of the window's beginning.** -/
theorem unit_blend? {f : Frequency} (h : blend? finest m a = some t) (hf : f.field ≤ finest) :
    t.unit f = m.unit f := by
  -- Finer fields than the frequency's own do not carry into its unit.
  have hmm := m.time.minute_lt
  have hms := m.time.second_lt
  have htm := t.time.minute_lt
  have hts := t.time.second_lt
  cases f with
  | secondly =>
    obtain ⟨hd, ht⟩ := date_blend? h (Nat.le_trans (by decide) hf)
    rw [blendTime_second hf] at ht
    simp only [unit, seconds, hd, ht]
  | minutely =>
    obtain ⟨hd, ht⟩ := date_blend? h (Nat.le_trans (by decide) hf)
    have hh : t.time.hour = m.time.hour := ht ▸ hour_blendTime (Nat.le_trans (by decide) hf)
    have hm : t.time.minute = m.time.minute := ht ▸ minute_blendTime hf
    simp only [unit, seconds, TimeOfDay.seconds, hd, hh, hm]
    omega
  | hourly =>
    obtain ⟨hd, ht⟩ := date_blend? h (Nat.le_trans (by decide) hf)
    have hh : t.time.hour = m.time.hour := ht ▸ hour_blendTime hf
    simp only [unit, seconds, TimeOfDay.seconds, hd, hh]
    omega
  | daily => simp only [unit, (date_blend? h hf).1]
  | weekly => simp only [unit, (date_blend? h hf).1]
  | monthly =>
    cases finest with
    | year => exact absurd hf (by decide)
    | month =>
      obtain ⟨d, hd, rfl⟩ := Option.map_eq_some_iff.1 h
      have := Date.ofYmdClamped?_eq_some_iff.1 hd
      simp only [unit, Date.monthIndex, this]
    | day | hour | minute | second => simp only [unit, (date_blend? h (by decide)).1]
  | yearly =>
    cases finest with
    | year | month =>
      obtain ⟨d, hd, rfl⟩ := Option.map_eq_some_iff.1 h
      exact (Date.ofYmdClamped?_eq_some_iff.1 hd).1
    | day | hour | minute | second => simp only [unit, (date_blend? h (by decide)).1]

/-- **A blend always exists**: its day is clamped to a month of a year that the calendar has. -/
theorem exists_blend? (finest : Field) (m a : Instant) : ∃ b, blend? finest m a = some b := by
  have hclamped : ∀ {k : Nat}, 1 ≤ k ∧ k ≤ 12 →
      ∃ d, Date.ofYmdClamped? m.date.year k a.date.monthDay = some d := fun hk =>
    Date.exists_ofYmdClamped? m.date.hasYear_year hk a.date.monthDay_bounds.1
  have hdate : ∃ d, blendDate? finest m.date a.date = some d := by
    cases finest with
    | year => exact hclamped a.date.month_bounds.1
    | month => exact hclamped m.date.month_bounds.1
    | day | hour | minute | second => exact ⟨m.date, rfl⟩
  obtain ⟨d, hd⟩ := hdate
  exact ⟨_, by rw [blend?, hd]; rfl⟩

end Instant

namespace Parts

variable {p : Parts} {f : Frequency} {anchor start b s : Instant}

/-- **A window that begins with the anchor or before has the anchor for its seed.** -/
theorem seed?_of_le (h : start ≤ anchor) : p.seed? f anchor start = some anchor := by
  have hmax : max start anchor = anchor := if_pos h
  have hnot : ¬ anchor < start := Instant.not_lt.2 h
  simp only [seed?, hmax, Instant.blend?_self, if_neg hnot]

/-- A seed is the blend, or one unit later where the blend comes before the window or before
the anchor. -/
theorem seed?_eq_of_blend?
    (h : Instant.blend? (p.finestField f) (max start anchor) anchor = some b) :
    p.seed? f anchor start = if b < max start anchor then b.advance? f 1 else some b := by
  by_cases hle : start ≤ anchor
  · have hmax : max start anchor = anchor := if_pos hle
    rw [hmax, Instant.blend?_self] at h
    cases h
    rw [seed?_of_le hle, hmax, if_neg (Instant.not_lt.2 (Instant.le_refl _))]
  · have hmax : max start anchor = start := if_neg hle
    rw [seed?, h, hmax]

/-- **How a seed comes about**: the blend, which stays in the unit of the beginning, is late
enough, or else a step of one unit makes it so. -/
theorem exists_blend?_of_seed? (h : p.seed? f anchor start = some s) :
    ∃ b, Instant.blend? (p.finestField f) (max start anchor) anchor = some b ∧
      b.unit f = (max start anchor).unit f ∧
      (b < max start anchor ∧ b.advance? f 1 = some s ∨ max start anchor ≤ b ∧ s = b) := by
  obtain ⟨b, hb⟩ := Instant.exists_blend? (p.finestField f) (max start anchor) anchor
  refine ⟨b, hb, Instant.unit_blend? hb (p.field_le_finestField f), ?_⟩
  rw [seed?_eq_of_blend? hb] at h
  split at h
  · next hlt => exact .inl ⟨hlt, h⟩
  · next hnot => exact .inr ⟨Instant.not_lt.1 hnot, (Option.some.inj h).symm⟩

/-- **A window without a seed is one that the calendar ends before**: the blend comes too
early and the calendar has no instant one unit later. -/
theorem seed?_eq_none_iff :
    p.seed? f anchor start = none ↔
      ∃ b, Instant.blend? (p.finestField f) (max start anchor) anchor = some b ∧
        b < max start anchor ∧ b.advance? f 1 = none := by
  obtain ⟨b, hb⟩ := Instant.exists_blend? (p.finestField f) (max start anchor) anchor
  rw [seed?_eq_of_blend? hb]
  simp only [hb, Option.some.injEq, exists_eq_left']
  split
  · next h => simp only [h, true_and]
  · next h => simp only [h, reduceCtorEq, false_and]

/-- **No seed lies before the window or before the anchor.** -/
theorem le_seed? (h : p.seed? f anchor start = some s) : max start anchor ≤ s := by
  obtain ⟨b, -, hunit, ⟨-, hs⟩ | ⟨hle, rfl⟩⟩ := exists_blend?_of_seed? h
  · have hstep := Instant.unit_advance? hs
    exact Instant.le_of_lt (Instant.lt_of_unit_lt (f := f) (by omega))
  · exact hle

/-- **A seed lies in the unit in which its window begins, or in the next one.** -/
theorem unit_seed?_le (h : p.seed? f anchor start = some s) :
    s.unit f ≤ (max start anchor).unit f + 1 := by
  obtain ⟨b, -, hunit, ⟨-, hs⟩ | ⟨-, rfl⟩⟩ := exists_blend?_of_seed? h
  · have hstep := Instant.unit_advance? hs
    omega
  · omega

end Parts

end Recurrence
