import Recurrence.Expansion.Lattice
import Recurrence.Proofs.Expansion.Seed
import Mathlib.Data.List.Basic

/-!
# The points of a lattice

The points of a lattice follow one another a fixed number of units apart, each
later than the one before, until the calendar or the counting ends
(`Parts.unit_latticePoint?`, `Parts.latticePoint?_lt`). A window visits those
from its first index up to the first one past its bound: `Parts.visits` says
which, and **the lattice of the window lists exactly these**
(`Parts.lattice_eq_filterMap`). What lies before the first index lies in an
earlier unit than the window (`Parts.unit_lt_of_lt_firstIndex`).
-/

namespace Recurrence

namespace Parts

variable {p : Parts} {f : Frequency} {anchor start bound t u : Instant} {m n : Nat}

/-! ## Points -/

/-- A point lies a whole number of steps after the anchor. -/
theorem latticePoint?_eq_some_iff :
    p.latticePoint? f anchor n = some t ↔
      n * p.step < stepLimit ∧ anchor.advance? f (n * p.step) = some t := by
  unfold latticePoint?
  split
  · next h => exact ⟨fun ht => ⟨h, ht⟩, fun ht => ht.2⟩
  · next h =>
    constructor
    · intro ht
      cases ht
    · intro ht
      exact absurd ht.1 h

/-- **The number of a point tells its unit.** -/
theorem unit_latticePoint? (h : p.latticePoint? f anchor n = some t) :
    t.unit f = anchor.unit f + n * p.step := by
  have := Instant.unit_advance? (latticePoint?_eq_some_iff.1 h).2
  rw [this, Int.natCast_mul]

/-- Where there is a point, there are all points before it. -/
theorem exists_latticePoint? (h : p.latticePoint? f anchor n = some t) (hm : m ≤ n) :
    ∃ u, p.latticePoint? f anchor m = some u := by
  obtain ⟨hn, ht⟩ := latticePoint?_eq_some_iff.1 h
  have hle := Nat.mul_le_mul_right p.step hm
  obtain ⟨u, hu⟩ := Instant.exists_advance? ht hle
  exact ⟨u, latticePoint?_eq_some_iff.2 ⟨by omega, hu⟩⟩

/-- The points of a rule that steps at all are numbered below the limit. -/
theorem lt_stepLimit (hstep : 1 ≤ p.step) (h : p.latticePoint? f anchor n = some t) :
    n < stepLimit := by
  have hn := (latticePoint?_eq_some_iff.1 h).1
  have := Nat.mul_le_mul_left n hstep
  omega

/-- **Later points are later instants.** -/
theorem latticePoint?_lt (hstep : 1 ≤ p.step) (hm : p.latticePoint? f anchor m = some t)
    (hn : p.latticePoint? f anchor n = some u) (h : m < n) : t < u := by
  refine Instant.advance?_lt (latticePoint?_eq_some_iff.1 hm).2
    (latticePoint?_eq_some_iff.1 hn).2 ?_
  exact Nat.mul_lt_mul_of_pos_right h hstep

/-- No later point is earlier. -/
theorem le_of_latticePoint? (hstep : 1 ≤ p.step) (hm : p.latticePoint? f anchor m = some t)
    (hn : p.latticePoint? f anchor n = some u) (h : m ≤ n) : t ≤ u := by
  rcases Nat.lt_or_eq_of_le h with hlt | rfl
  · exact Instant.le_of_lt (latticePoint?_lt hstep hm hn hlt)
  · cases hm.symm.trans hn
    exact Instant.le_refl t

/-! ## The first point of a window -/

/-- **The points before the first index are two steps and more before the seed.** -/
theorem lt_firstIndex_iff (hstep : 1 ≤ p.step) :
    n < p.firstIndex f anchor start ↔
      p.count.isNone ∧ ∃ seed, p.seed? f anchor start = some seed ∧
        (n + 2) * (p.step : Int) ≤ anchor.unitsBetween seed f := by
  have hpos : (0 : Int) < p.step := by omega
  unfold firstIndex
  cases hcount : p.count with
  | some k => simp
  | none =>
    cases hseed : p.seed? f anchor start with
    | none => simp
    | some seed =>
      simp only [Option.isSome_none, Bool.false_eq_true, if_false, Option.isNone_none, true_and,
        Option.some.injEq, exists_eq_left']
      rw [← Int.le_ediv_iff_mul_le hpos]
      rcases Int.lt_or_le (anchor.unitsBetween seed f) 0 with hneg | hnonneg
      · -- Rounded toward zero or down, the quotient leaves no number below the first index.
        have hdiv := Int.ediv_neg_of_neg_of_pos hneg hpos
        have htdiv : (anchor.unitsBetween seed f).tdiv p.step ≤ 0 := by
          rw [← Int.not_lt]
          intro h
          rw [Instant.tdiv_eq_ediv_of_pos hpos h] at h
          omega
        omega
      · rw [Int.tdiv_eq_ediv_of_nonneg hnonneg]
        omega

/-- A window that begins with the anchor or before looks at the anchor first. -/
theorem firstIndex_of_le (h : start ≤ anchor) : p.firstIndex f anchor start = 0 := by
  unfold firstIndex
  rw [seed?_of_le h]
  simp

/-- **No window begins with a later unit than its own**: the points before its
first index lie in units that are over when it begins. -/
theorem unit_lt_of_lt_firstIndex (hstep : 1 ≤ p.step) (hn : n < p.firstIndex f anchor start)
    (ht : p.latticePoint? f anchor n = some t) : t.unit f < (max start anchor).unit f := by
  obtain ⟨-, seed, hseed, hle⟩ := (lt_firstIndex_iff hstep).1 hn
  rw [Int.add_mul] at hle
  have hnk : (0 : Int) ≤ n * p.step := Int.mul_nonneg (by omega) (by omega)
  have h₁ := unit_latticePoint? ht
  have h₂ := unit_seed?_le hseed
  have h₃ := Instant.unit_add_unitsBetween_le
    (show 0 < anchor.unitsBetween seed f by omega)
  omega

/-! ## The points that a window visits -/

/-- The first numbers, and those from there on. -/
theorem range_eq_append {m n : Nat} (h : m ≤ n) :
    List.range n = List.range m ++ List.range' m (n - m) := by
  have := List.range'_append_1 (s := 0) (m := m) (n := n - m)
  rw [Nat.zero_add, Nat.add_sub_cancel' h] at this
  rw [List.range_eq_range', List.range_eq_range', this]

/-- Whether a window visits point number `n`: it is the first, or **the point
before it does not lie past the bound**. -/
def visits (p : Parts) (f : Frequency) (anchor start bound : Instant) (n : Nat) : Bool :=
  p.firstIndex f anchor start ≤ n &&
    (n == p.firstIndex f anchor start || (p.latticePoint? f anchor (n - 1)).any (· ≤ bound))

/-- A point exists and does not lie past the bound. -/
theorem any_le_iff {o : Option Instant} :
    o.any (· ≤ bound) = true ↔ ∃ t, o = some t ∧ t ≤ bound := by
  simp only [Option.any_eq_true, decide_eq_true_eq]

theorem visits_iff :
    p.visits f anchor start bound n ↔
      p.firstIndex f anchor start ≤ n ∧
        (n = p.firstIndex f anchor start ∨
          ∃ t, p.latticePoint? f anchor (n - 1) = some t ∧ t ≤ bound) := by
  simp only [visits, Bool.and_eq_true, Bool.or_eq_true, decide_eq_true_eq, beq_iff_eq, any_le_iff]

/-- The points from number `n` on, as long as the point before does not lie past
the bound. -/
theorem pointsFrom_eq_filterMap (hstep : 1 ≤ p.step) (n : Nat) :
    pointsFrom (p.latticePoint? f anchor) bound n [] =
      (List.range' n (stepLimit - n)).filterMap fun i =>
        if i = n ∨ (p.latticePoint? f anchor (i - 1)).any (· ≤ bound) then
          p.latticePoint? f anchor i
        else none := by
  -- The induction is on the numbers that remain below the limit.
  induction hk : stepLimit - n generalizing n with
  | zero =>
    rw [pointsFrom, if_neg (by omega)]
    rfl
  | succ k ih =>
    rw [pointsFrom, if_pos (by omega), List.range'_succ, List.filterMap_cons, if_pos (.inl rfl)]
    cases h : p.latticePoint? f anchor n with
    | none =>
      -- No point exists after one that does not.
      refine (List.filterMap_eq_nil_iff.2 ?_).symm
      intro i hi
      have hi := (List.mem_range'_1.1 hi).1
      split
      · rw [Option.eq_none_iff_forall_ne_some]
        intro t ht
        obtain ⟨u, hu⟩ := exists_latticePoint? ht (show n ≤ i by omega)
        rw [h] at hu
        cases hu
      · rfl
    | some t =>
      by_cases hb : bound < t
      · -- Later points are later still: none of them is followed by a visited one.
        simp only [if_pos hb, List.reverse_singleton]
        congr 1
        refine (List.filterMap_eq_nil_iff.2 ?_).symm
        intro i hi
        have hi := (List.mem_range'_1.1 hi).1
        refine if_neg ?_
        rintro (rfl | hany)
        · omega
        · obtain ⟨u, hu, hle⟩ := any_le_iff.1 hany
          have htu : t ≤ u := le_of_latticePoint? hstep h hu (by omega)
          exact Instant.not_lt.2 (Instant.le_trans htu hle) hb
      · simp only [if_neg hb]
        rw [pointsFrom_eq_append, ih (n + 1) (by omega)]
        refine congrArg (t :: ·) (List.filterMap_congr ?_)
        intro i hi
        have hi := (List.mem_range'_1.1 hi).1
        by_cases hi' : i = n + 1
        · subst hi'
          have hvis : (p.latticePoint? f anchor (n + 1 - 1)).any (· ≤ bound) = true :=
            any_le_iff.2 ⟨t, h, Instant.not_lt.1 hb⟩
          rw [if_pos (.inl rfl), if_pos (.inr hvis)]
        · simp only [hi', show i ≠ n by omega, false_or]

/-- **The lattice of a window is the list of the points that it visits.** -/
theorem lattice_eq_filterMap (hstep : 1 ≤ p.step) :
    p.lattice f anchor start bound =
      (List.range stepLimit).filterMap fun n =>
        if p.visits f anchor start bound n then p.latticePoint? f anchor n else none := by
  have hbefore : ∀ k ≤ p.firstIndex f anchor start, (List.range k).filterMap (fun n =>
      if p.visits f anchor start bound n then p.latticePoint? f anchor n else none) = [] := by
    intro k hk
    rw [List.filterMap_eq_nil_iff]
    intro n hn
    rw [List.mem_range] at hn
    refine if_neg ?_
    intro hv
    have := (visits_iff.1 hv).1
    omega
  rw [lattice, pointsFrom_eq_filterMap hstep]
  rcases Nat.le_total stepLimit (p.firstIndex f anchor start) with h | h
  · -- The window begins where the counting has ended.
    rw [Nat.sub_eq_zero_of_le h, hbefore stepLimit h]
    rfl
  · rw [range_eq_append h, List.filterMap_append, hbefore _ (Nat.le_refl _), List.nil_append]
    apply List.filterMap_congr
    intro n hn
    have hn := (List.mem_range'_1.1 hn).1
    simp only [visits, Bool.and_eq_true, Bool.or_eq_true, decide_eq_true_eq, beq_iff_eq, hn,
      true_and]

end Parts

end Recurrence
