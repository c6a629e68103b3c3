import Recurrence.Proofs.Expansion.Windows

/-!
# Longer intervals

A rule with an interval opens a period only after so many units, and the periods that it
opens are periods of the rule that opens one in every unit: number `i` of the one is
number `i * n` of the other (`Parts.periodAt_spaced`). Where the lists of the rule do not
leave its periods, the unit of a candidate tells the number of its period, so that **an
interval thins the series** and does nothing else (`Parts.Confined.series_spaced`). That
the two loops begin with different points, and end after different ones, is not seen in
their answers.
-/

namespace Recurrence

/-- Of all numbers below a multiple of `k`, the multiples of `k`, in order. -/
theorem flatMap_range_mul {α : Type} {k : Nat} (hk : 1 ≤ k) (P : Nat → List α) (n : Nat) :
    ((List.range (n * k)).flatMap fun i => if k ∣ i then P i else []) =
      (List.range n).flatMap fun i => P (i * k) := by
  induction n with
  | zero => simp
  | succ n ih =>
    -- Of the `k` numbers from `n * k` on, only the first is a multiple.
    have hblock : ((List.range k).flatMap fun i => if k ∣ n * k + i then P (n * k + i) else []) =
        P (n * k) := by
      obtain ⟨j, rfl⟩ := Nat.exists_eq_add_of_le' hk
      rw [List.range_succ_eq_map, List.flatMap_cons, List.flatMap_map]
      have hrest : ((List.range j).flatMap fun i =>
          if j + 1 ∣ n * (j + 1) + i.succ then P (n * (j + 1) + i.succ) else []) = [] := by
        rw [List.flatMap_eq_nil_iff]
        intro i hi
        refine if_neg ?_
        rw [Nat.dvd_add_right (Nat.dvd_mul_left _ _)]
        have := List.mem_range.1 hi
        exact Nat.not_dvd_of_pos_of_lt i.succ_pos (by omega)
      rw [hrest, List.append_nil]
      exact if_pos (Nat.dvd_mul_left _ _)
    rw [Nat.succ_mul, List.range_add, List.flatMap_append, List.flatMap_map, ih, hblock,
      List.range_succ, List.flatMap_append, List.flatMap_singleton]

namespace Parts

variable {p : Parts} {f : Frequency} {anchor c : Instant} {n : Word} {i : Nat}

/-- The same parts with another number of units between two repetitions. -/
def spaced (p : Parts) (n : Word) : Parts :=
  { p with interval := some n }

/-- One unit between two repetitions. -/
abbrev dense (p : Parts) : Parts :=
  p.spaced (.of 1)

@[simp] theorem step_spaced : (p.spaced n).step = n.toNat := rfl

@[simp] theorem step_dense : p.dense.step = 1 := rfl

/-- Lists know nothing of the interval. -/
@[simp] theorem candidates_spaced (ts : List Instant) :
    (p.spaced n).candidates f ts = p.candidates f ts := rfl

/-- **Every period of a rule with an interval is one of the rule without.** -/
theorem periodAt_spaced :
    (p.spaced n).periodAt f anchor i = p.dense.periodAt f anchor (i * n.toNat) := by
  have hpoint : (p.spaced n).latticePoint? f anchor i =
      p.dense.latticePoint? f anchor (i * n.toNat) := by
    rw [latticePoint?, latticePoint?, step_spaced, step_dense, Nat.mul_one]
  simp only [periodAt, hpoint, candidates_spaced]

/-- **An interval thins the series**: left are the candidates of every `n`-th unit from the
anchor's on. -/
theorem Confined.series_spaced (h : p.Confined f) (hn : 1 ≤ n.val) :
    (p.spaced n).series f anchor =
      (p.dense.series f anchor).filter fun c => n.val ∣ c.unit f - anchor.unit f := by
  have hpos : 1 ≤ n.toNat := by unfold Ranged.toNat; omega
  have hval : n.val = (n.toNat : Int) := (Int.toNat_of_nonneg n.lo_le).symm
  have hperiod : ∀ i, ((p.dense.periodAt f anchor i).filter fun c =>
      n.val ∣ c.unit f - anchor.unit f) =
        if n.toNat ∣ i then p.dense.periodAt f anchor i else [] := by
    intro i
    have hdvd : ∀ c ∈ p.dense.periodAt f anchor i,
        n.val ∣ c.unit f - anchor.unit f ↔ n.toNat ∣ i := by
      intro c hc
      have hunit : c.unit f = anchor.unit f + i * p.dense.step :=
        Confined.unit_of_mem_periodAt (p := p.dense) h hc
      have hindex : c.unit f - anchor.unit f = (i : Int) := by
        rw [hunit, step_dense]
        omega
      rw [hindex, hval, Int.natCast_dvd_natCast]
    split
    · next hi =>
      rw [List.filter_eq_self]
      intro c hc
      exact decide_eq_true ((hdvd c hc).2 hi)
    · next hi =>
      rw [List.filter_eq_nil_iff]
      intro c hc
      rw [decide_eq_true_iff, hdvd c hc]
      exact hi
  have hlimit : stepLimit ≤ stepLimit * n.toNat := Nat.le_mul_of_pos_right _ hpos
  calc (p.spaced n).series f anchor
      = (List.range stepLimit).flatMap fun i => p.dense.periodAt f anchor (i * n.toNat) :=
        List.flatMap_congr fun i _ => periodAt_spaced
    _ = (List.range (stepLimit * n.toNat)).flatMap fun i =>
          if n.toNat ∣ i then p.dense.periodAt f anchor i else [] :=
        (flatMap_range_mul hpos _ _).symm
    _ = (p.dense.series f anchor).filter fun c => n.val ∣ c.unit f - anchor.unit f := by
        rw [series_eq_flatMap (p := p.dense) (Nat.le_refl 1) hlimit, List.filter_flatMap]
        exact List.flatMap_congr fun i _ => (hperiod i).symm

end Parts

namespace Rule

variable {r : Rule} {f : Frequency} {q : Request} {n : Word} {anchor start b c : Instant}
  {finish : Option Instant}

/-- The rule with another number of units between two repetitions. -/
def every (r : Rule) (n : Word) (h : 1 ≤ n.val) : Rule where
  toParts := r.toParts.spaced n
  valid :=
    { r.valid with
      interval_pos := by
        rintro _ ⟨⟩
        exact h }

/-- The rule that repeats in every unit. -/
abbrev everyUnit (r : Rule) : Rule :=
  r.every (.of 1) (by decide)

/-- **What is left of a window** of the rule that repeats in every unit. -/
theorem instants_every (hc : r.Confined f) (hcount : r.count = none) (hn : 1 ≤ n.val)
    (hb : earlier? (r.endsAt.map Until.instant) finish = some b) :
    (r.every n hn).instants f anchor start finish =
      (r.everyUnit.instants f anchor start finish).filter fun c =>
        n.val ∣ c.unit f - anchor.unit f := by
  rw [instants_eq_filter_series (r := r.every n hn) hc hcount hb,
    instants_eq_filter_series (r := r.everyUnit) hc hcount hb, List.filter_comm]
  exact congrArg (List.filter _) (hc.series_spaced hn)

/-- **A candidate belongs to one period only**, and its unit says to which. -/
theorem exists_index_of_mem_instants (hc : r.Confined f) (hcount : r.count = none)
    (hb : earlier? (r.endsAt.map Until.instant) finish = some b)
    (h : c ∈ r.everyUnit.instants f anchor start finish) :
    ∃ m : Nat, c.unit f - anchor.unit f = m ∧
      ∀ i, (∃ t, anchor.advance? f i = some t ∧ c ∈ r.candidates f [t]) ↔ i = m := by
  rw [instants_eq_filter_series (r := r.everyUnit) hc hcount hb] at h
  obtain ⟨m, -, hm⟩ := List.mem_flatMap.1 (List.mem_filter.1 h).1
  obtain ⟨t, ht, hct⟩ := Parts.mem_periodAt.1 hm
  have htm : anchor.advance? f (m * 1) = some t := (Parts.latticePoint?_eq_some_iff.1 ht).2
  rw [Nat.mul_one] at htm
  have hunit : ∀ i t, anchor.advance? f i = some t → c ∈ r.candidates f [t] →
      c.unit f = anchor.unit f + i := by
    intro i t hti hcti
    rw [hc.unit_of_mem_candidates hcti, Instant.unit_advance? hti]
  have hcm := hunit m t htm hct
  refine ⟨m, by omega, fun i => ⟨?_, ?_⟩⟩
  · rintro ⟨u, hu, hcu⟩
    have := hunit i u hu hcu
    omega
  · rintro rfl
    exact ⟨t, htm, hct⟩

/-- **An interval only thins a rule.** Without a count, and where the lists of the rule do
not leave its periods, an interval of `n` units leaves of the answer to a bounded request
the values of every `n`-th period, as they are and in their order, and nothing else: each
value belongs to one period, the one whose opening instant lies as many units after the
anchor as the value itself. -/
theorem occurrences_every (hf : r.freq = some f) (hc : r.Confined f) (hcount : r.count = none)
    (hk : q.kind = .dateTime) (hb : q.BoundedFor r) {a : DateValue} (ha : q.anchor = some a)
    (hn : 1 ≤ n.val) :
    ∃ l l₁, (r.every n hn).occurrences q = .ok l ∧ r.everyUnit.occurrences q = .ok l₁ ∧
      l.dates = l₁.dates.filter (fun v => n.val ∣ v.instant.unit f - a.instant.unit f) ∧
      ∀ v ∈ l₁.dates, ∃ m : Nat, v.instant.unit f - a.instant.unit f = m ∧
        ∀ i, (∃ t, a.instant.advance? f i = some t ∧ v.instant ∈ r.candidates f [t]) ↔ i = m := by
  obtain ⟨b, hbound⟩ := hb.exists_bound
  obtain ⟨l, hl, hdates⟩ := exists_occurrences (r := r.every n hn) hf hk ha
  obtain ⟨l₁, hl₁, hdates₁⟩ := exists_occurrences (r := r.everyUnit) hf hk ha
  refine ⟨l, l₁, hl, hl₁, ?_, ?_⟩
  · rw [hdates, hdates₁, instants_every hc hcount hn hbound, List.filter_map]
    rfl
  · intro v hv
    rw [hdates₁] at hv
    obtain ⟨c, hmem, rfl⟩ := List.mem_map.1 hv
    exact exists_index_of_mem_instants hc hcount hbound hmem

/-- The last working day but one of every month. -/
def secondLastWorkday : Rule where
  freq := some .monthly
  byDay := [⟨none, .monday⟩, ⟨none, .tuesday⟩, ⟨none, .wednesday⟩, ⟨none, .thursday⟩,
    ⟨none, .friday⟩]
  bySetPos := [.of (-2)]
  valid := Parts.fault?_eq_none_iff.1 (by decide)

/-- The last working day but one of every quarter, from the last day of January on: the points of
most months are clamped. -/
theorem secondLastWorkday_occurrences_every :
    let anchor := (Date.ymd 2020 1 31).atHour 9
    let q := Request.between anchor ((Date.ymd 2020 6 15).atHour 0) ((Date.ymd 2021 6 30).atHour 9)
    ∃ l l₁, (secondLastWorkday.every (.of 3) (by decide)).occurrences q = .ok l ∧
      secondLastWorkday.everyUnit.occurrences q = .ok l₁ ∧
      l.dates = l₁.dates.filter
        (fun v => 3 ∣ v.instant.unit .monthly - anchor.unit .monthly) ∧
      ∀ v ∈ l₁.dates, ∃ m : Nat, v.instant.unit .monthly - anchor.unit .monthly = m ∧
        ∀ i, (∃ t, anchor.advance? .monthly i = some t ∧
          v.instant ∈ secondLastWorkday.candidates .monthly [t]) ↔ i = m := by
  intro anchor q
  have hall := occurrences_every (r := secondLastWorkday) (f := .monthly) (q := q) (n := .of 3) rfl
    (by decide) rfl rfl (.inr rfl) rfl (by decide)
  exact hall

end Rule

end Recurrence
