import Recurrence.Expansion.Occurrences
import Recurrence.Proofs.Expansion.Lattice
import Recurrence.Proofs.Expansion.Stages

/-!
# The periods of a rule in a window

Every point of the lattice opens a period; `Parts.periodAt` lists its candidates,
and `Parts.series` lists those of all periods, as if no window bounded them. What
a rule gives in a window are the candidates, between the bounds of the window, of
**the periods that the window visits** (`Rule.instants_eq_flatMap`). So a window
gives all that the series has in it exactly when it visits every period that has
a candidate in it (`Rule.instants_eq_limit_series`).
-/

namespace Recurrence

namespace Parts

variable {p : Parts} {f : Frequency} {anchor start bound t c : Instant} {n : Nat}

/-- The candidates of the period that point number `n` opens, if there is one. -/
def periodAt (p : Parts) (f : Frequency) (anchor : Instant) (n : Nat) : List Instant :=
  (p.latticePoint? f anchor n).toList.flatMap fun t => p.candidates f [t]

/-- **All candidates of a rule**, period after period. -/
def series (p : Parts) (f : Frequency) (anchor : Instant) : List Instant :=
  (List.range stepLimit).flatMap (p.periodAt f anchor)

theorem mem_periodAt :
    c ∈ p.periodAt f anchor n ↔
      ∃ t, p.latticePoint? f anchor n = some t ∧ c ∈ p.candidates f [t] := by
  simp [periodAt]

/-- No period opens past the limit of counting. -/
theorem periodAt_eq_nil (hstep : 1 ≤ p.step) (h : stepLimit ≤ n) : p.periodAt f anchor n = [] := by
  rw [List.eq_nil_iff_forall_not_mem]
  intro c hc
  obtain ⟨t, ht, -⟩ := mem_periodAt.1 hc
  have := lt_stepLimit hstep ht
  omega

/-- The series has all candidates: further numbers add none. -/
theorem series_eq_flatMap (hstep : 1 ≤ p.step) {k : Nat} (h : stepLimit ≤ k) :
    p.series f anchor = (List.range k).flatMap (p.periodAt f anchor) := by
  have hafter : (List.range' stepLimit (k - stepLimit)).flatMap (p.periodAt f anchor) = [] := by
    rw [List.flatMap_eq_nil_iff]
    intro n hn
    exact periodAt_eq_nil hstep (List.mem_range'_1.1 hn).1
  rw [range_eq_append h, List.flatMap_append, hafter, List.append_nil, series]

/-- **The candidates of a window** are those of the periods that it visits. -/
theorem candidates_lattice (hstep : 1 ≤ p.step) :
    p.candidates f (p.lattice f anchor start bound) =
      (List.range stepLimit).flatMap fun n =>
        if p.visits f anchor start bound n then p.periodAt f anchor n else [] := by
  rw [candidates_eq_flatMap, lattice_eq_filterMap hstep, List.filterMap_eq_flatMap_toList,
    List.flatMap_assoc]
  apply List.flatMap_congr
  intro n _
  split
  · rfl
  · rfl

/-- The first period that counted candidates belong to is the anchor's. -/
theorem firstIndex_of_count (h : p.count.isSome) : p.firstIndex f anchor start = 0 := by
  rw [firstIndex, if_pos h]

/-- From its first index on, a window visits no point after one that it does not
visit. -/
theorem visits_of_le (hstep : 1 ≤ p.step) {m : Nat} (hfirst : p.firstIndex f anchor start ≤ m)
    (h : m ≤ n) (hn : p.visits f anchor start bound n) : p.visits f anchor start bound m := by
  rw [visits_iff] at *
  refine ⟨hfirst, ?_⟩
  rcases Nat.eq_or_lt_of_le hfirst with heq | hlt
  · exact .inl heq.symm
  · obtain ⟨-, rfl | ⟨u, hu, hle⟩⟩ := hn
    · omega
    · obtain ⟨t, ht⟩ := exists_latticePoint? hu (show m - 1 ≤ n - 1 by omega)
      exact .inr ⟨t, ht, Instant.le_trans (le_of_latticePoint? hstep ht hu (by omega)) hle⟩

/-- What holds of no number after one of which it fails holds of the first ones
only. -/
theorem exists_threshold {P : Nat → Prop} (hP : ∀ m n, m ≤ n → P n → P m) (k : Nat) :
    ∃ j ≤ k, ∀ n < k, P n ↔ n < j := by
  induction k with
  | zero => exact ⟨0, Nat.le_refl 0, fun n hn => absurd hn (Nat.not_lt_zero n)⟩
  | succ k ih =>
    obtain ⟨j, hj, h⟩ := ih
    by_cases hk : P k
    · refine ⟨k + 1, Nat.le_refl _, ?_⟩
      intro n hn
      exact ⟨fun _ => hn, fun _ => hP n k (by omega) hk⟩
    · refine ⟨j, by omega, ?_⟩
      intro n hn
      rcases Nat.lt_or_eq_of_le (Nat.le_of_lt_succ hn) with hlt | rfl
      · exact h n hlt
      · exact ⟨fun hn => absurd hn hk, fun hn => by omega⟩

end Parts

/-- Elements that a window leaves out change nothing at the end of a list. -/
theorem filter_take_append {α : Type} {q : α → Bool} {as bs : List α} (n : Nat)
    (h : ∀ b ∈ bs, q b = false) : ((as ++ bs).take n).filter q = (as.take n).filter q := by
  rw [List.take_append, List.filter_append]
  have hnone : (bs.take (n - as.length)).filter q = [] := by
    rw [List.filter_eq_nil_iff]
    intro b hb
    simp [h b (List.mem_of_mem_take hb)]
  rw [hnone, List.append_nil]

/-- Two selections from a list are the same when they choose alike among its elements. -/
theorem filter_eq_filter_iff {α : Type} {l : List α} {P Q : α → Bool} :
    l.filter P = l.filter Q ↔ ∀ x ∈ l, P x = Q x := by
  refine ⟨?_, List.filter_congr⟩
  intro h x hx
  have hmem : x ∈ l.filter P ↔ x ∈ l.filter Q := by rw [h]
  rw [Bool.eq_iff_iff]
  simpa [hx] using hmem

/-- What lies up to the earlier of two instants lies up to both. -/
theorem le_earlier?_iff {o o' : Option Instant} {b t : Instant} (h : earlier? o o' = some b) :
    t ≤ b ↔ o.all (t ≤ ·) ∧ o'.all (t ≤ ·) := by
  cases o with
  | none =>
    cases h
    simp
  | some a =>
    cases o' with
    | none =>
      cases h
      simp
    | some a' =>
      cases h
      simp [Instant.le_min_iff]

namespace Window

/-- **A window holds what lies between its beginning and its bound.** -/
theorem contains_iff {anchor start b t : Instant} {finish last : Option Instant}
    (h : earlier? last finish = some b) :
    (⟨anchor, start, finish, last⟩ : Window).contains t ↔ max start anchor ≤ t ∧ t ≤ b := by
  rw [le_earlier?_iff h]
  simp only [contains, Bool.and_eq_true, decide_eq_true_eq]
  constructor
  · rintro ⟨⟨hstart, hfinish⟩, hlast⟩
    exact ⟨hstart, hlast, hfinish⟩
  · rintro ⟨hstart, hlast, hfinish⟩
    exact ⟨⟨hstart, hfinish⟩, hlast⟩

end Window

namespace Rule

variable {r : Rule} {f : Frequency} {anchor start b : Instant} {finish : Option Instant}

/-- The bounds that an expansion of the rule keeps to. -/
def window (r : Rule) (anchor start : Instant) (finish : Option Instant) : Window :=
  ⟨anchor, start, finish, r.endsAt.map Until.instant⟩

/-- The rule in a window: what the count and the window leave of the candidates. -/
theorem instants_eq_limit (hb : earlier? (r.endsAt.map Until.instant) finish = some b) :
    r.instants f anchor start finish =
      (r.window anchor start finish).limit (r.count.map Ranged.toNat)
        (r.candidates f (r.lattice f anchor start b)) := by
  simp only [instants, hb, window]

/-- **Without a count, a window gives what lies in it of the periods that it
visits.** -/
theorem instants_eq_flatMap (hcount : r.count = none)
    (hb : earlier? (r.endsAt.map Until.instant) finish = some b) :
    r.instants f anchor start finish =
      (List.range stepLimit).flatMap fun n =>
        if r.visits f anchor start b n then
          (r.periodAt f anchor n).filter (r.window anchor start finish).contains
        else [] := by
  rw [instants_eq_limit hb, hcount, Parts.candidates_lattice r.one_le_step]
  simp only [Option.map_none, Window.limit, List.filter_flatMap]
  apply List.flatMap_congr
  intro n _
  split
  · rfl
  · rfl

/-- **A window that visits every period with a candidate in it gives all that the
series has in it**, and counts as the series does. -/
theorem instants_eq_limit_series (hb : earlier? (r.endsAt.map Until.instant) finish = some b)
    (hvisits : ∀ n c, c ∈ r.periodAt f anchor n →
      (r.window anchor start finish).contains c → r.visits f anchor start b n) :
    r.instants f anchor start finish =
      (r.window anchor start finish).limit (r.count.map Ranged.toNat) (r.series f anchor) := by
  cases hcount : r.count with
  | none =>
    rw [instants_eq_flatMap hcount hb]
    simp only [Option.map_none, Window.limit, Parts.series, List.filter_flatMap]
    apply List.flatMap_congr
    intro n _
    split
    · rfl
    · next hv =>
      refine (List.filter_eq_nil_iff.2 ?_).symm
      intro c hc hw
      exact hv (hvisits n c hc hw)
  | some k =>
    -- With a count the loop begins with the anchor's period, and so visits a first part
    -- of all periods: what it leaves out comes after what it counts.
    have hfirst : r.firstIndex f anchor start = 0 :=
      Parts.firstIndex_of_count (by rw [hcount]; rfl)
    have hdown : ∀ m n, m ≤ n → r.visits f anchor start b n → r.visits f anchor start b m := by
      intro m n h hn
      exact Parts.visits_of_le r.one_le_step (hfirst ▸ Nat.zero_le m) h hn
    obtain ⟨j, hj, hvis⟩ := Parts.exists_threshold hdown stepLimit
    rw [instants_eq_limit hb, hcount, Parts.candidates_lattice r.one_le_step, Parts.series,
      Parts.range_eq_append hj, List.flatMap_append, List.flatMap_append]
    have hbefore : ((List.range j).flatMap fun n =>
        if r.visits f anchor start b n then r.periodAt f anchor n else []) =
          (List.range j).flatMap (r.periodAt f anchor) := by
      apply List.flatMap_congr
      intro n hn
      have hn := List.mem_range.1 hn
      exact if_pos ((hvis n (by omega)).2 hn)
    have hafter : ((List.range' j (stepLimit - j)).flatMap fun n =>
        if r.visits f anchor start b n then r.periodAt f anchor n else []) = [] := by
      rw [List.flatMap_eq_nil_iff]
      intro n hn
      have hn := List.mem_range'_1.1 hn
      refine if_neg ?_
      intro hv
      have := (hvis n (by omega)).1 hv
      omega
    rw [hbefore, hafter, List.append_nil]
    simp only [Option.map_some, Window.limit]
    refine (filter_take_append _ ?_).symm
    intro c hc
    obtain ⟨n, hn, hc⟩ := List.mem_flatMap.1 hc
    have hn := List.mem_range'_1.1 hn
    rw [Bool.eq_false_iff]
    intro hw
    have := (hvis n (by omega)).1 (hvisits n c hc hw)
    omega

end Rule

end Recurrence
