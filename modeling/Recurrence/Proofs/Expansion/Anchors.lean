import Recurrence.Proofs.Expansion.Windows

/-!
# Later anchors

A rule can be taken up at any of its points: from there on it has the periods that it has
from its anchor (`Parts.periodAt_add`). What is lost is what lies before the new anchor,
and the only thing gained are points past the limit of counting, which is met later. A
window that begins with the new anchor or after it, and whose bound the points from the old
one pass, sees neither: **it is answered alike from both anchors**
(`Rule.occurrences_reanchored`). Steps have to add up for this, so that no month end may
have cut the step to the new anchor short.
-/

namespace Recurrence

namespace Parts

variable {p : Parts} {f : Frequency} {anchor anchor' past c : Instant} {k n : Nat}

/-- **The periods from a point on** are the periods of the point, as far as the units from
the anchor are counted. -/
theorem periodAt_add (h : anchor.advance? f (k * p.step) = some anchor')
    (hday : Frequency.monthly ≤ f → anchor.date.monthDay ≤ 28) {i : Nat}
    (hlimit : (k + i) * p.step < stepLimit) :
    p.periodAt f anchor (k + i) = p.periodAt f anchor' i := by
  have hpoint : p.latticePoint? f anchor (k + i) = p.latticePoint? f anchor' i := by
    have hle : i * p.step ≤ (k + i) * p.step := Nat.mul_le_mul_right _ (Nat.le_add_left _ _)
    rw [latticePoint?, latticePoint?, if_pos hlimit, if_pos (Nat.lt_of_le_of_lt hle hlimit),
      Instant.advance?_add h hday, Nat.add_mul]
  rw [periodAt, periodAt, hpoint]

/-- The periods before a later anchor are over when it comes. -/
theorem Confined.lt_of_mem_of_lt (h : p.Confined f) (hstep : 1 ≤ p.step)
    (hanchor : anchor.advance? f (k * p.step) = some anchor') {i : Nat} (hi : i < k)
    (hc : c ∈ p.periodAt f anchor i) : c < anchor' := by
  have hik := Nat.mul_lt_mul_of_pos_right hi hstep
  apply Instant.lt_of_unit_lt (f := f)
  rw [h.unit_of_mem_periodAt hc, Instant.unit_advance? hanchor]
  omega

/-- A period that is counted from the later anchor only lies past all points of the other. -/
theorem Confined.lt_of_mem_of_stepLimit_le (h : p.Confined f)
    (hanchor : anchor.advance? f (k * p.step) = some anchor')
    (hpast : p.latticePoint? f anchor n = some past) {i : Nat}
    (hlimit : stepLimit ≤ (k + i) * p.step) (hc : c ∈ p.periodAt f anchor' i) : past < c := by
  have hn := (latticePoint?_eq_some_iff.1 hpast).1
  apply Instant.lt_of_unit_lt (f := f)
  rw [h.unit_of_mem_periodAt hc, Instant.unit_advance? hanchor, unit_latticePoint? hpast]
  rw [Nat.add_mul] at hlimit
  omega

/-- **A rule can be taken up at a point.** Between the new anchor and a point of the old one,
the series from both anchors are the same. -/
theorem Confined.filter_series_eq (h : p.Confined f) (hstep : 1 ≤ p.step)
    (hanchor : anchor.advance? f (k * p.step) = some anchor')
    (hday : Frequency.monthly ≤ f → anchor.date.monthDay ≤ 28)
    (hpast : p.latticePoint? f anchor n = some past) {P : Instant → Bool}
    (hP : ∀ c, P c → anchor' ≤ c ∧ c < past) :
    (p.series f anchor).filter P = (p.series f anchor').filter P := by
  have hbefore : ((List.range k).flatMap (p.periodAt f anchor)).filter P = [] := by
    rw [List.filter_eq_nil_iff]
    intro c hc hcP
    obtain ⟨i, hi, hc⟩ := List.mem_flatMap.1 hc
    have hlt := h.lt_of_mem_of_lt hstep hanchor (List.mem_range.1 hi) hc
    exact Instant.not_lt.2 (hP c hcP).1 hlt
  have hafter : ∀ i,
      (p.periodAt f anchor (k + i)).filter P = (p.periodAt f anchor' i).filter P := by
    intro i
    rcases Nat.lt_or_ge ((k + i) * p.step) stepLimit with hlimit | hlimit
    · rw [periodAt_add hanchor hday hlimit]
    · -- From the old anchor this far nothing is counted.
      have hnone : p.periodAt f anchor (k + i) = [] := by
        simp [periodAt, latticePoint?, Nat.not_lt.2 hlimit]
      rw [hnone, List.filter_nil, eq_comm, List.filter_eq_nil_iff]
      intro c hc hcP
      have hlt := h.lt_of_mem_of_stepLimit_le hanchor hpast hlimit hc
      exact Instant.not_lt.2 (Instant.le_of_lt hlt) (hP c hcP).2
  rw [series_eq_flatMap hstep (Nat.le_add_left stepLimit k), List.range_add, List.flatMap_append,
    List.filter_append, hbefore, List.nil_append, List.flatMap_map, series, List.filter_flatMap,
    List.filter_flatMap]
  exact List.flatMap_congr fun i _ => hafter i

end Parts

namespace Rule

variable {r : Rule} {f : Frequency} {q : Request} {anchor anchor' start b past : Instant}
  {finish : Option Instant} {k n : Nat}

/-- A window that begins with the later anchor is the same for both. -/
theorem window_contains_of_anchor_le (h : anchor ≤ anchor') (hstart : anchor' ≤ start) :
    (r.window anchor start finish).contains = (r.window anchor' start finish).contains := by
  have hbegin : ∀ {a t : Instant}, a ≤ start → (max start a ≤ t ↔ start ≤ t) := by
    intro a t ha
    rw [Instant.max_le_iff, and_iff_left_of_imp]
    exact Instant.le_trans ha
  funext t
  simp only [window, Window.contains, hbegin hstart, hbegin (Instant.le_trans h hstart)]

/-- The same instants from both anchors. -/
theorem instants_reanchored (hc : r.Confined f) (hcount : r.count = none)
    (hanchor : anchor.advance? f (k * r.step) = some anchor')
    (hday : Frequency.monthly ≤ f → anchor.date.monthDay ≤ 28) (hstart : anchor' ≤ start)
    (hb : earlier? (r.endsAt.map Until.instant) finish = some b)
    (hpast : r.latticePoint? f anchor n = some past) (hlt : b < past) :
    r.instants f anchor start finish = r.instants f anchor' start finish := by
  rw [instants_eq_filter_series hc hcount hb, instants_eq_filter_series hc hcount hb,
    window_contains_of_anchor_le (Instant.le_of_advance? hanchor) hstart]
  apply hc.filter_series_eq r.one_le_step hanchor hday hpast
  intro c hin
  obtain ⟨hbegin, hend⟩ := (Window.contains_iff hb).1 hin
  exact ⟨(Instant.max_le_iff.1 hbegin).2, Instant.lt_of_le_of_lt hend hlt⟩

/-- **A later point can be the anchor.** Without a count, and where the lists of the rule do
not leave its periods, a request whose window begins with a point of the rule or after it is
answered from this point as from the anchor, if the points from the anchor pass its bound
before the counting ends. In months and years the anchor's day is one that every month has. -/
theorem occurrences_reanchored (hf : r.freq = some f) (hc : r.Confined f)
    (hcount : r.count = none) {a a' : DateValue}
    (ha : a.instant.advance? f (k * r.step) = some a'.instant)
    (hday : Frequency.monthly ≤ f → a.instant.date.monthDay ≤ 28) (hstart : a' ≤ q.start)
    (hb : q.bound? r = some b) (hpast : r.latticePoint? f a.instant n = some past)
    (hlt : b < past) :
    ∃ l, r.occurrences { q with anchor := some a } = .ok l ∧
      r.occurrences { q with anchor := some a' } = .ok l := by
  have hsame : r.instants f a.instant q.start.instant (q.finish.map DateValue.instant) =
      r.instants f a'.instant q.start.instant (q.finish.map DateValue.instant) :=
    instants_reanchored hc hcount ha hday hstart hb hpast hlt
  have hold := occurrences_eq_ofInstants (q := { q with anchor := some a }) hf rfl q.kind
  have hnew := occurrences_eq_ofInstants (q := { q with anchor := some a' }) hf rfl q.kind
  exact ⟨_, hold, hsame ▸ hnew⟩

/-- The middle and the end of every third month. -/
def midAndEndOfMonth : Rule where
  freq := some .monthly
  interval := some (.of 3)
  byMonthDay := [.of 15, ⟨-1, by decide, by decide⟩]
  valid := Parts.fault?_eq_none_iff.1 (by decide)

/-- Taken up at the end of July instead of January. The window begins within a period: the
middle of July lies before it. -/
theorem midAndEndOfMonth_occurrences_reanchored :
    let a : DateValue := .dateTime ((Date.ymd 2020 1 28).atHour 9)
    let a' : DateValue := .dateTime ((Date.ymd 2020 7 28).atHour 9)
    let q : Request := .of none a' (some (.date (Date.ymd 2021 2 1)))
    a.instant.advance? .monthly (2 * midAndEndOfMonth.step) = some a'.instant ∧
      ∃ l, midAndEndOfMonth.occurrences { q with anchor := some a } = .ok l ∧
        midAndEndOfMonth.occurrences { q with anchor := some a' } = .ok l := by
  intro a a' q
  have hanchor : a.instant.advance? .monthly (2 * midAndEndOfMonth.step) = some a'.instant := by
    decide +kernel
  have hpast : midAndEndOfMonth.latticePoint? .monthly a.instant 5 =
      some ((Date.ymd 2021 4 28).atHour 9) := by decide +kernel
  have hall := occurrences_reanchored (r := midAndEndOfMonth) (q := q) rfl (by decide) rfl hanchor
    (by decide +kernel) (Instant.le_refl _) rfl hpast (by decide)
  exact ⟨hanchor, hall⟩

end Rule

end Recurrence
