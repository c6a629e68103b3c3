import Recurrence.Proofs.Expansion.Confined
import Recurrence.Proofs.Expansion.Requests

/-!
# Windows only filter

A rule that stays in its periods gives in a window what it gives in any wider
window, less what lies outside: windows choose among the occurrences and never
change them. The work is in the two ends of the loop. At its beginning the points
that are passed over lie in units that are over when the window begins; at its
end every point past the first one beyond the bound lies in a unit that begins
after the bound. So **a window visits every period that has a candidate in it**
(`Parts.Confined.visits_of_mem`).
-/

namespace Recurrence

namespace Parts

variable {p : Parts} {f : Frequency} {anchor start bound c : Instant} {n : Nat}

/-- **The unit of a candidate tells the number of its period.** -/
theorem Confined.unit_of_mem_periodAt (h : p.Confined f) (hc : c ∈ p.periodAt f anchor n) :
    c.unit f = anchor.unit f + n * p.step := by
  obtain ⟨t, ht, hct⟩ := mem_periodAt.1 hc
  rw [h.unit_of_mem_candidates hct, unit_latticePoint? ht]

/-- **A period before the first index is over when the window begins.** -/
theorem Confined.lt_of_lt_firstIndex (h : p.Confined f) (hstep : 1 ≤ p.step)
    (hn : n < p.firstIndex f anchor start) (hc : c ∈ p.periodAt f anchor n) :
    c < max start anchor := by
  obtain ⟨t, ht, hct⟩ := mem_periodAt.1 hc
  refine Instant.lt_of_unit_lt (f := f) ?_
  rw [h.unit_of_mem_candidates hct]
  exact unit_lt_of_lt_firstIndex hstep hn ht

/-- A point lies before all candidates of later periods. -/
theorem Confined.latticePoint?_lt_of_mem (h : p.Confined f) (hstep : 1 ≤ p.step) {m : Nat}
    {t : Instant} (ht : p.latticePoint? f anchor m = some t) (hm : m < n)
    (hc : c ∈ p.periodAt f anchor n) : t < c := by
  refine Instant.lt_of_unit_lt (f := f) ?_
  have := Nat.mul_lt_mul_of_pos_right hm hstep
  rw [h.unit_of_mem_periodAt hc, unit_latticePoint? ht]
  omega

/-- **A window visits every period that has a candidate in it.** -/
theorem Confined.visits_of_mem (h : p.Confined f) (hstep : 1 ≤ p.step)
    (hc : c ∈ p.periodAt f anchor n) (hstart : max start anchor ≤ c) (hbound : c ≤ bound) :
    p.visits f anchor start bound n := by
  rw [visits_iff]
  have hfirst : p.firstIndex f anchor start ≤ n := by
    by_contra hn
    exact Instant.not_lt.2 hstart (h.lt_of_lt_firstIndex hstep (Nat.not_le.1 hn) hc)
  refine ⟨hfirst, ?_⟩
  rcases Nat.eq_or_lt_of_le hfirst with heq | hlt
  · exact .inl heq.symm
  · -- The point before lies before this period, and so before the bound.
    obtain ⟨t, ht, -⟩ := mem_periodAt.1 hc
    obtain ⟨u, hu⟩ := exists_latticePoint? ht (show n - 1 ≤ n by omega)
    have huc := h.latticePoint?_lt_of_mem hstep hu (by omega) hc
    exact .inr ⟨u, hu, Instant.le_trans (Instant.le_of_lt huc) hbound⟩

end Parts

namespace Rule

variable {r : Rule} {f : Frequency} {q q' : Request}

/-- A rule that stays in its periods gives in a window all that its series has in
it. -/
theorem instants_eq_limit_series_of_confined (hc : r.Confined f) {anchor start b : Instant}
    {finish : Option Instant} (hb : earlier? (r.endsAt.map Until.instant) finish = some b) :
    r.instants f anchor start finish =
      (r.window anchor start finish).limit (r.count.map Ranged.toNat) (r.series f anchor) := by
  apply instants_eq_limit_series hb
  intro n c hmem hw
  obtain ⟨hstart, hbound⟩ := (Window.contains_iff hb).1 hw
  exact hc.visits_of_mem r.one_le_step hmem hstart hbound

/-- Without a count, that is what lies in it of the series. -/
theorem instants_eq_filter_series (hc : r.Confined f) (hcount : r.count = none)
    {anchor start b : Instant} {finish : Option Instant}
    (hb : earlier? (r.endsAt.map Until.instant) finish = some b) :
    r.instants f anchor start finish =
      (r.series f anchor).filter (r.window anchor start finish).contains := by
  rw [instants_eq_limit_series_of_confined hc hb, hcount]
  rfl

/-- **Windows only filter.** What a rule that stays in its periods gives in a window
is what it gives in any wider window, less the values that the narrower one does not
cover, in the same order and as often; with a count, with a last instant, and with
neither. And no candidate of a period that the loop passes over at its beginning lies
in the window. -/
theorem occurrences_eq_filter_of_within (hf : r.freq = some f) (hc : r.Confined f)
    (hk : q.kind = .dateTime) (hk' : q'.kind = .dateTime) (h : q.Within q')
    (hb : q'.BoundedFor r) :
    (∃ l l', r.occurrences q = .ok l ∧ r.occurrences q' = .ok l' ∧
        l.dates = l'.dates.filter q.covers) ∧
      ∀ a ∈ q.anchor, ∀ n < r.firstIndex f a.instant q.start.instant,
        ∀ t, r.latticePoint? f a.instant n = some t →
          ∀ c ∈ r.candidates f [t], c < max q.start.instant a.instant := by
  constructor
  · cases ha : q.anchor with
    | none =>
      exact ⟨_, _, occurrences_of_anchor_none hf ha,
        occurrences_of_anchor_none hf (h.anchor_eq ▸ ha), rfl⟩
    | some a =>
      obtain ⟨b, b', l, l', hbound, hbound', hl, hl', hdates, hdates'⟩ :=
        exists_occurrences_within hf hk hk' h hb ha
      refine ⟨l, l', hl, hl', ?_⟩
      rw [hdates, hdates', instants_eq_limit_series_of_confined hc hbound,
        instants_eq_limit_series_of_confined hc hbound', List.filter_map]
      exact congrArg (List.map DateValue.dateTime)
        (h.filter_limit r a.instant (r.count.map Ranged.toNat) (r.series f a.instant)).symm
  · intro a _ n hn t ht c hct
    exact hc.lt_of_lt_firstIndex r.one_le_step hn (Parts.mem_periodAt.2 ⟨t, ht, hct⟩)

/-- Every other week, on Sundays and Thursdays. -/
def everyOtherWeek : Rule where
  freq := some .weekly
  interval := some ⟨2, by decide, by decide⟩
  byDay := [⟨none, .sunday⟩, ⟨none, .thursday⟩]
  valid := Parts.fault?_eq_none_iff.1 (by decide)

/-- A week in February, within the year, of which Thursday and Sunday are occurrences. -/
theorem everyOtherWeek_occurrences_eq_filter :
    let anchor := (Date.ymd 2020 1 5).atHour 9
    let q := Request.between anchor ((Date.ymd 2020 2 10).atHour 0) ((Date.ymd 2020 2 16).atHour 9)
    let q' := Request.between anchor anchor ((Date.ymd 2020 12 31).atHour 0)
    ∃ l l', everyOtherWeek.occurrences q = .ok l ∧ everyOtherWeek.occurrences q' = .ok l' ∧
      l.dates = l'.dates.filter q.covers :=
  (occurrences_eq_filter_of_within (f := .weekly) rfl (by decide) rfl rfl
    (.between (by decide) (by decide)) (.inr rfl)).1

end Rule

end Recurrence
