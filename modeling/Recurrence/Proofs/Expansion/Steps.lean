import Recurrence.Proofs.Expansion.Windows

/-!
# Rules without lists

Without lists a period has one candidate, the instant that opens it, and positions
find no stage to pick after. **The occurrences are then the steps of the rule from its
anchor**, those between the bounds of the request and no others, each once and in
order (`Rule.occurrences_are_steps`).
-/

namespace Recurrence

namespace Parts

variable {p : Parts} {f : Frequency} {anchor t : Instant} {n : Nat}

/-- A rule without lists stays in its periods. -/
theorem confined_of_stages_eq_nil (h : p.stages = []) : p.Confined f := by
  intro s hs
  rw [h] at hs
  cases hs

/-- **A period without lists has one candidate**, the instant that opens it. -/
theorem periodAt_of_stages_eq_nil (h : p.stages = []) :
    p.periodAt f anchor n = (p.latticePoint? f anchor n).toList := by
  have hone : ∀ t, p.candidates f [t] = [t] := by
    intro t
    rw [candidates_singleton, h]
    rfl
  simp only [periodAt, hone, List.flatMap_singleton']

/-- The series of a rule without lists is its lattice. -/
theorem series_of_stages_eq_nil (h : p.stages = []) :
    p.series f anchor = (List.range stepLimit).filterMap (p.latticePoint? f anchor) := by
  rw [series, List.filterMap_eq_flatMap_toList]
  exact List.flatMap_congr fun n _ => periodAt_of_stages_eq_nil h

/-- The points of a lattice, each once and in order. -/
theorem filterMap_latticePoint?_pairwise (hstep : 1 ≤ p.step) (k : Nat) :
    ((List.range k).filterMap (p.latticePoint? f anchor)).Pairwise (· < ·) := by
  rw [List.pairwise_filterMap]
  refine List.pairwise_lt_range.imp ?_
  intro m n hmn t ht u hu
  exact latticePoint?_lt hstep ht hu hmn

/-- A point is numbered below the limit. -/
theorem mem_filterMap_latticePoint? (hstep : 1 ≤ p.step) :
    t ∈ (List.range stepLimit).filterMap (p.latticePoint? f anchor) ↔
      ∃ n, n * p.step < stepLimit ∧ anchor.advance? f (n * p.step) = some t := by
  simp only [List.mem_filterMap, List.mem_range, ← latticePoint?_eq_some_iff]
  constructor
  · rintro ⟨n, -, hn⟩
    exact ⟨n, hn⟩
  · rintro ⟨n, hn⟩
    exact ⟨n, lt_stepLimit hstep hn, hn⟩

end Parts

/-- A window holds what lies between its two beginnings and its two ends. -/
theorem Request.window_contains_iff {q : Request} {r : Rule} {anchor t : Instant} :
    (q.window r anchor).contains t ↔
      max q.start.instant anchor ≤ t ∧ (∀ e ∈ q.finish, t ≤ e.instant) ∧
        ∀ u ∈ r.endsAt, t ≤ u.instant := by
  unfold window Rule.window Window.contains
  simp only [Bool.and_eq_true, decide_eq_true_eq, Option.all_eq_true, Option.map_eq_some_iff,
    Option.mem_def, forall_exists_index, and_imp, forall_apply_eq_imp_iff₂, and_assoc]

namespace Rule

variable {r : Rule} {f : Frequency} {q : Request}

/-- **The occurrences are the steps of the rule.** Without lists and without a count, a
bounded request is answered with the instants that lie a whole number of steps after the
anchor, between the later beginning and the earlier end: all of these, in strictly
increasing order, and nothing else. -/
theorem occurrences_are_steps (hf : r.freq = some f) (hlists : r.stages = [])
    (hcount : r.count = none) (hk : q.kind = .dateTime) (hb : q.BoundedFor r) {a : DateValue}
    (ha : q.anchor = some a) :
    ∃ l, r.occurrences q = .ok l ∧ l.dates.Pairwise (· < ·) ∧
      ∀ v, v ∈ l.dates ↔
        ∃ t, v = .dateTime t ∧
          (∃ n, n * r.step < Nat.pow 2 32 ∧ a.instant.advance? f (n * r.step) = some t) ∧
          max q.start.instant a.instant ≤ t ∧ (∀ e ∈ q.finish, t ≤ e.instant) ∧
          ∀ u ∈ r.endsAt, t ≤ u.instant := by
  obtain ⟨b, hbound⟩ := hb.exists_bound
  obtain ⟨l, hl, hdates⟩ := exists_occurrences hf hk ha
  rw [instants_eq_limit_series_of_confined (Parts.confined_of_stages_eq_nil hlists) hbound,
    Parts.series_of_stages_eq_nil hlists, hcount] at hdates
  refine ⟨l, hl, ?_, ?_⟩
  · rw [hdates, List.pairwise_map]
    exact (Parts.filterMap_latticePoint?_pairwise r.one_le_step stepLimit).filter _
  · intro v
    rw [hdates]
    simp only [Option.map_none, Window.limit, List.mem_map, List.mem_filter,
      Parts.mem_filterMap_latticePoint? r.one_le_step]
    constructor
    · rintro ⟨t, ⟨hstep, hin⟩, rfl⟩
      exact ⟨t, rfl, hstep, Request.window_contains_iff.1 hin⟩
    · rintro ⟨t, rfl, hstep, hin⟩
      exact ⟨t, ⟨hstep, Request.window_contains_iff.2 hin⟩, rfl⟩

/-- Every other month, up to the end of November. No month has a second point; positions
are picked by no stage here. -/
def everyOtherMonth : Rule where
  freq := some .monthly
  interval := some (.of 2)
  termination := some (.endsAt (.date (Date.ymd 2020 11 30)))
  bySetPos := [.of 2]
  valid := Parts.fault?_eq_none_iff.1 (by decide)

/-- From the last day of December on, in a window without an end: not all steps keep the
day of the month. -/
theorem everyOtherMonth_occurrences_are_steps :
    let anchor := (Date.ymd 2019 12 31).atHour 9
    let q : Request := .of (some (.dateTime anchor)) (.date (Date.ymd 2020 2 29)) none
    ∃ l, everyOtherMonth.occurrences q = .ok l ∧ l.dates.Pairwise (· < ·) ∧
      ∀ v, v ∈ l.dates ↔
        ∃ t, v = .dateTime t ∧
          (∃ n, n * everyOtherMonth.step < Nat.pow 2 32 ∧
            anchor.advance? .monthly (n * everyOtherMonth.step) = some t) ∧
          max q.start.instant anchor ≤ t ∧ (∀ e ∈ q.finish, t ≤ e.instant) ∧
          ∀ u ∈ everyOtherMonth.endsAt, t ≤ u.instant := by
  intro anchor q
  have hall := occurrences_are_steps (r := everyOtherMonth) (f := .monthly) (q := q) rfl
    (by decide) rfl rfl (.inl rfl) rfl
  exact hall

end Rule

end Recurrence
