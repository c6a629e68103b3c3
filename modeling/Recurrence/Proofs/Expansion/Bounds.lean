import Recurrence.Proofs.Expansion.Steps

/-!
# Bounds and kinds of answers

The loop of an expansion visits a period or two outside the window, and the stages move
instants further; what counts is that every instant is held against the window at the
end. The instants are found **without regard to the kind of the values** that are asked
for (`Rule.occurrences_eq_ofInstants`), so that the answer in dates is the answer in
instants without the times of day. A date counts as its midnight and so may lie before
the instant at which the window begins; it never lies before the date of that instant,
nor after the bound.
-/

namespace Recurrence

open Calendar

namespace DateValue

variable {t : Instant} {kind : ValueKind}

@[simp] theorem kind_ofInstant : (ofInstant t kind).kind = kind :=
  kind_toKind _ _

@[simp] theorem calendarDate_ofInstant : (ofInstant t kind).calendarDate = t.date := by
  cases kind <;> rfl

/-- **No kind moves an instant on**: a date counts as the midnight at its beginning. -/
theorem instant_ofInstant_le : (ofInstant t kind).instant ≤ t := by
  cases kind with
  | date => exact .inr ⟨rfl, Nat.zero_le _⟩
  | dateTime => exact Instant.le_refl t

/-- The date of a value is the date of its instant. -/
theorem calendarDate_eq (v : DateValue) : v.calendarDate = v.instant.date := by
  cases v <;> rfl

end DateValue

namespace Rule

variable {r : Rule} {f : Frequency} {q : Request} {anchor start t : Instant}
  {finish : Option Instant} {a : DateValue}

/-- **What an expansion gives lies in the window.** -/
theorem contains_of_mem_instants (h : t ∈ r.instants f anchor start finish) :
    (r.window anchor start finish).contains t := by
  cases hb : earlier? (r.endsAt.map Until.instant) finish with
  | none =>
    simp only [instants, hb] at h
    cases h
  | some b =>
    rw [instants_eq_limit hb] at h
    exact (List.mem_filter.1 h).2

/-- **Answers keep to their bounds, and the kind changes nothing but the form.** Every
value has the kind that is asked for and is the value of an instant in the window; the
answer in dates has, value by value, the dates of the answer in instants. So no value
lies before the date on which the window begins or after the bound. -/
theorem occurrences_within_bounds (hf : r.freq = some f) (ha : q.anchor = some a) :
    ∃ l, r.occurrences q = .ok l ∧
      (∀ v ∈ l.dates, v.kind = q.kind ∧
        ∃ t, v = .ofInstant t q.kind ∧ q.start.instant ≤ t ∧ a.instant ≤ t ∧
          (∀ e ∈ q.finish, t ≤ e.instant) ∧ ∀ u ∈ r.endsAt, t ≤ u.instant) ∧
      (∃ ds ts, r.occurrences (q.withKind .date) = .ok ds ∧
        r.occurrences (q.withKind .dateTime) = .ok ts ∧
        ds.dates = ts.dates.map fun v => .date v.calendarDate) ∧
      ∀ v ∈ l.dates, q.start.calendarDate ≤ v.calendarDate ∧ ∀ b ∈ q.bound? r, v.instant ≤ b := by
  refine ⟨_, occurrences_eq_ofInstants hf ha q.kind, ?_,
    ⟨_, _, occurrences_eq_ofInstants hf ha .date, occurrences_eq_ofInstants hf ha .dateTime, ?_⟩,
    ?_⟩
  · intro v hv
    rw [DateList.dates_ofInstants] at hv
    obtain ⟨t, ht, rfl⟩ := List.mem_map.1 hv
    obtain ⟨hbegin, hfinish, hlast⟩ :=
      Request.window_contains_iff.1 (contains_of_mem_instants (r := r) ht)
    obtain ⟨hstart, hanchor⟩ := Instant.max_le_iff.1 hbegin
    exact ⟨DateValue.kind_ofInstant, t, rfl, hstart, hanchor, hfinish, hlast⟩
  · simp only [DateList.dates_ofInstants, List.map_map]
    exact List.map_congr_left fun _ _ => rfl
  · intro v hv
    rw [DateList.dates_ofInstants] at hv
    obtain ⟨t, ht, rfl⟩ := List.mem_map.1 hv
    have hin := contains_of_mem_instants ht
    obtain ⟨hbegin, -⟩ := Request.window_contains_iff (q := q).1 hin
    refine ⟨?_, ?_⟩
    · rw [DateValue.calendarDate_ofInstant, DateValue.calendarDate_eq]
      exact Instant.day_le_of_le (Instant.max_le_iff.1 hbegin).1
    · intro b hb
      exact Instant.le_trans DateValue.instant_ofInstant_le ((Window.contains_iff hb).1 hin).2

/-- Every morning and every evening, up to a morning. -/
def twiceADay : Rule where
  freq := some .daily
  termination := some (.endsAt (.dateTime ((Date.ymd 2020 1 3).atHour 10) false))
  byHour := [.of 8, .of 16]
  valid := Parts.fault?_eq_none_iff.1 (by decide)

/-- Dates are asked for from ten in the morning on. The evening of that day is one of the
occurrences, and **its date lies before the window's beginning**. -/
theorem twiceADay_within_bounds :
    let a : DateValue := .dateTime ((Date.ymd 2020 1 1).atHour 9)
    let q : Request := (Request.of (some a) (.dateTime ((Date.ymd 2020 1 2).atHour 10)) none).withKind
      .date
    (∃ l, twiceADay.occurrences q = .ok l ∧
      (∀ v ∈ l.dates, v.kind = q.kind ∧
        ∃ t, v = .ofInstant t q.kind ∧ q.start.instant ≤ t ∧ a.instant ≤ t ∧
          (∀ e ∈ q.finish, t ≤ e.instant) ∧ ∀ u ∈ twiceADay.endsAt, t ≤ u.instant) ∧
      (∃ ds ts, twiceADay.occurrences (q.withKind .date) = .ok ds ∧
        twiceADay.occurrences (q.withKind .dateTime) = .ok ts ∧
        ds.dates = ts.dates.map fun v => .date v.calendarDate) ∧
      ∀ v ∈ l.dates, q.start.calendarDate ≤ v.calendarDate ∧
        ∀ b ∈ q.bound? twiceADay, v.instant ≤ b) ∧
    ∃ l, twiceADay.occurrences q = .ok l ∧ ∃ v ∈ l.dates, v < q.start := by
  intro a q
  refine ⟨occurrences_within_bounds (r := twiceADay) rfl rfl, _,
    occurrences_eq_ofInstants (f := .daily) rfl rfl .date, .date (Date.ymd 2020 1 2), ?_, by decide⟩
  rw [DateList.dates_ofInstants]
  exact List.mem_map.2 ⟨(Date.ymd 2020 1 2).atHour 16, by decide +kernel, rfl⟩

end Rule

end Recurrence
