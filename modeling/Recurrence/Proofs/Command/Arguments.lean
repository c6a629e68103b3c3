import Recurrence.Command.Arguments
import Recurrence.Proofs.Rule.RoundTrip
import Recurrence.Proofs.Value.Exact

/-!
# Dates on the command line

The arguments name dates in four places: the anchor, the two ends of the window and the
last instant of the rule. All of them stand there as literals, so that **accepted arguments
name years of four digits only** (`Command.Arguments.literal_of_read`). What is gathered
grows word by word, and no word adds a date of another kind.
-/

namespace Recurrence

/-- The last instant of a rule that is read has a year of four digits. -/
theorem Rule.hasFourDigitYear_of_parse {r : Rule} {s : String} (h : parse s = .ok r) :
    ∀ u ∈ r.endsAt, u.instant.date.HasFourDigitYear :=
  (Parts.writable_of_read (parse_eq_ok_iff.1 h)).endsAt

namespace Command

/-- All dates of the arguments have literals. -/
structure Arguments.Literal (a : Arguments) : Prop where
  /-- The last instant of the rule. -/
  rule : ∀ u ∈ a.rule.endsAt, u.instant.date.HasFourDigitYear
  /-- The anchor. -/
  anchor : a.anchor.calendarDate.HasFourDigitYear
  /-- The beginning of the window. -/
  start : ∀ v ∈ a.start, v.calendarDate.HasFourDigitYear
  /-- The end of the window. -/
  finish : ∀ v ∈ a.finish, v.calendarDate.HasFourDigitYear

namespace Gathered

variable {g g' : Gathered} {w w' : Option Waiting} {slot : Slot} {value : String}

/-- All dates that have been read so far have literals. -/
structure Literal (g : Gathered) : Prop where
  /-- The last instant of the rule. -/
  rule : ∀ r ∈ g.rule, ∀ u ∈ r.endsAt, u.instant.date.HasFourDigitYear
  /-- The anchor. -/
  anchor : ∀ v ∈ g.anchor, v.calendarDate.HasFourDigitYear
  /-- The beginning of the window. -/
  start : ∀ v ∈ g.start, v.calendarDate.HasFourDigitYear
  /-- The end of the window. -/
  finish : ∀ v ∈ g.finish, v.calendarDate.HasFourDigitYear

/-- A value is taken over when it is read without a fault. -/
theorem checked_eq_ok_iff {α : Type} {x : Except ParseError α} {a : α} :
    checked x = .ok a ↔ x = .ok a := by
  cases x <;> simp [checked]

/-- Before the first word there are no dates. -/
theorem literal_empty : ({} : Gathered).Literal where
  rule := by rintro _ ⟨⟩
  anchor := by rintro _ ⟨⟩
  start := by rintro _ ⟨⟩
  finish := by rintro _ ⟨⟩

namespace Literal

/-! ## One word -/

/-- **What is read into a slot has a literal.** -/
theorem fill (h : g.Literal) (hg : g.fill slot value = .ok g') : g'.Literal := by
  unfold Gathered.fill at hg
  split at hg
  · cases hg
  · cases slot with
    | rule =>
      obtain ⟨r, hr, rfl⟩ := Part.map_eq_ok_iff.1 hg
      refine ⟨?_, h.anchor, h.start, h.finish⟩
      rintro _ ⟨⟩
      exact Rule.hasFourDigitYear_of_parse (checked_eq_ok_iff.1 hr)
    | anchor =>
      obtain ⟨v, hv, rfl⟩ := Part.map_eq_ok_iff.1 hg
      refine ⟨h.rule, ?_, h.start, h.finish⟩
      rintro _ ⟨⟩
      exact DateValue.hasFourDigitYear_of_parse (checked_eq_ok_iff.1 hv)
    | start =>
      obtain ⟨v, hv, rfl⟩ := Part.map_eq_ok_iff.1 hg
      refine ⟨h.rule, h.anchor, ?_, h.finish⟩
      rintro _ ⟨⟩
      exact DateValue.hasFourDigitYear_of_parse (checked_eq_ok_iff.1 hv)
    | finish =>
      obtain ⟨v, hv, rfl⟩ := Part.map_eq_ok_iff.1 hg
      refine ⟨h.rule, h.anchor, h.start, ?_⟩
      rintro _ ⟨⟩
      exact DateValue.hasFourDigitYear_of_parse (checked_eq_ok_iff.1 hv)

theorem settle (h : g.Literal) (hg : g.settle w = .ok g') : g'.Literal := by
  obtain _ | ⟨slot, _ | value⟩ := w
  · cases hg
    exact h
  · cases hg
  · exact h.fill hg

/-- Flags are no dates. -/
theorem raise {f : Flag} (h : g.Literal) (hg : g.raise f = .ok g') : g'.Literal := by
  cases f with
  | dateOnly =>
    by_cases hon : g.dateOnly = true
    · simp [Gathered.raise, hon] at hg
    · simp only [Gathered.raise, hon, Bool.false_eq_true, if_false] at hg
      cases hg
      exact ⟨h.rule, h.anchor, h.start, h.finish⟩
  | json =>
    by_cases hon : g.json = true
    · simp [Gathered.raise, hon] at hg
    · simp only [Gathered.raise, hon, Bool.false_eq_true, if_false] at hg
      cases hg
      exact ⟨h.rule, h.anchor, h.start, h.finish⟩

theorem await (h : g.Literal) (hg : g.await w value = .ok (g', w')) : g'.Literal := by
  unfold Gathered.await at hg
  split at hg
  · cases hg
  · obtain ⟨g₁, hg₁, heq⟩ := Part.map_eq_ok_iff.1 hg
    cases heq
    exact h.settle hg₁

/-- **A word adds only dates that have literals.** -/
theorem take {t : Token} (h : g.Literal) (hg : g.take w t = .ok (g', w')) : g'.Literal := by
  cases t with
  | option slot value =>
    cases value with
    | some value =>
      obtain ⟨g₁, hg₁, hg⟩ := bind_eq_ok_iff.1 hg
      obtain ⟨g₂, hg₂, hg⟩ := bind_eq_ok_iff.1 hg
      cases hg
      exact (h.settle hg₁).fill hg₂
    | none =>
      obtain ⟨g₁, hg₁, hg⟩ := bind_eq_ok_iff.1 hg
      cases hg
      exact h.settle hg₁
  | flag f =>
    obtain ⟨g₁, hg₁, hg⟩ := bind_eq_ok_iff.1 hg
    obtain ⟨g₂, hg₂, hg⟩ := bind_eq_ok_iff.1 hg
    cases hg
    exact (h.settle hg₁).raise hg₂
  | help =>
    obtain ⟨g₁, -, hg⟩ := bind_eq_ok_iff.1 hg
    cases hg
  | flagWithValue | unknown => cases hg
  | endOfOptions =>
    cases hg
    exact h
  | value s =>
    -- The value is that of the option that waits for one, or else the rule.
    obtain _ | ⟨slot, _ | waiting⟩ := w
    · exact h.await hg
    · cases hg
      exact h
    · exact h.await hg

/-! ## All words -/

theorem operands {words : List String} (h : g.Literal) (hg : g.operands w words = .ok g') :
    g'.Literal := by
  induction words generalizing g w with
  | nil => exact h.settle hg
  | cons word words ih =>
    unfold Gathered.operands at hg
    split at hg
    · cases hg
    · next g₁ w₁ hawait => exact ih (h.await hawait) hg

theorem words {words : List String} (h : g.Literal) (hg : g.words w words = .ok g') :
    g'.Literal := by
  induction words generalizing g w with
  | nil => exact h.settle hg
  | cons word words ih =>
    unfold Gathered.words at hg
    split at hg
    · exact h.operands hg
    · split at hg
      · cases hg
      · next g₁ w₁ htake => exact ih (h.take htake) hg

end Literal

end Gathered

/-- **Accepted arguments name years of four digits only.** -/
theorem Arguments.literal_of_read {words : List String} {a : Arguments}
    (h : read words = .ok a) : a.Literal := by
  obtain ⟨g, hg, hfinished⟩ := bind_eq_ok_iff.1 h
  have hall := Gathered.literal_empty.words hg
  unfold Gathered.finished at hfinished
  split at hfinished
  · next rule anchor hrule hanchor =>
    cases hfinished
    exact ⟨hall.rule rule hrule, hall.anchor anchor hanchor, hall.start, hall.finish⟩
  · cases hfinished

end Command

end Recurrence
