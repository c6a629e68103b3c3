import Recurrence.Rule.Parts

/-!
# Recurrence rules

A `Rule` is a collection of parts whose numbers have a meaning: it repeats after
at least one unit, has at least one instant, and names months from 1 to 12 and
seconds up to 60. `Parts.build` checks this, names the first number that is
wrong, and is the only way to a rule. `Rule.parse` reads the text of a rule and
`Rule.text` writes it.
-/

namespace Recurrence

/-- The numbers of the parts have a meaning. -/
structure Parts.Valid (p : Parts) : Prop where
  /-- The rule repeats after at least one unit. -/
  interval_pos : ∀ n ∈ p.interval, 1 ≤ n.val
  /-- The rule has at least one instant. -/
  count_pos : ∀ n ∈ p.count, 1 ≤ n.val
  /-- A year has twelve months. -/
  byMonth_mem : ∀ m ∈ p.byMonth, 1 ≤ m.val ∧ m.val ≤ 12
  /-- A minute has at most a leap second more than its sixty. -/
  bySecond_le : ∀ s ∈ p.bySecond, s.val ≤ 60

/-- A recurrence rule: parts whose numbers have a meaning. -/
structure Rule extends Parts where
  /-- The numbers have a meaning. -/
  valid : toParts.Valid
deriving DecidableEq

namespace Parts

/-- The first number without a meaning: the interval is looked at first, then the
count, the months and the seconds, each list from its beginning. -/
def fault? (p : Parts) : Option ParseError :=
  ((p.interval.filter (·.val < 1)).map fun n => .outOfRange .interval n.val) <|>
    ((p.count.filter (·.val < 1)).map fun n => .outOfRange .count n.val) <|>
    ((p.byMonth.find? fun m => m.val < 1 || 12 < m.val).map fun m => .outOfRange .byMonth m.val) <|>
    ((p.bySecond.find? (60 < ·.val)).map fun s => .outOfRange .bySecond s.val)

/-- **Nothing is at fault exactly in valid parts.** -/
theorem fault?_eq_none_iff {p : Parts} : p.fault? = none ↔ p.Valid := by
  simp only [fault?, Option.orElse_eq_orElse, Option.orElse_eq_or, Option.or_eq_none_iff,
    Option.map_eq_none_iff, Option.filter_eq_none_iff, List.find?_eq_none, Bool.or_eq_true,
    decide_eq_true_eq]
  constructor
  · rintro ⟨h₁, h₂, h₃, h₄⟩
    exact ⟨fun n hn => by have := h₁ n hn; omega, fun n hn => by have := h₂ n hn; omega,
      fun m hm => by have := h₃ m hm; omega, fun s hs => by have := h₄ s hs; omega⟩
  · rintro ⟨h₁, h₂, h₃, h₄⟩
    exact ⟨fun n hn => by have := h₁ n hn; omega, fun n hn => by have := h₂ n hn; omega,
      fun m hm => by have := h₃ m hm; omega, fun s hs => by have := h₄ s hs; omega⟩

/-- The rule with these parts, if their numbers have a meaning. -/
def build (p : Parts) : Except ParseError Rule :=
  match h : p.fault? with
  | some e => .error e
  | none => .ok ⟨p, fault?_eq_none_iff.1 h⟩

end Parts

namespace Rule

/-- A rule steps at all. -/
theorem one_le_step (r : Rule) : 1 ≤ r.step := by
  unfold Parts.step
  split
  · next n hn =>
    have := r.valid.interval_pos n hn
    unfold Ranged.toNat
    omega
  · exact Nat.le_refl 1

/-- The text of a rule. -/
def text (r : Rule) : String :=
  String.ofList r.toParts.chars

/-- Reads a rule. Its numbers are checked **after all parts have been read**, and
only where no later part replaces them. -/
def parse (s : String) : Except ParseError Rule :=
  Parts.read s.toList >>= Parts.build

end Rule

end Recurrence
