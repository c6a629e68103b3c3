import Recurrence.Position
import Recurrence.Rule.Stage

/-!
# Scopes of weekdays

A weekday entry stands for the days with its name in some span around a date:
the date itself, its week, its month or its year. How wide the span is follows
from the frequency of the rule and from the other lists that it has.
-/

namespace Recurrence

open Calendar

/-- The span of time in which a weekday entry looks for its days. -/
inductive Scope where
  | day
  | week
  | month
  | year
deriving DecidableEq

/-- The scope of the weekday entries of a rule. -/
def Parts.scope (p : Parts) (freq : Frequency) : Scope :=
  match freq with
  | .secondly | .minutely | .hourly | .daily => .day
  | .weekly => .week
  | .monthly => if p.byWeekNo.isEmpty then .month else .week
  | .yearly =>
    if p.byWeekNo.isEmpty then if p.byMonth.isEmpty then .year else .month else .week

namespace Scope

/-- The numbers of the days with weekday `w` among `len` days from `first` on. -/
def daysFrom (first : Int) (len : Nat) (w : Weekday) : List Int :=
  let offset := (7 + w.index - weekdayIndex first) % 7
  (List.range ((len + 6 - offset) / 7)).map fun (k : Nat) => first + offset + 7 * (k : Int)

/-- **A day is listed when it lies among the days and has the weekday.** -/
theorem mem_daysFrom {first n : Int} {len : Nat} {w : Weekday} :
    n ∈ daysFrom first len w ↔ (first ≤ n ∧ n < first + len) ∧ weekdayIndex n = w.index := by
  have := w.index_lt
  simp only [daysFrom, List.mem_map, List.mem_range, weekdayIndex]
  constructor
  · rintro ⟨k, hk, rfl⟩
    omega
  · rintro ⟨⟨h₁, h₂⟩, h₃⟩
    let offset := (7 + w.index - ((first + 5) % 7).toNat) % 7
    refine ⟨((n - first - offset) / 7).toNat, ?_, ?_⟩ <;> omega

/-- Days are listed from the first to the last. -/
theorem daysFrom_pairwise (first : Int) (len : Nat) (w : Weekday) :
    (daysFrom first len w).Pairwise (· < ·) := by
  refine List.pairwise_map.2 (List.pairwise_lt_range.imp fun h => ?_)
  omega

/-- The first day and the length of the span around a date. There is no week
where its Monday lies before the calendar. -/
def span? (scope : Scope) (d : Date) : Option (Int × Nat) :=
  match scope with
  | day => some (d.day, 1)
  | week => d.weekStart?.map fun monday => (monday.day, 7)
  | month => some (d.day - d.monthDay + 1, monthLength (isLeap d.year) d.month)
  | year => some (newYear d.year, yearLength d.year)

/-- The days with weekday `w` in the span around a date, from the first to the
last. -/
def days (scope : Scope) (d : Date) (w : Weekday) : List Date :=
  match scope.span? d with
  | none => []
  | some (first, len) => (daysFrom first len w).filterMap Date.ofDay?

end Scope

/-- The instants that a weekday entry stands for: the days with its name in the
span around an instant or, **with an ordinal, the one at that position**, all at
the same time of day. -/
def DayEntry.instants (e : DayEntry) (scope : Scope) (t : Instant) : List Instant :=
  let days := scope.days t.date e.weekday
  let chosen := match e.ordinal with
    | none => days
    | some n => (Position.pick? days n.val).toList
  chosen.map fun d => { t with date := d }

end Recurrence
