import Recurrence.Value.DateValue

/-!
# Lists of dates

A `DateList` holds values of one kind in the order in which they came;
duplicates stay. A value of the other kind is converted when it is added.
-/

namespace Recurrence

/-- Date values of one kind. -/
structure DateList where
  /-- The kind of the values. -/
  kind : ValueKind
  /-- The values. -/
  dates : List DateValue
  /-- Every value has the kind of the list. -/
  kind_eq : ∀ v ∈ dates, v.kind = kind

namespace DateList

/-- The list without values. -/
def empty (kind : ValueKind) : DateList :=
  ⟨kind, [], by simp⟩

/-- The list with more values at its end. -/
def extend (l : DateList) (values : List DateValue) : DateList :=
  ⟨l.kind, l.dates ++ values.map (·.toKind l.kind), fun v hv => by
    rcases List.mem_append.1 hv with h | h
    · exact l.kind_eq v h
    · obtain ⟨w, _, rfl⟩ := List.mem_map.1 h
      exact w.kind_toKind l.kind⟩

/-- The list with one more value at its end. -/
def push (l : DateList) (value : DateValue) : DateList :=
  l.extend [value]

/-- The values of a kind at some instants. -/
def ofInstants (kind : ValueKind) (ts : List Instant) : DateList :=
  (empty kind).extend (ts.map .dateTime)

/-- The greatest value. -/
def max? (l : DateList) : Option DateValue :=
  l.dates.max?

/-- The values in their order, equal ones once. -/
def sortedUnique (l : DateList) : List DateValue :=
  (l.dates.mergeSort fun a b => a ≤ b).eraseReps

/-- The literals of the values. -/
def texts (l : DateList) : List String :=
  l.dates.map DateValue.text

/-- The literals of the values, with a comma between two of them. -/
def text (l : DateList) : String :=
  String.ofList ([','].intercalate (l.dates.map DateValue.chars))

end DateList

end Recurrence
