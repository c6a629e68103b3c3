import Recurrence.ParseError
import Recurrence.Value.Literal

/-!
# Date values

A `DateValue` is a date or an instant. **A date counts as its midnight**: values
are compared, ordered and hashed by their instants only, so that a date equals
the instant at its midnight although their kinds differ.
-/

namespace Recurrence

/-- The two kinds of date values. -/
inductive ValueKind where
  | date
  | dateTime
deriving DecidableEq

namespace ValueKind

/-- The name of a kind. -/
def name : ValueKind → String
  | date => "DATE"
  | dateTime => "DATE-TIME"

/-- The kind with a given name. -/
def ofName? (s : String) : Option ValueKind :=
  if s = "DATE" then some date else if s = "DATE-TIME" then some dateTime else none

end ValueKind

/-- A date, or a date with a time. -/
inductive DateValue where
  | date (d : Date)
  | dateTime (t : Instant)

namespace DateValue

/-- The instant of a value; a date counts as its midnight. -/
def instant : DateValue → Instant
  | date d => d.midnight
  | dateTime t => t

/-- The date of a value. -/
def calendarDate : DateValue → Date
  | date d => d
  | dateTime t => t.date

/-- The kind of a value. -/
def kind : DateValue → ValueKind
  | date _ => .date
  | dateTime _ => .dateTime

/-- The value in a given kind; as a date it loses its time of day. -/
def toKind (v : DateValue) : ValueKind → DateValue
  | .date => date v.calendarDate
  | .dateTime => dateTime v.instant

/-- The value of a given kind at an instant. -/
def ofInstant (t : Instant) (kind : ValueKind) : DateValue :=
  (dateTime t).toKind kind

/-- A value in a given kind has that kind. -/
theorem kind_toKind (v : DateValue) (k : ValueKind) : (v.toKind k).kind = k := by
  cases k <;> rfl

/-- Values are equal when their instants are. -/
instance : BEq DateValue := ⟨fun a b => a.instant == b.instant⟩

instance : LT DateValue := ⟨fun a b => a.instant < b.instant⟩

instance : LE DateValue := ⟨fun a b => a.instant ≤ b.instant⟩

instance (a b : DateValue) : Decidable (a < b) :=
  inferInstanceAs (Decidable (a.instant < b.instant))

instance (a b : DateValue) : Decidable (a ≤ b) :=
  inferInstanceAs (Decidable (a.instant ≤ b.instant))

instance : Ord DateValue := ⟨fun a b => compare a.instant b.instant⟩

instance : Max DateValue := maxOfLe

/-- Equal values have equal hashes. -/
instance : Hashable DateValue := ⟨fun v => hash v.instant.seconds⟩

/-- The literal of a value. -/
def chars : DateValue → List Char
  | date d => Literal.date d
  | dateTime t => Literal.dateTime t

/-- The literal of a value. -/
def text (v : DateValue) : String :=
  String.ofList v.chars

/-- Reads a date or else an instant; a final `Z` of an instant is forgotten. -/
def read? (cs : List Char) : Option DateValue :=
  match Literal.date? cs with
  | some d => some (date d)
  | none => (Literal.dateTime? cs).map fun p => dateTime p.1

/-- Reads a date or else an instant. -/
def parse (s : String) : Except ParseError DateValue :=
  match read? s.toList with
  | some v => .ok v
  | none => .error (.dateTime s)

end DateValue

/-- Reads a date. -/
def Date.parse (s : String) : Except ParseError Date :=
  match Literal.date? s.toList with
  | some d => .ok d
  | none => .error (.date s)

/-- Reads an instant, and tells whether a final `Z` marks it. -/
def Instant.parse (s : String) : Except ParseError (Instant × Bool) :=
  match Literal.dateTime? s.toList with
  | some p => .ok p
  | none => .error (.dateTime s)

end Recurrence
