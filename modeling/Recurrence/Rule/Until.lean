import Recurrence.Value.DateValue

/-!
# The last instant of a rule

A rule can name the last instant that it may reach, as a date or as an instant.
A date counts as its midnight. An instant may carry the mark `Z`; the mark is
kept and written again, and **changes nothing else**.
-/

namespace Recurrence

/-- The last instant that a rule may reach. -/
inductive Until where
  | date (d : Date)
  | dateTime (t : Instant) (utc : Bool)
deriving DecidableEq

namespace Until

/-- The last instant, a date counted as its midnight. -/
def instant : Until → Instant
  | date d => d.midnight
  | dateTime t _ => t

/-- The kind of the value. -/
def kind : Until → ValueKind
  | date _ => .date
  | dateTime _ _ => .dateTime

/-- Whether the value carries the mark `Z`. -/
def isUtc : Until → Bool
  | date _ => false
  | dateTime _ utc => utc

/-- The literal of the value. -/
def chars : Until → List Char
  | date d => Literal.date d
  | dateTime t utc => Literal.dateTime t ++ if utc then ['Z'] else []

/-- The literal of the value. -/
def text (u : Until) : String :=
  String.ofList u.chars

/-- Reads a date or else an instant. -/
def read? (cs : List Char) : Option Until :=
  match Literal.date? cs with
  | some d => some (date d)
  | none => (Literal.dateTime? cs).map fun p => dateTime p.1 p.2

/-- Reads a date or else an instant. -/
def readPart (cs : List Char) : Except ParseError Until :=
  match read? cs with
  | some u => .ok u
  | none => .error (.endsAt (String.ofList cs))

/-- Reads a date or else an instant. -/
def parse (s : String) : Except ParseError Until :=
  readPart s.toList

end Until

end Recurrence
