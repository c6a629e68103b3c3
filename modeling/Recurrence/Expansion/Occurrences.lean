import Recurrence.Expansion.Candidates
import Recurrence.Expansion.Lattice
import Recurrence.Expansion.Window
import Recurrence.Rule.Basic
import Recurrence.Value.DateList

/-!
# Occurrences

The occurrences of a rule in a window: the lattice of the rule, the candidates
of its periods, and of these what the count and the window leave. They come
period after period and within a period in the order of the rule's lists;
duplicates stay. **Without an anchor, and without any last instant, there are
none.**
-/

namespace Recurrence

/-- What is asked of a rule. -/
structure Request where
  /-- The first instant of the rule. -/
  anchor : Option DateValue
  /-- The beginning of the window. -/
  start : DateValue
  /-- The end of the window. -/
  finish : Option DateValue
  /-- The kind of the values in the answer. -/
  kind : ValueKind

namespace Request

/-- A request for values of the anchor's kind or, without an anchor, of the kind
of the window's beginning. -/
def of (anchor : Option DateValue) (start : DateValue) (finish : Option DateValue) : Request :=
  ⟨anchor, start, finish, (anchor.getD start).kind⟩

/-- A request whose window begins at the anchor. -/
def fromAnchor (anchor : DateValue) (finish : Option DateValue) : Request :=
  of (some anchor) anchor finish

/-- The same request for values of a given kind. -/
def withKind (q : Request) (kind : ValueKind) : Request :=
  { q with kind := kind }

end Request

/-- Why a rule cannot be expanded. -/
inductive ExpansionError where
  /-- The rule does not say how often it repeats. -/
  | missingFrequency
deriving DecidableEq

/-- The message for a reader. -/
def ExpansionError.message : ExpansionError → String
  | missingFrequency => "RRULE has no FREQ"

/-- The earlier of two instants, either of which may be missing. -/
def earlier? : Option Instant → Option Instant → Option Instant
  | some a, some b => some (min a b)
  | some a, none => some a
  | none, b => b

namespace Rule

/-- The occurrences of a rule that repeats with frequency `freq` from an anchor on. -/
def instants (r : Rule) (freq : Frequency) (anchor start : Instant) (finish : Option Instant) :
    List Instant :=
  let last := r.endsAt.map Until.instant
  match earlier? last finish with
  | none => []
  | some bound =>
    let opening := r.lattice freq anchor start bound
    let window : Window := ⟨anchor, start, finish, last⟩
    window.limit (r.count.map Ranged.toNat) (r.candidates freq opening)

/-- The occurrences of a rule that a request asks for. -/
def occurrences (r : Rule) (q : Request) : Except ExpansionError DateList :=
  match r.freq with
  | none => .error .missingFrequency
  | some freq =>
    match q.anchor with
    | none => .ok (.empty q.kind)
    | some anchor =>
      .ok (.ofInstants q.kind
        (r.instants freq anchor.instant q.start.instant (q.finish.map DateValue.instant)))

end Rule

/-- Why a request for the occurrences of a rule text fails. -/
inductive RequestError where
  /-- The text is blank. -/
  | blank
  /-- The text is no rule. -/
  | parse (e : ParseError)
  /-- The rule cannot be expanded. -/
  | expansion (e : ExpansionError)
deriving DecidableEq

/-- The message for a reader. -/
def RequestError.message : RequestError → String
  | blank => "Invalid input: RRULE value is empty"
  | parse e => "Parse error: " ++ e.message
  | expansion e => "Expansion error: " ++ e.message

/-- The occurrences of the rule that a text writes. -/
def Rule.expandText (s : String) (q : Request) : Except RequestError DateList :=
  if Text.isBlankText s.toList then .error .blank
  else
    match Rule.parse s with
    | .error e => .error (.parse e)
    | .ok r =>
      match r.occurrences q with
      | .error e => .error (.expansion e)
      | .ok l => .ok l

end Recurrence
