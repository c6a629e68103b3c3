import Recurrence.Command.Arguments
import Recurrence.Command.Output
import Recurrence.Expansion.Occurrences

/-!
# Running the command

The arguments and the settings make a request. A window whose end is not given is
bounded by the last instant of the rule or, **if the rule names none, by the
default length of the settings**, counted from its beginning.
-/

namespace Recurrence

/-- The value of the same kind some days later. -/
def DateValue.addDays? (v : DateValue) (n : Nat) : Option DateValue :=
  match v with
  | date d => (d.addDays? n).map date
  | dateTime t => (t.addDays? n).map dateTime

namespace Command

/-- Why the command fails. -/
inductive Failure where
  /-- The arguments are refused. -/
  | arguments (e : ArgumentError)
  /-- The default end of the window lies outside the calendar. -/
  | windowEnd
  /-- The rule cannot be expanded. -/
  | expansion (e : ExpansionError)
deriving DecidableEq

/-- The message for a reader. -/
def Failure.message : Failure → String
  | arguments e => e.message
  | windowEnd => "Default window end is out of range"
  | expansion e => e.message

namespace Arguments

/-- The beginning of the window, the anchor when it is not given. -/
def windowStart (a : Arguments) : DateValue :=
  a.start.getD a.anchor

/-- The request that the arguments make. -/
def request (a : Arguments) (s : Settings) : Except Failure Request :=
  let made (finish : Option DateValue) : Request :=
    let q := Request.of (some a.anchor) a.windowStart finish
    if a.dateOnly then q.withKind .date else q
  match a.finish, a.rule.endsAt with
  | some finish, _ => .ok (made (some finish))
  | none, some _ => .ok (made none)
  | none, none =>
    match a.windowStart.addDays? s.windowDays.toNat with
    | some finish => .ok (made (some finish))
    | none => .error .windowEnd

/-- The format of the output; the flag wins over the settings. -/
def format (a : Arguments) (s : Settings) : OutputFormat :=
  if a.json then .json else s.output

end Arguments

/-- What a run of the command shows. -/
structure Report where
  /-- What was asked. -/
  request : Request
  /-- The occurrences. -/
  dates : DateList
  /-- The format of the output. -/
  format : OutputFormat

/-- The text that a run of the command prints. -/
def Report.output (r : Report) : String :=
  r.format.render r.dates

/-- Runs the command on the words of the command line. -/
def run (words : List String) (s : Settings) : Except Failure Report :=
  match Arguments.read words with
  | .error e => .error (.arguments e)
  | .ok a =>
    match a.request s with
    | .error e => .error e
    | .ok q =>
      match a.rule.occurrences q with
      | .error e => .error (.expansion e)
      | .ok l => .ok ⟨q, l, a.format s⟩

end Command

end Recurrence
