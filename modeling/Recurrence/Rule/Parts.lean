import Recurrence.Rule.Extensions
import Recurrence.Rule.Part

/-!
# Rules in the making

`Parts` collects the parts of a rule; each part replaces an earlier one of its
name. **A last instant and a count are one part under two names**, so each of
them also replaces the other. Nothing is checked here: see `Recurrence.Rule`.
-/

namespace Recurrence

/-- How a rule ends. -/
inductive Termination where
  | endsAt (u : Until)
  | count (n : Word)
deriving DecidableEq

/-- The parts of a rule, each as it was given last. An empty list is a list that
was not given. -/
structure Parts where
  /-- The unit in which the rule repeats. -/
  freq : Option Frequency := none
  /-- How many units lie between two repetitions. -/
  interval : Option Word := none
  /-- How the rule ends. -/
  termination : Option Termination := none
  /-- The day on which a week begins. -/
  weekStart : Option Weekday := none
  /-- The seconds of a minute. -/
  bySecond : List Octet := []
  /-- The minutes of an hour. -/
  byMinute : List Octet := []
  /-- The hours of a day. -/
  byHour : List Octet := []
  /-- The weekdays. -/
  byDay : List DayEntry := []
  /-- The days of a month. -/
  byMonthDay : List SignedOctet := []
  /-- The days of a year. -/
  byYearDay : List SignedShort := []
  /-- The weeks of a year. -/
  byWeekNo : List SignedOctet := []
  /-- The months of a year. -/
  byMonth : List Octet := []
  /-- The positions of a period's instants that the rule keeps. -/
  bySetPos : List SignedWord := []
  /-- The parts without a meaning here. -/
  extensions : Extensions := .empty
deriving DecidableEq

namespace Parts

/-- The last instant that the rule may reach. -/
def endsAt (p : Parts) : Option Until :=
  match p.termination with
  | some (.endsAt u) => some u
  | _ => none

/-- How many instants the rule has. -/
def count (p : Parts) : Option Word :=
  match p.termination with
  | some (.count n) => some n
  | _ => none

/-- The units between two repetitions, **one when nothing else is said.** -/
def step (p : Parts) : Nat :=
  match p.interval with
  | some n => n.toNat
  | none => 1

/-- The day on which a week begins, Monday when nothing else is said. -/
def firstWeekday (p : Parts) : Weekday :=
  p.weekStart.getD .monday

/-- The parts after one more part. -/
def set (p : Parts) : Part → Parts
  | .freq f => { p with freq := some f }
  | .endsAt u => { p with termination := some (.endsAt u) }
  | .count n => { p with termination := some (.count n) }
  | .interval n => { p with interval := some n }
  | .weekStart w => { p with weekStart := some w }
  | .bySecond xs => { p with bySecond := xs }
  | .byMinute xs => { p with byMinute := xs }
  | .byHour xs => { p with byHour := xs }
  | .byDay xs => { p with byDay := xs }
  | .byMonthDay xs => { p with byMonthDay := xs }
  | .byYearDay xs => { p with byYearDay := xs }
  | .byWeekNo xs => { p with byWeekNo := xs }
  | .byMonth xs => { p with byMonth := xs }
  | .bySetPos xs => { p with bySetPos := xs }
  | .extension key value => { p with extensions := p.extensions.insert key value }

/-- The parts collected from a list, from the first to the last. -/
def ofList (parts : List Part) : Parts :=
  parts.foldl set {}

/-- A list as a part, if it has entries. -/
def ofEntries {α : Type} (make : List α → Part) : List α → List Part
  | [] => []
  | xs => [make xs]

/-- How a rule ends, as a part. -/
def ofTermination : Termination → Part
  | .endsAt u => .endsAt u
  | .count n => .count n

/-- The parts as a list, **in the order in which a rule is written.** -/
def toList (p : Parts) : List Part :=
  (p.freq.map Part.freq).toList ++
    (p.weekStart.map Part.weekStart).toList ++
    (p.interval.map Part.interval).toList ++
    (p.termination.map ofTermination).toList ++
    ofEntries .byMonth p.byMonth ++
    ofEntries .byWeekNo p.byWeekNo ++
    ofEntries .byYearDay p.byYearDay ++
    ofEntries .byMonthDay p.byMonthDay ++
    ofEntries .byDay p.byDay ++
    ofEntries .byHour p.byHour ++
    ofEntries .byMinute p.byMinute ++
    ofEntries .bySecond p.bySecond ++
    ofEntries .bySetPos p.bySetPos ++
    p.extensions.entries.map fun e => .extension e.1 e.2

/-- The text of the parts, separated by semicolons. -/
def chars (p : Parts) : List Char :=
  [';'].intercalate (p.toList.map Part.chars)

/-- Reads parts separated by semicolons; where no text stands between two
semicolons there is no part. -/
def read (cs : List Char) : Except ParseError Parts :=
  ofList <$> ((cs.splitOn ';').filter fun part => !part.isEmpty).mapM Part.read

end Parts

end Recurrence
