import Recurrence.Rule.DayEntry
import Recurrence.Rule.Until
import Recurrence.Rule.Frequency
import Recurrence.Text.Blank

/-!
# Parts of a rule

A `Part` is one `NAME=value` of a rule with its value understood. `Part.read`
takes the text of a part and `Part.chars` gives it back; numbers may be
surrounded by blank characters when they are read and never are when they are
written. A part with an unknown name is read as it stands.
-/

namespace Recurrence

open Text

/-- One part of a rule. -/
inductive Part where
  /-- The unit in which the rule repeats. -/
  | freq (f : Frequency)
  /-- The last instant that the rule may reach. -/
  | endsAt (u : Until)
  /-- How many instants the rule has. -/
  | count (n : Word)
  /-- How many units lie between two repetitions. -/
  | interval (n : Word)
  /-- The day on which a week begins. -/
  | weekStart (w : Weekday)
  | bySecond (xs : List Octet)
  | byMinute (xs : List Octet)
  | byHour (xs : List Octet)
  | byDay (xs : List DayEntry)
  | byMonthDay (xs : List SignedOctet)
  | byYearDay (xs : List SignedShort)
  | byWeekNo (xs : List SignedOctet)
  | byMonth (xs : List Octet)
  /-- The positions of a period's instants that the rule keeps. -/
  | bySetPos (xs : List SignedWord)
  /-- A part without a meaning here. -/
  | extension (key value : String)
deriving DecidableEq

namespace Part

/-! ## Writing -/

/-- The text of a part with a name and a value. -/
def pair (name : PartName) (value : List Char) : List Char :=
  name.text.toList ++ '=' :: value

/-- The text of a list, its entries separated by commas. -/
def listed {α : Type} (write : α → List Char) (xs : List α) : List Char :=
  [','].intercalate (xs.map write)

/-- The text of a part. -/
def chars : Part → List Char
  | freq f => pair .freq f.name.toList
  | endsAt u => pair .endsAt u.chars
  | count n => pair .count n.chars
  | interval n => pair .interval n.chars
  | weekStart w => pair .weekStart w.name.toList
  | bySecond xs => pair .bySecond (listed Ranged.chars xs)
  | byMinute xs => pair .byMinute (listed Ranged.chars xs)
  | byHour xs => pair .byHour (listed Ranged.chars xs)
  | byDay xs => pair .byDay (listed DayEntry.chars xs)
  | byMonthDay xs => pair .byMonthDay (listed Ranged.chars xs)
  | byYearDay xs => pair .byYearDay (listed Ranged.chars xs)
  | byWeekNo xs => pair .byWeekNo (listed Ranged.chars xs)
  | byMonth xs => pair .byMonth (listed Ranged.chars xs)
  | bySetPos xs => pair .bySetPos (listed Ranged.chars xs)
  | extension key value => key.toList ++ '=' :: value.toList

/-! ## Reading -/

/-- Reads a frequency by its name. -/
def readFrequency (cs : List Char) : Except ParseError Frequency :=
  match Frequency.ofName? cs with
  | some f => .ok f
  | none => .error (.frequency (String.ofList cs))

/-- Reads a weekday by its name. -/
def readWeekday (cs : List Char) : Except ParseError Weekday :=
  match Weekday.ofName? cs with
  | some w => .ok w
  | none => .error (.weekday (String.ofList cs))

/-- Reads a number between blank characters. **The error names the text with its
blanks.** -/
def readNumber {lo hi : Int} (cs : List Char) : Except ParseError (Ranged lo hi) :=
  match Ranged.read? (trim cs) with
  | some n => .ok n
  | none => .error (.integer (String.ofList cs))

/-- Reads numbers separated by commas, and stops at the first that is none. -/
def readNumbers {lo hi : Int} (cs : List Char) : Except ParseError (List (Ranged lo hi)) :=
  (cs.splitOn ',').mapM readNumber

/-- Reads weekday entries separated by commas. **An entry loses its blanks
first**, and the error names it without them. -/
def readDays (cs : List Char) : Except ParseError (List DayEntry) :=
  (cs.splitOn ',').mapM fun entry => DayEntry.read (trim entry)

/-- Reads the value of a part that has a meaning. -/
def readValue (name : PartName) (cs : List Char) : Except ParseError Part :=
  match name with
  | .freq => .freq <$> readFrequency cs
  | .endsAt => .endsAt <$> Until.readPart cs
  | .count => .count <$> readNumber cs
  | .interval => .interval <$> readNumber cs
  | .weekStart => .weekStart <$> readWeekday cs
  | .bySecond => .bySecond <$> readNumbers cs
  | .byMinute => .byMinute <$> readNumbers cs
  | .byHour => .byHour <$> readNumbers cs
  | .byDay => .byDay <$> readDays cs
  | .byMonthDay => .byMonthDay <$> readNumbers cs
  | .byYearDay => .byYearDay <$> readNumbers cs
  | .byWeekNo => .byWeekNo <$> readNumbers cs
  | .byMonth => .byMonth <$> readNumbers cs
  | .bySetPos => .bySetPos <$> readNumbers cs

/-- Reads a part: the name stands before the first `=` and the value after it. -/
def read (cs : List Char) : Except ParseError Part :=
  match cut? '=' cs with
  | none => .error (.part (String.ofList cs))
  | some (key, value) =>
    match PartName.ofText? key with
    | some name => readValue name value
    | none => .ok (.extension (String.ofList key) (String.ofList value))

end Part

end Recurrence
