import Recurrence.Rule.PartName
import Recurrence.Text.Decimal

/-!
# What can be wrong with a text

A text is refused for one fault, and the error names the faulty piece as it
stands in the text; a number outside its range is named together with its part.
-/

namespace Recurrence

/-- Why a rule or a date literal is refused. -/
inductive ParseError where
  /-- A part of a rule has no `=`. -/
  | part (token : String)
  /-- The text names no frequency. -/
  | frequency (token : String)
  /-- The text names no weekday. -/
  | weekday (token : String)
  /-- The text is no whole number, or one that is too large for its place. -/
  | integer (token : String)
  /-- The number has no meaning for its part. -/
  | outOfRange (name : PartName) (value : Int)
  /-- The text is neither a date nor a date with a time. -/
  | endsAt (token : String)
  /-- The text is no date. -/
  | date (token : String)
  /-- The text is no date with a time. -/
  | dateTime (token : String)
deriving DecidableEq

namespace ParseError

/-- What is wrong, in words. -/
def reason : ParseError → String
  | part _ => "invalid recurrence rule part"
  | frequency _ => "invalid frequency"
  | weekday _ => "invalid weekday"
  | integer _ => "invalid integer"
  | outOfRange _ _ => "value out of range"
  | endsAt _ => "invalid UNTIL value"
  | date _ => "invalid date format"
  | dateTime _ => "invalid date-time format"

/-- The faulty piece of the text. -/
def token : ParseError → String
  | part t | frequency t | weekday t | integer t | endsAt t | date t | dateTime t => t
  | outOfRange name value => name.text ++ "=" ++ String.ofList (Text.integer value)

/-- The message for a reader: what is wrong, and with what. -/
def message (e : ParseError) : String :=
  e.reason ++ " \x60" ++ e.token ++ "\x60"

end ParseError

end Recurrence
