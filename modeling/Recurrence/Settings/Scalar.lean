import Recurrence.Settings.Basic
import Recurrence.Text.Double

/-!
# Single values

A source of settings gives single values: texts, integers, truth values and
numbers with a fraction. The program asks for a text, a number of days or a
format, and a value of another type is converted where that makes sense.
-/

namespace Recurrence

/-- A single value. -/
inductive Scalar where
  | text (s : String)
  | integer (n : Int)
  | boolean (b : Bool)
  | real (x : Double)
deriving DecidableEq

namespace Scalar

/-- The value as a text. -/
def asText : Scalar → String
  | text s => s
  | integer n => String.ofList (Text.integer n)
  | boolean b => if b then "true" else "false"
  | real x => String.ofList x.chars

/-- The number that a text stands for: one for an affirmation and zero for a
denial, and else what it writes. -/
def countOfText? (s : String) : Option Word :=
  let word := String.ofList (s.toList.map Char.toLower)
  if word == "true" || word == "on" || word == "yes" then Ranged.ofInt? 1
  else if word == "false" || word == "off" || word == "no" then Ranged.ofInt? 0
  else Ranged.read? s.toList

/-- The value as a number of days; a fraction is rounded. -/
def asCount? : Scalar → Option Word
  | text s => countOfText? s
  | integer n => Ranged.ofInt? n
  | boolean b => Ranged.ofInt? (if b then 1 else 0)
  | real x => x.toNat?.bind fun n => Ranged.ofInt? n

/-- The value that a bare text stands for: a truth value, an integer of 64 bits
or a number if it reads as one, in this order, and else the text. -/
def ofBareText (s : String) : Scalar :=
  let word := String.ofList (s.toList.map Char.toLower)
  if word == "true" then boolean true
  else if word == "false" then boolean false
  else
    match (Ranged.read? s.toList : Option SignedLong) with
    | some n => integer n.val
    | none =>
      match Double.read? s.toList with
      | some x => real x
      | none => text s

end Scalar

/-- The format with a name, which must be written as it is. -/
def OutputFormat.ofName? (s : String) : Option OutputFormat :=
  all.find? fun f => f.name == s

end Recurrence
