import Recurrence.Settings.Toml.Text

/-!
# Numerals of a settings document

Integers to base 10, 16, 8 and 2, and numbers with a fraction or an exponent.
Underscores may stand between digits. **A number must be one that a 64-bit integer
or double precision can hold**; only the word `inf` writes an infinite one.
-/

namespace Recurrence

namespace Toml

/-- A number without the underscores between its digits. An underscore must have
a digit on both sides. -/
def withoutUnderscores? (isDigit : Char → Bool) : List Char → Option (List Char)
  | c :: '_' :: d :: cs =>
    if isDigit c && isDigit d then (withoutUnderscores? isDigit (d :: cs)).map (c :: ·) else none
  | c :: cs => if c == '_' then none else (withoutUnderscores? isDigit cs).map (c :: ·)
  | [] => some []

/-- Whether digits begin with a zero that they do not need. -/
def hasLeadingZero (ds : List Char) : Bool :=
  ds.head? == some '0' && ds.length != 1

/-- The integer of 64 bits with a value. -/
def integer? (n : Int) : Option Scalar :=
  (Ranged.ofInt? n : Option SignedLong).map fun n => .integer n.val

/-- The number that a decimal text writes, if it is not too large. -/
def real? (negative : Bool) (cs : List Char) : Option Scalar :=
  match Double.readUnsigned? negative cs with
  | some (.infinite _) | none => none
  | some x => some (.real x)

/-- Reads a decimal integer or a number with a fraction or an exponent. -/
def decimal? (negative : Bool) (cs : List Char) : Option Scalar :=
  let isMark (c : Char) : Bool := c == '.' || c == 'e' || c == 'E'
  let whole := cs.takeWhile fun c => !isMark c
  if hasLeadingZero whole then none
  else
    match Text.natural? whole, cs.dropWhile fun c => !isMark c with
    | none, _ => none
    | some n, [] => integer? (if negative then -(n : Int) else n)
    | some _, '.' :: fraction =>
      if (fraction.head?.map Char.isDigit).getD false then real? negative cs else none
    | some _, _ => real? negative cs

/-- Reads a decimal number or the name of a value that is none. -/
def unsigned? (negative : Bool) (cs : List Char) : Option Scalar :=
  if cs = "inf".toList then some (.real (.infinite negative))
  else if cs = "nan".toList then some (.real .nan)
  else (withoutUnderscores? Char.isDigit cs).bind (decimal? negative)

/-- Reads the digits of an integer to a base. -/
def based? (base : Nat) (cs : List Char) : Option Scalar := do
  let ds ← withoutUnderscores? (fun c => (hexDigit? c).isSome) cs
  let n ← number? base ds
  integer? n

/-- Reads a number. -/
def numeral? (cs : List Char) : Option Scalar :=
  match cs with
  | '0' :: 'x' :: ds => based? 16 ds
  | '0' :: 'o' :: ds => based? 8 ds
  | '0' :: 'b' :: ds => based? 2 ds
  | '+' :: ds => unsigned? false ds
  | '-' :: ds => unsigned? true ds
  | ds => unsigned? false ds

end Toml

end Recurrence
