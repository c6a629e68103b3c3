import Recurrence.Calendar.Month
import Recurrence.Text.Decimal

/-!
# Dates and times of a settings document

A date is written `YYYY-MM-DD`, a time of day `HH:MM`, with seconds and a fraction
of them if needed, and a date may have a time, with an offset from universal time
or not. Such a moment is a single value, and the program takes it as a text:
**reading gives its one written form**, with the letters `T` and `Z` and without
zeros at the end of a fraction.
-/

namespace Recurrence

namespace Toml

/-- Reads a number of so many digits between two bounds, and gives its digits. -/
def fixed? (width low high : Nat) (cs : List Char) : Option (List Char × List Char) :=
  (Text.natural? (cs.take width)).bind fun n =>
    if width ≤ cs.length && low ≤ n && n ≤ high then some (cs.take width, cs.drop width) else none

/-- The text after a sign that must come first. -/
def after? (sign : Char) (cs : List Char) : Option (List Char) :=
  match cs with
  | c :: cs => if c = sign then some cs else none
  | [] => none

/-- Reads the date of a day that exists. -/
def date? (cs : List Char) : Option (List Char × List Char) := do
  let (y, cs) ← fixed? 4 0 9999 cs
  let (m, cs) ← fixed? 2 1 12 (← after? '-' cs)
  let leap := Calendar.isLeap ((Text.natural? y).getD 0)
  let (d, cs) ← fixed? 2 1 (Calendar.monthLength leap ((Text.natural? m).getD 0)) (← after? '-' cs)
  return (y ++ '-' :: m ++ '-' :: d, cs)

/-- Nine digits of a fraction, without the zeros at their end but one. -/
def fraction (ds : List Char) : List Char :=
  let ds := ((ds.take 9).reverse.dropWhile (· == '0')).reverse
  if ds.isEmpty then ['0'] else ds

/-- Reads the fraction of a second, if there is one. -/
def fraction? (cs : List Char) : Option (List Char × List Char) :=
  match cs with
  | '.' :: cs =>
    let ds := cs.takeWhile Char.isDigit
    if ds.isEmpty then none else some ('.' :: fraction ds, cs.dropWhile Char.isDigit)
  | _ => some ([], cs)

/-- Reads seconds, if there are any; a minute may have one more than 60. -/
def seconds? (cs : List Char) : Option (List Char × List Char) :=
  match cs with
  | ':' :: cs => do
    let (s, cs) ← fixed? 2 0 60 cs
    let (f, cs) ← fraction? cs
    return (':' :: s ++ f, cs)
  | _ => some ([], cs)

/-- Reads a time of day. -/
def time? (cs : List Char) : Option (List Char × List Char) := do
  let (h, cs) ← fixed? 2 0 23 cs
  let (m, cs) ← fixed? 2 0 59 (← after? ':' cs)
  let (s, cs) ← seconds? cs
  return (h ++ ':' :: m ++ s, cs)

/-- Reads an offset from universal time, if there is one; no offset has a minus
sign. -/
def offset? (cs : List Char) : Option (List Char) :=
  match cs with
  | [] => some []
  | ['Z'] | ['z'] => some ['Z']
  | sign :: cs =>
    if sign = '+' ∨ sign = '-' then do
      let (h, cs) ← fixed? 2 0 23 cs
      let (m, cs) ← fixed? 2 0 59 (← after? ':' cs)
      let sign := if (h ++ m).all (· == '0') then '+' else sign
      if cs.isEmpty then some (sign :: h ++ ':' :: m) else none
    else none

/-- Reads a date, a time of day or a date with a time. -/
def moment? (cs : List Char) : Option (List Char) :=
  match date? cs with
  | some (d, []) => some d
  | some (d, c :: cs) =>
    if c = 'T' ∨ c = 't' ∨ c = ' ' then do
      let (t, cs) ← time? cs
      let offset ← offset? cs
      return d ++ 'T' :: t ++ offset
    else none
  | none =>
    match time? cs with
    | some (t, []) => some t
    | _ => none

/-- Whether a text is a date and nothing else. -/
def isDate (cs : List Char) : Bool :=
  match date? cs with
  | some (_, []) => true
  | _ => false

end Toml

end Recurrence
