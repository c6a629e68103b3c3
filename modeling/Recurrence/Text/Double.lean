import Recurrence.Text.Decimal

/-!
# Numbers of double precision

A `Double` is a number `m · 2 ^ q` with at most 53 binary digits in `m`, or one
of the values beyond all numbers. A decimal text is read as **the nearest such
number**, of two equally near ones the one with an even `m`. A number is written
with **the fewest digits that read back as the same number**, without an
exponent.
-/

namespace Recurrence

/-- A number of double precision. -/
inductive Double where
  /-- The number `m · 2 ^ q`, or its negative. -/
  | finite (negative : Bool) (m : Nat) (q : Int)
  /-- A value larger than all numbers, or its negative. -/
  | infinite (negative : Bool)
  /-- No number. -/
  | nan
deriving DecidableEq

namespace Double

/-- The quotient of two numbers rounded to the nearest whole number, a half to
the even one. -/
def roundEven (num den : Nat) : Nat :=
  let quotient := num / den
  let twice := 2 * (num % den)
  if twice < den || (twice == den && quotient % 2 == 0) then quotient else quotient + 1

/-- The quotient `num / den` divided by `2 ^ q`, as a fraction. -/
def scaled (num den : Nat) (q : Int) : Nat × Nat :=
  if q < 0 then (num * Nat.pow 2 (-q).toNat, den) else (num, den * Nat.pow 2 q.toNat)

/-- The exponent `q` with which `num / den` has 53 binary digits before the
point, or the least exponent there is. -/
def exponentOf (num den : Nat) : Int :=
  -- The logarithms are rounded down, so the guess is right or one too small.
  let guess := max ((num.log2 : Int) - den.log2 - 53) (-1074)
  let (n, d) := scaled num den guess
  if n / d < Nat.pow 2 53 then guess else guess + 1

/-- The number nearest to a fraction. -/
def nearest (negative : Bool) (num den : Nat) : Double :=
  if num == 0 then finite negative 0 (-1074)
  else
    let q := exponentOf num den
    let (n, d) := scaled num den q
    let m := roundEven n d
    let (m, q) := if m == Nat.pow 2 53 then (Nat.pow 2 52, q + 1) else (m, q)
    if 971 < q then infinite negative else finite negative m q

/-- The number nearest to `digits · 10 ^ exponent`. A number of this size is
beyond all others or nearer to zero when the exponent is far out. -/
def ofDecimal (negative : Bool) (digits : Nat) (exponent : Int) : Double :=
  let size := (Text.digits digits).length + exponent
  if digits == 0 || size < -400 then finite negative 0 (-1074)
  else if 400 < size then infinite negative
  else if exponent < 0 then nearest negative digits (Nat.pow 10 (-exponent).toNat)
  else nearest negative (digits * Nat.pow 10 exponent.toNat) 1

/-- Reads an exponent: a sign, which may be missing, and digits. -/
def readExponent? (cs : List Char) : Option Int :=
  match cs with
  | '+' :: ds => (Text.natural? ds).map fun n => (n : Int)
  | '-' :: ds => (Text.natural? ds).map fun n => -(n : Int)
  | ds => (Text.natural? ds).map fun n => (n : Int)

/-- Reads digits with a point, of which one side may be missing, and an exponent,
which may be missing. -/
def readUnsigned? (negative : Bool) (cs : List Char) : Option Double :=
  let isMark (c : Char) : Bool := c == 'e' || c == 'E'
  let number := cs.takeWhile fun c => !isMark c
  let whole := number.takeWhile (· != '.')
  let fraction := (number.dropWhile (· != '.')).drop 1
  let exponent? := match cs.dropWhile fun c => !isMark c with
    | [] => some 0
    | _ :: ds => readExponent? ds
  match Text.natural? (whole ++ fraction), exponent? with
  | some digits, some exponent => some (ofDecimal negative digits (exponent - fraction.length))
  | _, _ => none

/-- Reads a number, or the name of a value that is none, in any case. -/
def read? (cs : List Char) : Option Double :=
  let unsigned (negative : Bool) (cs : List Char) : Option Double :=
    let name := String.ofList (cs.map Char.toLower)
    if name == "inf" || name == "infinity" then some (infinite negative)
    else if name == "nan" then some nan
    else readUnsigned? negative cs
  match cs with
  | '+' :: ds => unsigned false ds
  | '-' :: ds => unsigned true ds
  | ds => unsigned false ds

/-- The number `m · 2 ^ q` as a fraction. -/
def fraction (m : Nat) (q : Int) : Nat × Nat :=
  scaled m 1 (-q)

/-- A decimal number `digits · 10 ^ place` that reads as `m · 2 ^ q`, if one of
the two around it does; of two, the nearer, and of two equally near ones the
larger. -/
def atPlace? (m : Nat) (q place : Int) : Option (Nat × Int) :=
  let (num, den) := fraction m q
  let (num, den) := if place < 0 then (num * Nat.pow 10 (-place).toNat, den)
    else (num, den * Nat.pow 10 place.toNat)
  let below := num / den
  let reads (digits : Nat) : Bool := ofDecimal false digits place == finite false m q
  -- Zero digits write no number, so `below` stands for one only when it is not zero.
  let nearer := if 2 * (num % den) < den then below else below + 1
  if below != 0 && nearer == below && reads below then some (below, place)
  else if reads (below + 1) then some (below + 1, place)
  else if below != 0 && reads below then some (below, place)
  else none

/-- The decimal number with the fewest digits that reads as `m · 2 ^ q`. -/
def shortest (m : Nat) (q : Int) : Nat × Int :=
  -- No number has a digit above place 308, and 17 digits below the first are enough.
  ((List.range 700).findSome? fun (i : Nat) => atPlace? m q (320 - (i : Int))).getD (0, 0)

/-- The text of a number without an exponent. -/
def positional (digits : Nat) (place : Int) : List Char :=
  let ds := Text.digits digits
  if 0 ≤ place then ds ++ List.replicate place.toNat '0'
  else
    let count := (-place).toNat
    let ds := ds.leftpad (count + 1) '0'
    ds.take (ds.length - count) ++ '.' :: ds.drop (ds.length - count)

/-- The text of a number. -/
def chars : Double → List Char
  | nan => "NaN".toList
  | infinite negative => (if negative then ['-'] else []) ++ "inf".toList
  | finite negative m q =>
    (if negative then ['-'] else []) ++
      if m == 0 then ['0']
      else
        let (digits, place) := shortest m q
        positional digits place

/-- The nearest natural number, a half to the larger one. A negative number has
zero, and **no number has zero too**; a value beyond all numbers has none. -/
def toNat? : Double → Option Nat
  | nan => some 0
  | infinite negative => if negative then some 0 else none
  | finite negative m q =>
    let (num, den) := fraction m q
    some (if negative then 0 else (2 * num + den) / (2 * den))

end Double

end Recurrence
