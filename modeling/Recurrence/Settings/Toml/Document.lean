import Recurrence.Settings.Toml.Moment
import Recurrence.Settings.Toml.Numeral
import Recurrence.Settings.Toml.Outline
import Recurrence.Text.ByteOrder

/-!
# Settings documents

A settings document is a TOML text. A line opens a table, with its way between
square brackets, or one more table of a series, with its way between two of them,
or sets the value at a way in the open table, or is blank. Values are texts,
numbers, truth values, moments, lists and tables between braces. `read` gives the
tree of a document as the entries of a source.
-/

namespace Recurrence

namespace Toml

/-! ## Values -/

/-- Whether a character may stand in a value without quotes. -/
def isWordChar (c : Char) : Bool :=
  !Key.isSpace c && !isControl c && !"#,[]\x7b\x7d='\"".toList.contains c

/-- The value that a word writes. -/
def word? (cs : List Char) : Option Scalar :=
  if cs = "true".toList then some (.boolean true)
  else if cs = "false".toList then some (.boolean false)
  else
    match moment? cs with
    | some m => some (.text (String.ofList m))
    | none => numeral? cs

/-- Reads a value without quotes. **A date goes on after one space if digits
follow.** -/
def bare? (cs : List Char) : Option (Scalar × List Char) :=
  let word := cs.takeWhile isWordChar
  let rest := cs.dropWhile isWordChar
  match rest with
  | ' ' :: c :: cs =>
    if isDate word && c.isDigit then
      let time := (c :: cs).takeWhile isWordChar
      (word? (word ++ ' ' :: time)).map fun s => (s, (c :: cs).dropWhile isWordChar)
    else (word? word).map fun s => (s, rest)
  | _ => (word? word).map fun s => (s, rest)

/-- Reads a single value. -/
def scalar? (cs : List Char) : Option (Tree × List Char) :=
  match cs with
  | '"' :: _ | '\'' :: _ => (text? cs).map fun p => (.scalar (.text (String.ofList p.1)), p.2)
  | _ => (bare? cs).map fun p => (.scalar p.1, p.2)

/-- Reads at most `limit` values of a list, to its end. A comma stands after each
value, but not necessarily after the last. -/
def items? (value? : List Char → Option (Tree × List Char)) (limit : Nat) (cs : List Char) :
    Option (List Tree × List Char) :=
  match limit with
  | 0 => none
  | limit + 1 =>
    match skipLines false cs with
    | ']' :: cs => some ([], cs)
    | cs =>
      (value? cs).bind fun p =>
        match skipLines false p.2 with
        | ']' :: cs => some ([p.1], cs)
        | ',' :: cs => (items? value? limit cs).map fun q => (p.1 :: q.1, q.2)
        | _ => none

/-- Reads a way, an equals sign and a value, with gaps around the sign that `skip`
leaves out, and sets the value. -/
def assignment? (skip : List Char → List Char) (value? : List Char → Option (Tree × List Char))
    (o : Outline) (cs : List Char) : Option (Outline × List Char) := do
  let (path, cs) ← path? cs
  match skip cs with
  | '=' :: cs => do
    let (t, cs) ← value? (skip cs)
    let o ← o.setValue? path t
    return (o, cs)
  | _ => none

/-- Reads at most `limit` assignments of a table between braces, to its end. **An
assignment may go on in the next line, but its way may not.** -/
def fields? (value? : List Char → Option (Tree × List Char)) (limit : Nat) (o : Outline)
    (cs : List Char) : Option (Outline × List Char) :=
  match limit with
  | 0 => none
  | limit + 1 =>
    match skipLines false cs with
    | '\x7d' :: cs => some (o, cs)
    | cs =>
      (assignment? (skipLines false) value? o cs).bind fun p =>
        match skipLines false p.2 with
        | '\x7d' :: cs => some (p.1, cs)
        | ',' :: cs => fields? value? limit p.1 cs
        | _ => none

/-- Reads a value with at most `depth` lists and tables around each other. Each
value of a list and each assignment has a character at least, so that there are
no more of them than characters. -/
def valueWithin? (depth : Nat) (cs : List Char) : Option (Tree × List Char) :=
  match depth, cs with
  | depth + 1, '[' :: cs =>
    (items? (valueWithin? depth) (cs.length + 1) cs).map fun p => (.list p.1, p.2)
  | depth + 1, '\x7b' :: cs =>
    (fields? (valueWithin? depth) (cs.length + 1) {} cs).map fun p => (p.1.tree, p.2)
  | _, cs => scalar? cs

/-- Reads a value. **No more than 80 lists and tables stand around each other.** -/
def value? (cs : List Char) : Option (Tree × List Char) :=
  valueWithin? 80 cs

/-! ## Documents -/

/-- Reads what a line that is not blank begins with. -/
def statement? (o : Outline) (cs : List Char) : Option (Outline × List Char) :=
  match cs with
  | '[' :: '[' :: cs =>
    match path? cs with
    | some (path, ']' :: ']' :: rest) => (o.openSeries? path).map fun o => (o, rest)
    | _ => none
  | '[' :: cs =>
    match path? cs with
    | some (path, ']' :: rest) => (o.openTable? path).map fun o => (o, rest)
    | _ => none
  | cs => assignment? skip value? o cs

/-- Reads at most `limit` statements, to the end of the document. -/
def statements? (limit : Nat) (o : Outline) (cs : List Char) : Option Outline :=
  match limit with
  | 0 => none
  | limit + 1 =>
    match skipLines false cs with
    | [] => some o
    | cs => do
      let (o, rest) ← statement? o cs
      statements? limit o (← restOfLine? rest)

/-- The outline of a whole document. Each statement has a character at least, so
that there are no more of them than characters. -/
def outline? (cs : List Char) : Option Outline :=
  statements? (cs.length + 1) {} cs

/-- What a document says: its first names are keys, which may name a way of their
own. -/
def read (s : String) : Except SettingsError (List Entry) :=
  match outline? (Text.withoutMark s.toList) with
  | some o => .ok (o.tree.entries.map fun e => ⟨Key.path e.1.toList, e.2⟩)
  | none => .error .document

end Toml

end Recurrence
