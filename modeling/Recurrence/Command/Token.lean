import Recurrence.Text.Cut

/-!
# Words of the command line

A word of the command line names an option or a flag, asks for help, ends the
options, or is a value. Options and flags begin with a hyphen; **a hyphen alone is
a value.** An option has a long name after two hyphens and a short one after one,
and its value may stand in the same word.
-/

namespace Recurrence

namespace Command

/-- What a value on the command line is for. -/
inductive Slot where
  | rule
  | anchor
  | start
  | finish
deriving DecidableEq

/-- What can be switched on. -/
inductive Flag where
  /-- Dates are written without a time. -/
  | dateOnly
  /-- The output is an array. -/
  | json
deriving DecidableEq

/-- The meaning of one word of the command line. -/
inductive Token where
  /-- An option, with its value if the word has one. -/
  | option (slot : Slot) (value : Option String)
  /-- A flag. -/
  | flag (f : Flag)
  /-- A flag with a value, which no flag takes. -/
  | flagWithValue
  /-- A request for help. -/
  | help
  /-- An unknown option. -/
  | unknown
  /-- The end of the options. -/
  | endOfOptions
  /-- A value. -/
  | value (s : String)
deriving DecidableEq

namespace Token

/-- The option or flag with a long name. -/
def ofLongName (name : List Char) (value : Option String) : Token :=
  if name = "anchor".toList then option .anchor value
  else if name = "start".toList then option .start value
  else if name = "end".toList then option .finish value
  else
    let flagged (t : Token) : Token := if value.isSome then flagWithValue else t
    if name = "date-only".toList then flagged (flag .dateOnly)
    else if name = "json".toList then flagged (flag .json)
    else if name = "help".toList then flagged help
    else unknown

/-- The option with a short name and the characters after it, from which an equals
sign before the value is dropped. -/
def ofShortName (name : Char) (rest : List Char) : Token :=
  let value := match rest with
    | [] => none
    | '=' :: cs => some (String.ofList cs)
    | cs => some (String.ofList cs)
  if name = 'a' then option .anchor value
  else if name = 's' then option .start value
  else if name = 'e' then option .finish value
  else if name = 'h' then help
  else unknown

/-- The meaning of a word. -/
def ofWord (s : String) : Token :=
  match s.toList with
  | ['-', '-'] => endOfOptions
  | '-' :: '-' :: cs =>
    match Text.cut? '=' cs with
    | some (name, text) => ofLongName name (some (String.ofList text))
    | none => ofLongName cs none
  | '-' :: c :: cs => ofShortName c cs
  | _ => value s

end Token

end Command

end Recurrence
