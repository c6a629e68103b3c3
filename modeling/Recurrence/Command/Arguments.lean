import Recurrence.Command.Token
import Recurrence.Rule.Basic

/-!
# Arguments

The arguments of the command line: one rule, an anchor, and what narrows the
answer. Words are taken from left to right, and **the value of an option waits**:
it is read when the next option, flag or rule begins, or when the words end. What
is unknown is refused at once, and a fault of a value that waits then goes
unnoticed.
-/

namespace Recurrence

namespace Command

/-- The arguments of the program. -/
structure Arguments where
  /-- The rule. -/
  rule : Rule
  /-- The first instant of the rule. -/
  anchor : DateValue
  /-- The beginning of the window. -/
  start : Option DateValue
  /-- The end of the window. -/
  finish : Option DateValue
  /-- Dates are written without a time. -/
  dateOnly : Bool
  /-- The output is an array. -/
  json : Bool

/-- Why the arguments are refused, or not even needed. -/
inductive ArgumentError where
  /-- A value cannot be read. -/
  | badValue (e : ParseError)
  /-- An option stands without its value. -/
  | noValue
  /-- An option or a flag stands twice. -/
  | repeated
  /-- An option is unknown, or a value is left over. -/
  | unknown
  /-- A flag stands with a value. -/
  | unwantedValue
  /-- The rule or the anchor is missing. -/
  | missing
  /-- Help is asked for. -/
  | help
deriving DecidableEq

/-- The message for a reader. -/
def ArgumentError.message : ArgumentError → String
  | badValue e => "invalid value: " ++ e.message
  | noValue => "a value is required for an option"
  | repeated => "an option or flag cannot be used twice"
  | unknown => "unexpected argument"
  | unwantedValue => "a flag takes no value"
  | missing => "a rule and an anchor are required"
  | help => "help"

/-- The arguments that have been read so far. -/
structure Gathered where
  /-- The rule. -/
  rule : Option Rule := none
  /-- The first instant of the rule. -/
  anchor : Option DateValue := none
  /-- The beginning of the window. -/
  start : Option DateValue := none
  /-- The end of the window. -/
  finish : Option DateValue := none
  /-- Dates are written without a time. -/
  dateOnly : Bool := false
  /-- The output is an array. -/
  json : Bool := false

/-- A value that waits, or an option that waits for its value. -/
structure Waiting where
  /-- What the value is for. -/
  slot : Slot
  /-- The value. -/
  value : Option String

namespace Gathered

/-- Whether the value for a slot has been read. -/
def has (g : Gathered) : Slot → Bool
  | .rule => g.rule.isSome
  | .anchor => g.anchor.isSome
  | .start => g.start.isSome
  | .finish => g.finish.isSome

/-- The result of reading a value, its fault being one of the arguments. -/
def checked {α : Type} : Except ParseError α → Except ArgumentError α
  | .ok a => .ok a
  | .error e => .error (.badValue e)

/-- Reads the value for a slot. **A slot is filled once**; a second value is not
even read. -/
def fill (g : Gathered) (slot : Slot) (value : String) : Except ArgumentError Gathered :=
  if g.has slot then .error .repeated
  else
    match slot with
    | .rule => (checked (Rule.parse value)).map fun r => { g with rule := some r }
    | .anchor => (checked (DateValue.parse value)).map fun v => { g with anchor := some v }
    | .start => (checked (DateValue.parse value)).map fun v => { g with start := some v }
    | .finish => (checked (DateValue.parse value)).map fun v => { g with finish := some v }

/-- Reads the value that waits. -/
def settle (g : Gathered) : Option Waiting → Except ArgumentError Gathered
  | none => .ok g
  | some ⟨_, none⟩ => .error .noValue
  | some ⟨slot, some value⟩ => g.fill slot value

/-- Switches a flag on, once. -/
def raise (g : Gathered) : Flag → Except ArgumentError Gathered
  | .dateOnly => if g.dateOnly then .error .repeated else .ok { g with dateOnly := true }
  | .json => if g.json then .error .repeated else .ok { g with json := true }

/-- Whether the rule has been read or waits. -/
def hasRule (g : Gathered) (w : Option Waiting) : Bool :=
  g.rule.isSome || (w.map Waiting.slot) == some .rule

/-- The rule waits, after what waited before it has been read. -/
def await (g : Gathered) (w : Option Waiting) (value : String) :
    Except ArgumentError (Gathered × Option Waiting) :=
  if g.hasRule w then .error .unknown
  else (g.settle w).map fun g => (g, some ⟨.rule, some value⟩)

/-- Takes words that are all values. -/
def operands (g : Gathered) (w : Option Waiting) :
    List String → Except ArgumentError Gathered
  | [] => g.settle w
  | word :: words =>
    match g.await w word with
    | .error e => .error e
    | .ok (g, w) => g.operands w words

/-- Takes one word that is not the end of the options. -/
def take (g : Gathered) (w : Option Waiting) :
    Token → Except ArgumentError (Gathered × Option Waiting)
  | .option slot (some value) => do
    let g ← g.settle w
    let g ← g.fill slot value
    return (g, none)
  | .option slot none => do
    let g ← g.settle w
    return (g, some ⟨slot, none⟩)
  | .flag f => do
    let g ← g.settle w
    let g ← g.raise f
    return (g, none)
  | .help => do
    -- A fault of the value that waits comes before the help.
    let _ ← g.settle w
    throw .help
  | .flagWithValue => .error .unwantedValue
  | .unknown => .error .unknown
  | .endOfOptions => .ok (g, w)
  | .value s =>
    match w with
    | some ⟨slot, none⟩ => .ok (g, some ⟨slot, some s⟩)
    | _ => g.await w s

/-- Takes words. -/
def words (g : Gathered) (w : Option Waiting) : List String → Except ArgumentError Gathered
  | [] => g.settle w
  | word :: rest =>
    match Token.ofWord word with
    | .endOfOptions => g.operands w rest
    | t =>
      match g.take w t with
      | .error e => .error e
      | .ok (g, w) => g.words w rest

/-- The arguments, if none is missing. -/
def finished (g : Gathered) : Except ArgumentError Arguments :=
  match g.rule, g.anchor with
  | some rule, some anchor => .ok ⟨rule, anchor, g.start, g.finish, g.dateOnly, g.json⟩
  | _, _ => .error .missing

end Gathered

/-- Reads the words of the command line. -/
def Arguments.read (words : List String) : Except ArgumentError Arguments := do
  let g ← Gathered.words {} none words
  g.finished

end Command

end Recurrence
