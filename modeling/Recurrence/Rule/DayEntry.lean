import Recurrence.Calendar.Week
import Recurrence.ParseError
import Recurrence.Ranged

/-!
# Weekday entries

A weekday entry names a weekday, and with an ordinal **one of the days with that
name** in some span of time: `2MO` is the second Monday and `-1FR` the last
Friday. An ordinal that no span reaches is allowed; it names nothing.
-/

namespace Recurrence

/-- A weekday, or the one with a given ordinal. -/
structure DayEntry where
  /-- Which of the days with that name; negative ordinals count from the end. -/
  ordinal : Option SignedWord
  /-- The weekday. -/
  weekday : Weekday
deriving DecidableEq

namespace DayEntry

/-- The text of an entry: the ordinal, if there is one, and the weekday. -/
def chars (e : DayEntry) : List Char :=
  (e.ordinal.map Ranged.chars).getD [] ++ e.weekday.name.toList

/-- The text of an entry. -/
def text (e : DayEntry) : String :=
  String.ofList e.chars

/-- Reads an entry: **the last two characters are the weekday**, and what stands
before them, if anything, the ordinal. -/
def read (cs : List Char) : Except ParseError DayEntry :=
  let split := cs.length - 2
  match Weekday.ofName? (cs.drop split) with
  | none => .error (.weekday (String.ofList cs))
  | some weekday =>
    match cs.take split with
    | [] => .ok ⟨none, weekday⟩
    | digits =>
      match Ranged.read? digits with
      | none => .error (.integer (String.ofList cs))
      | some n => .ok ⟨some n, weekday⟩

end DayEntry

end Recurrence
