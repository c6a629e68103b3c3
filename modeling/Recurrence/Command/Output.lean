import Recurrence.Settings.Basic
import Recurrence.Value.DateList

/-!
# Output

Occurrences are written as literals, one per line or as an array of quoted
literals. A literal has digits, signs and letters only, so that it needs no
escapes.
-/

namespace Recurrence

namespace OutputFormat

/-- Literals, one per line, with no line break after the last. -/
def lines (l : DateList) : List Char :=
  ['\n'].intercalate (l.dates.map DateValue.chars)

/-- Literals in double quotes, with commas between them, in square brackets. -/
def array (l : DateList) : List Char :=
  '[' :: [','].intercalate (l.dates.map fun v => '"' :: v.chars ++ ['"']) ++ [']']

/-- The occurrences in a format. -/
def render (f : OutputFormat) (l : DateList) : String :=
  match f with
  | text => String.ofList (lines l)
  | json => String.ofList (array l)

end OutputFormat

end Recurrence
