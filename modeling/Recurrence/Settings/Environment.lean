import Recurrence.Settings.Key

/-!
# Settings from the environment

An environment variable whose name begins with `CADENCE_` names a setting by the
rest of its name, with two underscores between the names of a way. Case does
not matter in names, and **a variable without a text counts as not set.**
-/

namespace Recurrence

/-- The variables of an environment with their texts, in order. -/
abbrev Variables := List (String × String)

namespace Environment

/-- How the names of variables with settings begin. -/
def opening : List Char :=
  "cadence_".toList

/-- The small letter of a character; of the letters beyond ASCII only the Kelvin
sign has one in ASCII. -/
def lower (c : Char) : Char :=
  if c == '\u212a' then 'k' else c.toLower

/-- A name with a point for each two underscores, from the left. -/
def pointed : List Char → List Char
  | '_' :: '_' :: cs => '.' :: pointed cs
  | c :: cs => c :: pointed cs
  | [] => []

/-- The way that the name of a variable names, if it names a setting. -/
def path? (name : String) : Option (List Step) :=
  let cs := name.toList.map lower
  if opening.isPrefixOf cs then some (Key.path (pointed (cs.drop opening.length))) else none

/-- What a variable says, if it has a text and names a setting. -/
def entry? (v : String × String) : Option Entry :=
  if v.2.isEmpty then none
  else (path? v.1).map fun path => ⟨path, .scalar (.ofBareText v.2)⟩

/-- What the variables say, in the order of the list. Variables are kept without an
order in the environment itself; of two that exclude each other, the later one in
the list counts here. -/
def entries (vars : Variables) : List Entry :=
  vars.filterMap entry?

end Environment

end Recurrence
