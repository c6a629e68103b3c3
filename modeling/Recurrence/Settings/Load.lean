import Recurrence.Settings.Dotenv
import Recurrence.Settings.Member
import Recurrence.Settings.Toml.Document

/-!
# Loading settings

Settings come from three sources: the default values, the variables of the
environment and a settings document. The variables and the document are laid over
each other first, and then over the default values, so that **each setting is
taken from the last source that has it**; whether it has the right type, and
whether the settings can be used, is looked at only then.
-/

namespace Recurrence

namespace Settings

/-- The group of settings on logging. -/
def logging : Member := ⟨"logging", 0⟩

/-- The group of settings on expansion. -/
def expansion : Member := ⟨"expansion", 1⟩

/-- Where the level stands. -/
def levelPath : List Member := [logging, ⟨"level", 0⟩]

/-- Where the days of the default window stand. -/
def windowDaysPath : List Member := [expansion, ⟨"default_window_days", 0⟩]

/-- Where the output format stands. -/
def outputPath : List Member := [expansion, ⟨"output", 1⟩]

/-- What settings say about one of them. -/
def entry (ms : List Member) (s : Scalar) : Entry :=
  ⟨ms.map fun m => .name m.name, .scalar s⟩

/-- What settings say. -/
def entries (s : Settings) : List Entry :=
  [entry levelPath (.text s.level), entry windowDaysPath (.integer s.windowDays.val),
    entry outputPath (.text s.output.name)]

/-- The tree of the default values. -/
def defaults : Tree :=
  Tree.empty.overlay ({} : Settings).entries

/-- The settings in a tree, if each has a value of its type. -/
def ofTree (t : Tree) : Except SettingsError Settings := do
  let level ← t.textAt levelPath
  let windowDays ← t.countAt windowDaysPath
  let output ← t.formatAt outputPath
  return { level, windowDays, output }

/-- The settings that sources say, laid over each other in order and then over the
default values. -/
def ofSources (sources : List (List Entry)) : Except SettingsError Settings := do
  let s ← ofTree (defaults.merge (sources.foldl Tree.overlay .empty))
  s.validate

/-- The settings of a document. -/
def ofDocument (document : String) : Except SettingsError Settings := do
  ofSources [← Toml.read document]

/-- The settings of the program: the environment, completed by a file of
variables, and over it a settings document, if there is one. **The order of the
environment is that of the list**: an environment has none of its own, so that the
list stands for any one in which its variables may happen to be read. It matters
only where two of them exclude each other: where they name one setting in different
letters, or one names what the way of the other leads through. -/
def load (environment : Variables) (file : String) (document : Option String) :
    Except SettingsError Settings := do
  let completed := Dotenv.complete environment file
  let written ← match document with
    | some d => Toml.read (String.ofList (Text.withoutMark d.toList))
    | none => pure []
  ofSources [Environment.entries completed, written]

end Settings

end Recurrence
