import Recurrence.Command.Run
import Recurrence.Settings.Load

/-!
The program: reads its settings and its arguments, and prints the occurrences of
a rule.
-/

namespace Recurrence

namespace Command

/-- What the program says when help is asked for. -/
def usage : String :=
  "Expand an iCalendar RRULE into its occurrences\n\n" ++
  "Usage: cadence [OPTIONS] --anchor <ANCHOR> <RULE>\n\n" ++
  "Arguments:\n" ++
  "  <RULE>  Recurrence rule value, e.g. \"FREQ=WEEKLY;BYDAY=MO,FR;COUNT=10\"\n\n" ++
  "Options:\n" ++
  "  -a, --anchor <ANCHOR>  First instance of the series (YYYYMMDD or YYYYMMDDTHHMMSS)\n" ++
  "  -s, --start <START>    Start of the window; defaults to the anchor\n" ++
  "  -e, --end <END>        End of the window; defaults to the configured window length\n" ++
  "      --date-only        Print dates without a time of day\n" ++
  "      --json             Print a JSON array instead of one date per line\n" ++
  "  -h, --help             Print help"

/-- The environment variables that are looked up: the groups of settings and the settings
themselves. **They cannot be listed here, only looked up**: names that lead into a setting, or
that are written in small letters, reach `Settings.load` from a file of variables but not from
the environment. -/
def settingNames : List String :=
  ["CADENCE_LOGGING", "CADENCE_EXPANSION", "CADENCE_LOGGING__LEVEL",
    "CADENCE_EXPANSION__DEFAULT_WINDOW_DAYS", "CADENCE_EXPANSION__OUTPUT"]

/-- The text of a file, if there is such a file. -/
def readFile? (name : String) : IO (Option String) := do
  try
    return some (← IO.FS.readFile name)
  catch _ =>
    return none

/-- The settings that are set where the program runs. -/
def readSettings : IO (Except SettingsError Settings) := do
  let mut environment := []
  for name in settingNames do
    if let some value ← IO.getEnv name then
      environment := environment ++ [(name, value)]
  let file ← readFile? ".env"
  let document ← readFile? "config.toml"
  return Settings.load environment (file.getD "") document

end Command

end Recurrence

open Recurrence

/-- Prints the occurrences of the rule on the command line. -/
def main (args : List String) : IO UInt32 := do
  match Command.Arguments.read args with
  | .error .help =>
    IO.println Command.usage
    return 0
  | .error e =>
    IO.eprintln ("error: " ++ e.message)
    return 2
  | .ok _ =>
    match ← Command.readSettings with
    | .error e =>
      IO.eprintln ("Error: " ++ e.message)
      return 1
    | .ok s =>
      match Command.run args s with
      | .error e =>
        IO.eprintln ("Error: " ++ e.message)
        return 1
      | .ok r =>
        IO.println r.output
        return 0
