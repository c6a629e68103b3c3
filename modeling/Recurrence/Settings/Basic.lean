import Recurrence.Ranged
import Recurrence.Text.Blank

/-!
# Settings

The settings of the program, their values when nothing else is said, and the two
conditions on them: the default window is not empty and the level has a name.
-/

namespace Recurrence

/-- How occurrences are written. -/
inductive OutputFormat where
  /-- One literal per line. -/
  | text
  /-- One array of literals. -/
  | json
deriving DecidableEq

namespace OutputFormat

/-- The formats there are. -/
def all : List OutputFormat := [text, json]

/-- The name of a format. -/
def name : OutputFormat → String
  | text => "text"
  | json => "json"

end OutputFormat

/-- The settings of the program. -/
structure Settings where
  /-- How much is logged. -/
  level : String := "info"
  /-- The days in a window whose end is not given. -/
  windowDays : Word := ⟨365, by decide, by decide⟩
  /-- How occurrences are written. -/
  output : OutputFormat := .text
deriving DecidableEq

/-- Why settings cannot be used. -/
inductive SettingsError where
  /-- The document is malformed. -/
  | document
  /-- The setting at a path has no value of its type. -/
  | mistyped (path : List String)
  /-- The default window has no days. -/
  | emptyWindow
  /-- The level has no name. -/
  | blankLevel
deriving DecidableEq

/-- The message for a reader. -/
def SettingsError.message : SettingsError → String
  | document => "Configuration error: the document is malformed"
  | mistyped path => "Configuration error: invalid value for " ++ String.intercalate "." path
  | emptyWindow => "Configuration error: expansion.default_window_days must be at least 1"
  | blankLevel => "Configuration error: logging.level must not be empty"

namespace Settings

/-- The settings can be used. -/
structure Valid (s : Settings) : Prop where
  /-- The default window has a day. -/
  windowDays_pos : 1 ≤ s.windowDays.val
  /-- The level has a name. -/
  level_named : Text.isBlankText s.level.toList = false

/-- The settings themselves, or what is wrong with them; **the window is looked
at first.** -/
def validate (s : Settings) : Except SettingsError Settings :=
  if s.windowDays.val < 1 then .error .emptyWindow
  else if Text.isBlankText s.level.toList then .error .blankLevel
  else .ok s

/-- **Exactly the settings that can be used pass**, and they pass unchanged. -/
theorem validate_eq_ok_iff {s t : Settings} : s.validate = .ok t ↔ t = s ∧ s.Valid := by
  unfold validate
  constructor
  · intro h
    split at h
    · cases h
    · split at h
      · cases h
      · next hw hl => cases h; exact ⟨rfl, by omega, by simpa using hl⟩
  · rintro ⟨rfl, hw, hl⟩
    rw [if_neg (by omega), if_neg (by simp [hl])]

end Settings

end Recurrence
