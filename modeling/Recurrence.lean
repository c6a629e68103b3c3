import Recurrence.Command.Run
import Recurrence.Expansion.Occurrences
import Recurrence.Main
import Recurrence.Rule.Edit
import Recurrence.Settings.Load
import Recurrence.Proofs.Calendar.Fields
import Recurrence.Proofs.Calendar.WeekYear
import Recurrence.Proofs.Expansion.Confined
import Recurrence.Proofs.Expansion.Lattice
import Recurrence.Proofs.Expansion.Paging
import Recurrence.Proofs.Expansion.WeekYears
import Recurrence.Proofs.Expansion.Windows
import Recurrence.Proofs.Rule.Part
import Recurrence.Proofs.Rule.RoundTrip
import Recurrence.Proofs.Expansion.Entries
import Recurrence.Proofs.Expansion.Chronology
import Recurrence.Proofs.Expansion.Steps
import Recurrence.Proofs.Value.Grammar
import Recurrence.Proofs.Rule.Grammar
import Recurrence.Proofs.Rule.LastValues
import Recurrence.Proofs.Expansion.Canonical
import Recurrence.Proofs.Expansion.Bounds
import Recurrence.Proofs.Value.Exact
import Recurrence.Proofs.Text.Strings
import Recurrence.Proofs.Command.Arguments
import Recurrence.Proofs.Command.ReadBack
import Recurrence.Proofs.Expansion.Endings
import Recurrence.Proofs.Expansion.Positions
import Recurrence.Proofs.Rule.Edits
import Recurrence.Proofs.Expansion.Intervals
import Recurrence.Proofs.Expansion.Anchors
import Recurrence.Proofs.Expansion.Rearranging
import Recurrence.Proofs.Expansion.Weekdays
import Recurrence.Proofs.Expansion.Lateness
import Recurrence.Proofs.Expansion.FineSteps
import Recurrence.Proofs.Expansion.Reach
import Recurrence.Proofs.Rule.Faults
import Recurrence.Proofs.Position
import Recurrence.Proofs.Expansion.Numbering
import Recurrence.Proofs.Settings.Layered
