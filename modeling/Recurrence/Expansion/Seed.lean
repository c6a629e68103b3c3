import Recurrence.Expansion.Step
import Recurrence.Rule.Stage

/-!
# Seeds

The seed of a window is an instant near its beginning from which a rule that
began long before can be taken up. It has the coarse fields of the window's
beginning and the fine fields of the anchor, and the line between them is **the
finest field that the rule sets**.
-/

namespace Recurrence

namespace Instant

/-- The date with the fields down to `finest` of one date and the finer ones of
another, the day clamped to the length of the month. -/
def blendDate? (finest : Field) (coarse fine : Date) : Option Date :=
  match finest with
  | .year => Date.ofYmdClamped? coarse.year fine.month fine.monthDay
  | .month => Date.ofYmdClamped? coarse.year coarse.month fine.monthDay
  | .day | .hour | .minute | .second => some coarse

/-- The time with the fields down to `finest` of one time and the finer ones of
another. -/
def blendTime (finest : Field) (coarse fine : TimeOfDay) : TimeOfDay :=
  match finest with
  | .year | .month | .day => fine
  | .hour => { fine with hour := coarse.hour, hour_lt := coarse.hour_lt }
  | .minute => { coarse with second := fine.second, second_lt := fine.second_lt }
  | .second => coarse

/-- The instant with the fields down to `finest` of one instant and the finer
ones of another. -/
def blend? (finest : Field) (coarse fine : Instant) : Option Instant :=
  (blendDate? finest coarse.date fine.date).map fun d =>
    ⟨d, blendTime finest coarse.time fine.time⟩

end Instant

/-- The first instant to look at for a window: the blend of the window's
beginning, or of a later anchor, with the anchor, and **one unit later if that
still lies before the window.** -/
def Parts.seed? (p : Parts) (freq : Frequency) (anchor start : Instant) : Option Instant :=
  match Instant.blend? (p.finestField freq) (max start anchor) anchor with
  | none => none
  | some seed => if seed < start then seed.advance? freq 1 else some seed

end Recurrence
