import Recurrence.Calendar.Instant
import Recurrence.Rule.Parts

/-!
# Stages

A rule fills its periods in stages, one for every list of calendar numbers that
it has: first the months, last the seconds. Positions are no stage of their own;
they are picked when **the last stage that the rule has** is done.
-/

namespace Recurrence

/-- The fields of an instant, from the coarsest to the finest. -/
inductive Field where
  | year
  | month
  | day
  | hour
  | minute
  | second
deriving DecidableEq

namespace Field

/-- The place of a field in the order from the coarsest to the finest. -/
def rank : Field → Nat
  | year => 0
  | month => 1
  | day => 2
  | hour => 3
  | minute => 4
  | second => 5

instance : LE Field := ⟨fun a b => a.rank ≤ b.rank⟩

instance (a b : Field) : Decidable (a ≤ b) := inferInstanceAs (Decidable (a.rank ≤ b.rank))

/-- The finer of two fields. -/
instance : Max Field := maxOfLe

end Field

/-- The field in which a frequency steps; a week steps in days. -/
def Frequency.field : Frequency → Field
  | secondly => .second
  | minutely => .minute
  | hourly => .hour
  | daily => .day
  | weekly => .day
  | monthly => .month
  | yearly => .year

/-- The stages in which the periods of a rule are filled. -/
inductive Stage where
  | month
  | weekNo
  | yearDay
  | monthDay
  | day
  | hour
  | minute
  | second
deriving DecidableEq

namespace Stage

/-- The stages, in the order in which they run. -/
def all : List Stage :=
  [month, weekNo, yearDay, monthDay, day, hour, minute, second]

/-- The part of a rule that a stage works with. -/
def part : Stage → PartName
  | month => .byMonth
  | weekNo => .byWeekNo
  | yearDay => .byYearDay
  | monthDay => .byMonthDay
  | day => .byDay
  | hour => .byHour
  | minute => .byMinute
  | second => .bySecond

/-- The field that a stage sets. -/
def field : Stage → Field
  | month => .month
  | weekNo => .day
  | yearDay => .day
  | monthDay => .day
  | day => .day
  | hour => .hour
  | minute => .minute
  | second => .second

/-- Whether a rule has entries for a stage. -/
def isActive (p : Parts) : Stage → Bool
  | month => !p.byMonth.isEmpty
  | weekNo => !p.byWeekNo.isEmpty
  | yearDay => !p.byYearDay.isEmpty
  | monthDay => !p.byMonthDay.isEmpty
  | day => !p.byDay.isEmpty
  | hour => !p.byHour.isEmpty
  | minute => !p.byMinute.isEmpty
  | second => !p.bySecond.isEmpty

end Stage

namespace Parts

/-- The stages that a rule has, in the order in which they run. -/
def stages (p : Parts) : List Stage :=
  Stage.all.filter (Stage.isActive p)

/-- The last stage that a rule has. -/
def lastStage? (p : Parts) : Option Stage :=
  p.stages.getLast?

/-- Whether positions are picked after a stage. -/
def picksAfter (p : Parts) (s : Stage) : Bool :=
  !p.bySetPos.isEmpty && p.lastStage? == some s

/-- The finest field that a rule sets or steps in. -/
def finestField (p : Parts) (freq : Frequency) : Field :=
  (p.stages.map Stage.field).foldl max freq.field

end Parts

end Recurrence
