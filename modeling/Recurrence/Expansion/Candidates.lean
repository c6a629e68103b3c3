import Recurrence.Calendar.Length
import Recurrence.Expansion.Scope

/-!
# Candidates

Each instant at which a rule repeats opens a period. The stages of the rule turn
the one instant of a period into its candidates: **every stage replaces each
instant by those that its list makes of it**, in the order of the list, and
leaves out what does not exist. Positions count within a period.
-/

namespace Recurrence

open Calendar

namespace Instant

/-- The same weekday and time in week `n` of the calendar year. -/
def inWeek? (t : Instant) (n : Int) : Option Instant :=
  (Position.resolve n (weeksInYear t.date.year)).bind fun k =>
    (Date.ofWeek? t.date.year k t.date.weekday).map fun d => { t with date := d }

/-- The same time on day `n` of the year. -/
def onYearDay? (t : Instant) (n : Int) : Option Instant :=
  (Position.resolve n (daysInYear t.date.year)).bind fun k =>
    (Date.ofYearDay? t.date.year k).map fun d => { t with date := d }

/-- The same time on day `n` of the month. -/
def onMonthDay? (t : Instant) (n : Int) : Option Instant :=
  (Position.resolve n (daysInMonth t.date.year t.date.month)).bind fun k =>
    (Date.ofYmd? t.date.year t.date.month k).map fun d => { t with date := d }

/-- The same date with another hour. -/
def atHour? (t : Instant) (h : Nat) : Option Instant :=
  (t.time.withHour? h).map fun c => { t with time := c }

/-- The same date with another minute. -/
def atMinute? (t : Instant) (m : Nat) : Option Instant :=
  (t.time.withMinute? m).map fun c => { t with time := c }

/-- The same date with another second. -/
def atSecond? (t : Instant) (s : Nat) : Option Instant :=
  (t.time.withSecond? s).map fun c => { t with time := c }

end Instant

/-- The instants that a stage makes of one instant. -/
def Stage.instants (p : Parts) (scope : Scope) (t : Instant) : Stage → List Instant
  | month => p.byMonth.filterMap fun m => t.withMonth? m.toNat
  | weekNo => p.byWeekNo.filterMap fun n => t.inWeek? n.val
  | yearDay => p.byYearDay.filterMap fun n => t.onYearDay? n.val
  | monthDay => p.byMonthDay.filterMap fun n => t.onMonthDay? n.val
  | day => p.byDay.flatMap fun e => e.instants scope t
  | hour => p.byHour.filterMap fun h => t.atHour? h.toNat
  | minute => p.byMinute.filterMap fun m => t.atMinute? m.toNat
  | second => p.bySecond.filterMap fun s => t.atSecond? s.toNat

namespace Parts

/-- The instants of a period after a stage. -/
def afterStage (p : Parts) (scope : Scope) (s : Stage) (period : List Instant) : List Instant :=
  let made := period.flatMap fun t => s.instants p scope t
  if p.picksAfter s then Position.select made (p.bySetPos.map (·.val)) else made

/-- The candidates of the periods that some instants open, period after period. -/
def candidates (p : Parts) (freq : Frequency) (opening : List Instant) : List Instant :=
  let scope := p.scope freq
  let periods := opening.map fun t => [t]
  (p.stages.foldl (fun periods s => periods.map (p.afterStage scope s)) periods).flatten

end Parts

end Recurrence
