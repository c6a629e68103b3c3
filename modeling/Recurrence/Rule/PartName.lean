/-!
# Names of rule parts

A rule is a list of parts `NAME=value`. Fourteen names have a meaning; they are
written in capitals and, unlike the names of frequencies and weekdays, **read in
capitals only**.
-/

namespace Recurrence

/-- A part of a rule that has a meaning. -/
inductive PartName where
  | freq
  | endsAt
  | count
  | interval
  | weekStart
  | bySecond
  | byMinute
  | byHour
  | byDay
  | byMonthDay
  | byYearDay
  | byWeekNo
  | byMonth
  | bySetPos
deriving DecidableEq

namespace PartName

/-- The parts that have a meaning. -/
def all : List PartName :=
  [freq, endsAt, count, interval, weekStart, bySecond, byMinute, byHour, byDay, byMonthDay,
    byYearDay, byWeekNo, byMonth, bySetPos]

/-- The name of a part as it stands in a rule. -/
def text : PartName → String
  | freq => "FREQ"
  | endsAt => "UNTIL"
  | count => "COUNT"
  | interval => "INTERVAL"
  | weekStart => "WKST"
  | bySecond => "BYSECOND"
  | byMinute => "BYMINUTE"
  | byHour => "BYHOUR"
  | byDay => "BYDAY"
  | byMonthDay => "BYMONTHDAY"
  | byYearDay => "BYYEARDAY"
  | byWeekNo => "BYWEEKNO"
  | byMonth => "BYMONTH"
  | bySetPos => "BYSETPOS"

/-- The part that a text names. -/
def ofText? (cs : List Char) : Option PartName :=
  all.find? fun n => cs == n.text.toList

/-- **A part is read back from its name.** -/
theorem ofText?_text (n : PartName) : ofText? n.text.toList = some n := by
  cases n <;> decide

/-- A text that names a part is the name of that part. -/
theorem eq_text_of_ofText? {cs : List Char} {n : PartName} (h : ofText? cs = some n) :
    cs = n.text.toList := by
  have := List.find?_some h
  simpa using this

end PartName

end Recurrence
