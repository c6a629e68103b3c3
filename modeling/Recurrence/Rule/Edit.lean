import Recurrence.Rule.Basic

/-!
# Edits

A rule is made, and changed, by edits: each sets a part, or has the rule built and goes
on with its parts. Numbers may be without a meaning for a while; **only a rebuild looks at
them**, and it ends the edits where one has none.
-/

namespace Recurrence

/-- One edit of the parts of a rule. -/
inductive Edit where
  /-- Sets a part. -/
  | set (part : Part)
  /-- Builds the rule and goes on with its parts. -/
  | rebuild
deriving DecidableEq

namespace Parts

/-- The parts of a rule that says how often it repeats, and nothing else. -/
def ofFrequency (f : Frequency) : Parts :=
  ({} : Parts).set (.freq f)

/-- The parts after an edit. -/
def edit (p : Parts) : Edit → Except ParseError Parts
  | .set part => .ok (p.set part)
  | .rebuild => p.build.map Rule.toParts

/-- The parts after some edits, from the first to the last, **unless a rebuild among them
fails.** -/
def editAll (p : Parts) (es : List Edit) : Except ParseError Parts :=
  es.foldlM edit p

end Parts

end Recurrence
