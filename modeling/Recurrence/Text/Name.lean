/-!
# Names without regard to case

Fixed names are written in capitals and read in any case. Only the letters `a`
to `z` have a capital here; every other character stands for itself.
-/

namespace Recurrence

namespace Text

/-- Whether a text is the name `name`, capitals and small letters alike. -/
def isName (name : String) (cs : List Char) : Bool :=
  cs.map Char.toUpper == name.toList

/-- The first of some named things that a text names. -/
def named? {α : Type} (all : List α) (name : α → String) (cs : List Char) : Option α :=
  all.find? fun a => isName (name a) cs

end Text

end Recurrence
