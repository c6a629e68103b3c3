import Recurrence.Settings.Tree

/-!
# Keys of settings

A key names a way through the tree of settings: names of letters, digits, `_` and
`-` with points between them, and after each name indices in square brackets. **A
key of another form is one name as it stands.**
-/

namespace Recurrence

namespace Key

/-- Whether a character may stand in a name without quotes. -/
def isNameChar (c : Char) : Bool :=
  c.isAlphanum || c == '_' || c == '-'

/-- Whether a character may stand around an index. -/
def isSpace (c : Char) : Bool :=
  c == ' ' || c == '\t'

/-- The index that `[` and digits with an optional minus sign write. -/
def index? (cs : List Char) : Option Step :=
  match cs with
  | '[' :: cs =>
    let digits := ((cs.dropWhile isSpace).reverse.dropWhile isSpace).reverse
    if digits.head? == some '+' then none
    else (Ranged.read? digits : Option SignedLong).map fun i => .index i.val
  | _ => none

/-- The indices after a name; each of them ends in `]`. -/
def indices? (cs : List Char) : Option (List Step) :=
  let parts := cs.splitOn ']'
  if parts.getLast? = some [] then parts.dropLast.mapM index? else none

/-- The steps that a name with indices after it writes. -/
def segment? (cs : List Char) : Option (List Step) :=
  let name := cs.takeWhile isNameChar
  if name.isEmpty then none
  else (indices? (cs.dropWhile isNameChar)).map (.name (String.ofList name) :: ·)

/-- The way that a key names. -/
def path (key : List Char) : List Step :=
  match (key.splitOn '.').mapM segment? with
  | some segments => segments.flatten
  | none => [.name (String.ofList key)]

end Key

end Recurrence
