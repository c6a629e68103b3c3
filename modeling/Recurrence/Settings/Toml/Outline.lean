import Recurrence.Settings.Tree

/-!
# The outline of a settings document

A document opens tables and sets values in the open one, and its `Outline` holds
the tree that it has written so far, together with how each place in it came to
be. **Nothing may be said twice**: a table is opened once and a value set once,
and a table that a way of several names has led into is not opened afterwards. A
series of tables is opened as often as it has tables; ways lead through its last
table, and a value is set in it only while it is open.
-/

namespace Recurrence

namespace Toml

/-- How a place of a document came to be. -/
inductive Origin where
  /-- A value was set there. -/
  | value
  /-- The table was opened. -/
  | opened
  /-- A table below it was opened. -/
  | above
  /-- A value below it was set by a way of several names. -/
  | between
  /-- So many tables of a series were opened. -/
  | series (count : Nat)
deriving DecidableEq

/-- What a document has said so far. -/
structure Outline where
  /-- The tree that the document has written. -/
  tree : Tree := .empty
  /-- The place of the open table. -/
  current : List Step := []
  /-- The places that are taken, and how, the latest first. -/
  taken : List (List Step × Origin) := []

namespace Outline

/-- How a place came to be. -/
def origin? (o : Outline) (place : List Step) : Option Origin :=
  o.taken.lookup place

/-- Takes a place, which may be taken already. -/
def take (o : Outline) (place : List Step) (origin : Origin) : Outline :=
  { o with taken := (place, origin) :: o.taken }

/-- Takes the place of a name above a table that is opened; a value may not stand
there, and a series stands for its last table. -/
def above? (p : Outline × List Step) (name : String) : Option (Outline × List Step) :=
  let place := p.2 ++ [.name name]
  match p.1.origin? place with
  | none => some (p.1.take place .above, place)
  | some .value => none
  | some (.series count) => some (p.1, place ++ [.index (count - 1)])
  | some _ => some (p.1, place)

/-- Takes the place of a name on the way to a value; a value or a table that a
line has opened may not stand there, and a series stands for its last table. -/
def between? (p : Outline × List Step) (name : String) : Option (Outline × List Step) :=
  let place := p.2 ++ [.name name]
  match p.1.origin? place with
  | none | some .above | some .between => some (p.1.take place .between, place)
  | some (.series count) => some (p.1, place ++ [.index (count - 1)])
  | some .value | some .opened => none

/-- Goes from a place along the names of a way that stand before the last one. -/
def descend? (step? : Outline × List Step → String → Option (Outline × List Step))
    (o : Outline) (place : List Step) (path : List String) : Option (Outline × List Step) :=
  path.dropLast.foldlM step? (o, place)

/-- The outline with an open table at a place. -/
def opened (o : Outline) (place : List Step) : Outline :=
  { o.take place .opened with
    current := place
    tree := o.tree.modify (fun old => .table old.entries) place }

/-- Opens a table. **Its place may be taken only because a table below it was
opened.** -/
def openTable? (o : Outline) (path : List String) : Option Outline := do
  let name ← path.getLast?
  let (o, table) ← descend? above? o [] path
  let place := table ++ [.name name]
  match o.origin? place with
  | none | some .above => some (o.opened place)
  | _ => none

/-- Opens one more table of a series. -/
def openSeries? (o : Outline) (path : List String) : Option Outline := do
  let name ← path.getLast?
  let (o, table) ← descend? above? o [] path
  let place := table ++ [.name name]
  let next (count : Nat) : Outline :=
    (o.take place (.series (count + 1))).opened (place ++ [.index count])
  match o.origin? place with
  | none => some (next 0)
  | some (.series count) => some (next count)
  | _ => none

/-- Whether a value may be set in a table: in the open one, and in another one
that only ways of several names have led into. -/
def isOpenTo (o : Outline) (table : List Step) : Bool :=
  table == o.current || o.origin? table == some .between

/-- Sets a value on a way from the open table, at a place that is not taken. -/
def setValue? (o : Outline) (path : List String) (t : Tree) : Option Outline := do
  let name ← path.getLast?
  let (o, table) ← descend? between? o o.current path
  let place := table ++ [.name name]
  if o.isOpenTo table && (o.origin? place).isNone then
    some { o.take place .value with tree := o.tree.modify (fun _ => t) place }
  else none

end Outline

end Toml

end Recurrence
