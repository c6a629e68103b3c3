import Recurrence.Settings.Tree

/-!
# Members of groups

The settings stand in groups, and the members of a group have an order. **In a
table a member is found by its name, in a list by its place.** A setting has a
type, and a single value of another type is converted where that makes sense.
-/

namespace Recurrence

/-- A member of a group: a setting or a group in it. -/
structure Member where
  /-- How the member is called. -/
  name : String
  /-- The number of members before it. -/
  place : Nat
deriving DecidableEq

namespace Tree

/-- The tree of a member. -/
def member? (t : Tree) (m : Member) : Option Tree :=
  match t with
  | table es => es.lookup m.name
  | list ts => ts[m.place]?
  | _ => none

/-- The tree to which members of members lead. -/
def at? (t : Tree) : List Member → Option Tree
  | [] => some t
  | m :: ms => (t.member? m).bind fun sub => sub.at? ms

/-- The text of a setting. -/
def textAt (t : Tree) (ms : List Member) : Except SettingsError String :=
  match t.at? ms with
  | some (scalar s) => .ok s.asText
  | _ => .error (.mistyped (ms.map (·.name)))

/-- The number of days of a setting. -/
def countAt (t : Tree) (ms : List Member) : Except SettingsError Word :=
  match t.at? ms with
  | some (scalar s) =>
    match s.asCount? with
    | some n => .ok n
    | none => .error (.mistyped (ms.map (·.name)))
  | _ => .error (.mistyped (ms.map (·.name)))

/-- The name of a format: a text, or the only name in a table. -/
def formatName? : Tree → Option String
  | scalar (.text s) => some s
  | table [(name, _)] => some name
  | _ => none

/-- The format of a setting. -/
def formatAt (t : Tree) (ms : List Member) : Except SettingsError OutputFormat :=
  match ((t.at? ms).bind formatName?).bind OutputFormat.ofName? with
  | some f => .ok f
  | none => .error (.mistyped (ms.map (·.name)))

end Tree

end Recurrence
