import Recurrence.Settings.Scalar

/-!
# Trees of values

Sources of settings are laid over each other as one tree, with tables and lists
under each other and single values at the leaves. A source is a list of
`Entry`s, and **the entry that comes last wins**, leaf by leaf: a table that is
laid over a table adds to it (`merge`), and anything else replaces what was
there. A way through the tree is a list of `Step`s, and what is missing on the
way is made (`modify`).
-/

namespace Recurrence

/-- A single value, a list of trees, a table of named trees, or a place without a
value. -/
inductive Tree where
  | nothing
  | scalar (s : Scalar)
  | list (items : List Tree)
  | table (entries : List (String × Tree))

/-- A step from a tree to a tree in it. -/
inductive Step where
  /-- To the tree with a name in a table. -/
  | name (s : String)
  /-- To the tree at a place in a list; **places below zero count from its end.** -/
  | index (i : Int)
deriving DecidableEq

/-- What a source says about a place. -/
structure Entry where
  /-- The way to the place. -/
  path : List Step
  /-- What is laid over the tree there. -/
  value : Tree

namespace Tree

/-- The table without entries. -/
def empty : Tree :=
  table []

/-- The named trees of a table; another tree has none. -/
def entries : Tree → List (String × Tree)
  | table es => es
  | _ => []

/-- The trees of a list; another tree has none. -/
def items : Tree → List Tree
  | list ts => ts
  | _ => []

/-! ## Single steps -/

/-- Puts a tree under a name into a table. -/
def put (name : String) (t : Tree) : List (String × Tree) → List (String × Tree)
  | [] => [(name, t)]
  | e :: es => if e.1 = name then (name, t) :: es else e :: put name t es

/-- A tree that has been put under a name is found there. -/
theorem lookup_put_self {name : String} {t : Tree} {es : List (String × Tree)} :
    (put name t es).lookup name = some t := by
  induction es with
  | nil => simp [put]
  | cons e es ih =>
    obtain ⟨e₁, e₂⟩ := e
    simp only [put]
    split
    · simp
    · next h =>
      rw [List.lookup_cons, beq_false_of_ne (Ne.symm h)]
      exact ih

/-- What stands under another name stays there. -/
theorem lookup_put_of_ne {name other : String} {t : Tree} {es : List (String × Tree)}
    (h : other ≠ name) : (put name t es).lookup other = es.lookup other := by
  induction es with
  | nil => simp [put, h]
  | cons e es ih =>
    obtain ⟨e₁, e₂⟩ := e
    simp only [put]
    split
    · next he =>
      have he : e₁ = name := he
      subst he
      simp only [List.lookup_cons, beq_false_of_ne h]
    · simp only [List.lookup_cons, ih]

/-- The place that an index means in a list of some length; one that lies before
the list means its begin. -/
def position (i : Int) (length : Nat) : Nat :=
  if 0 ≤ i then i.toNat else length - i.natAbs

/-- A list with places without values at one of its ends, so that an index lies in
it. -/
def room (i : Int) (ts : List Tree) : List Tree :=
  if 0 ≤ i then ts.rightpad (i.toNat + 1) nothing else ts.leftpad i.natAbs nothing

/-- An index lies in a list that has been made long enough for it. -/
theorem position_lt_length_room (i : Int) (ts : List Tree) :
    position i (room i ts).length < (room i ts).length := by
  unfold position room
  split
  · simp only [List.rightpad, List.length_append, List.length_replicate]; omega
  · simp only [List.length_leftpad]; omega

/-- The tree one step away. -/
def step? (t : Tree) : Step → Option Tree
  | .name s => t.entries.lookup s
  | .index i =>
    if i < 0 ∧ t.items.length < i.natAbs then none else t.items[position i t.items.length]?

/-- The tree in which another one stands one step away. A tree that has no such
steps gives place to one that has. -/
def insert (t : Tree) (s : Step) (sub : Tree) : Tree :=
  match s with
  | .name s => table (put s sub t.entries)
  | .index i =>
    let ts := room i t.items
    list (ts.set (position i ts.length) sub)

/-- **A tree that has been inserted is found one step away.** -/
theorem step?_insert (t : Tree) (s : Step) (sub : Tree) : (t.insert s sub).step? s = some sub := by
  cases s with
  | name s => exact lookup_put_self
  | index i =>
    have hlt := position_lt_length_room i t.items
    show (if i < 0 ∧ ((room i t.items).set _ sub).length < i.natAbs then none
      else ((room i t.items).set _ sub)[position i ((room i t.items).set _ sub).length]?) = some sub
    rw [List.length_set, if_neg, List.getElem?_set_self hlt]
    rintro ⟨hi, hlen⟩
    simp only [room, if_neg (show ¬ 0 ≤ i by omega), List.length_leftpad] at hlen
    omega

/-! ## Ways -/

/-- The tree at the end of a way. -/
def get? (t : Tree) : List Step → Option Tree
  | [] => some t
  | s :: path => (t.step? s).bind fun sub => sub.get? path

/-- Changes the tree at the end of a way; what is missing on the way there is
made, and what has no such steps gives place to what has. -/
def modify (change : Tree → Tree) (t : Tree) : List Step → Tree
  | [] => change t
  | s :: path => t.insert s (((t.step? s).getD nothing).modify change path)

/-- A place without a value has nothing below it. -/
theorem get?_nothing {path : List Step} (h : path ≠ []) : nothing.get? path = none := by
  match path with
  | [] => exact absurd rfl h
  | .name s :: path => rfl
  | .index i :: path =>
    simp [get?, step?, items]

/-- **At the end of a changed way the changed tree is found.** -/
theorem get?_modify (change : Tree → Tree) (t : Tree) (path : List Step) :
    (t.modify change path).get? path = some (change ((t.get? path).getD nothing)) := by
  induction path generalizing t with
  | nil => rfl
  | cons s path ih =>
    rw [modify, get?, get?, step?_insert, Option.bind_some, ih]
    cases t.step? s with
    | none =>
      simp only [Option.getD_none, Option.bind_none]
      cases path with
      | nil => rfl
      | cons s path => rw [get?_nothing (List.cons_ne_nil _ _)]; rfl
    | some sub => rfl

/-! ## Laying trees over each other -/

mutual

/-- A tree with another one laid over it: a table adds to what is there, entry by
entry, and anything else replaces it. -/
def merge (old : Tree) : Tree → Tree
  | table es => table (mergeEntries old.entries es)
  | new => new

/-- The entries of a table with others laid over them. -/
def mergeEntries (old : List (String × Tree)) : List (String × Tree) → List (String × Tree)
  | [] => old
  | (name, t) :: es => mergeEntries (put name (((old.lookup name).getD nothing).merge t) old) es

end

/-- The tree after one more entry. -/
def add (t : Tree) (e : Entry) : Tree :=
  t.modify (·.merge e.value) e.path

/-- The tree after the entries of a source. -/
def overlay (t : Tree) (source : List Entry) : Tree :=
  source.foldl add t

end Tree

end Recurrence
