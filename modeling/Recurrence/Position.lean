/-!
# Signed positions

A position counts from the beginning of a list when it is positive and from its
end when it is negative; the first place is `1` and the last `-1`. Position `0`
and positions past either end name no place.
-/

namespace Recurrence

namespace Position

/-- The place, counted from 1, that position `i` names among `len` places. -/
def resolve (i : Int) (len : Nat) : Option Nat :=
  if 1 ≤ i ∧ i ≤ len then some i.toNat
  else if i ≤ -1 ∧ -i ≤ len then some (len + 1 + i).toNat
  else none

/-- **A resolved position is a place of the list.** -/
theorem resolve_bounds {i : Int} {len k : Nat} (h : resolve i len = some k) :
    1 ≤ k ∧ k ≤ len := by
  unfold resolve at h
  split at h
  · simp only [Option.some.injEq] at h; omega
  · split at h
    · simp only [Option.some.injEq] at h; omega
    · cases h

/-- Places are counted up to this number. -/
def lastPlace : Nat := Nat.pow 2 32 - 1

/-- The element at position `i`. In a list with more places than are counted, **negative
positions begin at the last one that is.** -/
def pick? {α : Type} (xs : List α) (i : Int) : Option α :=
  (resolve i (min xs.length lastPlace)).bind fun k => xs[k - 1]?

/-- The elements at the listed positions, in the order of the positions;
positions that name no place are passed over. -/
def select {α : Type} (xs : List α) (positions : List Int) : List α :=
  positions.filterMap (pick? xs)

/-- A position picks the element at its place. -/
theorem pick?_eq_some_iff {α : Type} {xs : List α} {i : Int} {a : α} :
    pick? xs i = some a ↔
      ∃ k, resolve i (min xs.length lastPlace) = some k ∧ xs[k - 1]? = some a :=
  Option.bind_eq_some_iff

/-- Positions are picked one after the other. -/
theorem select_append {α : Type} (xs : List α) (ps qs : List Int) :
    select xs (ps ++ qs) = select xs ps ++ select xs qs :=
  List.filterMap_append

end Position

end Recurrence
