import Recurrence.Expansion.Seed

/-!
# The lattice of a rule

A rule repeats at the instants that lie a whole number of steps after its
anchor. `Parts.lattice` lists those that a window needs: from a little before
the seed of the window to **the first one past the bound**, whose period may
begin before the bound.
-/

namespace Recurrence

/-- Counts of units and of steps stay below this number. -/
def stepLimit : Nat := Nat.pow 2 32

/-- Instant number `n` of the lattice. -/
def Parts.latticePoint? (p : Parts) (freq : Frequency) (anchor : Instant) (n : Nat) :
    Option Instant :=
  if n * p.step < stepLimit then anchor.advance? freq (n * p.step) else none

/-- The points from number `n` on, after those already `taken`, which are kept in
reverse. The list ends before the first point that does not exist and after the
first one past the bound. -/
def pointsFrom (point : Nat → Option Instant) (bound : Instant) (n : Nat)
    (taken : List Instant) : List Instant :=
  if n < stepLimit then
    match point n with
    | none => taken.reverse
    | some t =>
      -- The first point past the bound is kept: its period may begin before the bound.
      if bound < t then (t :: taken).reverse else pointsFrom point bound (n + 1) (t :: taken)
  else
    taken.reverse
termination_by stepLimit - n

/-- The points that were taken before come first. -/
theorem pointsFrom_eq_append (point : Nat → Option Instant) (bound : Instant) (n : Nat)
    (taken : List Instant) :
    pointsFrom point bound n taken = taken.reverse ++ pointsFrom point bound n [] := by
  induction hk : stepLimit - n using Nat.strongRecOn generalizing n taken with
  | ind k ih =>
    rw [pointsFrom, pointsFrom]
    split
    · split
      · simp
      · next t _ =>
        split
        · simp
        · rw [ih (stepLimit - (n + 1)) (by omega) (n + 1) (t :: taken) rfl,
            ih (stepLimit - (n + 1)) (by omega) (n + 1) [t] rfl]
          simp
    · simp

namespace Parts

/-- The number of the lattice instant with which a window begins: **one step
before the seed**, but the anchor when candidates are counted or when the window
has no seed. -/
def firstIndex (p : Parts) (freq : Frequency) (anchor start : Instant) : Nat :=
  if p.count.isSome then 0
  else
    match p.seed? freq anchor start with
    | none => 0
    -- A seed less than two steps after the anchor leaves the anchor itself.
    | some seed => ((anchor.unitsBetween seed freq).tdiv p.step - 1).toNat

/-- The lattice instants for a window that begins at `start` and is bounded by
`bound`. -/
def lattice (p : Parts) (freq : Frequency) (anchor start bound : Instant) : List Instant :=
  pointsFrom (p.latticePoint? freq anchor) bound (p.firstIndex freq anchor start) []

end Parts

end Recurrence
