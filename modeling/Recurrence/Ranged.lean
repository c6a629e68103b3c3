import Recurrence.Text.Decimal

/-!
# Numbers of a range

The numbers of a rule are whole numbers of a fixed range. `Ranged lo hi` holds
them with the proof that they are in range; `Ranged.read?` reads their decimal
text and `Ranged.chars` writes it.
-/

namespace Recurrence

/-- A whole number from `lo` to `hi`. -/
@[ext] structure Ranged (lo hi : Int) where
  /-- The number. -/
  val : Int
  /-- The number is not below the range. -/
  lo_le : lo ≤ val
  /-- The number is not above the range. -/
  le_hi : val ≤ hi
deriving DecidableEq

/-- A whole number of 8 bits. -/
abbrev Octet := Ranged 0 255

/-- A whole number of 8 bits, one of them the sign. -/
abbrev SignedOctet := Ranged (-128) 127

/-- A whole number of 16 bits, one of them the sign. -/
abbrev SignedShort := Ranged (-32768) 32767

/-- A whole number of 32 bits. -/
abbrev Word := Ranged 0 4294967295

/-- A whole number of 32 bits, one of them the sign. -/
abbrev SignedWord := Ranged (-2147483648) 2147483647

/-- A whole number of 64 bits, one of them the sign. -/
abbrev SignedLong := Ranged (-9223372036854775808) 9223372036854775807

namespace Ranged

variable {lo hi : Int}

/-- A number, if it is in range. -/
def ofInt? (n : Int) : Option (Ranged lo hi) :=
  if h : lo ≤ n ∧ n ≤ hi then some ⟨n, h.1, h.2⟩ else none

/-- A number of the range is found by its value and by no other. -/
theorem ofInt?_eq_some_iff {n : Int} {a : Ranged lo hi} : ofInt? n = some a ↔ a.val = n := by
  unfold ofInt?
  constructor
  · intro h
    split at h
    · cases h; rfl
    · cases h
  · rintro rfl
    rw [dif_pos ⟨a.lo_le, a.le_hi⟩]

/-- A number that is seen to be in range. -/
def of (n : Int) (h : lo ≤ n ∧ n ≤ hi := by decide) : Ranged lo hi :=
  ⟨n, h.1, h.2⟩

/-- The number without its sign. -/
def toNat (a : Ranged lo hi) : Nat :=
  a.val.toNat

/-- Reads decimal digits with an optional sign. **A minus sign is read only where
the range has negative numbers**, even before a zero. -/
def read? (cs : List Char) : Option (Ranged lo hi) :=
  match cs with
  | '+' :: ds => (Text.natural? ds).bind fun n => ofInt? n
  | '-' :: ds => if lo < 0 then (Text.natural? ds).bind fun n => ofInt? (-n) else none
  | ds => (Text.natural? ds).bind fun n => ofInt? n

/-- The decimal text of a number, with a sign only when it is negative. -/
def chars (a : Ranged lo hi) : List Char :=
  Text.integer a.val

/-- **Reading the text of a number gives the number.** -/
theorem read?_chars (a : Ranged lo hi) : read? a.chars = some a := by
  have hd : ∀ n : Nat, ∀ ds, Text.digits n = ds →
      (∀ r, ds ≠ '+' :: r) ∧ ∀ r, ds ≠ '-' :: r := by
    rintro n _ rfl
    constructor <;> intro r h <;>
      · have := Text.isDigit_of_mem_digits (n := n) (h ▸ List.mem_cons_self)
        revert this; decide
  unfold chars Text.integer
  by_cases h : a.val < 0
  · rw [if_pos h]
    have hlo := a.lo_le
    simp only [read?, if_pos (show lo < 0 by omega), Text.natural?_digits, Option.bind_some,
      ofInt?_eq_some_iff]
    omega
  · rw [if_neg h]
    unfold read?
    split
    · exact absurd (by assumption) ((hd _ _ rfl).1 _)
    · exact absurd (by assumption) ((hd _ _ rfl).2 _)
    · simp only [Text.natural?_digits, Option.bind_some, ofInt?_eq_some_iff]
      omega

end Ranged

end Recurrence
