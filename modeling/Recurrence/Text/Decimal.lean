/-!
# Decimal numerals

Natural numbers as decimal digits, written without leading zeros or padded with
zeros to a width, and read from any non-empty run of digits.
-/

namespace Recurrence

namespace Text

/-- The decimal digits of a number, without leading zeros. -/
def digits (n : Nat) : List Char :=
  Nat.toDigits 10 n

/-- The decimal digits of a number, with leading zeros up to a width. -/
def padded (width n : Nat) : List Char :=
  (digits n).leftpad width '0'

/-- The decimal text of an integer. -/
def integer (n : Int) : List Char :=
  if n < 0 then '-' :: digits n.natAbs else digits n.natAbs

/-- The number that a text of digits writes. -/
def natural? (cs : List Char) : Option Nat :=
  if !cs.isEmpty && cs.all Char.isDigit then some (Nat.ofDigitChars 10 cs 0) else none

/-- Digits are written, and at least one. -/
theorem digits_ne_nil (n : Nat) : digits n ≠ [] := Nat.toDigits_ne_nil

/-- Only digits are written. -/
theorem isDigit_of_mem_digits {n : Nat} {c : Char} (h : c ∈ digits n) : c.isDigit = true :=
  Nat.isDigit_of_mem_toDigits (by decide) (by decide) h

/-- **Reading the digits of a number gives the number.** -/
theorem natural?_digits (n : Nat) : natural? (digits n) = some n := by
  have h : (digits n).all Char.isDigit = true :=
    List.all_eq_true.2 fun _ hc => isDigit_of_mem_digits hc
  simp only [natural?, h, Bool.and_true]
  rw [if_pos (by simpa using digits_ne_nil n)]
  simp [digits, Nat.ofDigitChars_toDigits]

/-- **Reading the digits of a number with zeros before them gives the number.** -/
theorem natural?_padded (width n : Nat) : natural? (padded width n) = some n := by
  have hd : (padded width n).all Char.isDigit = true := by
    refine List.all_eq_true.2 fun c hc => ?_
    rcases List.mem_append.1 hc with h | h
    · obtain ⟨_, rfl⟩ := List.mem_replicate.1 h
      decide
    · exact isDigit_of_mem_digits h
  have hn : padded width n ≠ [] := fun h => digits_ne_nil n (List.append_eq_nil_iff.1 h).2
  simp only [natural?, hd, Bool.and_true]
  rw [if_pos (by simpa using hn)]
  simp [padded, List.leftpad, digits, Nat.ofDigitChars_append, Nat.ofDigitChars_replicate_zero,
    Nat.ofDigitChars_toDigits]

/-- A number that fits into a width is padded to that width. -/
theorem length_padded {width n : Nat} (h₀ : 0 < width) (h : n < Nat.pow 10 width) :
    (padded width n).length = width := by
  have := (Nat.length_toDigits_le_iff (b := 10) (by decide) h₀).2 h
  simp only [padded, List.length_leftpad, digits]
  omega

end Text

end Recurrence
