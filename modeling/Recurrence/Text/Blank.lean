/-!
# Blank characters

The characters with the Unicode property `White_Space`, and the removal of them
at both ends of a text.
-/

namespace Recurrence

namespace Text

/-- Whether a character has the Unicode property `White_Space`. -/
def isBlank (c : Char) : Bool :=
  let n := c.toNat
  (0x09 ≤ n && n ≤ 0x0D) || n == 0x20 || n == 0x85 || n == 0xA0 || n == 0x1680 ||
    (0x2000 ≤ n && n ≤ 0x200A) || n == 0x2028 || n == 0x2029 || n == 0x202F || n == 0x205F ||
    n == 0x3000

/-- The text without the blank characters at its ends. -/
def trim (cs : List Char) : List Char :=
  ((cs.dropWhile isBlank).reverse.dropWhile isBlank).reverse

/-- Whether a text has blank characters only. -/
def isBlankText (cs : List Char) : Bool :=
  cs.all isBlank

/-- **A text whose ends are not blank is its own trimmed form.** -/
theorem trim_eq_self {cs : List Char} (h₁ : ∀ c ∈ cs.head?, isBlank c = false)
    (h₂ : ∀ c ∈ cs.getLast?, isBlank c = false) : trim cs = cs := by
  have hd : ∀ {xs : List Char}, (∀ c ∈ xs.head?, isBlank c = false) →
      xs.dropWhile isBlank = xs := by
    intro xs hx
    cases xs with
    | nil => rfl
    | cons c r => simp [hx c (by simp)]
  rw [trim, hd h₁, hd, List.reverse_reverse]
  simpa using h₂

end Text

end Recurrence
