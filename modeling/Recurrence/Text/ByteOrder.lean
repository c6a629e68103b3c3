/-!
# The mark at the beginning of a text

A text from a file may begin with a byte order mark, which is no part of what it
says.
-/

namespace Recurrence

namespace Text

/-- The byte order mark. -/
def byteOrderMark : Char :=
  '\ufeff'

/-- The text after the byte order mark at its beginning, if there is one. **A
second mark is part of the text.** -/
def withoutMark : List Char → List Char
  | [] => []
  | c :: cs => if c = byteOrderMark then cs else c :: cs

/-- A text without a mark stays as it is. -/
theorem withoutMark_eq_self {cs : List Char} (h : cs.head? ≠ some byteOrderMark) :
    withoutMark cs = cs := by
  cases cs with
  | nil => rfl
  | cons c cs => simpa [withoutMark] using h

end Text

end Recurrence
