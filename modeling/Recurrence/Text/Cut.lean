/-!
# Cutting a text in two

A text is cut at the first place where a separator stands; the separator itself
belongs to neither part.
-/

namespace Recurrence

namespace Text

/-- The parts of a text before and after the first `sep`, if it has one. -/
def cut? (sep : Char) : List Char → Option (List Char × List Char)
  | [] => none
  | c :: cs =>
    if c = sep then some ([], cs) else (cut? sep cs).map fun p => (c :: p.1, p.2)

/-- **A text is cut exactly at its first separator.** -/
theorem cut?_eq_some_iff {sep : Char} {cs a b : List Char} :
    cut? sep cs = some (a, b) ↔ cs = a ++ sep :: b ∧ sep ∉ a := by
  induction cs generalizing a with
  | nil => simp [cut?]
  | cons c cs ih =>
    by_cases h : c = sep
    · subst h
      cases a with
      | nil => simp [cut?, eq_comm]
      | cons x a => simp [cut?]; grind
    · cases a with
      | nil => simp [cut?, h]
      | cons x a => simp [cut?, h, Option.map_eq_some_iff]; grind

/-- A text is not cut exactly when it has no separator. -/
theorem cut?_eq_none_iff {sep : Char} {cs : List Char} : cut? sep cs = none ↔ sep ∉ cs := by
  induction cs with
  | nil => simp [cut?]
  | cons c cs ih =>
    by_cases h : c = sep
    · simp [cut?, h]
    · simp [cut?, h, ih]; grind

end Text

end Recurrence
