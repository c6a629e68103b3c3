import Recurrence.Proofs.Text.Plain

/-!
# Arrays of strings

An array is written as its strings between quotation marks, with commas between them and
square brackets around them. It is read in one pass; a quotation mark ends a string, and
what follows the mark tells whether the array ends too. **Strings without escapes are read
as they were put in** (`Text.strings?_array`).
-/

namespace Recurrence

namespace Text

variable {c : Char} {cs ds : List Char}

/-- Whether a character stands for itself in a string: it is neither a control character nor
a quotation mark nor the sign of an escape. -/
def isUnescaped (c : Char) : Bool :=
  decide (32 ≤ c.toNat) && c != '"' && c != '\\'

/-- The strings of an array, from the inside of the first one on. -/
def stringsFrom : List Char → Option (List (List Char))
  | ['"', ']'] => some [[]]
  | '"' :: ',' :: '"' :: cs => (stringsFrom cs).map ([] :: ·)
  | c :: cs => if isUnescaped c then (stringsFrom cs).map (List.modifyHead (c :: ·)) else none
  | [] => none

/-- The strings of an array without blanks and escapes. -/
def strings? : List Char → Option (List (List Char))
  | ['[', ']'] => some []
  | '[' :: '"' :: cs => stringsFrom cs
  | _ => none

/-- A character that stands for itself goes to the front of its string. -/
theorem stringsFrom_cons (h : isUnescaped c) :
    stringsFrom (c :: cs) = (stringsFrom cs).map (List.modifyHead (c :: ·)) := by
  have hquote : c ≠ '"' := by
    rintro rfl
    exact absurd h (by decide)
  rw [stringsFrom, if_pos h]
  · rintro ⟨⟩
    exact absurd rfl hquote
  · rintro _ ⟨⟩
    exact absurd rfl hquote

/-- A string is read up to the quotation mark that ends it. -/
theorem stringsFrom_append (h : ∀ c ∈ cs, isUnescaped c) :
    stringsFrom (cs ++ ds) = (stringsFrom ds).map (List.modifyHead (cs ++ ·)) := by
  induction cs with
  | nil =>
    rw [List.nil_append]
    cases stringsFrom ds with
    | none => rfl
    | some strings => cases strings <;> rfl
  | cons c cs ih =>
    rw [List.cons_append, stringsFrom_cons (h c List.mem_cons_self),
      ih fun d hd => h d (List.mem_cons_of_mem c hd), Option.map_map]
    congr 1
    funext strings
    cases strings <;> rfl

/-- A text between quotation marks. -/
def quoted (cs : List Char) : List Char :=
  '"' :: cs ++ ['"']

/-- From the inside of the first string on, an array gives all strings that were put in. -/
theorem exists_stringsFrom {pieces : List (List Char)}
    (h : ∀ piece ∈ cs :: pieces, ∀ c ∈ piece, isUnescaped c) :
    ∃ inside, [','].intercalate ((cs :: pieces).map quoted) ++ [']'] = '"' :: inside ∧
      stringsFrom inside = some (cs :: pieces) := by
  have hcs := h cs List.mem_cons_self
  induction pieces generalizing cs with
  | nil =>
    refine ⟨cs ++ ['"', ']'], by simp [quoted], ?_⟩
    rw [stringsFrom_append hcs]
    simp [stringsFrom]
  | cons piece pieces ih =>
    have hpieces := fun x hx => h x (List.mem_cons_of_mem cs hx)
    obtain ⟨inside, heq, hread⟩ := ih hpieces (hpieces piece List.mem_cons_self)
    refine ⟨cs ++ '"' :: ',' :: '"' :: inside, ?_, ?_⟩
    · rw [List.map_cons, List.map_cons, List.intercalate_cons_cons, ← List.map_cons,
        List.append_assoc, heq]
      simp [quoted]
    · rw [stringsFrom_append hcs, stringsFrom, hread]
      simp

/-- **The strings of an array are those that were put in**, if no character of them needs an
escape. -/
theorem strings?_array {pieces : List (List Char)} (h : ∀ cs ∈ pieces, ∀ c ∈ cs, isUnescaped c) :
    strings? ('[' :: [','].intercalate (pieces.map quoted) ++ [']']) = some pieces := by
  cases pieces with
  | nil => rfl
  | cons cs pieces =>
    obtain ⟨inside, heq, hread⟩ := exists_stringsFrom h
    rw [List.cons_append, heq]
    exact hread

/-- An empty string is one of the strings. -/
example : strings? ['[', '"', 'a', '"', ',', '"', '"', ']'] = some [['a'], []] := rfl

end Text

end Recurrence
