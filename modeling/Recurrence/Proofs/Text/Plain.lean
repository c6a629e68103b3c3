import Recurrence.Text.Blank
import Recurrence.Text.Cut
import Recurrence.Text.Decimal
import Mathlib.Data.List.Forall2

/-!
# Plain texts

Everything that is written into a rule but its separators and its extension parts is
**plain**: digits, capital letters and the minus sign. A plain text has no separator
in it and no blank character, so that it is neither split nor trimmed when the rule is
read again. The pieces between separators are read one by one
(`mapM_eq_ok_iff`).
-/

namespace Recurrence

namespace Text

variable {cs ds : List Char} {c sep : Char}

/-! ## Plain characters -/

/-- Digits, capital letters and the minus sign. -/
def isPlain (c : Char) : Bool :=
  c.isDigit || c.isUpper || c == '-'

/-- A text of plain characters. -/
def Plain (cs : List Char) : Prop :=
  ∀ c ∈ cs, isPlain c

instance (cs : List Char) : Decidable (Plain cs) :=
  decidable_of_iff (cs.all isPlain = true) List.all_eq_true

/-- Plain characters are not blank. -/
theorem isBlank_of_isPlain (h : isPlain c) : isBlank c = false := by
  have hrange : (48 ≤ c.toNat ∧ c.toNat ≤ 90) ∨ c.toNat = 45 := by
    delta isPlain Char.isDigit Char.isUpper at h
    simp only [Bool.or_eq_true, Bool.and_eq_true, decide_eq_true_eq, beq_iff_eq, ge_iff_le,
      UInt32.le_iff_toNat_le] at h
    rcases h with (h | h) | rfl
    · exact .inl ⟨h.1, Nat.le_trans h.2 (by decide)⟩
    · exact .inl ⟨Nat.le_trans (by decide) h.1, h.2⟩
    · exact .inr rfl
  simp only [isBlank, Bool.or_eq_false_iff, Bool.and_eq_false_iff, decide_eq_false_iff_not,
    beq_eq_false_iff_ne]
  omega

namespace Plain

theorem nil : Plain [] := by
  intro c hc
  cases hc

theorem append (h₁ : Plain cs) (h₂ : Plain ds) : Plain (cs ++ ds) := by
  intro c hc
  rcases List.mem_append.1 hc with hc | hc
  · exact h₁ c hc
  · exact h₂ c hc

/-- A character that is not plain does not occur in a plain text. -/
theorem not_mem (h : Plain cs) (hsep : isPlain sep = false) : sep ∉ cs := by
  intro hmem
  rw [h sep hmem] at hsep
  cases hsep

/-- **A plain text is not trimmed.** -/
theorem trim_eq (h : Plain cs) : trim cs = cs := by
  apply trim_eq_self
  · intro c hc
    exact isBlank_of_isPlain (h c (List.mem_of_mem_head? hc))
  · intro c hc
    exact isBlank_of_isPlain (h c (List.mem_of_mem_getLast? hc))

end Plain

/-! ## Numerals -/

/-- Digits are plain. -/
theorem plain_of_isDigit (h : ∀ c ∈ cs, c.isDigit) : Plain cs := by
  intro c hc
  simp [isPlain, h c hc]

theorem isDigit_of_mem_padded {width n : Nat} (h : c ∈ padded width n) : c.isDigit := by
  rcases List.mem_append.1 h with h | h
  · obtain ⟨-, rfl⟩ := List.mem_replicate.1 h
    decide
  · exact isDigit_of_mem_digits h

/-- The text of an integer is plain. -/
theorem plain_integer (n : Int) : Plain (integer n) := by
  have hdigits : Plain (digits n.natAbs) := plain_of_isDigit fun _ => isDigit_of_mem_digits
  unfold integer
  split
  · exact (show Plain ['-'] by decide).append hdigits
  · exact hdigits

/-- The ten digits follow one another. -/
theorem digit_bounds (h : c.isDigit) : 48 ≤ c.toNat ∧ c.toNat ≤ 57 := by
  simp only [Char.isDigit, Bool.and_eq_true, decide_eq_true_eq, ge_iff_le,
    UInt32.le_iff_toNat_le] at h
  exact h

/-- The first digit counts the powers of ten that the remaining ones stay below. -/
theorem ofDigitChars_cons (c : Char) (cs : List Char) :
    Nat.ofDigitChars 10 (c :: cs) 0 =
      Nat.pow 10 cs.length * (c.toNat - 48) + Nat.ofDigitChars 10 cs 0 := by
  rw [Nat.ofDigitChars_cons, Nat.ofDigitChars_eq_ofDigitChars_zero, Nat.mul_zero, Nat.zero_add]
  rfl

/-- Some digits write a number that has no more of them. -/
theorem ofDigitChars_lt (h : ∀ c ∈ cs, c.isDigit) :
    Nat.ofDigitChars 10 cs 0 < Nat.pow 10 cs.length := by
  induction cs with
  | nil => decide
  | cons c cs ih =>
    have hrest := ih fun d hd => h d (List.mem_cons_of_mem c hd)
    have hc := digit_bounds (h c List.mem_cons_self)
    have hpow := Nat.mul_le_mul_left (Nat.pow 10 cs.length) (show c.toNat - 48 ≤ 9 by omega)
    have hsucc : Nat.pow 10 (c :: cs).length = Nat.pow 10 cs.length * 10 := rfl
    rw [ofDigitChars_cons, hsucc]
    omega

/-- **Digits of one length write different numbers.** -/
theorem eq_of_ofDigitChars_eq (hc : ∀ c ∈ cs, c.isDigit) (hd : ∀ c ∈ ds, c.isDigit)
    (hlen : cs.length = ds.length)
    (h : Nat.ofDigitChars 10 cs 0 = Nat.ofDigitChars 10 ds 0) : cs = ds := by
  induction cs generalizing ds with
  | nil => exact (List.length_eq_zero_iff.1 hlen.symm).symm
  | cons c cs ih =>
    cases ds with
    | nil => cases hlen
    | cons d ds =>
      rw [List.length_cons, List.length_cons, Nat.succ_inj] at hlen
      have hcs := fun x hx => hc x (List.mem_cons_of_mem c hx)
      have hds := fun x hx => hd x (List.mem_cons_of_mem d hx)
      have hc' := digit_bounds (hc c List.mem_cons_self)
      have hd' := digit_bounds (hd d List.mem_cons_self)
      have hltc := ofDigitChars_lt hcs
      have hltd := ofDigitChars_lt hds
      rw [ofDigitChars_cons, ofDigitChars_cons, hlen] at h
      rw [hlen] at hltc
      -- The quotient by the power of ten is the first digit, the remainder the other ones.
      generalize Nat.pow 10 ds.length = power at h hltc hltd
      have hpos : 0 < power := by omega
      have hfirst : c.toNat - 48 = d.toNat - 48 := by
        have hdiv := congrArg (· / power) h
        simpa [Nat.mul_add_div hpos, Nat.div_eq_of_lt hltc, Nat.div_eq_of_lt hltd] using hdiv
      have hchar : c = d := Char.toNat_inj.1 (by omega)
      rw [hchar, ih hcs hds hlen (by rw [hfirst] at h; omega)]

/-- A numeral writes a number that has no more digits. -/
theorem lt_of_natural? {n : Nat} (h : natural? cs = some n) : n < Nat.pow 10 cs.length := by
  unfold natural? at h
  split at h
  · next hdigits =>
    cases h
    exact ofDigitChars_lt (List.all_eq_true.1 ((Bool.and_eq_true _ _).mp hdigits).2)
  · cases h

/-! ## Pieces -/

/-- The pieces of a text do not have the separator. -/
theorem not_mem_of_mem_splitOn (h : ds ∈ cs.splitOn sep) : sep ∉ ds := by
  induction cs generalizing ds with
  | nil =>
    rw [List.splitOn_nil, List.mem_singleton] at h
    simp [h]
  | cons c cs ih =>
    rw [List.splitOn_cons_eq_if_modifyHead] at h
    split at h
    · rcases List.mem_cons.1 h with rfl | h
      · exact List.not_mem_nil
      · exact ih h
    · next hne =>
      obtain ⟨hd, tl, heq⟩ := List.exists_cons_of_ne_nil (List.splitOn_ne_nil sep cs)
      rw [heq] at h ih
      rcases List.mem_cons.1 h with rfl | h
      · -- The character goes to the front of the first piece.
        rw [List.mem_cons, not_or]
        exact ⟨fun heq => hne (by simp [heq]), ih List.mem_cons_self⟩
      · exact ih (List.mem_cons_of_mem _ h)

/-- Joined pieces have the characters of the pieces and the separator. -/
theorem mem_intercalate {pieces : List (List Char)} (h : c ∈ [sep].intercalate pieces) :
    c = sep ∨ ∃ piece ∈ pieces, c ∈ piece := by
  induction pieces with
  | nil => cases h
  | cons piece pieces ih =>
    cases pieces with
    | nil => exact .inr ⟨piece, List.mem_cons_self, by simpa using h⟩
    | cons next pieces =>
      rw [List.intercalate_cons_cons, List.append_assoc, List.mem_append, List.mem_append,
        List.mem_singleton] at h
      rcases h with h | h | h
      · exact .inr ⟨piece, List.mem_cons_self, h⟩
      · exact .inl h
      · obtain rfl | ⟨other, hother, hc⟩ := ih h
        · exact .inl rfl
        · exact .inr ⟨other, List.mem_cons_of_mem _ hother, hc⟩

/-- Joined pieces stand in the text one after the other. -/
theorem infix_intercalate {pieces : List (List Char)} (h : ds ∈ pieces) :
    ds <:+: [sep].intercalate pieces := by
  induction pieces with
  | nil => cases h
  | cons piece pieces ih =>
    cases pieces with
    | nil =>
      rw [List.mem_singleton.1 h]
      simp
    | cons next pieces =>
      rw [List.intercalate_cons_cons, List.append_assoc]
      rcases List.mem_cons.1 h with rfl | h
      · exact (List.prefix_append _ _).isInfix
      · exact (ih h).trans (List.suffix_append_of_suffix (List.suffix_append _ _)).isInfix

/-- **A piece stands in the text.** -/
theorem infix_of_mem_splitOn (h : ds ∈ cs.splitOn sep) : ds <:+: cs := by
  have hjoined : ds <:+: [sep].intercalate (cs.splitOn sep) := infix_intercalate h
  rwa [List.intercalate_splitOn] at hjoined

/-- A trimmed text stands in the text. -/
theorem infix_trim (cs : List Char) : trim cs <:+: cs := by
  have hback : trim cs <+: cs.dropWhile isBlank := by
    rw [← List.reverse_suffix, trim, List.reverse_reverse]
    exact List.dropWhile_suffix _
  exact hback.isInfix.trans (List.dropWhile_suffix _).isInfix

end Text

/-- Two steps succeed when the first does and then the second. -/
theorem bind_eq_ok_iff {α β ε : Type} {x : Except ε α} {next : α → Except ε β} {b : β} :
    x >>= next = .ok b ↔ ∃ a, x = .ok a ∧ next a = .ok b := by
  cases x with
  | error e => exact ⟨(nomatch ·), fun ⟨_, h, _⟩ => nomatch h⟩
  | ok a => exact ⟨fun h => ⟨a, rfl, h⟩, fun ⟨_, h, hb⟩ => by cases h; exact hb⟩

/-- **A list is read when each of its elements is.** -/
theorem mapM_eq_ok_iff {α β ε : Type} {read : α → Except ε β} {xs : List α} {ys : List β} :
    xs.mapM read = .ok ys ↔ List.Forall₂ (fun x y => read x = .ok y) xs ys := by
  induction xs generalizing ys with
  | nil => simp [pure, Except.pure, eq_comm]
  | cons x xs ih =>
    rw [List.mapM_cons, List.forall₂_cons_left_iff]
    cases hx : read x with
    | error e => simp [bind, Except.bind]
    | ok y =>
      cases hxs : xs.mapM read with
      | error e => simp [bind, Except.bind, ← ih, hxs]
      | ok rest =>
        simp [bind, Except.bind, pure, Except.pure, ← ih, hxs, eq_comm]

/-- Each element of a list that has been read has been read from some text. -/
theorem exists_of_mem_forall₂ {α β : Type} {R : α → β → Prop} {xs : List α} {ys : List β} {y : β}
    (h : List.Forall₂ R xs ys) (hy : y ∈ ys) : ∃ x ∈ xs, R x y := by
  induction h with
  | nil => cases hy
  | cons hxy _ ih =>
    rcases List.mem_cons.1 hy with rfl | hy
    · exact ⟨_, List.mem_cons_self, hxy⟩
    · obtain ⟨x, hx, hR⟩ := ih hy
      exact ⟨x, List.mem_cons_of_mem _ hx, hR⟩

/-- Every element of a list is related to something exactly when the list is. -/
theorem exists_forall₂_iff {α β : Type} {R : α → β → Prop} {xs : List α} :
    (∃ ys, List.Forall₂ R xs ys) ↔ ∀ x ∈ xs, ∃ y, R x y := by
  induction xs with
  | nil => simp
  | cons x xs ih =>
    simp only [List.forall₂_cons_left_iff, List.forall_mem_cons, ← ih]
    exact ⟨fun ⟨_, y, ys, hy, hys, _⟩ => ⟨⟨y, hy⟩, ys, hys⟩,
      fun ⟨⟨y, hy⟩, ys, hys⟩ => ⟨y :: ys, y, ys, hy, hys, rfl⟩⟩

end Recurrence
