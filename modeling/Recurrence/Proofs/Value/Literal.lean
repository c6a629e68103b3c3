import Recurrence.Proofs.Calendar.Fields
import Recurrence.Proofs.Text.Plain
import Recurrence.Rule.Until

/-!
# Reading literals back

A literal has four digits for the year. **The dates that are read back are those of
the years 0 to 9999**, and no other dates are ever read. An instant keeps its mark
`Z`, and the two kinds of last instants are never taken for one another: the literal of
an instant is too long for a date.
-/

namespace Recurrence

open Text

/-- The year is one that a literal has room for. -/
def Date.HasFourDigitYear (d : Date) : Prop :=
  0 ≤ d.year ∧ d.year ≤ 9999

instance (d : Date) : Decidable d.HasFourDigitYear :=
  inferInstanceAs (Decidable (_ ∧ _))

namespace Literal

variable {cs : List Char} {d : Date} {t : Instant} {c : Char}

/-! ## What is written -/

theorem isDigit_of_mem_date (h : d.HasFourDigitYear) (hc : c ∈ date d) : c.isDigit := by
  rw [date, year_eq_padded h.1 h.2, List.mem_append, List.mem_append] at hc
  rcases hc with (hc | hc) | hc
  all_goals exact isDigit_of_mem_padded hc

theorem isDigit_of_mem_time {w : TimeOfDay} (hc : c ∈ time w) : c.isDigit := by
  rw [time, List.mem_append, List.mem_append] at hc
  rcases hc with (hc | hc) | hc
  all_goals exact isDigit_of_mem_padded hc

theorem length_date (h : d.HasFourDigitYear) : (date d).length = 8 := by
  have hy := h.2
  have hm := d.month_bounds.1
  have hd := d.monthDay_bounds.2
  have hlen := Calendar.monthLength_le (Calendar.isLeap d.year) d.month
  have ly : (padded 4 d.year.toNat).length = 4 :=
    length_padded (by decide) (show _ < 10000 by omega)
  have lm : (padded 2 d.month).length = 2 := length_padded (by decide) (show _ < 100 by omega)
  have ld : (padded 2 d.monthDay).length = 2 := length_padded (by decide) (show _ < 100 by omega)
  rw [date, year_eq_padded h.1 h.2, List.length_append, List.length_append, ly, lm, ld]

/-- The mark of an instant in Universal Time. -/
def zulu (utc : Bool) : List Char :=
  if utc then ['Z'] else []

theorem plain_zulu (utc : Bool) : Plain (zulu utc) := by
  cases utc <;> decide

theorem plain_date (h : d.HasFourDigitYear) : Plain (date d) :=
  plain_of_isDigit fun _ => isDigit_of_mem_date h

theorem plain_dateTime (h : t.date.HasFourDigitYear) : Plain (dateTime t) :=
  (plain_date h).append <| (show Plain ['T'] by decide).append <|
    plain_of_isDigit fun _ => isDigit_of_mem_time

/-! ## What is read -/

/-- The mark is taken off a text that does not end in one of its own, and seen. -/
theorem stripZulu_append (h : 'Z' ∉ cs) (utc : Bool) : stripZulu (cs ++ zulu utc) = (cs, utc) := by
  cases utc with
  | true => simp [stripZulu, zulu]
  | false =>
    have hlast : cs.getLast? ≠ some 'Z' := fun hz => h (List.mem_of_mem_getLast? hz)
    simp [stripZulu, zulu, hlast]

/-- A text is what remains without the mark, and the mark. -/
theorem stripZulu_fst_append (cs : List Char) : (stripZulu cs).1 ++ zulu (stripZulu cs).2 = cs := by
  unfold stripZulu
  split
  · next hlast => exact List.dropLast_append_getLast? _ hlast
  · exact List.append_nil cs

/-- **An instant of a year with four digits is read back from its literal**, with its
mark. -/
theorem dateTime?_dateTime (h : t.date.HasFourDigitYear) (utc : Bool) :
    dateTime? (dateTime t ++ zulu utc) = some (t, utc) := by
  have hcut : cut? 'T' (dateTime t ++ zulu utc) = some (date t.date, time t.time ++ zulu utc) := by
    rw [cut?_eq_some_iff, dateTime, List.append_assoc, List.cons_append]
    refine ⟨rfl, ?_⟩
    intro hT
    have := isDigit_of_mem_date h hT
    revert this
    decide
  have hstrip : stripZulu (time t.time ++ zulu utc) = (time t.time, utc) := by
    apply stripZulu_append
    intro hZ
    have := isDigit_of_mem_time hZ
    revert this
    decide
  simp [dateTime?, hcut, hstrip, date?_date h.1 h.2, time?_time]

/-- The literal of an instant is too long for a date. -/
theorem date?_dateTime (h : t.date.HasFourDigitYear) (utc : Bool) :
    date? (dateTime t ++ zulu utc) = none := by
  -- The day is what follows the sixth character, and of an instant that is too long.
  have hlong : ((dateTime t ++ zulu utc).drop 6).length ≠ 2 := by
    rw [List.length_drop, dateTime, List.length_append, List.length_append, length_date h,
      List.length_cons, time, List.length_append]
    have hsecond : 0 < (padded 2 t.time.second).length :=
      List.length_pos_iff.2 (by simp [padded, List.leftpad, digits_ne_nil])
    omega
  rw [date?, show fixed? 2 ((dateTime t ++ zulu utc).drop 6) = none from if_neg hlong]
  cases fixed? 4 ((dateTime t ++ zulu utc).take 4) with
  | none => rfl
  | some y => cases fixed? 2 (((dateTime t ++ zulu utc).drop 4).take 2) <;> rfl

/-- **Only years with four digits are read.** -/
theorem hasFourDigitYear_of_date? (h : date? cs = some d) : d.HasFourDigitYear := by
  obtain ⟨y, hy, h⟩ := Option.bind_eq_some_iff.1 h
  obtain ⟨m, -, h⟩ := Option.bind_eq_some_iff.1 h
  obtain ⟨k, -, h⟩ := Option.bind_eq_some_iff.1 h
  unfold fixed? at hy
  split at hy
  · next hlen =>
    have hlt := lt_of_natural? hy
    rw [hlen, show Nat.pow 10 4 = 10000 from rfl] at hlt
    have hyear := (Date.ofYmd?_eq_some_iff.1 h).1
    unfold Date.HasFourDigitYear
    omega
  · cases hy

theorem hasFourDigitYear_of_dateTime? {utc : Bool} (h : dateTime? cs = some (t, utc)) :
    t.date.HasFourDigitYear := by
  obtain ⟨⟨before, after⟩, -, h⟩ := Option.bind_eq_some_iff.1 h
  obtain ⟨d, hd, h⟩ := Option.bind_eq_some_iff.1 h
  obtain ⟨w, -, h⟩ := Option.bind_eq_some_iff.1 h
  cases h
  exact hasFourDigitYear_of_date? hd

end Literal

namespace Until

variable {u : Until} {cs : List Char}

theorem plain_chars (h : u.instant.date.HasFourDigitYear) : Plain u.chars := by
  cases u with
  | date d => exact Literal.plain_date h
  | dateTime t utc => exact (Literal.plain_dateTime h).append (Literal.plain_zulu utc)

/-- **The last instant of a rule is read back** as the date or the instant that it is. -/
theorem readPart_chars (h : u.instant.date.HasFourDigitYear) : readPart u.chars = .ok u := by
  have hread : read? u.chars = some u := by
    cases u with
    | date d =>
      have hd : Literal.date? (date d).chars = some d := Literal.date?_date h.1 h.2
      rw [read?, hd]
    | dateTime t utc =>
      have hd : Literal.date? (dateTime t utc).chars = none := Literal.date?_dateTime h utc
      have ht : Literal.dateTime? (dateTime t utc).chars = some (t, utc) :=
        Literal.dateTime?_dateTime h utc
      simp only [read?, hd, ht, Option.map_some]
  rw [readPart, hread]

/-- What is read has a year of four digits. -/
theorem hasFourDigitYear_of_readPart (h : readPart cs = .ok u) :
    u.instant.date.HasFourDigitYear := by
  unfold readPart read? at h
  cases hd : Literal.date? cs with
  | some d =>
    rw [hd] at h
    cases h
    exact Literal.hasFourDigitYear_of_date? hd
  | none =>
    rw [hd] at h
    cases ht : Literal.dateTime? cs with
    | none =>
      rw [ht] at h
      cases h
    | some p =>
      rw [ht] at h
      cases h
      exact Literal.hasFourDigitYear_of_dateTime? ht

end Until

end Recurrence
