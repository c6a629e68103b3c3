import Recurrence.Proofs.Value.Grammar

/-!
# One literal for each value

The grammar of literals leaves no choice: a number in a field of fixed width is padded
with zeros, and an instant may only have a mark or not. So **every literal that is read is
the one that is written for its value** (`Literal.IsDate.eq_date`,
`Literal.IsDateTime.eq_dateTime`), and with the values of four-digit years, whose literals
are all read, reading and writing are inverse to each other.
-/

namespace Recurrence

open Text

namespace Literal

variable {cs : List Char} {d : Date} {w : TimeOfDay} {t : Instant} {utc : Bool}

/-- **A field is its number, padded to its width.** -/
theorem IsField.eq_padded {width n : Nat} (h : IsField width cs n) : cs = padded width n := by
  obtain ⟨hlen, hnumeral⟩ := h
  have hpos : 0 < width := by
    rw [← hlen]
    exact List.length_pos_iff.2 hnumeral.ne_nil
  have hlt : n < Nat.pow 10 width := by
    rw [← hlen, ← hnumeral.value]
    exact ofDigitChars_lt hnumeral.isDigit
  have hpadded : IsNumeral (padded width n) n := natural?_eq_some_iff.1 (natural?_padded width n)
  exact eq_of_ofDigitChars_eq hnumeral.isDigit hpadded.isDigit
    (hlen.trans (length_padded hpos hlt).symm) (hnumeral.value.trans hpadded.value.symm)

/-- A literal of a date names a year of four digits. -/
theorem IsDate.hasFourDigitYear (h : IsDate cs d) : d.HasFourDigitYear :=
  hasFourDigitYear_of_date? (date?_eq_some_iff.2 h)

/-- **The literal of a date is the one that is written.** -/
theorem IsDate.eq_date (h : IsDate cs d) : cs = date d := by
  have hyear := h.hasFourDigitYear
  cases h with
  | intro hy hm hk heq =>
    rw [date, year_eq_padded hyear.1 hyear.2, hy.eq_padded, hm.eq_padded, hk.eq_padded, heq,
      Int.toNat_natCast]

/-- **A date has one literal**, if its year has four digits, and else none. -/
theorem isDate_iff : IsDate cs d ↔ cs = date d ∧ d.HasFourDigitYear := by
  constructor
  · intro h
    exact ⟨h.eq_date, h.hasFourDigitYear⟩
  · rintro ⟨rfl, h⟩
    exact date?_eq_some_iff.1 (date?_date h.1 h.2)

/-- The literal of a time of day is the one that is written. -/
theorem IsTime.eq_time (h : IsTime cs w) : cs = time w := by
  cases h with
  | intro hh hm hs => rw [time, hh.eq_padded, hm.eq_padded, hs.eq_padded]

/-- The literal of an instant is the one that is written, with its mark. -/
theorem IsDateTime.eq_dateTime (h : IsDateTime cs t utc) : cs = dateTime t ++ zulu utc := by
  cases h with
  | intro _ hd hw => rw [hd.eq_date, hw.eq_time, dateTime, List.append_assoc, List.cons_append]

/-- **An instant has two literals**, with the mark and without it, if its year has four
digits, and else none. -/
theorem isDateTime_iff :
    IsDateTime cs t utc ↔ cs = dateTime t ++ zulu utc ∧ t.date.HasFourDigitYear := by
  constructor
  · intro h
    exact ⟨h.eq_dateTime, hasFourDigitYear_of_dateTime? (dateTime?_eq_some_iff.2 h)⟩
  · rintro ⟨rfl, h⟩
    exact dateTime?_eq_some_iff.1 (dateTime?_dateTime h utc)

/-- A date is written with digits and signs. -/
theorem mem_date {c : Char} (h : c ∈ date d) : c.isDigit ∨ c = '-' ∨ c = '+' := by
  have hsign : ∀ c ∈ (if d.year < 0 then ['-'] else if 9999 < d.year then ['+'] else []),
      c = '-' ∨ c = '+' := by
    split
    · simp
    · split <;> simp
  rw [date, year, List.mem_append, List.mem_append, List.mem_append] at h
  rcases h with ((hc | hc) | hc) | hc
  · exact .inr (hsign c hc)
  all_goals exact .inl (isDigit_of_mem_padded hc)

/-- A date whose year has not four digits is written with a sign. -/
theorem sign_mem_date (h : ¬ d.HasFourDigitYear) : '-' ∈ date d ∨ '+' ∈ date d := by
  unfold Date.HasFourDigitYear at h
  by_cases hneg : d.year < 0
  · exact .inl (by simp [date, year, hneg])
  · have hlong : 9999 < d.year := by omega
    exact .inr (by simp [date, year, hneg, hlong])

/-- No text is a literal of a date and of an instant: only an instant has a `T`. -/
theorem IsDate.not_isDateTime (h : IsDate cs d) : ¬ IsDateTime cs t utc :=
  fun ht => h.not_mem (by decide) ht.mem

/-- An instant is read from digits and its two letters. -/
theorem IsDateTime.not_mem {c : Char} (h : IsDateTime cs t utc) (hdigit : c.isDigit = false)
    (hT : c ≠ 'T') (hZ : c ≠ 'Z') : c ∉ cs := by
  cases h with
  | intro _ hd hw =>
    have hmark : c ∉ zulu utc := by cases utc <;> simp [zulu, hZ]
    simp [hd.not_mem hdigit, hw.not_mem hdigit, hT, hmark]

end Literal

/-! ## Values -/

variable {s : String} {d : Date} {t : Instant} {utc : Bool}

theorem Date.parse_eq_ok_iff : Date.parse s = .ok d ↔ Literal.IsDate s.toList d := by
  rw [← Literal.date?_eq_some_iff, Date.parse]
  cases Literal.date? s.toList <;> simp

theorem Instant.parse_eq_ok_iff :
    Instant.parse s = .ok (t, utc) ↔ Literal.IsDateTime s.toList t utc := by
  rw [← Literal.dateTime?_eq_some_iff, Instant.parse]
  cases Literal.dateTime? s.toList <;> simp

/-- A value is read where the last instant of a rule is, **and its mark is forgotten**. -/
theorem DateValue.parse_eq_ok_iff {v : DateValue} :
    DateValue.parse s = .ok v ↔
      (∃ d, v = .date d ∧ Literal.IsDate s.toList d) ∨
        ∃ t utc, v = .dateTime t ∧ Literal.IsDateTime s.toList t utc := by
  have hread : DateValue.parse s = .ok v ↔ DateValue.read? s.toList = some v := by
    unfold DateValue.parse
    cases DateValue.read? s.toList <;> simp
  rw [hread, DateValue.read?]
  cases hd : Literal.date? s.toList with
  | some d =>
    have hdate := Literal.date?_eq_some_iff.1 hd
    constructor
    · rintro ⟨⟩
      exact .inl ⟨d, rfl, hdate⟩
    · rintro (⟨d', rfl, hd'⟩ | ⟨t, utc, rfl, ht⟩)
      · rw [← Literal.date?_eq_some_iff, hd] at hd'
        rw [Option.some.inj hd']
      · exact absurd ht hdate.not_isDateTime
  | none =>
    simp only [Option.map_eq_some_iff, Prod.exists, Literal.dateTime?_eq_some_iff]
    constructor
    · rintro ⟨t, utc, ht, rfl⟩
      exact .inr ⟨t, utc, rfl, ht⟩
    · rintro (⟨d', rfl, hd'⟩ | ⟨t, utc, rfl, ht⟩)
      · rw [← Literal.date?_eq_some_iff, hd] at hd'
        cases hd'
      · exact ⟨t, utc, ht, rfl⟩

namespace DateValue

variable {v : DateValue}

/-- A text is the literal of a value exactly when its characters are. -/
theorem eq_text_iff : s = v.text ↔ s.toList = v.chars := by
  rw [text, ← String.toList_inj, String.toList_ofList]

/-- The mark is one more character. -/
theorem eq_text_append_iff :
    s = v.text ++ (if utc then "Z" else "") ↔ s.toList = v.chars ++ Literal.zulu utc := by
  rw [text, ← String.toList_inj, String.toList_append, String.toList_ofList]
  cases utc <;> rfl

/-- Only values of four-digit years are read. -/
theorem hasFourDigitYear_of_parse (h : parse s = .ok v) : v.calendarDate.HasFourDigitYear := by
  obtain ⟨d, rfl, hd⟩ | ⟨t, utc, rfl, ht⟩ := parse_eq_ok_iff.1 h
  · exact hd.hasFourDigitYear
  · exact (Literal.isDateTime_iff.1 ht).2

/-- **The values that are read back from their literals are those of four-digit years.** -/
theorem parse_text_eq_ok_iff : parse v.text = .ok v ↔ v.calendarDate.HasFourDigitYear := by
  refine ⟨hasFourDigitYear_of_parse, ?_⟩
  intro h
  rw [parse_eq_ok_iff, text, String.toList_ofList]
  cases v with
  | date d => exact .inl ⟨d, rfl, Literal.isDate_iff.2 ⟨rfl, h⟩⟩
  | dateTime t =>
    exact .inr ⟨t, false, rfl, Literal.isDateTime_iff.2 ⟨(List.append_nil _).symm, h⟩⟩

/-- **A value is written as it was read**, less the mark. -/
theorem toList_eq_of_parse (h : parse s = .ok v) : ∃ utc, s.toList = v.chars ++ Literal.zulu utc := by
  obtain ⟨d, rfl, hd⟩ | ⟨t, utc, rfl, ht⟩ := parse_eq_ok_iff.1 h
  · exact ⟨false, hd.eq_date.trans (List.append_nil _).symm⟩
  · exact ⟨utc, ht.eq_dateTime⟩

/-- A literal has digits, signs and the letter between date and time. -/
theorem mem_chars {c : Char} (h : c ∈ v.chars) : c.isDigit ∨ c = '-' ∨ c = '+' ∨ c = 'T' := by
  cases v with
  | date d => exact (Literal.mem_date h).imp_right fun hc => hc.imp_right .inl
  | dateTime t =>
    rcases List.mem_append.1 h with hd | hrest
    · exact (Literal.mem_date hd).imp_right fun hc => hc.imp_right .inl
    · rcases List.mem_cons.1 hrest with rfl | hw
      · exact .inr (.inr (.inr rfl))
      · exact .inl (Literal.isDigit_of_mem_time hw)

/-- The literal of a value has no mark of its own. -/
theorem not_mem_chars : 'Z' ∉ v.chars := by
  intro h
  exact absurd (mem_chars h) (by decide)

/-- A value whose year has not four digits is written with a sign. -/
theorem sign_mem_chars (h : ¬ v.calendarDate.HasFourDigitYear) :
    '-' ∈ v.chars ∨ '+' ∈ v.chars := by
  cases v with
  | date d => exact Literal.sign_mem_date h
  | dateTime t =>
    exact (Literal.sign_mem_date h).imp (List.mem_append_left _) (List.mem_append_left _)

/-- No literal that is read has a sign. -/
theorem not_mem_of_parse {c : Char} (h : parse s = .ok v) (hc : c = '-' ∨ c = '+') :
    c ∉ s.toList := by
  have hother : c.isDigit = false ∧ c ≠ 'T' ∧ c ≠ 'Z' := by
    rcases hc with rfl | rfl <;> decide
  obtain ⟨d, -, hd⟩ | ⟨t, utc, -, ht⟩ := parse_eq_ok_iff.1 h
  · exact hd.not_mem hother.1
  · exact ht.not_mem hother.1 hother.2.1 hother.2.2

/-- **The literal of a value is read as the value or refused**, for its year alone. -/
theorem parse_text_eq (v : DateValue) :
    parse v.text =
      if v.calendarDate.HasFourDigitYear then .ok v else .error (.dateTime v.text) := by
  split
  · next h => exact parse_text_eq_ok_iff.2 h
  · next h =>
    cases hread : read? v.text.toList with
    | none => rw [parse, hread]
    | some w =>
      have hparse : parse v.text = .ok w := by rw [parse, hread]
      have hsigns : '-' ∉ v.chars ∧ '+' ∉ v.chars := by
        rw [← eq_text_iff.1 rfl]
        exact ⟨not_mem_of_parse hparse (.inl rfl), not_mem_of_parse hparse (.inr rfl)⟩
      exact absurd (sign_mem_chars h) (not_or.2 hsigns)

end DateValue

/-! ## Reading and writing -/

/-- **Literals and values determine each other.** A text is read as a date exactly when it is
the literal of the date, eight digits that name a day which exists, and as an instant exactly
when it is the literal of the instant, with the mark or without it; the years are those of four
digits. So values and last instants of such years are read back as what they are, no text is
read both as a date and as an instant, and a value is written as it was read, less a final
mark. -/
theorem literals_determine_values :
    (∀ s d, (Date.parse s = .ok d ↔ s = (DateValue.date d).text ∧ d.HasFourDigitYear) ∧
      (Date.parse s = .ok d ↔ Literal.IsDate s.toList d)) ∧
    (∀ s t utc, Instant.parse s = .ok (t, utc) ↔
      s = (DateValue.dateTime t).text ++ (if utc then "Z" else "") ∧
        t.date.HasFourDigitYear) ∧
    (∀ v : DateValue, v.calendarDate.HasFourDigitYear → DateValue.parse v.text = .ok v) ∧
    (∀ u : Until, u.instant.date.HasFourDigitYear → Until.parse u.text = .ok u) ∧
    (∀ s, ¬ ((∃ d, Date.parse s = .ok d) ∧ ∃ t utc, Instant.parse s = .ok (t, utc))) ∧
    ∀ s v, DateValue.parse s = .ok v →
      (s = v.text ∨ s = v.text ++ "Z") ∧ 'Z' ∉ v.text.toList := by
  refine ⟨fun s d => ⟨?_, Date.parse_eq_ok_iff⟩, fun s t utc => ?_, fun v h => ?_, fun u h => ?_,
    fun s => ?_, fun s v h => ⟨?_, ?_⟩⟩
  · rw [Date.parse_eq_ok_iff, Literal.isDate_iff, DateValue.eq_text_iff]
    rfl
  · rw [Instant.parse_eq_ok_iff, Literal.isDateTime_iff, DateValue.eq_text_append_iff]
    rfl
  · exact DateValue.parse_text_eq_ok_iff.2 h
  · rw [Until.parse, Until.text, String.toList_ofList]
    exact Until.readPart_chars h
  · rintro ⟨⟨d, hd⟩, t, utc, ht⟩
    exact (Date.parse_eq_ok_iff.1 hd).not_isDateTime (Instant.parse_eq_ok_iff.1 ht)
  · obtain ⟨utc, hs⟩ := DateValue.toList_eq_of_parse h
    have hs := DateValue.eq_text_append_iff.2 hs
    cases utc with
    | false => exact .inl (hs.trans (String.append_empty))
    | true => exact .inr hs
  · rw [DateValue.text, String.toList_ofList]
    exact DateValue.not_mem_chars

/-- The first leap day and the last evening of the years with four digits. -/
theorem firstLeapDay_read_back :
    let v : DateValue := .date (Date.ymd 0 2 29)
    let u : Until := .dateTime ((Date.ymd 9999 12 31).atHour 23) true
    (v.calendarDate.HasFourDigitYear ∧ DateValue.parse v.text = .ok v) ∧
      u.instant.date.HasFourDigitYear ∧ Until.parse u.text = .ok u := by
  intro v u
  have hv : v.calendarDate.HasFourDigitYear := by decide
  have hu : u.instant.date.HasFourDigitYear := by decide
  exact ⟨⟨hv, literals_determine_values.2.2.1 v hv⟩, hu, literals_determine_values.2.2.2.1 u hu⟩

end Recurrence
