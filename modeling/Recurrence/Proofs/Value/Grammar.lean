import Recurrence.Proofs.Value.Literal

/-!
# The grammar of literals

What the literals of dates and instants are, said without the readers: digits write a
number, fields of a fixed width write the year, the month and the day, and a time of day
follows after a `T`. **The readers accept these texts, no others, and with these values.**
That a literal names a day that exists, and an hour that a day has, is said by the type of
its value.
-/

namespace Recurrence

open Text

namespace Text

/-- Digits, at least one, and the number that they write. -/
structure IsNumeral (cs : List Char) (n : Nat) : Prop where
  /-- There are digits. -/
  ne_nil : cs ≠ []
  /-- There is nothing else. -/
  isDigit : ∀ c ∈ cs, c.isDigit
  /-- They are read from the left, each ten times what the next one counts. -/
  value : Nat.ofDigitChars 10 cs 0 = n

/-- **Numerals are read, with their numbers.** -/
theorem natural?_eq_some_iff {cs : List Char} {n : Nat} :
    natural? cs = some n ↔ IsNumeral cs n := by
  unfold natural?
  constructor
  · intro h
    split at h
    · next hdigits =>
      rw [Bool.and_eq_true, Bool.not_eq_true', List.isEmpty_eq_false_iff, List.all_eq_true]
        at hdigits
      exact ⟨hdigits.1, hdigits.2, Option.some.inj h⟩
    · cases h
  · rintro ⟨hne, hdigit, rfl⟩
    rw [if_pos]
    rw [Bool.and_eq_true, Bool.not_eq_true', List.isEmpty_eq_false_iff, List.all_eq_true]
    exact ⟨hne, hdigit⟩

/-- A character that is no digit does not occur in a numeral. -/
theorem IsNumeral.not_mem {cs : List Char} {n : Nat} (h : IsNumeral cs n) {c : Char}
    (hc : c.isDigit = false) : c ∉ cs := by
  intro hmem
  rw [h.isDigit c hmem] at hc
  cases hc

end Text

/-- A time is found by its own hour, minute and second and by no others. -/
theorem TimeOfDay.ofHms?_eq_some_iff {w : TimeOfDay} {h m s : Nat} :
    ofHms? h m s = some w ↔ w.hour = h ∧ w.minute = m ∧ w.second = s := by
  unfold ofHms?
  constructor
  · intro hw
    split at hw
    · cases hw
      exact ⟨rfl, rfl, rfl⟩
    · cases hw
  · rintro ⟨rfl, rfl, rfl⟩
    rw [dif_pos ⟨w.hour_lt, w.minute_lt, w.second_lt⟩]

namespace Literal

variable {cs : List Char} {d : Date} {w : TimeOfDay} {t : Instant} {utc : Bool}

/-! ## Fields -/

/-- A numeral of a fixed width. -/
def IsField (width : Nat) (cs : List Char) (n : Nat) : Prop :=
  cs.length = width ∧ IsNumeral cs n

theorem fixed?_eq_some_iff {width n : Nat} : fixed? width cs = some n ↔ IsField width cs n := by
  unfold fixed? IsField
  split
  · next hlen => simp only [natural?_eq_some_iff, hlen, true_and]
  · next hlen => simp only [hlen, false_and, reduceCtorEq]

/-- Where the first two of three fields end is known from their widths. -/
theorem fields_append {a b : Nat} {xs ys zs : List Char} (ha : xs.length = a) (hb : ys.length = b) :
    (xs ++ ys ++ zs).take a = xs ∧ ((xs ++ ys ++ zs).drop a).take b = ys ∧
      (xs ++ ys ++ zs).drop (a + b) = zs := by
  subst ha hb
  refine ⟨by simp, by simp, ?_⟩
  rw [← List.length_append, List.drop_left]

/-- A text consists of its three fields. -/
theorem take_append_drop_three (a b : Nat) (cs : List Char) :
    cs.take a ++ (cs.drop a).take b ++ cs.drop (a + b) = cs := by
  rw [List.append_assoc, ← List.drop_drop, List.take_append_drop, List.take_append_drop]

/-! ## Dates -/

/-- `YYYYMMDD`, and the day that it names. -/
inductive IsDate : List Char → Date → Prop
  | intro {year month monthDay : List Char} {y : Nat} {d : Date} :
    IsField 4 year y → IsField 2 month d.month → IsField 2 monthDay d.monthDay → d.year = y →
      IsDate (year ++ month ++ monthDay) d

/-- **The literals of the days that exist are read.** -/
theorem date?_eq_some_iff : date? cs = some d ↔ IsDate cs d := by
  simp only [date?, Option.bind_eq_bind, Option.bind_eq_some_iff, fixed?_eq_some_iff,
    Date.ofYmd?_eq_some_iff]
  constructor
  · rintro ⟨y, hy, m, hm, k, hk, hyear, rfl, rfl⟩
    rw [← take_append_drop_three 4 2 cs]
    exact .intro hy hm hk hyear
  · rintro ⟨hy, hm, hk, hyear⟩
    obtain ⟨hfirst, hsecond, hthird⟩ := fields_append hy.1 hm.1
    rw [hfirst, hsecond, hthird]
    exact ⟨_, hy, _, hm, _, hk, hyear, rfl, rfl⟩

/-- A date is written in digits only. -/
theorem IsDate.not_mem (h : IsDate cs d) {c : Char} (hc : c.isDigit = false) : c ∉ cs := by
  cases h with
  | intro hy hm hk _ =>
    simp only [List.mem_append, hy.2.not_mem hc, hm.2.not_mem hc, hk.2.not_mem hc, or_self,
      not_false_eq_true]

/-! ## Times of day -/

/-- `HHMMSS`, and the time that it names. -/
inductive IsTime : List Char → TimeOfDay → Prop
  | intro {hour minute second : List Char} {w : TimeOfDay} :
    IsField 2 hour w.hour → IsField 2 minute w.minute → IsField 2 second w.second →
      IsTime (hour ++ minute ++ second) w

/-- **The literals of the times that a day has are read.** -/
theorem time?_eq_some_iff : time? cs = some w ↔ IsTime cs w := by
  simp only [time?, Option.bind_eq_bind, Option.bind_eq_some_iff, fixed?_eq_some_iff,
    TimeOfDay.ofHms?_eq_some_iff]
  constructor
  · rintro ⟨h, hh, m, hm, s, hs, rfl, rfl, rfl⟩
    rw [← take_append_drop_three 2 2 cs]
    exact .intro hh hm hs
  · rintro ⟨hh, hm, hs⟩
    obtain ⟨hfirst, hsecond, hthird⟩ := fields_append hh.1 hm.1
    rw [hfirst, hsecond, hthird]
    exact ⟨_, hh, _, hm, _, hs, rfl, rfl, rfl⟩

/-- A time is written in digits only. -/
theorem IsTime.not_mem (h : IsTime cs w) {c : Char} (hc : c.isDigit = false) : c ∉ cs := by
  cases h with
  | intro hh hm hs =>
    simp only [List.mem_append, hh.2.not_mem hc, hm.2.not_mem hc, hs.2.not_mem hc, or_self,
      not_false_eq_true]

/-! ## Instants -/

/-- `YYYYMMDDTHHMMSS`, with the mark `Z` or without it. -/
inductive IsDateTime : List Char → Instant → Bool → Prop
  | intro {day clock : List Char} {t : Instant} (utc : Bool) :
    IsDate day t.date → IsTime clock t.time →
      IsDateTime (day ++ 'T' :: (clock ++ zulu utc)) t utc

/-- **The literals of instants are read**, with their marks. -/
theorem dateTime?_eq_some_iff : dateTime? cs = some (t, utc) ↔ IsDateTime cs t utc := by
  constructor
  · intro h
    obtain ⟨⟨day, after⟩, hcut, hread⟩ := Option.bind_eq_some_iff.1 h
    obtain ⟨d, hd, hread⟩ := Option.bind_eq_some_iff.1 hread
    obtain ⟨w, hw, hread⟩ := Option.bind_eq_some_iff.1 hread
    change time? (stripZulu after).1 = some w at hw
    change some (⟨d, w⟩, (stripZulu after).2) = some (t, utc) at hread
    cases hread
    have hcs : cs = day ++ 'T' :: ((stripZulu after).1 ++ zulu (stripZulu after).2) := by
      rw [stripZulu_fst_append]
      exact (cut?_eq_some_iff.1 hcut).1
    rw [hcs]
    exact .intro (t := ⟨d, w⟩) _ (date?_eq_some_iff.1 hd) (time?_eq_some_iff.1 hw)
  · rintro ⟨-, hd, hw⟩
    have hcut : ∀ rest, cut? 'T' (_ ++ 'T' :: rest) = some (_, rest) := fun rest =>
      cut?_eq_some_iff.2 ⟨rfl, hd.not_mem (by decide)⟩
    simp only [dateTime?, hcut, stripZulu_append (hw.not_mem (by decide)), date?_eq_some_iff.2 hd,
      time?_eq_some_iff.2 hw, Option.bind_eq_bind, Option.bind_some]

/-- An instant has its `T`. -/
theorem IsDateTime.mem (h : IsDateTime cs t utc) : 'T' ∈ cs := by
  cases h
  simp

end Literal

namespace Until

variable {cs : List Char} {u : Until}

/-- The literal of a date or of an instant. -/
inductive IsLiteral : List Char → Until → Prop
  | date {cs : List Char} {d : Date} : Literal.IsDate cs d → IsLiteral cs (.date d)
  | dateTime {cs : List Char} {t : Instant} {utc : Bool} :
    Literal.IsDateTime cs t utc → IsLiteral cs (.dateTime t utc)

/-- **The literals of dates and of instants are read**, each as what it is: a date has no
`T` and an instant has one. -/
theorem read?_eq_some_iff : read? cs = some u ↔ IsLiteral cs u := by
  have hdisjoint : ∀ {d t utc}, Literal.IsDate cs d → ¬ Literal.IsDateTime cs t utc :=
    fun hd ht => hd.not_mem (by decide) ht.mem
  unfold read?
  cases hdate : Literal.date? cs with
  | some d =>
    have hd := Literal.date?_eq_some_iff.1 hdate
    constructor
    · rintro ⟨⟩
      exact .date hd
    · rintro (hd' | ht)
      · rw [← Literal.date?_eq_some_iff, hdate] at hd'
        rw [Option.some.inj hd']
      · exact absurd ht (hdisjoint hd)
  | none =>
    simp only [Option.map_eq_some_iff, Prod.exists, Literal.dateTime?_eq_some_iff]
    constructor
    · rintro ⟨t, utc, ht, rfl⟩
      exact .dateTime ht
    · rintro (hd | ht)
      · rw [← Literal.date?_eq_some_iff, hdate] at hd
        cases hd
      · exact ⟨_, _, ht, rfl⟩

theorem readPart_eq_ok_iff : readPart cs = .ok u ↔ IsLiteral cs u := by
  rw [← read?_eq_some_iff, readPart]
  cases read? cs <;> simp

end Until

end Recurrence
