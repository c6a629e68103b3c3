import Recurrence.Proofs.Value.Literal
import Recurrence.Rule.Parts

/-!
# Reading parts back

A part is cut at its first `=`, and its value is read by the part that the name before
it names. Every value is read back from its text: frequencies and weekdays from their
names, numbers and weekday entries from what stands between the commas, the last
instant from its literal. So **a part that can be written is read back**
(`Part.read_chars`), and only such parts are read (`Part.writable_of_read`).
-/

namespace Recurrence

open Text

/-! ## Values -/

namespace Ranged

variable {lo hi : Int}

theorem plain_chars (a : Ranged lo hi) : Plain a.chars :=
  plain_integer a.val

theorem chars_ne_nil (a : Ranged lo hi) : a.chars ≠ [] := by
  unfold chars integer
  split
  · exact List.cons_ne_nil _ _
  · exact digits_ne_nil _

end Ranged

theorem Frequency.plain_name (f : Frequency) : Plain f.name.toList := by
  cases f <;> decide

theorem Weekday.plain_name (w : Weekday) : Plain w.name.toList := by
  cases w <;> decide

theorem Weekday.length_name (w : Weekday) : w.name.toList.length = 2 := by
  cases w <;> rfl

namespace DayEntry

theorem plain_chars (e : DayEntry) : Plain e.chars := by
  refine Plain.append ?_ e.weekday.plain_name
  cases e.ordinal with
  | none => exact Plain.nil
  | some n => exact n.plain_chars

/-- **A weekday entry is read back from its text.** -/
theorem read_chars (e : DayEntry) : read e.chars = .ok e := by
  obtain ⟨ordinal, weekday⟩ := e
  have hlen := weekday.length_name
  unfold read chars
  simp only [List.length_append, hlen, Nat.add_sub_cancel, List.drop_left, List.take_left,
    Weekday.ofName?_name]
  cases ordinal with
  | none => rfl
  | some n =>
    simp only [Option.map_some, Option.getD_some]
    split
    · next hnil => exact absurd hnil n.chars_ne_nil
    · rw [n.read?_chars]

end DayEntry

namespace Part

/-! ## Lists -/

/-- **What stands between the commas is read back**, one after the other. -/
theorem mapM_listed {α : Type} {write : α → List Char} {read : List Char → Except ParseError α}
    (hread : ∀ x, read (write x) = .ok x) (hplain : ∀ x, Plain (write x)) {xs : List α}
    (h : xs ≠ []) : ((listed write xs).splitOn ',').mapM read = .ok xs := by
  have hsplit : (listed write xs).splitOn ',' = xs.map write := by
    refine List.splitOn_intercalate ',' (fun l hl => ?_) (by simpa using h)
    obtain ⟨x, -, rfl⟩ := List.mem_map.1 hl
    exact (hplain x).not_mem (by decide)
  rw [hsplit, mapM_eq_ok_iff, List.forall₂_map_left_iff, List.forall₂_same]
  intro x _
  exact hread x

/-- A number is read back from its text. -/
theorem readNumber_chars {lo hi : Int} (n : Ranged lo hi) : readNumber n.chars = .ok n := by
  rw [readNumber, n.plain_chars.trim_eq, n.read?_chars]

theorem readNumbers_listed {lo hi : Int} {xs : List (Ranged lo hi)} (h : xs ≠ []) :
    readNumbers (listed Ranged.chars xs) = .ok xs :=
  mapM_listed readNumber_chars Ranged.plain_chars h

theorem readDays_listed {xs : List DayEntry} (h : xs ≠ []) :
    readDays (listed DayEntry.chars xs) = .ok xs := by
  refine mapM_listed ?_ DayEntry.plain_chars h
  intro e
  rw [e.plain_chars.trim_eq, e.read_chars]

/-- A list without entries is not read. -/
theorem ne_nil_of_mapM {α : Type} {read : List Char → Except ParseError α} {cs : List Char}
    {xs : List α} (h : (cs.splitOn ',').mapM read = .ok xs) : xs ≠ [] := by
  rintro rfl
  exact List.splitOn_ne_nil ',' cs (List.forall₂_nil_right_iff.1 (mapM_eq_ok_iff.1 h))

/-! ## Parts -/

/-- A key and a value whose text is cut into them again, and is not taken for a part
that has a meaning. -/
structure IsExtension (key value : String) : Prop where
  /-- The key is not one of the fourteen names. -/
  ne_text : ∀ name : PartName, key ≠ name.text
  /-- The key does not end early. -/
  equals_not_mem : '=' ∉ key.toList
  /-- The key is in one piece. -/
  semicolon_not_mem_key : ';' ∉ key.toList
  /-- The value is in one piece. -/
  semicolon_not_mem_value : ';' ∉ value.toList

/-- A key that is not one of the names is read as none. -/
theorem IsExtension.ofText?_eq {key value : String} (h : IsExtension key value) :
    PartName.ofText? key.toList = none := by
  cases hname : PartName.ofText? key.toList with
  | none => rfl
  | some name =>
    exact absurd (String.toList_inj.1 (PartName.eq_text_of_ofText? hname)) (h.ne_text name)

/-- The parts that are read back from their text: **lists have entries, the last
instant has a year of four digits, and extension parts are none of the others.** -/
def Writable : Part → Prop
  | endsAt u => u.instant.date.HasFourDigitYear
  | bySecond xs | byMinute xs | byHour xs | byMonth xs => xs ≠ []
  | byDay xs => xs ≠ []
  | byMonthDay xs | byWeekNo xs => xs ≠ []
  | byYearDay xs => xs ≠ []
  | bySetPos xs => xs ≠ []
  | extension key value => IsExtension key value
  | freq _ | count _ | interval _ | weekStart _ => True

/-- A part with a name is read by its name. -/
theorem read_pair (name : PartName) (value : List Char) :
    read (pair name value) = readValue name value := by
  have hcut : cut? '=' (pair name value) = some (name.text.toList, value) :=
    cut?_eq_some_iff.2 ⟨rfl, by cases name <;> decide⟩
  simp only [read, hcut, PartName.ofText?_text]

/-- **A part that can be written is read back from its text.** -/
theorem read_chars {part : Part} (h : part.Writable) : read part.chars = .ok part := by
  cases part with
  | extension key value =>
    have hcut : cut? '=' (extension key value).chars = some (key.toList, value.toList) :=
      cut?_eq_some_iff.2 ⟨rfl, h.equals_not_mem⟩
    simp only [read, hcut, h.ofText?_eq, String.ofList_toList]
  | freq f =>
    simp only [chars, read_pair, readValue, readFrequency, Frequency.ofName?_name]
    rfl
  | endsAt u =>
    simp only [chars, read_pair, readValue, Until.readPart_chars h]
    rfl
  | weekStart w =>
    simp only [chars, read_pair, readValue, readWeekday, Weekday.ofName?_name]
    rfl
  | count n | interval n =>
    simp only [chars, read_pair, readValue, readNumber_chars]
    rfl
  | byDay xs =>
    simp only [chars, read_pair, readValue, readDays_listed h]
    rfl
  | bySecond xs | byMinute xs | byHour xs | byMonth xs | byMonthDay xs | byWeekNo xs
  | byYearDay xs | bySetPos xs =>
    simp only [chars, read_pair, readValue, readNumbers_listed h]
    rfl

/-! ## Parts between semicolons -/

/-- The entries of a list have no semicolon in them. -/
theorem semicolon_not_mem_listed {α : Type} {write : α → List Char}
    (hplain : ∀ x, Plain (write x)) (xs : List α) : ';' ∉ listed write xs := by
  intro hc
  rcases mem_intercalate hc with hc | ⟨piece, hpiece, hc⟩
  · revert hc
    decide
  · obtain ⟨x, -, rfl⟩ := List.mem_map.1 hpiece
    exact (hplain x).not_mem (by decide) hc

/-- A part with a name has a semicolon in it only where its value has. -/
theorem semicolon_not_mem_pair {name : PartName} {value : List Char} (h : ';' ∉ value) :
    ';' ∉ pair name value := by
  have hname : ';' ∉ name.text.toList := by cases name <;> decide
  simp [pair, hname, h]

/-- **A part is in one piece**: no semicolon stands in its text. -/
theorem semicolon_not_mem_chars {part : Part} (h : part.Writable) : ';' ∉ part.chars := by
  have hsep : isPlain ';' = false := by decide
  cases part with
  | extension key value =>
    simp [chars, h.semicolon_not_mem_key, h.semicolon_not_mem_value]
  | freq f => exact semicolon_not_mem_pair (f.plain_name.not_mem hsep)
  | endsAt u => exact semicolon_not_mem_pair ((Until.plain_chars h).not_mem hsep)
  | weekStart w => exact semicolon_not_mem_pair (w.plain_name.not_mem hsep)
  | count n | interval n => exact semicolon_not_mem_pair (n.plain_chars.not_mem hsep)
  | byDay xs => exact semicolon_not_mem_pair (semicolon_not_mem_listed DayEntry.plain_chars xs)
  | bySecond xs | byMinute xs | byHour xs | byMonth xs | byMonthDay xs | byWeekNo xs
  | byYearDay xs | bySetPos xs =>
    exact semicolon_not_mem_pair (semicolon_not_mem_listed Ranged.plain_chars xs)

/-- The text of a part has at least its `=`. -/
theorem equals_mem_chars (part : Part) : '=' ∈ part.chars := by
  cases part <;> simp [chars, pair]

/-- What is made of something that is read has been read. -/
theorem map_eq_ok_iff {α β ε : Type} {make : α → β} {x : Except ε α} {b : β} :
    make <$> x = .ok b ↔ ∃ a, x = .ok a ∧ make a = b := by
  cases x with
  | error e => exact ⟨(nomatch ·), fun ⟨_, h, _⟩ => nomatch h⟩
  | ok a =>
    constructor
    · rintro ⟨⟩
      exact ⟨a, rfl, rfl⟩
    · rintro ⟨_, ⟨⟩, rfl⟩
      rfl

/-- **What is read can be written again.** -/
theorem writable_of_read {cs : List Char} {part : Part} (h : read cs = .ok part)
    (hcs : ';' ∉ cs) : part.Writable := by
  unfold read at h
  cases hcut : cut? '=' cs with
  | none =>
    rw [hcut] at h
    cases h
  | some p =>
    obtain ⟨key, value⟩ := p
    obtain ⟨rfl, hkey⟩ := cut?_eq_some_iff.1 hcut
    simp only [hcut] at h
    cases hname : PartName.ofText? key with
    | none =>
      rw [hname] at h
      cases h
      simp only [List.mem_append, List.mem_cons, not_or] at hcs
      refine ⟨?_, ?_, ?_, ?_⟩
      · -- A key that is one of the names would have been read as the name.
        intro name heq
        rw [← String.toList_ofList (l := key), heq, PartName.ofText?_text] at hname
        cases hname
      · rwa [String.toList_ofList]
      · rw [String.toList_ofList]
        exact hcs.1
      · rw [String.toList_ofList]
        exact hcs.2.2
    | some name =>
      rw [hname] at h
      cases name with
      | freq | count | interval | weekStart =>
        obtain ⟨a, -, rfl⟩ := map_eq_ok_iff.1 h
        trivial
      | endsAt =>
        obtain ⟨u, hu, rfl⟩ := map_eq_ok_iff.1 h
        exact Until.hasFourDigitYear_of_readPart hu
      | bySecond | byMinute | byHour | byDay | byMonthDay | byYearDay | byWeekNo | byMonth
      | bySetPos =>
        obtain ⟨xs, hxs, rfl⟩ := map_eq_ok_iff.1 h
        exact ne_nil_of_mapM hxs

end Part

end Recurrence
