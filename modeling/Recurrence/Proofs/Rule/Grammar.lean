import Recurrence.Proofs.Rule.Part
import Recurrence.Proofs.Value.Grammar

/-!
# The grammar of parts

What the parts of a rule look like, said without the readers: a frequency or a weekday is
named in capitals or small letters, a number is a decimal of its range between blank
characters, a list has such entries between its commas, and an entry with a weekday ends
in the name of the weekday. `Part.Denotes` has one case per name. **A part is read exactly
when its value has the form that its name asks for**, and a part with another name is read
with any value (`Part.read_eq_ok_iff`).
-/

namespace Recurrence

open Text

/-! ## Names -/

namespace Text

/-- A text with a given name has its length. -/
theorem length_of_isName {name : String} {cs : List Char} (h : isName name cs) :
    cs.length = name.toList.length := by
  rw [← eq_of_beq h, List.length_map]

/-- **What is named is found**, where everything is found by its own name: capitals and
small letters make no difference. -/
theorem named?_eq_some_iff {α : Type} {all : List α} {name : α → String}
    (hread : ∀ a, named? all name (name a).toList = some a) {cs : List Char} {a : α} :
    named? all name cs = some a ↔ isName (name a) cs := by
  have hnamed : ∀ {ds}, named? all name ds = some a → isName (name a) ds := by
    intro ds hds
    exact List.find?_some (p := fun b => isName (name b) ds) hds
  refine ⟨hnamed, fun h => ?_⟩
  have hupper : cs.map Char.toUpper = (name a).toList.map Char.toUpper :=
    (eq_of_beq h).trans (eq_of_beq (hnamed (hread a))).symm
  rw [← hread a]
  simp only [named?, isName, hupper]

end Text

theorem Frequency.ofName?_eq_some_iff {cs : List Char} {f : Frequency} :
    ofName? cs = some f ↔ isName f.name cs :=
  named?_eq_some_iff ofName?_name

theorem Weekday.ofName?_eq_some_iff {cs : List Char} {w : Weekday} :
    ofName? cs = some w ↔ isName w.name cs :=
  named?_eq_some_iff ofName?_name

namespace PartName

variable {cs : List Char}

/-- **A text names a part only as the part is written.** -/
theorem ofText?_eq_some_iff {name : PartName} : ofText? cs = some name ↔ cs = name.text.toList := by
  constructor
  · exact eq_text_of_ofText?
  · rintro rfl
    exact ofText?_text name

theorem ofText?_eq_none_iff : ofText? cs = none ↔ ∀ name : PartName, cs ≠ name.text.toList := by
  simp only [Option.eq_none_iff_forall_ne_some, ne_eq, ofText?_eq_some_iff]

end PartName

/-! ## Numbers -/

namespace Ranged

variable {lo hi : Int} {cs : List Char} {a : Ranged lo hi}

/-- The decimal text of a number: digits, with a plus sign before them or without one, or
with a minus sign **where the range has negative numbers.** -/
inductive IsDecimal : List Char → Ranged lo hi → Prop
  | unsigned {ds : List Char} {n : Nat} {a : Ranged lo hi} :
    IsNumeral ds n → a.val = n → IsDecimal ds a
  | plus {ds : List Char} {n : Nat} {a : Ranged lo hi} :
    IsNumeral ds n → a.val = n → IsDecimal ('+' :: ds) a
  | minus {ds : List Char} {n : Nat} {a : Ranged lo hi} :
    lo < 0 → IsNumeral ds n → a.val = -n → IsDecimal ('-' :: ds) a

/-- Digits are read as the number that is made of them. -/
theorem natural?_bind_eq_some_iff {make : Nat → Int} :
    ((natural? cs).bind fun n => ofInt? (make n)) = some a ↔
      ∃ n, IsNumeral cs n ∧ a.val = make n := by
  simp only [Option.bind_eq_some_iff, natural?_eq_some_iff, ofInt?_eq_some_iff]

/-- **Decimals of the range are read, with their numbers.** -/
theorem read?_eq_some_iff : read? cs = some a ↔ IsDecimal cs a := by
  unfold read?
  constructor
  · intro h
    split at h
    · obtain ⟨n, hn, ha⟩ := natural?_bind_eq_some_iff.1 h
      exact .plus hn ha
    · split at h
      · next hlo =>
        obtain ⟨n, hn, ha⟩ := natural?_bind_eq_some_iff.1 h
        exact .minus hlo hn ha
      · cases h
    · obtain ⟨n, hn, ha⟩ := natural?_bind_eq_some_iff.1 h
      exact .unsigned hn ha
  · intro h
    cases h with
    | unsigned hn ha =>
      -- A numeral begins with no sign.
      split
      · exact absurd List.mem_cons_self (hn.not_mem (by decide))
      · exact absurd List.mem_cons_self (hn.not_mem (by decide))
      · exact natural?_bind_eq_some_iff.2 ⟨_, hn, ha⟩
    | plus hn ha => exact natural?_bind_eq_some_iff.2 ⟨_, hn, ha⟩
    | minus hlo hn ha =>
      simp only [if_pos hlo]
      exact natural?_bind_eq_some_iff.2 ⟨_, hn, ha⟩

/-- A decimal has digits. -/
theorem IsDecimal.ne_nil (h : IsDecimal cs a) : cs ≠ [] := by
  cases h with
  | unsigned hn _ => exact hn.ne_nil
  | plus | minus => exact List.cons_ne_nil _ _

end Ranged

/-! ## Weekday entries -/

namespace DayEntry

variable {cs : List Char} {e : DayEntry}

/-- The text of a weekday entry: the name of the weekday, and before it the ordinal, if
there is one. -/
inductive IsDayEntry : List Char → DayEntry → Prop
  | every {name : List Char} {w : Weekday} : isName w.name name → IsDayEntry name ⟨none, w⟩
  | nth {ordinal name : List Char} {n : SignedWord} {w : Weekday} :
    n.IsDecimal ordinal → isName w.name name → IsDayEntry (ordinal ++ name) ⟨some n, w⟩

/-- **Weekday entries are read**: their names have two letters, so that what is read before
the last two characters is the ordinal. -/
theorem read_eq_ok_iff : read cs = .ok e ↔ IsDayEntry cs e := by
  constructor
  · intro h
    have hcs := List.take_append_drop (cs.length - 2) cs
    cases hname : Weekday.ofName? (cs.drop (cs.length - 2)) with
    | none =>
      simp only [read, hname] at h
      cases h
    | some w =>
      have hw := Weekday.ofName?_eq_some_iff.1 hname
      cases hordinal : cs.take (cs.length - 2) with
      | nil =>
        simp only [read, hname, hordinal] at h
        cases h
        rw [← hcs, hordinal]
        exact .every hw
      | cons c ds =>
        simp only [read, hname, hordinal] at h
        split at h
        · cases h
        · next n hread =>
          cases h
          rw [← hcs, hordinal]
          exact .nth (Ranged.read?_eq_some_iff.1 hread) hw
  · intro h
    have hlen : ∀ {w : Weekday} {name : List Char}, isName w.name name → name.length = 2 :=
      fun hw => (length_of_isName hw).trans (Weekday.length_name _)
    cases h with
    | every hw =>
      simp only [read, hlen hw, Nat.sub_self, List.drop_zero, List.take_zero,
        Weekday.ofName?_eq_some_iff.2 hw]
    | nth hn hw =>
      simp only [read, List.length_append, hlen hw, Nat.add_sub_cancel, List.drop_left,
        List.take_left, Weekday.ofName?_eq_some_iff.2 hw]
      split
      · exact absurd rfl hn.ne_nil
      · rw [Ranged.read?_eq_some_iff.2 hn]

end DayEntry

namespace Part

variable {cs : List Char} {name : PartName} {part : Part}

/-! ## Values -/

/-- A number between blank characters. -/
def IsNumber {lo hi : Int} (cs : List Char) (n : Ranged lo hi) : Prop :=
  n.IsDecimal (trim cs)

/-- Numbers separated by commas. There is a text before every comma and after the last,
and each of them is a number. -/
def IsNumbers {lo hi : Int} (cs : List Char) (xs : List (Ranged lo hi)) : Prop :=
  List.Forall₂ IsNumber (cs.splitOn ',') xs

/-- Weekday entries separated by commas, each between blank characters. -/
def IsDays (cs : List Char) (xs : List DayEntry) : Prop :=
  List.Forall₂ (fun entry e => DayEntry.IsDayEntry (trim entry) e) (cs.splitOn ',') xs

/-- The value of a part, in the form that the name of the part asks for. -/
inductive Denotes : PartName → List Char → Part → Prop
  | freq {cs : List Char} {f : Frequency} : isName f.name cs → Denotes .freq cs (.freq f)
  | endsAt {cs : List Char} {u : Until} : u.IsLiteral cs → Denotes .endsAt cs (.endsAt u)
  | count {cs : List Char} {n : Word} : IsNumber cs n → Denotes .count cs (.count n)
  | interval {cs : List Char} {n : Word} : IsNumber cs n → Denotes .interval cs (.interval n)
  | weekStart {cs : List Char} {w : Weekday} :
    isName w.name cs → Denotes .weekStart cs (.weekStart w)
  | bySecond {cs : List Char} {xs : List Octet} :
    IsNumbers cs xs → Denotes .bySecond cs (.bySecond xs)
  | byMinute {cs : List Char} {xs : List Octet} :
    IsNumbers cs xs → Denotes .byMinute cs (.byMinute xs)
  | byHour {cs : List Char} {xs : List Octet} : IsNumbers cs xs → Denotes .byHour cs (.byHour xs)
  | byDay {cs : List Char} {xs : List DayEntry} : IsDays cs xs → Denotes .byDay cs (.byDay xs)
  | byMonthDay {cs : List Char} {xs : List SignedOctet} :
    IsNumbers cs xs → Denotes .byMonthDay cs (.byMonthDay xs)
  | byYearDay {cs : List Char} {xs : List SignedShort} :
    IsNumbers cs xs → Denotes .byYearDay cs (.byYearDay xs)
  | byWeekNo {cs : List Char} {xs : List SignedOctet} :
    IsNumbers cs xs → Denotes .byWeekNo cs (.byWeekNo xs)
  | byMonth {cs : List Char} {xs : List Octet} : IsNumbers cs xs → Denotes .byMonth cs (.byMonth xs)
  | bySetPos {cs : List Char} {xs : List SignedWord} :
    IsNumbers cs xs → Denotes .bySetPos cs (.bySetPos xs)

theorem readFrequency_eq_ok_iff {f : Frequency} : readFrequency cs = .ok f ↔ isName f.name cs := by
  rw [← Frequency.ofName?_eq_some_iff, readFrequency]
  cases Frequency.ofName? cs <;> simp

theorem readWeekday_eq_ok_iff {w : Weekday} : readWeekday cs = .ok w ↔ isName w.name cs := by
  rw [← Weekday.ofName?_eq_some_iff, readWeekday]
  cases Weekday.ofName? cs <;> simp

section Numbers

variable {lo hi : Int}

theorem readNumber_eq_ok_iff {n : Ranged lo hi} : readNumber cs = .ok n ↔ IsNumber cs n := by
  rw [IsNumber, ← Ranged.read?_eq_some_iff, readNumber]
  cases (Ranged.read? (trim cs) : Option (Ranged lo hi)) <;> simp

theorem readNumbers_eq_ok_iff {xs : List (Ranged lo hi)} :
    readNumbers cs = .ok xs ↔ IsNumbers cs xs := by
  simp only [readNumbers, mapM_eq_ok_iff, readNumber_eq_ok_iff, IsNumbers]

end Numbers

theorem readDays_eq_ok_iff {xs : List DayEntry} : readDays cs = .ok xs ↔ IsDays cs xs := by
  simp only [readDays, mapM_eq_ok_iff, DayEntry.read_eq_ok_iff, IsDays]

/-- **A value is read exactly when it has the form that its name asks for.** -/
theorem readValue_eq_ok_iff : readValue name cs = .ok part ↔ Denotes name cs part := by
  constructor
  · intro h
    cases name with
    | freq =>
      obtain ⟨f, hf, rfl⟩ := map_eq_ok_iff.1 h
      exact .freq (readFrequency_eq_ok_iff.1 hf)
    | endsAt =>
      obtain ⟨u, hu, rfl⟩ := map_eq_ok_iff.1 h
      exact .endsAt (Until.readPart_eq_ok_iff.1 hu)
    | weekStart =>
      obtain ⟨w, hw, rfl⟩ := map_eq_ok_iff.1 h
      exact .weekStart (readWeekday_eq_ok_iff.1 hw)
    | byDay =>
      obtain ⟨xs, hxs, rfl⟩ := map_eq_ok_iff.1 h
      exact .byDay (readDays_eq_ok_iff.1 hxs)
    | count | interval =>
      obtain ⟨n, hn, rfl⟩ := map_eq_ok_iff.1 h
      constructor
      exact readNumber_eq_ok_iff.1 hn
    | bySecond | byMinute | byHour | byMonthDay | byYearDay | byWeekNo | byMonth | bySetPos =>
      obtain ⟨xs, hxs, rfl⟩ := map_eq_ok_iff.1 h
      constructor
      exact readNumbers_eq_ok_iff.1 hxs
  · intro h
    cases h with
    | freq hf => exact map_eq_ok_iff.2 ⟨_, readFrequency_eq_ok_iff.2 hf, rfl⟩
    | endsAt hu => exact map_eq_ok_iff.2 ⟨_, Until.readPart_eq_ok_iff.2 hu, rfl⟩
    | weekStart hw => exact map_eq_ok_iff.2 ⟨_, readWeekday_eq_ok_iff.2 hw, rfl⟩
    | byDay hxs => exact map_eq_ok_iff.2 ⟨_, readDays_eq_ok_iff.2 hxs, rfl⟩
    | count hn | interval hn => exact map_eq_ok_iff.2 ⟨_, readNumber_eq_ok_iff.2 hn, rfl⟩
    | bySecond hxs | byMinute hxs | byHour hxs | byMonthDay hxs | byYearDay hxs | byWeekNo hxs
    | byMonth hxs | bySetPos hxs =>
      exact map_eq_ok_iff.2 ⟨_, readNumbers_eq_ok_iff.2 hxs, rfl⟩

/-- A value denotes one part. -/
theorem Denotes.unique {part' : Part} (h : Denotes name cs part) (h' : Denotes name cs part') :
    part = part' := by
  rw [← readValue_eq_ok_iff] at h h'
  exact Except.ok.inj (h.symm.trans h')

/-! ## Parts -/

/-- An entry of a rule: what stands before the first `=` and what stands after it. -/
abbrev KeyValue := List Char × List Char

/-- What an entry denotes: a part that has a meaning, **or a part that is kept as it
stands.** -/
inductive EntryDenotes : KeyValue → Part → Prop
  | known {key value : List Char} {name : PartName} {part : Part} :
    key = name.text.toList → Denotes name value part → EntryDenotes (key, value) part
  | extension {key value : List Char} :
    (∀ name : PartName, key ≠ name.text.toList) →
      EntryDenotes (key, value) (.extension (String.ofList key) (String.ofList value))

/-- **A part is read exactly when it has an `=` and its entry denotes it.** -/
theorem read_eq_ok_iff : read cs = .ok part ↔ ∃ e, cut? '=' cs = some e ∧ EntryDenotes e part := by
  unfold read
  cases hcut : cut? '=' cs with
  | none => simp
  | some e =>
    obtain ⟨key, value⟩ := e
    simp only [Option.some.injEq, exists_eq_left']
    cases hname : PartName.ofText? key with
    | some name =>
      simp only [readValue_eq_ok_iff]
      constructor
      · exact .known (PartName.eq_text_of_ofText? hname)
      · rintro (⟨hkey, h⟩ | hkey)
        · rw [← PartName.ofText?_eq_some_iff, hname] at hkey
          cases hkey
          exact h
        · exact absurd (PartName.eq_text_of_ofText? hname) (hkey name)
    | none =>
      rw [PartName.ofText?_eq_none_iff] at hname
      simp only [Except.ok.injEq]
      constructor
      · rintro rfl
        exact .extension hname
      · rintro (⟨hkey, -⟩ | -)
        · exact absurd hkey (hname _)
        · rfl

end Part

end Recurrence
