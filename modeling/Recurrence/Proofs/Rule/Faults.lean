import Recurrence.Proofs.Rule.LastValues

/-!
# The faults of a text

A text that is no rule is refused for one fault. **The leftmost part that is not well formed
is at fault**, and in a list of numbers or weekdays the leftmost entry; only where all parts
are well formed are the numbers looked at that count, interval, count, months and seconds in
this order (`Rule.parse_eq_error_iff_fault`). `Part.Fault` says what the error names: the
whole part, the whole value or the entry, a piece of the text in every case
(`Part.Fault.namesPiece`).
-/

namespace Recurrence

open Text

/-! ## First faults -/

/-- A list is refused for the fault of its first element that is not well formed. -/
def FirstFault {α : Type} (wellFormed : α → Prop) (fault : α → ParseError → Prop) (xs : List α)
    (e : ParseError) : Prop :=
  ∃ before x after, xs = before ++ x :: after ∧ (∀ y ∈ before, wellFormed y) ∧
    ¬ wellFormed x ∧ fault x e

namespace FirstFault

variable {α : Type} {wellFormed : α → Prop} {fault : α → ParseError → Prop} {x : α} {xs : List α}
  {e : ParseError}

theorem not_nil : ¬ FirstFault wellFormed fault [] e := by
  rintro ⟨before, x, after, h, -⟩
  simp at h

/-- The first element is at fault, or it is well formed and there is a first fault after it. -/
theorem cons_iff :
    FirstFault wellFormed fault (x :: xs) e ↔
      (¬ wellFormed x ∧ fault x e) ∨ wellFormed x ∧ FirstFault wellFormed fault xs e := by
  constructor
  · rintro ⟨before, y, after, h, hbefore, hy⟩
    cases before with
    | nil =>
      cases h
      exact .inl hy
    | cons z before =>
      cases h
      rw [List.forall_mem_cons] at hbefore
      exact .inr ⟨hbefore.1, before, y, after, rfl, hbefore.2, hy⟩
  · rintro (hx | ⟨hx, before, y, after, rfl, hbefore, hy⟩)
    · exact ⟨[], x, xs, rfl, by simp, hx⟩
    · exact ⟨x :: before, y, after, rfl, List.forall_mem_cons.2 ⟨hx, hbefore⟩, hy⟩

/-- Some element is at fault. -/
theorem exists_fault (h : FirstFault wellFormed fault xs e) : ∃ x ∈ xs, fault x e := by
  obtain ⟨before, x, after, rfl, -, -, hx⟩ := h
  exact ⟨x, by simp, hx⟩

/-- **Reading a list fails with the fault of its first element that is not read.** -/
theorem mapM_eq_error_iff {β : Type} {read : α → Except ParseError β}
    (hok : ∀ x, (∃ y, read x = .ok y) ↔ wellFormed x)
    (herror : ∀ x e, read x = .error e ↔ fault x e) :
    xs.mapM read = .error e ↔ FirstFault wellFormed fault xs e := by
  induction xs with
  | nil => simp [pure, Except.pure, not_nil]
  | cons x xs ih =>
    rw [List.mapM_cons, cons_iff, ← ih, ← hok, ← herror]
    cases hx : read x with
    | error d => simp [bind, Except.bind]
    | ok y => cases hxs : xs.mapM read <;> simp [bind, Except.bind, pure, Except.pure]

end FirstFault

/-! ## Texts without a meaning -/

/-- A text that denotes nothing. The error names it as it stands. -/
def Malformed {α : Type} (denotes : List Char → α → Prop) (make : String → ParseError)
    (cs : List Char) (e : ParseError) : Prop :=
  (∀ a, ¬ denotes cs a) ∧ e = make (String.ofList cs)

/-- What reads the texts that denote something, and has one error for the others. -/
theorem eq_error_iff_malformed {α : Type} {denotes : List Char → α → Prop}
    {make : String → ParseError} {cs : List Char} {read : Except ParseError α} {e : ParseError}
    (hok : ∀ a, read = .ok a ↔ denotes cs a)
    (herror : ∀ d, read = .error d → d = make (String.ofList cs)) :
    read = .error e ↔ Malformed denotes make cs e := by
  simp only [Malformed, ← hok]
  cases read with
  | error d => simp [herror d rfl, eq_comm]
  | ok a => simp

/-- Making something else of what is read changes no error. -/
theorem map_eq_error_iff {α β ε : Type} {make : α → β} {x : Except ε α} {e : ε} :
    make <$> x = .error e ↔ x = .error e := by
  cases x <;> simp

namespace DayEntry

variable {cs : List Char} {e : ParseError}

/-- The last two characters of a text name a weekday. -/
def EndsInWeekday (cs : List Char) : Prop :=
  ∃ digits c d, cs = digits ++ [c, d] ∧ ∃ w : Weekday, isName w.name [c, d]

/-- What is wrong with a text that is no weekday entry: **a number, where it ends in a
weekday**, and else the weekday. -/
inductive Fault (cs : List Char) (e : ParseError) : Prop
  | ordinal : EndsInWeekday cs → Malformed IsDayEntry .integer cs e → Fault cs e
  | weekday : ¬ EndsInWeekday cs → Malformed IsDayEntry .weekday cs e → Fault cs e

/-- The last two characters are what is read as the weekday. -/
theorem endsInWeekday_iff :
    EndsInWeekday cs ↔ ∃ w, Weekday.ofName? (cs.drop (cs.length - 2)) = some w := by
  constructor
  · rintro ⟨digits, c, d, rfl, w, hw⟩
    exact ⟨w, by simpa [Weekday.ofName?_eq_some_iff] using hw⟩
  · rintro ⟨w, hw⟩
    rw [Weekday.ofName?_eq_some_iff] at hw
    have hlen := (length_of_isName hw).trans (Weekday.length_name w)
    obtain ⟨c, d, hcd⟩ := List.length_eq_two.1 hlen
    exact ⟨cs.take (cs.length - 2), c, d, by rw [← hcd, List.take_append_drop], w, hcd ▸ hw⟩

/-- **An entry is refused for its number or for its weekday.** -/
theorem read_eq_error_iff : read cs = .error e ↔ Fault cs e := by
  by_cases hends : EndsInWeekday cs
  · have hread : read cs = .error e ↔ Malformed IsDayEntry .integer cs e := by
      refine eq_error_iff_malformed (fun _ => read_eq_ok_iff) ?_
      intro d hd
      obtain ⟨w, hw⟩ := endsInWeekday_iff.1 hends
      simp only [read, hw] at hd
      split at hd
      · cases hd
      · split at hd <;> cases hd
        rfl
    rw [hread]
    refine ⟨.ordinal hends, fun h => ?_⟩
    cases h with
    | ordinal _ h => exact h
    | weekday hnot _ => exact absurd hends hnot
  · have hread : read cs = .error e ↔ Malformed IsDayEntry .weekday cs e := by
      refine eq_error_iff_malformed (fun _ => read_eq_ok_iff) ?_
      intro d hd
      have hnone : Weekday.ofName? (cs.drop (cs.length - 2)) = none := by
        rw [Option.eq_none_iff_forall_ne_some]
        exact fun w hw => hends (endsInWeekday_iff.2 ⟨w, hw⟩)
      simp only [read, hnone] at hd
      cases hd
      rfl
    rw [hread]
    refine ⟨.weekday hends, fun h => ?_⟩
    cases h with
    | ordinal h _ => exact absurd h hends
    | weekday _ h => exact h

end DayEntry

namespace Part

variable {cs : List Char} {name : PartName} {e : ParseError}

/-! ## Values -/

/-- The first text between commas that is no number of a range. It is named **with its
blanks**. -/
def NumbersFault (lo hi : Int) (cs : List Char) (e : ParseError) : Prop :=
  FirstFault (fun entry => ∃ n : Ranged lo hi, IsNumber entry n)
    (Malformed (@IsNumber lo hi) .integer) (cs.splitOn ',') e

/-- The first text between commas that is no weekday entry. It is named **without its
blanks**. -/
def DaysFault (cs : List Char) (e : ParseError) : Prop :=
  FirstFault (fun entry => ∃ d, DayEntry.IsDayEntry (trim entry) d)
    (fun entry => DayEntry.Fault (trim entry)) (cs.splitOn ',') e

/-- What is wrong with a value, by the name of the part. -/
inductive ValueFault : PartName → List Char → ParseError → Prop
  | freq {cs : List Char} {e : ParseError} :
    Malformed (fun cs (f : Frequency) => isName f.name cs) .frequency cs e → ValueFault .freq cs e
  | endsAt {cs : List Char} {e : ParseError} :
    Malformed (fun cs (u : Until) => u.IsLiteral cs) .endsAt cs e → ValueFault .endsAt cs e
  | count {cs : List Char} {e : ParseError} :
    Malformed (@IsNumber 0 4294967295) .integer cs e → ValueFault .count cs e
  | interval {cs : List Char} {e : ParseError} :
    Malformed (@IsNumber 0 4294967295) .integer cs e → ValueFault .interval cs e
  | weekStart {cs : List Char} {e : ParseError} :
    Malformed (fun cs (w : Weekday) => isName w.name cs) .weekday cs e → ValueFault .weekStart cs e
  | bySecond {cs : List Char} {e : ParseError} :
    NumbersFault 0 255 cs e → ValueFault .bySecond cs e
  | byMinute {cs : List Char} {e : ParseError} :
    NumbersFault 0 255 cs e → ValueFault .byMinute cs e
  | byHour {cs : List Char} {e : ParseError} : NumbersFault 0 255 cs e → ValueFault .byHour cs e
  | byDay {cs : List Char} {e : ParseError} : DaysFault cs e → ValueFault .byDay cs e
  | byMonthDay {cs : List Char} {e : ParseError} :
    NumbersFault (-128) 127 cs e → ValueFault .byMonthDay cs e
  | byYearDay {cs : List Char} {e : ParseError} :
    NumbersFault (-32768) 32767 cs e → ValueFault .byYearDay cs e
  | byWeekNo {cs : List Char} {e : ParseError} :
    NumbersFault (-128) 127 cs e → ValueFault .byWeekNo cs e
  | byMonth {cs : List Char} {e : ParseError} : NumbersFault 0 255 cs e → ValueFault .byMonth cs e
  | bySetPos {cs : List Char} {e : ParseError} :
    NumbersFault (-2147483648) 2147483647 cs e → ValueFault .bySetPos cs e

theorem readFrequency_eq_error_iff :
    readFrequency cs = .error e ↔
      Malformed (fun cs (f : Frequency) => isName f.name cs) .frequency cs e := by
  refine eq_error_iff_malformed (fun _ => readFrequency_eq_ok_iff) ?_
  intro d hd
  unfold readFrequency at hd
  split at hd <;> cases hd
  rfl

theorem readWeekday_eq_error_iff :
    readWeekday cs = .error e ↔
      Malformed (fun cs (w : Weekday) => isName w.name cs) .weekday cs e := by
  refine eq_error_iff_malformed (fun _ => readWeekday_eq_ok_iff) ?_
  intro d hd
  unfold readWeekday at hd
  split at hd <;> cases hd
  rfl

theorem readUntil_eq_error_iff :
    Until.readPart cs = .error e ↔ Malformed (fun cs (u : Until) => u.IsLiteral cs) .endsAt cs e := by
  refine eq_error_iff_malformed (fun _ => Until.readPart_eq_ok_iff) ?_
  intro d hd
  unfold Until.readPart at hd
  split at hd <;> cases hd
  rfl

section Numbers

variable {lo hi : Int}

theorem readNumber_eq_error_iff :
    (readNumber cs : Except ParseError (Ranged lo hi)) = .error e ↔
      Malformed (@IsNumber lo hi) .integer cs e := by
  refine eq_error_iff_malformed (fun _ => readNumber_eq_ok_iff) ?_
  intro d hd
  unfold readNumber at hd
  split at hd <;> cases hd
  rfl

theorem readNumbers_eq_error_iff :
    (readNumbers cs : Except ParseError (List (Ranged lo hi))) = .error e ↔
      NumbersFault lo hi cs e :=
  FirstFault.mapM_eq_error_iff (fun _ => exists_congr fun _ => readNumber_eq_ok_iff)
    fun _ _ => readNumber_eq_error_iff

end Numbers

theorem readDays_eq_error_iff : readDays cs = .error e ↔ DaysFault cs e :=
  FirstFault.mapM_eq_error_iff (fun _ => exists_congr fun _ => DayEntry.read_eq_ok_iff)
    fun _ _ => DayEntry.read_eq_error_iff

/-- **A value is refused for what its name asks for.** -/
theorem readValue_eq_error_iff : readValue name cs = .error e ↔ ValueFault name cs e := by
  constructor
  · intro h
    cases name with
    | freq => exact .freq (readFrequency_eq_error_iff.1 (map_eq_error_iff.1 h))
    | endsAt => exact .endsAt (readUntil_eq_error_iff.1 (map_eq_error_iff.1 h))
    | weekStart => exact .weekStart (readWeekday_eq_error_iff.1 (map_eq_error_iff.1 h))
    | byDay => exact .byDay (readDays_eq_error_iff.1 (map_eq_error_iff.1 h))
    | count | interval =>
      constructor
      exact readNumber_eq_error_iff.1 (map_eq_error_iff.1 h)
    | bySecond | byMinute | byHour | byMonthDay | byYearDay | byWeekNo | byMonth | bySetPos =>
      constructor
      exact readNumbers_eq_error_iff.1 (map_eq_error_iff.1 h)
  · intro h
    cases h with
    | freq h => exact map_eq_error_iff.2 (readFrequency_eq_error_iff.2 h)
    | endsAt h => exact map_eq_error_iff.2 (readUntil_eq_error_iff.2 h)
    | weekStart h => exact map_eq_error_iff.2 (readWeekday_eq_error_iff.2 h)
    | byDay h => exact map_eq_error_iff.2 (readDays_eq_error_iff.2 h)
    | count h | interval h => exact map_eq_error_iff.2 (readNumber_eq_error_iff.2 h)
    | bySecond h | byMinute h | byHour h | byMonthDay h | byYearDay h | byWeekNo h | byMonth h
    | bySetPos h => exact map_eq_error_iff.2 (readNumbers_eq_error_iff.2 h)

/-! ## Parts -/

/-- A part that has an `=` and a value in the form that its name asks for. -/
def WellFormed (piece : List Char) : Prop :=
  ∃ key value, piece = key ++ '=' :: value ∧ '=' ∉ key ∧ ∃ part, EntryDenotes (key, value) part

/-- What is wrong with a part that is not well formed: it has no `=`, or its value is at
fault. -/
inductive Fault : List Char → ParseError → Prop
  | noEquals {piece : List Char} : '=' ∉ piece → Fault piece (.part (String.ofList piece))
  | value {name : PartName} {cs : List Char} {e : ParseError} :
    ValueFault name cs e → Fault (pair name cs) e

theorem exists_read_iff_wellFormed : (∃ part, read cs = .ok part) ↔ WellFormed cs := by
  simp only [read_eq_ok_iff, Prod.exists, cut?_eq_some_iff, WellFormed]
  constructor
  · rintro ⟨part, key, value, ⟨hcs, hkey⟩, h⟩
    exact ⟨key, value, hcs, hkey, part, h⟩
  · rintro ⟨key, value, hcs, hkey, part, h⟩
    exact ⟨part, key, value, ⟨hcs, hkey⟩, h⟩

/-- **A part is refused for its fault.** -/
theorem read_eq_error_iff : read cs = .error e ↔ Fault cs e := by
  constructor
  · intro h
    unfold read at h
    split at h
    · next hcut =>
      cases h
      exact .noEquals (cut?_eq_none_iff.1 hcut)
    · next key value hcut =>
      obtain ⟨rfl, -⟩ := cut?_eq_some_iff.1 hcut
      split at h
      · next name hname =>
        rw [PartName.eq_text_of_ofText? hname]
        exact .value (readValue_eq_error_iff.1 h)
      · cases h
  · intro h
    cases h with
    | noEquals hnot => simp only [read, cut?_eq_none_iff.2 hnot]
    | value hvalue => rw [read_pair, readValue_eq_error_iff.2 hvalue]

/-! ## What an error names -/

/-- The error names a piece of the text. -/
def NamesPiece (cs : List Char) (e : ParseError) : Prop :=
  (∀ name n, e ≠ .outOfRange name n) ∧ e.token.toList <:+: cs

/-- A piece of a piece is a piece. -/
theorem NamesPiece.mono {ds : List Char} (h : NamesPiece ds e) (hds : ds <:+: cs) :
    NamesPiece cs e :=
  ⟨h.1, h.2.trans hds⟩

/-- An error that is made of a text and names it. -/
def NamesText (make : String → ParseError) : Prop :=
  ∀ s, (∀ name n, make s ≠ .outOfRange name n) ∧ (make s).token = s

/-- A text without a meaning is named as a whole. -/
theorem NamesPiece.of_malformed {α : Type} {denotes : List Char → α → Prop}
    {make : String → ParseError} (h : Malformed denotes make cs e) (hmake : NamesText make) :
    NamesPiece cs e := by
  obtain ⟨-, rfl⟩ := h
  have hnamed : (make (String.ofList cs)).token.toList = cs := by
    rw [(hmake _).2, String.toList_ofList]
  exact ⟨(hmake _).1, [], [], by simp [hnamed]⟩

/-- Of a list an entry is named. -/
theorem NamesPiece.of_firstFault {sep : Char} {wellFormed : List Char → Prop}
    {fault : List Char → ParseError → Prop} {pieces : List (List Char)}
    (hpieces : pieces ⊆ cs.splitOn sep) (h : FirstFault wellFormed fault pieces e)
    (hfault : ∀ piece, fault piece e → NamesPiece piece e) : NamesPiece cs e := by
  obtain ⟨piece, hpiece, he⟩ := h.exists_fault
  exact (hfault piece he).mono (infix_of_mem_splitOn (hpieces hpiece))

/-- Of a value an entry is named, or the whole value. -/
theorem ValueFault.namesPiece (h : ValueFault name cs e) : NamesPiece cs e := by
  have hinteger : NamesText .integer := fun s => ⟨nofun, rfl⟩
  have hweekday : NamesText .weekday := fun s => ⟨nofun, rfl⟩
  cases h with
  | freq h => exact .of_malformed h fun s => ⟨nofun, rfl⟩
  | endsAt h => exact .of_malformed h fun s => ⟨nofun, rfl⟩
  | weekStart h => exact .of_malformed h hweekday
  | count h | interval h => exact .of_malformed h hinteger
  | byDay h =>
    refine .of_firstFault (List.Subset.refl _) h fun entry hentry => ?_
    refine NamesPiece.mono ?_ (infix_trim entry)
    cases hentry with
    | ordinal _ h => exact .of_malformed h hinteger
    | weekday _ h => exact .of_malformed h hweekday
  | bySecond h | byMinute h | byHour h | byMonthDay h | byYearDay h | byWeekNo h | byMonth h
  | bySetPos h =>
    exact .of_firstFault (List.Subset.refl _) h fun entry hentry => .of_malformed hentry hinteger

/-- **Whatever is wrong with a part, the error names a piece of it.** -/
theorem Fault.namesPiece (h : Fault cs e) : NamesPiece cs e := by
  cases h with
  | noEquals => exact ⟨nofun, by simp [ParseError.token]⟩
  | @value name value _ h =>
    have hvalue : value <:+: pair name value :=
      ((List.suffix_cons _ _).trans (List.suffix_append _ _)).isInfix
    exact h.namesPiece.mono hvalue

end Part

/-! ## Numbers without a meaning -/

namespace PartName

/-- The numbers that have a meaning for a part. -/
def Admits : PartName → Int → Prop
  | interval, n | count, n => 1 ≤ n
  | byMonth, n => 1 ≤ n ∧ n ≤ 12
  | bySecond, n => n ≤ 60
  | _, _ => True

/-- The parts whose numbers need a meaning, in the order in which they are looked at. -/
def limited : List PartName :=
  [interval, count, byMonth, bySecond]

end PartName

/-- A number without a meaning **in the value that counts for its name**; of a list, the
first one. -/
inductive OutOfRange (es : List Part.KeyValue) : PartName → Int → Prop
  | number {name : PartName} {value : List Char} {n : Word} : name = .interval ∨ name = .count →
      Part.lastValue? es name = some value → Part.IsNumber value n → ¬ name.Admits n.val →
      OutOfRange es name n.val
  | entry {name : PartName} {value : List Char} {before after : List Octet} {n : Octet} :
      name = .byMonth ∨ name = .bySecond → Part.lastValue? es name = some value →
      Part.IsNumbers value (before ++ n :: after) → (∀ k ∈ before, name.Admits k.val) →
      ¬ name.Admits n.val → OutOfRange es name n.val

/-- Of some names, the first that has a number without a meaning. -/
def RangeFault (es : List Part.KeyValue) (names : List PartName) (e : ParseError) : Prop :=
  FirstFault (fun name => ∀ n, ¬ OutOfRange es name n)
    (fun name e => ∃ n, OutOfRange es name n ∧ e = .outOfRange name n) names e

/-- One name is looked at before the names after it. -/
theorem RangeFault.or_eq_some_iff {es : List Part.KeyValue} {name : PartName}
    {names : List PartName} {o o' : Option ParseError} {e : ParseError}
    (ho : ∀ e, o = some e ↔ ∃ n, OutOfRange es name n ∧ e = .outOfRange name n)
    (ho' : ∀ e, o' = some e ↔ RangeFault es names e) :
    o.or o' = some e ↔ RangeFault es (name :: names) e := by
  have hnone : o = none ↔ ∀ n, ¬ OutOfRange es name n := by
    simp only [Option.eq_none_iff_forall_ne_some, ne_eq, ho, not_exists, not_and]
    exact ⟨fun h n hn => h _ n hn rfl, fun h e n hn _ => h n hn⟩
  have hfault : (∃ n, OutOfRange es name n ∧ e = .outOfRange name n) →
      ¬ ∀ n, ¬ OutOfRange es name n := fun ⟨n, hn, _⟩ h => h n hn
  rw [Option.or_eq_some_iff, RangeFault, FirstFault.cons_iff, and_iff_right_of_imp hfault, ho, ho',
    hnone, RangeFault]

namespace HasLastValues

variable {es : List Part.KeyValue} {name : PartName} {p : Parts} {e : ParseError}

/-- A list that is a part is the one that the last value denotes. -/
theorem eq_iff (h : HasLastValues es p) {α : Type} {make : List α → Part}
    (hmake : Function.Injective make) {xs ys : List α}
    (hxs : p.given? name = (Parts.ofEntries make xs).head?) (hys : ys ≠ []) :
    xs = ys ↔
      ∃ value, Part.lastValue? es name = some value ∧ Part.Denotes name value (make ys) := by
  rw [← h.given?_eq_some_iff, hxs]
  cases xs with
  | nil => simp [Parts.ofEntries, hys.symm]
  | cons x xs => simp [Parts.ofEntries, hmake.eq_iff]

/-- **Looking at a number**: it is at fault where the last value is a number without a
meaning. -/
theorem number_eq_some_iff (h : HasLastValues es p) (hname : name = .interval ∨ name = .count)
    {make : Word → Part} (hmake : Function.Injective make) {o : Option Word}
    (ho : p.given? name = o.map make)
    (hdenotes : ∀ {value n}, Part.Denotes name value (make n) ↔ Part.IsNumber value n)
    {bad : Word → Bool} (hbad : ∀ n, bad n ↔ ¬ name.Admits n.val) :
    (o.filter bad).map (fun n => ParseError.outOfRange name n.val) = some e ↔
      ∃ n, OutOfRange es name n ∧ e = .outOfRange name n := by
  simp only [Option.map_eq_some_iff, Option.filter_eq_some_iff, hbad, h.eq_some_iff hmake ho,
    hdenotes]
  constructor
  · rintro ⟨n, ⟨⟨value, hvalue, hnumber⟩, hn⟩, rfl⟩
    exact ⟨n.val, .number hname hvalue hnumber hn, rfl⟩
  · rintro ⟨k, hk, rfl⟩
    cases hk with
    | number _ hvalue hnumber hn => exact ⟨_, ⟨⟨_, hvalue, hnumber⟩, hn⟩, rfl⟩
    | entry hlist => rcases hname with rfl | rfl <;> simp at hlist

/-- **Looking at a list**: its first number without a meaning is at fault. -/
theorem entry_eq_some_iff (h : HasLastValues es p) (hname : name = .byMonth ∨ name = .bySecond)
    {make : List Octet → Part} (hmake : Function.Injective make) {xs : List Octet}
    (hxs : p.given? name = (Parts.ofEntries make xs).head?)
    (hdenotes : ∀ {value ns}, Part.Denotes name value (make ns) ↔ Part.IsNumbers value ns)
    {bad : Octet → Bool} (hbad : ∀ n, bad n ↔ ¬ name.Admits n.val) :
    (xs.find? bad).map (fun n => ParseError.outOfRange name n.val) = some e ↔
      ∃ n, OutOfRange es name n ∧ e = .outOfRange name n := by
  have hlist : ∀ {before after : List Octet} {n : Octet}, xs = before ++ n :: after ↔
      ∃ value, Part.lastValue? es name = some value ∧
        Part.IsNumbers value (before ++ n :: after) := by
    intro before after n
    rw [h.eq_iff hmake hxs (by simp)]
    simp only [hdenotes]
  have hgood : ∀ n : Octet, (!bad n) = true ↔ name.Admits n.val := by
    intro n
    rw [Bool.not_eq_true', ← Bool.not_eq_true, hbad, Classical.not_not]
  simp only [Option.map_eq_some_iff, List.find?_eq_some_iff_append, hbad, hgood, hlist]
  constructor
  · rintro ⟨n, ⟨hn, before, after, ⟨value, hvalue, hnumbers⟩, hbefore⟩, rfl⟩
    exact ⟨n.val, .entry hname hvalue hnumbers hbefore hn, rfl⟩
  · rintro ⟨k, hk, rfl⟩
    cases hk with
    | number hnumber => rcases hname with rfl | rfl <;> simp at hnumber
    | entry _ hvalue hnumbers hbefore hn =>
      exact ⟨_, ⟨hn, _, _, ⟨_, hvalue, hnumbers⟩, hbefore⟩, rfl⟩

/-- **Parts are refused for the first of their last values that has no meaning.** -/
theorem fault?_eq_some_iff (h : HasLastValues es p) :
    p.fault? = some e ↔ RangeFault es PartName.limited e := by
  simp only [Parts.fault?, Option.orElse_eq_orElse, Option.orElse_eq_or]
  rw [← Option.or_none (o := (p.bySecond.find? _).map _)]
  refine RangeFault.or_eq_some_iff (fun e => ?interval) fun e =>
    RangeFault.or_eq_some_iff (fun e => ?count) fun e =>
      RangeFault.or_eq_some_iff (fun e => ?byMonth) fun e =>
        RangeFault.or_eq_some_iff (fun e => ?bySecond) fun e => ?none
  case interval =>
    refine h.number_eq_some_iff (.inl rfl) (fun _ _ => Part.interval.inj) rfl ⟨?_, .interval⟩ ?_
    · intro hdenotes
      cases hdenotes with
      | interval hn => exact hn
    · simp [PartName.Admits]
  case count =>
    refine h.number_eq_some_iff (.inr rfl) (fun _ _ => Part.count.inj) rfl ⟨?_, .count⟩ ?_
    · intro hdenotes
      cases hdenotes with
      | count hn => exact hn
    · simp [PartName.Admits]
  case byMonth =>
    refine h.entry_eq_some_iff (.inl rfl) (fun _ _ => Part.byMonth.inj) rfl ⟨?_, .byMonth⟩ ?_
    · intro hdenotes
      cases hdenotes with
      | byMonth hns => exact hns
    · intro n
      simp only [PartName.Admits, Bool.or_eq_true, decide_eq_true_eq]
      omega
  case bySecond =>
    refine h.entry_eq_some_iff (.inr rfl) (fun _ _ => Part.bySecond.inj) rfl ⟨?_, .bySecond⟩ ?_
    · intro hdenotes
      cases hdenotes with
      | bySecond hns => exact hns
    · simp [PartName.Admits]
  case none => simp [RangeFault, FirstFault.not_nil]

end HasLastValues

/-! ## Reading -/

/-- The parts of a text: what stands between two semicolons, where that is not empty. -/
def Part.pieces (cs : List Char) : List (List Char) :=
  (cs.splitOn ';').filter fun piece => !piece.isEmpty

namespace Parts

variable {cs : List Char} {p : Parts} {e : ParseError}

/-- **Parts are read when every one of them is well formed.** -/
theorem exists_read_iff_wellFormed :
    (∃ p, read cs = .ok p) ↔ ∀ piece ∈ Part.pieces cs, Part.WellFormed piece := by
  simp only [read_eq_ok_iff, exists_comm (α := Parts), exists_and_left, exists_eq', and_true,
    exists_forall₂_iff, Part.exists_read_iff_wellFormed, Part.pieces]

/-- **And refused for the fault of the first that is not.** -/
theorem read_eq_error_iff :
    read cs = .error e ↔ FirstFault Part.WellFormed Part.Fault (Part.pieces cs) e := by
  rw [read, map_eq_error_iff]
  exact FirstFault.mapM_eq_error_iff (fun _ => Part.exists_read_iff_wellFormed)
    fun _ _ => Part.read_eq_error_iff

theorem build_eq_error_iff : p.build = .error e ↔ p.fault? = some e := by
  unfold build
  split
  · next h => rw [h, Except.error.injEq, Option.some.injEq]
  · next h => simp [h]

end Parts

namespace Rule

/-- **The error names the leftmost fault.** A text is refused for the first of its parts that
is not well formed, and the error then names a piece of the text; or all its parts are well
formed, and the error names the first part, in the order in which the parts are looked at,
whose last value has no meaning, and the first such number in it. -/
theorem parse_eq_error_iff_fault (s : String) :
    (∀ e, parse s = .error e ↔
      FirstFault Part.WellFormed Part.Fault (Part.pieces s.toList) e ∨
        (∀ piece ∈ Part.pieces s.toList, Part.WellFormed piece) ∧
          RangeFault (Part.entries s.toList) PartName.limited e) ∧
    (∀ e, FirstFault Part.WellFormed Part.Fault (Part.pieces s.toList) e →
      (∀ name n, e ≠ .outOfRange name n) ∧ e.token.toList <:+: s.toList) ∧
    (∀ e, RangeFault (Part.entries s.toList) PartName.limited e →
      ∃ name n, e = .outOfRange name n ∧ e.token.toList = Part.pair name (integer n)) := by
  refine ⟨fun e => ?_, fun e h => ?_, fun e h => ?_⟩
  · rw [← Parts.read_eq_error_iff, ← Parts.exists_read_iff_wellFormed, parse]
    cases hread : Parts.read s.toList with
    | error d => simp [bind, Except.bind]
    | ok p =>
      have hlast := Parts.hasLastValues_of_read hread
      simp [bind, Except.bind, Parts.build_eq_error_iff, hlast.fault?_eq_some_iff]
  · exact Part.NamesPiece.of_firstFault (List.filter_sublist.subset) h fun _ => Part.Fault.namesPiece
  · obtain ⟨name, -, n, -, rfl⟩ := h.exists_fault
    exact ⟨name, n, rfl, by simp [ParseError.token, Part.pair]⟩

/-- The blank entry of a list before a part without an `=`, and a thirteenth month after a
count of 0 that another count replaces. -/
theorem blankEntry_parse_eq_error :
    let s := "FREQ=DAILY;;BYMONTHDAY=1, ,x;COUNT"
    let t := "COUNT=0;BYMONTH=1,13,14;COUNT=3;BYSECOND=61"
    FirstFault Part.WellFormed Part.Fault (Part.pieces s.toList) (.integer " ") ∧
      " ".toList <:+: s.toList ∧
      (∀ piece ∈ Part.pieces t.toList, Part.WellFormed piece) ∧
      RangeFault (Part.entries t.toList) PartName.limited (.outOfRange .byMonth 13) ∧
      (ParseError.outOfRange .byMonth 13).token = "BYMONTH=13" := by
  intro s t
  have hs : parse s = .error (.integer " ") := by decide +kernel
  have ht : parse t = .error (.outOfRange .byMonth 13) := by decide +kernel
  obtain ⟨hsFault, hsPiece, hsRange⟩ := parse_eq_error_iff_fault s
  obtain ⟨htFault, htPiece, -⟩ := parse_eq_error_iff_fault t
  have hfirst : FirstFault Part.WellFormed Part.Fault (Part.pieces s.toList) (.integer " ") := by
    rcases (hsFault _).1 hs with h | ⟨-, h⟩
    · exact h
    · obtain ⟨name, n, hne, -⟩ := hsRange _ h
      cases hne
  rcases (htFault _).1 ht with h | ⟨hformed, hrange⟩
  · exact absurd rfl ((htPiece _ h).1 .byMonth 13)
  · exact ⟨hfirst, (hsPiece _ hfirst).2, hformed, hrange, by decide⟩

end Rule

end Recurrence
