import Recurrence.Command.Run
import Recurrence.Proofs.Command.Arguments
import Recurrence.Proofs.Expansion.Bounds
import Recurrence.Proofs.Text.Strings

/-!
# Reading the output back

A program that reads the output takes it apart: the lines of a text, the strings of an
array. **Both formats give back the literals that were put in**
(`OutputFormat.literals?_render`), and a literal is read as its value or, for its year
alone, refused. No value lies before the anchor, which is read and so has a year of four
digits; a value lies beyond year 9999 only when the end of its window does. Ends that are
read cannot, but the default end is computed: **a window that passes the end of year 9999
prints literals that nothing reads** (`Command.everySixMonths_not_read_back`).
-/

namespace Recurrence

/-! ## Literals -/

namespace DateValue

variable {v : DateValue} {c : Char}

theorem chars_ne_nil : v.chars ≠ [] := by
  have hpadded : Text.padded 2 v.calendarDate.monthDay ≠ [] := by
    simp [Text.padded, List.leftpad, Text.digits_ne_nil]
  cases v with
  | date d => exact fun h => hpadded (List.append_eq_nil_iff.1 h).2
  | dateTime t => simp [chars, Literal.dateTime]

/-- A literal needs no escapes. -/
theorem isUnescaped_of_mem_chars (h : c ∈ v.chars) : Text.isUnescaped c := by
  rcases mem_chars h with hdigit | rfl | rfl | rfl
  · have hrange : 32 ≤ c.toNat := Nat.le_trans (by decide) (Text.digit_bounds hdigit).1
    have hquote : c ≠ '"' := by
      rintro rfl
      exact absurd hdigit (by decide)
    have hescape : c ≠ '\\' := by
      rintro rfl
      exact absurd hdigit (by decide)
    simp [Text.isUnescaped, hrange, hquote, hescape]
  all_goals decide

/-- A literal stands on one line. -/
theorem newline_not_mem_chars : '\n' ∉ v.chars := by
  intro h
  exact absurd (isUnescaped_of_mem_chars h) (by decide)

/-- **Literals are read as their values, all or none of them.** -/
theorem mapM_parse_texts (l : DateList) :
    (l.texts.mapM parse).toOption =
      if ∀ v ∈ l.dates, v.calendarDate.HasFourDigitYear then some l.dates else none := by
  split
  · next h =>
    have hread : l.texts.mapM parse = .ok l.dates := by
      refine mapM_eq_ok_iff.2 (List.forall₂_map_left_iff.2 (List.forall₂_same.2 ?_))
      exact fun v hv => parse_text_eq_ok_iff.2 (h v hv)
    rw [hread]
    rfl
  · next h =>
    cases hread : l.texts.mapM parse with
    | error e => rfl
    | ok ws =>
      refine absurd ?_ h
      intro v hv
      obtain ⟨w, hw⟩ := exists_forall₂_iff.1 ⟨ws, mapM_eq_ok_iff.1 hread⟩ v.text
        (List.mem_map_of_mem hv)
      by_contra hyear
      rw [parse_text_eq, if_neg hyear] at hw
      cases hw

end DateValue

/-! ## Formats -/

namespace OutputFormat

/-- The literals of an output: the lines of a text, of which the empty one has none, or the
strings of an array. -/
def literals? (f : OutputFormat) (s : String) : Option (List String) :=
  match f with
  | text => some (if s = "" then [] else (s.toList.splitOn '\n').map String.ofList)
  | json => (Text.strings? s.toList).map (List.map String.ofList)

/-- The values of an output, if all its literals are read. -/
def readBack? (f : OutputFormat) (s : String) : Option (List DateValue) :=
  (f.literals? s).bind fun literals => (literals.mapM DateValue.parse).toOption

/-- The lines are the literals. -/
theorem splitOn_lines {l : DateList} (h : l.dates ≠ []) :
    (lines l).splitOn '\n' = l.dates.map DateValue.chars := by
  refine List.splitOn_intercalate '\n' ?_ (by simpa using h)
  intro cs hcs
  obtain ⟨v, -, rfl⟩ := List.mem_map.1 hcs
  exact DateValue.newline_not_mem_chars

theorem lines_eq_nil_iff {l : DateList} : lines l = [] ↔ l.dates = [] := by
  refine ⟨fun h => ?_, fun h => by rw [lines, h]; rfl⟩
  by_contra hne
  have hsplit := splitOn_lines hne
  rw [h, List.splitOn_nil] at hsplit
  obtain ⟨v, -, hv⟩ := List.mem_map.1 (hsplit ▸ List.mem_cons_self)
  exact DateValue.chars_ne_nil hv

/-- **An output has the literals of its values**, in their order. -/
theorem literals?_render (f : OutputFormat) (l : DateList) :
    f.literals? (f.render l) = some l.texts := by
  have htexts : (l.dates.map DateValue.chars).map String.ofList = l.texts := List.map_map
  cases f with
  | text =>
    rw [literals?, render, String.toList_ofList]
    split
    · next h =>
      have hnil : l.dates = [] := lines_eq_nil_iff.1 (by simpa using h)
      rw [DateList.texts, hnil, List.map_nil]
    · next h =>
      have hne : l.dates ≠ [] := fun hnil => h (by simp [lines_eq_nil_iff.2 hnil])
      rw [splitOn_lines hne, htexts]
  | json =>
    have harray : array l =
        '[' :: [','].intercalate ((l.dates.map DateValue.chars).map Text.quoted) ++ [']'] := by
      rw [array, List.map_map]
      rfl
    have hplain : ∀ cs ∈ l.dates.map DateValue.chars, ∀ c ∈ cs, Text.isUnescaped c := by
      intro cs hcs c hc
      obtain ⟨v, -, rfl⟩ := List.mem_map.1 hcs
      exact DateValue.isUnescaped_of_mem_chars hc
    rw [literals?, render, String.toList_ofList, harray, Text.strings?_array hplain,
      Option.map_some, htexts]

/-- **An output is read back whole, or not at all**: it is when all years have four digits. -/
theorem readBack?_render (f : OutputFormat) (l : DateList) :
    f.readBack? (f.render l) =
      if ∀ v ∈ l.dates, v.calendarDate.HasFourDigitYear then some l.dates else none := by
  rw [readBack?, literals?_render, Option.bind_some, DateValue.mapM_parse_texts]

end OutputFormat

/-! ## Years of the answers -/

/-- Values in a window lie between the year of the anchor and the years of the window's end
and of the rule's last instant. -/
theorem Rule.year_of_occurrences {r : Rule} {q : Request} {a v : DateValue} {l : DateList}
    (h : r.occurrences q = .ok l) (ha : q.anchor = some a) (hv : v ∈ l.dates) :
    a.calendarDate.year ≤ v.calendarDate.year ∧
      (∀ e ∈ q.finish, v.calendarDate.year ≤ e.calendarDate.year) ∧
      ∀ u ∈ r.endsAt, v.calendarDate.year ≤ u.instant.date.year := by
  cases hf : r.freq with
  | none =>
    rw [occurrences, hf] at h
    cases h
  | some f =>
    have hl := (occurrences_eq_ofInstants hf ha q.kind).symm.trans h
    cases hl
    rw [DateList.dates_ofInstants] at hv
    obtain ⟨t, ht, rfl⟩ := List.mem_map.1 hv
    obtain ⟨hbegin, hfinish, hlast⟩ := Request.window_contains_iff.1 (contains_of_mem_instants ht)
    have hyear : ∀ {t u : Instant}, t ≤ u → t.date.year ≤ u.date.year := fun h =>
      Date.year_mono (Instant.day_le_of_le h)
    rw [DateValue.calendarDate_ofInstant, DateValue.calendarDate_eq]
    refine ⟨hyear (Instant.max_le_iff.1 hbegin).2, fun e he => ?_, fun u hu => hyear (hlast u hu)⟩
    rw [DateValue.calendarDate_eq]
    exact hyear (hfinish e he)

namespace Command

variable {words : List String} {s : Settings} {a : Arguments} {q : Request} {rep : Report}

/-- A result that passes a check is there. -/
theorem exists_ok_of_any {ε α : Type} {x : Except ε α} {p : α → Bool} (h : x.toOption.any p) :
    ∃ a, x = .ok a ∧ p a := by
  cases x with
  | error e => cases h
  | ok a => exact ⟨a, rfl, h⟩

/-- A run answers the request that its arguments make. -/
theorem exists_of_run (h : run words s = .ok rep) :
    ∃ a, Arguments.read words = .ok a ∧ a.request s = .ok rep.request ∧
      a.rule.occurrences rep.request = .ok rep.dates := by
  unfold run at h
  cases hread : Arguments.read words with
  | error e =>
    rw [hread] at h
    cases h
  | ok a =>
    cases hrequest : a.request s with
    | error e =>
      simp only [hread, hrequest] at h
      cases h
    | ok q =>
      cases hdates : a.rule.occurrences q with
      | error e =>
        simp only [hread, hrequest, hdates] at h
        cases h
      | ok l =>
        simp only [hread, hrequest, hdates] at h
        cases h
        exact ⟨a, rfl, hrequest, hdates⟩

namespace Arguments

/-- The request for the occurrences up to some end. -/
def upTo (a : Arguments) (finish : Option DateValue) : Request :=
  let q := Request.of (some a.anchor) a.windowStart finish
  if a.dateOnly then q.withKind .date else q

@[simp] theorem anchor_upTo {finish : Option DateValue} : (a.upTo finish).anchor = some a.anchor := by
  unfold upTo
  split <;> rfl

@[simp] theorem finish_upTo {finish : Option DateValue} : (a.upTo finish).finish = finish := by
  unfold upTo
  split <;> rfl

/-- **A window ends where the arguments say, or with the rule, or by default.** -/
theorem request_cases (h : a.request s = .ok q) :
    (∃ e, a.finish = some e ∧ q = a.upTo (some e)) ∨
      (∃ u, a.finish = none ∧ a.rule.endsAt = some u ∧ q = a.upTo none) ∨
      ∃ e, a.finish = none ∧ a.rule.endsAt = none ∧
        a.windowStart.addDays? s.windowDays.toNat = some e ∧ q = a.upTo (some e) := by
  cases hfinish : a.finish with
  | some e =>
    simp only [request, hfinish] at h
    cases h
    exact .inl ⟨e, rfl, rfl⟩
  | none =>
    cases hlast : a.rule.endsAt with
    | some u =>
      simp only [request, hfinish, hlast] at h
      cases h
      exact .inr (.inl ⟨u, rfl, rfl, rfl⟩)
    | none =>
      cases hdefault : a.windowStart.addDays? s.windowDays.toNat with
      | some e =>
        simp only [request, hfinish, hlast, hdefault] at h
        cases h
        exact .inr (.inr ⟨e, rfl, rfl, rfl, rfl⟩)
      | none =>
        simp only [request, hfinish, hlast, hdefault] at h
        cases h

end Arguments

/-- The year of an answer is not negative: the anchor has been read. -/
theorem zero_le_year_of_run (h : run words s = .ok rep) {v : DateValue} (hv : v ∈ rep.dates.dates) :
    0 ≤ v.calendarDate.year := by
  obtain ⟨a, hread, hrequest, hdates⟩ := exists_of_run h
  have hanchor : rep.request.anchor = some a.anchor := by
    obtain ⟨e, -, hq⟩ | ⟨u, -, -, hq⟩ | ⟨e, -, -, -, hq⟩ := Arguments.request_cases hrequest
    all_goals rw [hq, Arguments.anchor_upTo]
  exact Int.le_trans (Arguments.literal_of_read hread).anchor.1
    (Rule.year_of_occurrences hdates hanchor hv).1

/-- **The year of an answer has at most four digits when the end of its window was read**, and
else when the default end has such a year. -/
theorem year_le_of_run (h : run words s = .ok rep) (hread : Arguments.read words = .ok a)
    (hend : a.finish.isSome ∨ a.rule.endsAt.isSome ∨
      ∃ e, a.windowStart.addDays? s.windowDays.toNat = some e ∧ e.calendarDate.year ≤ 9999)
    {v : DateValue} (hv : v ∈ rep.dates.dates) : v.calendarDate.year ≤ 9999 := by
  obtain ⟨a', hread', hrequest, hdates⟩ := exists_of_run h
  cases hread.symm.trans hread'
  have hliteral := Arguments.literal_of_read hread
  obtain ⟨e, he, hq⟩ | ⟨u, -, hu, hq⟩ | ⟨e, hfinish, hlast, he, hq⟩ :=
    Arguments.request_cases hrequest
  all_goals
    rw [hq] at hdates
    obtain ⟨-, hle, hlast'⟩ := Rule.year_of_occurrences hdates Arguments.anchor_upTo hv
    rw [Arguments.finish_upTo] at hle
  · exact Int.le_trans (hle e rfl) (hliteral.finish e he).2
  · exact Int.le_trans (hlast' u hu) (hliteral.rule u hu).2
  · obtain hsome | hsome | ⟨e', he', hyear⟩ := hend
    · simp [hfinish] at hsome
    · simp [hlast] at hsome
    · cases he.symm.trans he'
      exact Int.le_trans (hle e rfl) hyear

/-- **What a run prints is read back, in either format, unless a year has more than four
digits**, and then the whole is refused. The years of the window's end bound the years that
are printed: an end among the arguments or in the rule has four digits, and so it depends on the
default end alone. -/
theorem outputs_read_back (h : run words s = .ok rep) :
    (∀ f : OutputFormat, f.readBack? (f.render rep.dates) =
      if ∀ v ∈ rep.dates.dates, v.calendarDate.year ≤ 9999 then some rep.dates.dates else none) ∧
    ∀ a, Arguments.read words = .ok a →
      (a.finish.isSome ∨ a.rule.endsAt.isSome ∨
        ∃ e, a.windowStart.addDays? s.windowDays.toNat = some e ∧ e.calendarDate.year ≤ 9999) →
      ∀ f : OutputFormat, f.readBack? (f.render rep.dates) = some rep.dates.dates := by
  have hback : ∀ f : OutputFormat, f.readBack? (f.render rep.dates) =
      if ∀ v ∈ rep.dates.dates, v.calendarDate.year ≤ 9999 then some rep.dates.dates else none := by
    intro f
    have hyears : (∀ v ∈ rep.dates.dates, v.calendarDate.HasFourDigitYear) ↔
        ∀ v ∈ rep.dates.dates, v.calendarDate.year ≤ 9999 :=
      forall₂_congr fun v hv => and_iff_right (zero_le_year_of_run h hv)
    rw [OutputFormat.readBack?_render]
    exact if_congr hyears rfl rfl
  refine ⟨hback, fun a hread hend f => ?_⟩
  rw [hback, if_pos fun v hv => year_le_of_run h hread hend hv]

/-- The last days of twelve months, up to the default end. -/
theorem monthEnds_read_back :
    let words := ["FREQ=MONTHLY", "--anchor", "20200131", "--json"]
    ∃ rep, run words {} = .ok rep ∧ rep.dates.dates.length = 12 ∧
      (∀ f : OutputFormat, f.readBack? (f.render rep.dates) =
        if ∀ v ∈ rep.dates.dates, v.calendarDate.year ≤ 9999 then some rep.dates.dates
        else none) ∧
      ∃ a, Arguments.read words = .ok a ∧
        (a.finish.isSome ∨ a.rule.endsAt.isSome ∨
          ∃ e, a.windowStart.addDays? ({} : Settings).windowDays.toNat = some e ∧
            e.calendarDate.year ≤ 9999) ∧
        ∀ f : OutputFormat, f.readBack? (f.render rep.dates) = some rep.dates.dates := by
  intro words
  obtain ⟨rep, hrun, hlength⟩ := exists_ok_of_any (x := run words {})
    (p := fun rep => rep.dates.dates.length == 12) (by decide +kernel)
  obtain ⟨a, hread, hdefault⟩ := exists_ok_of_any (x := Arguments.read words)
    (p := fun a => (a.windowStart.addDays? ({} : Settings).windowDays.toNat).any
      fun e => e.calendarDate.year ≤ 9999) (by decide +kernel)
  obtain ⟨e, he, hyear⟩ := (Option.any_eq_true _ _).1 hdefault
  have hend : a.finish.isSome ∨ a.rule.endsAt.isSome ∨
      ∃ e, a.windowStart.addDays? ({} : Settings).windowDays.toNat = some e ∧
        e.calendarDate.year ≤ 9999 := .inr (.inr ⟨e, he, of_decide_eq_true hyear⟩)
  obtain ⟨hback, hends⟩ := outputs_read_back hrun
  exact ⟨rep, hrun, eq_of_beq hlength, hback, a, hread, hend, hends a hread hend⟩

/-- Every six months from the last day of year 9999 on. **Of the two dates that are printed the
second is no literal.** -/
theorem everySixMonths_not_read_back :
    ∃ rep, run ["FREQ=MONTHLY;INTERVAL=6", "--anchor", "99991231"] {} = .ok rep ∧
      ({} : Settings).Valid ∧ rep.output = "99991231\n+100000630" ∧
      ∀ f : OutputFormat, f.readBack? (f.render rep.dates) = none := by
  obtain ⟨rep, hrun, hcheck⟩ := exists_ok_of_any
    (x := run ["FREQ=MONTHLY;INTERVAL=6", "--anchor", "99991231"] {})
    (p := fun rep => rep.output == "99991231\n+100000630" &&
      OutputFormat.all.all fun f => (f.readBack? (f.render rep.dates)).isNone) (by decide +kernel)
  obtain ⟨houtput, hnone⟩ := (Bool.and_eq_true _ _).mp hcheck
  refine ⟨rep, hrun, ⟨by decide, by decide⟩, eq_of_beq houtput, fun f => ?_⟩
  have hall : f ∈ OutputFormat.all := by cases f <;> decide
  exact Option.isNone_iff_eq_none.1 (List.all_eq_true.1 hnone f hall)

end Command

end Recurrence
