import Recurrence.Expansion.Occurrences
import Recurrence.Proofs.Rule.Part

/-!
# Reading rules back

A rule is written part after part in a fixed order, and reading collects the parts
again; **the list of the parts of a rule determines the rule** (`Parts.ofList_toList`).
What has been read from a text can be written, and whatever can be written is read back
as it was (`Rule.parse_text`). So the text of a rule is its normal form: equal texts
belong to equal rules, and a text and the normal form of its rule expand alike.
-/

namespace Recurrence

open Text

/-! ## Extension parts -/

namespace Extensions

variable {key value : String} {es : List (String × String)}

/-- A key that comes after all others is put at the end. -/
theorem put_eq_append (h : ∀ e ∈ es, e.1 < key) : put key value es = es ++ [(key, value)] := by
  induction es with
  | nil => rfl
  | cons e es ih =>
    have hlt : e.1 < key := h e List.mem_cons_self
    have hnot : ¬ key < e.1 := by
      intro hgt
      exact String.lt_irrefl key (String.lt_trans hgt hlt)
    have hne : key ≠ e.1 := by
      intro heq
      exact String.lt_irrefl key (heq ▸ hlt)
    have hrest : ∀ e' ∈ es, e'.1 < key := by
      intro e' he'
      exact h e' (List.mem_cons_of_mem _ he')
    rw [put, if_neg hnot, if_neg hne, ih hrest, List.cons_append]

end Extensions

namespace Parts

variable {p : Parts} {part : Part}

/-! ## Collecting the parts of a rule -/

/-- A list is collected from its part, or left out when it has no entries. -/
theorem foldl_ofEntries {α : Type} (make : List α → Part) (update : Parts → List α → Parts)
    (hset : ∀ q xs, set q (make xs) = update q xs) (xs : List α) (hnil : update p [] = p) :
    (ofEntries make xs).foldl set p = update p xs := by
  cases xs with
  | nil => exact hnil.symm
  | cons x xs => exact hset p (x :: xs)

/-- A single part is collected, or left out where there is none. -/
theorem foldl_toList {α : Type} (make : α → Part) (update : Parts → Option α → Parts)
    (hset : ∀ q a, set q (make a) = update q (some a)) (o : Option α)
    (hnone : update p none = p) : (o.map make).toList.foldl set p = update p o := by
  cases o with
  | none => exact hnone.symm
  | some a => exact hset p a

/-- Extension parts that come in the order of their keys are collected in this order. -/
theorem foldl_extension {es : List (String × String)}
    (h : (p.extensions.entries ++ es).Pairwise fun a b => a.1 < b.1) :
    (es.map fun e => Part.extension e.1 e.2).foldl set p =
      { p with extensions := ⟨p.extensions.entries ++ es, h⟩ } := by
  induction es generalizing p with
  | nil => simp
  | cons e es ih =>
    have hput : Extensions.put e.1 e.2 p.extensions.entries = p.extensions.entries ++ [e] := by
      apply Extensions.put_eq_append
      intro e' he'
      exact (List.pairwise_append.1 h).2.2 e' he' e List.mem_cons_self
    have hset : (p.set (.extension e.1 e.2)).extensions.entries = p.extensions.entries ++ [e] :=
      hput
    rw [List.map_cons, List.foldl_cons, ih (by rwa [hset, List.append_assoc])]
    simp [set, Extensions.insert, hput]

/-- **The parts of a rule are collected to the rule.** -/
theorem ofList_toList (p : Parts) : ofList p.toList = p := by
  unfold ofList toList
  simp only [List.foldl_append]
  rw [foldl_toList .freq (fun q o => { q with freq := o }) (fun _ _ => rfl),
    foldl_toList .weekStart (fun q o => { q with weekStart := o }) (fun _ _ => rfl),
    foldl_toList .interval (fun q o => { q with interval := o }) (fun _ _ => rfl),
    foldl_toList ofTermination (fun q o => { q with termination := o })
      (fun _ t => by cases t <;> rfl),
    foldl_ofEntries .byMonth (fun q xs => { q with byMonth := xs }) (fun _ _ => rfl),
    foldl_ofEntries .byWeekNo (fun q xs => { q with byWeekNo := xs }) (fun _ _ => rfl),
    foldl_ofEntries .byYearDay (fun q xs => { q with byYearDay := xs }) (fun _ _ => rfl),
    foldl_ofEntries .byMonthDay (fun q xs => { q with byMonthDay := xs }) (fun _ _ => rfl),
    foldl_ofEntries .byDay (fun q xs => { q with byDay := xs }) (fun _ _ => rfl),
    foldl_ofEntries .byHour (fun q xs => { q with byHour := xs }) (fun _ _ => rfl),
    foldl_ofEntries .byMinute (fun q xs => { q with byMinute := xs }) (fun _ _ => rfl),
    foldl_ofEntries .bySecond (fun q xs => { q with bySecond := xs }) (fun _ _ => rfl),
    foldl_ofEntries .bySetPos (fun q xs => { q with bySetPos := xs }) (fun _ _ => rfl),
    foldl_extension (by exact p.extensions.ordered)]
  all_goals rfl

/-! ## Parts that can be written -/

/-- The rule has a text that is read back: **its last instant has a year of four digits,
and its extension parts are none of the others.** -/
structure Writable (p : Parts) : Prop where
  /-- The last instant has a year of four digits. -/
  endsAt : ∀ u ∈ p.endsAt, u.instant.date.HasFourDigitYear
  /-- The extension parts are cut into key and value again. -/
  extension : ∀ e ∈ p.extensions.entries, Part.IsExtension e.1 e.2

theorem mem_ofEntries {α : Type} {make : List α → Part} {xs : List α} :
    part ∈ ofEntries make xs ↔ xs ≠ [] ∧ part = make xs := by
  cases xs <;> simp [ofEntries]

/-- Every part of such a rule can be written. -/
theorem Writable.of_mem_toList (h : p.Writable) (hpart : part ∈ p.toList) : part.Writable := by
  simp only [toList, List.mem_append, Option.mem_toList, Option.map_eq_some_iff, mem_ofEntries,
    List.mem_map, or_assoc] at hpart
  rcases hpart with ⟨f, -, rfl⟩ | ⟨w, -, rfl⟩ | ⟨n, -, rfl⟩ | ⟨t, ht, rfl⟩ | hlists
  · trivial
  · trivial
  · trivial
  · cases t with
    | endsAt u => exact h.endsAt u (by simp [Parts.endsAt, ht])
    | count n => trivial
  · rcases hlists with ⟨hne, rfl⟩ | ⟨hne, rfl⟩ | ⟨hne, rfl⟩ | ⟨hne, rfl⟩ | ⟨hne, rfl⟩ |
      ⟨hne, rfl⟩ | ⟨hne, rfl⟩ | ⟨hne, rfl⟩ | ⟨hne, rfl⟩ | ⟨e, he, rfl⟩
    case inr.inr.inr.inr.inr.inr.inr.inr.inr => exact h.extension e he
    all_goals exact hne

/-- A rule keeps its text when a part that can be written is added. -/
theorem Writable.set (h : p.Writable) (hpart : part.Writable) : (p.set part).Writable := by
  cases part with
  | endsAt u =>
    refine ⟨?_, h.extension⟩
    intro v hv
    cases hv
    exact hpart
  | count n =>
    -- A count takes the place of a last instant.
    refine ⟨?_, h.extension⟩
    intro v hv
    cases hv
  | extension key value =>
    refine ⟨h.endsAt, ?_⟩
    intro e he
    rcases Extensions.mem_put he with rfl | he
    · exact hpart
    · exact h.extension e he
  | _ => exact ⟨h.endsAt, h.extension⟩

/-- **Parts that can be written make a rule that can be written.** -/
theorem writable_ofList {parts : List Part} (h : ∀ part ∈ parts, part.Writable) :
    (ofList parts).Writable := by
  -- The parts are collected one after the other, beginning with none.
  have run : ∀ (parts : List Part) (p : Parts), (∀ part ∈ parts, part.Writable) → p.Writable →
      (parts.foldl Parts.set p).Writable := by
    intro parts
    induction parts with
    | nil =>
      intro p _ hp
      exact hp
    | cons part parts ih =>
      intro p hparts hp
      apply ih (p.set part)
      · intro part' h'
        exact hparts part' (List.mem_cons_of_mem _ h')
      · exact hp.set (hparts part List.mem_cons_self)
  apply run parts {} h
  constructor
  · intro u hu
    cases hu
  · intro e he
    cases he

/-! ## Reading -/

/-- What has been read has been collected from parts that were read. -/
theorem read_eq_ok_iff {cs : List Char} :
    read cs = .ok p ↔
      ∃ parts, List.Forall₂ (fun piece part => Part.read piece = .ok part)
        ((cs.splitOn ';').filter fun piece => !piece.isEmpty) parts ∧ ofList parts = p := by
  unfold read
  constructor
  · intro h
    obtain ⟨parts, hparts, rfl⟩ := Part.map_eq_ok_iff.1 h
    exact ⟨parts, mapM_eq_ok_iff.1 hparts, rfl⟩
  · rintro ⟨parts, hparts, rfl⟩
    rw [mapM_eq_ok_iff.2 hparts]
    rfl

/-- **What has been read can be written.** -/
theorem writable_of_read {cs : List Char} (h : read cs = .ok p) : p.Writable := by
  obtain ⟨parts, hparts, rfl⟩ := read_eq_ok_iff.1 h
  apply writable_ofList
  intro part hpart
  obtain ⟨piece, hpiece, hread⟩ := exists_of_mem_forall₂ hparts hpart
  exact Part.writable_of_read hread (not_mem_of_mem_splitOn (List.mem_of_mem_filter hpiece))

/-- The pieces between the semicolons are the texts of the parts. -/
theorem pieces_chars (h : p.Writable) :
    ((p.chars.splitOn ';').filter fun piece => !piece.isEmpty) = p.toList.map Part.chars := by
  have hne : ∀ piece ∈ p.toList.map Part.chars, !piece.isEmpty := by
    intro piece hpiece
    obtain ⟨part, -, rfl⟩ := List.mem_map.1 hpiece
    have := part.equals_mem_chars
    cases hchars : part.chars <;> simp_all
  unfold chars
  -- A rule without parts has one empty piece, which is left out.
  cases hparts : p.toList.map Part.chars with
  | nil => rfl
  | cons piece pieces =>
    rw [← hparts, List.splitOn_intercalate, List.filter_eq_self.2 hne]
    · intro piece hpiece
      obtain ⟨part, hpart, rfl⟩ := List.mem_map.1 hpiece
      exact Part.semicolon_not_mem_chars (h.of_mem_toList hpart)
    · rw [hparts]
      exact List.cons_ne_nil piece pieces

/-- **What can be written is read back as it was.** -/
theorem read_chars (h : p.Writable) : read p.chars = .ok p := by
  refine read_eq_ok_iff.2 ⟨p.toList, ?_, p.ofList_toList⟩
  rw [pieces_chars h, List.forall₂_map_left_iff, List.forall₂_same]
  intro part hpart
  exact Part.read_chars (h.of_mem_toList hpart)

/-- A rule is built from its own parts and from no others. -/
theorem build_eq_ok_iff {r : Rule} : p.build = .ok r ↔ r.toParts = p := by
  constructor
  · intro h
    unfold build at h
    split at h
    · cases h
    · cases h
      rfl
  · rintro rfl
    unfold build
    split
    · next e he =>
      rw [fault?_eq_none_iff.2 r.valid] at he
      cases he
    · rfl

end Parts

namespace Rule

variable {r : Rule} {s : String}

/-! ## Rules -/

/-- The parts of a text are those of its rule. -/
theorem parse_eq_ok_iff : parse s = .ok r ↔ Parts.read s.toList = .ok r.toParts := by
  unfold parse
  cases hread : Parts.read s.toList with
  | error e => exact ⟨(nomatch ·), (nomatch ·)⟩
  | ok p =>
    show p.build = .ok r ↔ _
    rw [Parts.build_eq_ok_iff, Except.ok.injEq, eq_comm]

/-- Only a rule without a frequency is read from a blank text. -/
theorem freq_eq_none_of_isBlankText (h : parse s = .ok r) (hblank : isBlankText s.toList) :
    r.freq = none := by
  obtain ⟨parts, hparts, hr⟩ := Parts.read_eq_ok_iff.1 (parse_eq_ok_iff.1 h)
  cases parts with
  | nil =>
    rw [← hr]
    rfl
  | cons part parts =>
    -- A part has its `=`, and that is not blank.
    obtain ⟨piece, hpiece, hread⟩ := exists_of_mem_forall₂ hparts List.mem_cons_self
    have hsub := (infix_of_mem_splitOn (List.mem_of_mem_filter hpiece)).subset
    have hequals : '=' ∈ piece := by
      by_contra hnot
      simp only [Part.read, cut?_eq_none_iff.2 hnot] at hread
      cases hread
    have := List.all_eq_true.1 hblank '=' (hsub hequals)
    exact absurd this (by decide)

/-- **A text with a frequency expands as its rule does.** -/
theorem expandText_eq (h : parse s = .ok r) (hf : r.freq.isSome) (q : Request) :
    expandText s q = (r.occurrences q).mapError .expansion := by
  have hblank : isBlankText s.toList = false := by
    rw [Bool.eq_false_iff]
    intro hblank
    rw [freq_eq_none_of_isBlankText h hblank] at hf
    cases hf
  simp only [expandText, hblank, h]
  cases r.occurrences q with
  | error e => rfl
  | ok l => rfl

/-- A rule that has been read from a text, or that has been built and can be written. -/
def HasText (r : Rule) : Prop :=
  (∃ s, parse s = .ok r) ∨ (∃ p : Parts, p.build = .ok r) ∧ r.Writable

/-- Such a rule can be written. -/
theorem HasText.writable (h : r.HasText) : r.Writable := by
  obtain ⟨s, hs⟩ | ⟨-, hw⟩ := h
  · exact Parts.writable_of_read (parse_eq_ok_iff.1 hs)
  · exact hw

/-- The rule of its own text. -/
theorem HasText.parse_eq (h : r.HasText) : parse r.text = .ok r := by
  rw [parse_eq_ok_iff, text, String.toList_ofList]
  exact Parts.read_chars h.writable

/-- **A rule is read back from its text as it was, in every part.** So no other rule has
this text, and any text from which a rule with a frequency is read expands as the text of
the rule does. -/
theorem parse_text (h : r.HasText) :
    (∃ r', parse r.text = .ok r' ∧ r' = r ∧ r'.text = r.text) ∧
      (∀ r' : Rule, r'.HasText → r'.text = r.text → r' = r) ∧
      ∀ s, parse s = .ok r → r.freq.isSome → ∀ q, expandText r.text q = expandText s q := by
  refine ⟨⟨r, h.parse_eq, rfl, rfl⟩, ?_, ?_⟩
  · -- Of two rules with one text both are what is read from it.
    intro r' h' heq
    have hread := h'.parse_eq
    rw [heq, h.parse_eq] at hread
    exact (Except.ok.inj hread).symm
  · intro s hs hf q
    rw [expandText_eq h.parse_eq hf, expandText_eq hs hf]

/-- Every third month on the last Friday and on Mondays, with a note. -/
def everyQuarter : Rule where
  freq := some .monthly
  interval := some ⟨3, by decide, by decide⟩
  termination := some (.endsAt (.dateTime ((Date.ymd 2020 12 31).atHour 9) true))
  byDay := [⟨some ⟨-1, by decide, by decide⟩, .friday⟩, ⟨none, .monday⟩]
  extensions := ⟨[("X-NOTE", "a=b")], List.pairwise_singleton _ _⟩
  valid := Parts.fault?_eq_none_iff.1 (by decide)

example : everyQuarter.text =
    "FREQ=MONTHLY;INTERVAL=3;UNTIL=20201231T090000Z;BYDAY=-1FR,MO;X-NOTE=a=b" := by
  decide +kernel

/-- A rule that has been built, with a mark on its last instant and an equals sign in the
value of its note. -/
theorem everyQuarter_parse_text :
    everyQuarter.HasText ∧
      (∃ r', parse everyQuarter.text = .ok r' ∧ r' = everyQuarter ∧
        r'.text = everyQuarter.text) ∧
      (∀ r' : Rule, r'.HasText → r'.text = everyQuarter.text → r' = everyQuarter) ∧
      ∀ s, parse s = .ok everyQuarter → everyQuarter.freq.isSome →
        ∀ q, expandText everyQuarter.text q = expandText s q := by
  have hwritable : everyQuarter.Writable := by
    refine ⟨?_, ?_⟩
    · intro u hu
      cases hu
      decide
    · intro e he
      obtain rfl := List.mem_singleton.1 he
      exact ⟨fun name => by cases name <;> decide, by decide, by decide, by decide⟩
  have htext : everyQuarter.HasText := .inr ⟨⟨_, Parts.build_eq_ok_iff.2 rfl⟩, hwritable⟩
  exact ⟨htext, parse_text htext⟩

end Rule

end Recurrence
