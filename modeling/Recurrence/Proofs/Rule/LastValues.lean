import Recurrence.Proofs.Rule.Grammar
import Recurrence.Proofs.Rule.RoundTrip

/-!
# What the text of a rule says

The entries of a text are taken one after the other, and each replaces an earlier one of
its name; **a last instant and a count replace each other too.** So what counts is the last
entry of a name: it gives the rule its part of that name (`HasLastValues`), and its number
alone has to have a meaning. The texts of rules are exactly those whose entries have the
form that their names ask for and whose last entries have a meaning (`IsRuleText`).

A step lemma says what one more entry does to the parts of a rule, and the run over all
entries follows by induction (`HasLastValues.foldl`).
-/

namespace Recurrence

open Text

/-! ## Extension parts -/

namespace Extensions

/-- A key has the value of the entry with that key. -/
theorem mem_entries_iff {x : Extensions} {key value : String} :
    (key, value) ∈ x.entries ↔ x.get? key = some value := by
  obtain ⟨es, hordered⟩ := x
  show (key, value) ∈ es ↔ es.lookup key = some value
  induction es with
  | nil => simp
  | cons e es ih =>
    obtain ⟨k, v⟩ := e
    rw [List.pairwise_cons] at hordered
    by_cases hk : key = k
    · subst hk
      -- The keys that follow are greater, so that the entry is not among the others.
      have hnot : (key, value) ∉ es := fun hmem =>
        String.lt_irrefl key (hordered.1 (key, value) hmem)
      simp [hnot, eq_comm]
    · simp [hk, List.lookup_cons, beq_false_of_ne hk, ih hordered.2]

/-- The entries are different: no two have one key. -/
theorem nodup_entries (x : Extensions) : x.entries.Nodup := by
  refine List.Pairwise.imp ?_ x.ordered
  rintro a _ hlt rfl
  exact String.lt_irrefl a.1 hlt

/-- **Extension parts are determined by the values of their keys.** -/
theorem eq_of_get? {x y : Extensions} (h : ∀ key, x.get? key = y.get? key) : x = y := by
  have hperm : x.entries.Perm y.entries := by
    rw [List.perm_ext_iff_of_nodup x.nodup_entries y.nodup_entries]
    rintro ⟨key, value⟩
    rw [mem_entries_iff, mem_entries_iff, h]
  have hentries : x.entries = y.entries := by
    refine List.Perm.eq_of_pairwise ?_ x.ordered y.ordered hperm
    intro a b _ _ hab hba
    exact absurd (String.lt_trans hab hba) (String.lt_irrefl a.1)
  cases x
  cases y
  simpa using hentries

end Extensions

/-! ## The parts of a rule, by name -/

namespace PartName

/-- The names that stand for one part of a rule: a rule ends at an instant or after a
number of instants, and every other name stands for itself. -/
def rivals : PartName → List PartName
  | .endsAt | .count => [.endsAt, .count]
  | name => [name]

/-- A name is one of its rivals. -/
theorem mem_rivals_self (name : PartName) : name ∈ name.rivals := by
  cases name <;> decide

theorem text_injective : Function.Injective text := by
  intro m n h
  rw [← Option.some_inj, ← ofText?_text m, h, ofText?_text]

/-- The names, in the order in which a rule is written. -/
def written : List PartName :=
  [freq, weekStart, interval, endsAt, count, byMonth, byWeekNo, byYearDay, byMonthDay, byDay,
    byHour, byMinute, bySecond, bySetPos]

end PartName

namespace Parts

variable {p q : Parts}

/-- The part of a rule that has a given name. An empty list is no part. -/
def given? (p : Parts) : PartName → Option Part
  | .freq => p.freq.map .freq
  | .endsAt => p.endsAt.map .endsAt
  | .count => p.count.map .count
  | .interval => p.interval.map .interval
  | .weekStart => p.weekStart.map .weekStart
  | .bySecond => (ofEntries .bySecond p.bySecond).head?
  | .byMinute => (ofEntries .byMinute p.byMinute).head?
  | .byHour => (ofEntries .byHour p.byHour).head?
  | .byDay => (ofEntries .byDay p.byDay).head?
  | .byMonthDay => (ofEntries .byMonthDay p.byMonthDay).head?
  | .byYearDay => (ofEntries .byYearDay p.byYearDay).head?
  | .byWeekNo => (ofEntries .byWeekNo p.byWeekNo).head?
  | .byMonth => (ofEntries .byMonth p.byMonth).head?
  | .bySetPos => (ofEntries .bySetPos p.bySetPos).head?

/-- A list is one part at most. -/
theorem toList_head?_ofEntries {α : Type} (make : List α → Part) (xs : List α) :
    (ofEntries make xs).head?.toList = ofEntries make xs := by
  cases xs <;> rfl

/-- A rule ends in one of two ways. -/
theorem toList_endsAt_append_count (p : Parts) :
    (p.endsAt.map Part.endsAt).toList ++ (p.count.map Part.count).toList =
      (p.termination.map ofTermination).toList := by
  unfold endsAt count
  cases p.termination with
  | none => rfl
  | some t => cases t <;> rfl

/-- The parts of a rule are those that it has by name, and the extension parts. -/
theorem toList_eq (p : Parts) :
    p.toList = PartName.written.flatMap (fun name => (p.given? name).toList) ++
      p.extensions.entries.map fun e => .extension e.1 e.2 := by
  simp only [toList, PartName.written, List.flatMap_cons, List.flatMap_nil, given?,
    toList_head?_ofEntries, ← toList_endsAt_append_count, List.append_assoc, List.append_nil]

/-- **The parts of a rule are determined by what it has under each name and each key.** -/
theorem eq_of_given? (hgiven : ∀ name, p.given? name = q.given? name)
    (hext : ∀ key, p.extensions.get? key = q.extensions.get? key) : p = q := by
  rw [← p.ofList_toList, ← q.ofList_toList, toList_eq, toList_eq, Extensions.eq_of_get? hext]
  simp only [hgiven]

end Parts

/-! ## Last values -/

namespace Part

variable {es : List KeyValue} {e : KeyValue} {name : PartName} {part : Part}

/-- The entries of a rule: what stands between two semicolons, cut at its first `=`. -/
def entries (cs : List Char) : List KeyValue :=
  ((cs.splitOn ';').filter fun piece => !piece.isEmpty).filterMap (cut? '=')

/-- The value of the last entry with a name. **Where a rival of the name comes after it,
there is none.** -/
def lastValue? (es : List KeyValue) (name : PartName) : Option (List Char) :=
  (es.reverse.find? fun e => name.rivals.any fun rival => e.1 = rival.text.toList).bind fun e =>
    if e.1 = name.text.toList then some e.2 else none

/-- The value of the last entry with a key that is none of the names. -/
def lastExtension? (es : List KeyValue) (key : String) : Option String :=
  if (PartName.ofText? key.toList).isSome then none
  else (es.reverse.lookup key.toList).map String.ofList

/-- One more entry with a name: it counts for its name and ends what its rivals had. -/
theorem lastValue?_append_known (es : List KeyValue) (name other : PartName) (value : List Char) :
    lastValue? (es ++ [(name.text.toList, value)]) other =
      if name = other then some value
      else if name ∈ other.rivals then none else lastValue? es other := by
  have htext : ∀ m n : PartName, m.text.toList = n.text.toList ↔ m = n := fun m n =>
    String.toList_inj.trans PartName.text_injective.eq_iff
  have hany : (other.rivals.any fun rival => name.text.toList = rival.text.toList) =
      decide (name ∈ other.rivals) := by
    simp only [htext, List.any_eq, decide_eq_true_eq, exists_eq_right']
  unfold lastValue?
  rw [List.reverse_concat, List.find?_cons, hany]
  by_cases hname : name = other
  · subst hname
    simp [name.mem_rivals_self]
  · by_cases hrival : name ∈ other.rivals <;> simp [hname, hrival, htext]

/-- One more entry with another key changes nothing for the names. -/
theorem lastValue?_append_extension {key : List Char}
    (hkey : ∀ name : PartName, key ≠ name.text.toList) (value : List Char) (name : PartName) :
    lastValue? (es ++ [(key, value)]) name = lastValue? es name := by
  have hany : (name.rivals.any fun rival => key = rival.text.toList) = false := by
    simp [hkey]
  unfold lastValue?
  rw [List.reverse_concat, List.find?_cons, hany]

/-- One more entry with a name changes nothing for the other keys. -/
theorem lastExtension?_append_known (es : List KeyValue) (name : PartName) (value : List Char)
    (key : String) :
    lastExtension? (es ++ [(name.text.toList, value)]) key = lastExtension? es key := by
  unfold lastExtension?
  split
  · rfl
  · next hnot =>
    have hne : key.toList ≠ name.text.toList := by
      intro heq
      rw [heq, PartName.ofText?_text] at hnot
      exact hnot rfl
    rw [List.reverse_concat, List.lookup_cons, beq_false_of_ne hne]

/-- One more entry with another key: it counts for its key. -/
theorem lastExtension?_append_extension {key : List Char}
    (hkey : ∀ name : PartName, key ≠ name.text.toList) (value : List Char) (other : String) :
    lastExtension? (es ++ [(key, value)]) other =
      if other = String.ofList key then some (String.ofList value)
      else lastExtension? es other := by
  unfold lastExtension?
  rw [List.reverse_concat, List.lookup_cons]
  by_cases hother : other = String.ofList key
  · subst hother
    simp [PartName.ofText?_eq_none_iff.2 hkey]
  · have hne : other.toList ≠ key := fun heq => hother (by rw [← heq, String.ofList_toList])
    rw [if_neg hother, beq_false_of_ne hne]

/-- A part with a name takes the place of its rivals. -/
theorem given?_set {value : List Char} (h : Denotes name value part) (p : Parts)
    (other : PartName) :
    (p.set part).given? other =
      if name = other then some part
      else if name ∈ other.rivals then none else p.given? other := by
  have hne : ∀ {α : Type} {R : List Char → α → Prop} {xs : List α},
      List.Forall₂ R (value.splitOn ',') xs → ∃ y ys, xs = y :: ys := by
    intro α R xs hxs
    cases xs with
    | nil => exact absurd (List.forall₂_nil_right_iff.1 hxs) (List.splitOn_ne_nil ',' value)
    | cons y ys => exact ⟨y, ys, rfl⟩
  cases h with
  | freq | endsAt | count | interval | weekStart => cases other <;> rfl
  | bySecond h | byMinute h | byHour h | byDay h | byMonthDay h | byYearDay h | byWeekNo h
  | byMonth h | bySetPos h =>
    obtain ⟨y, ys, rfl⟩ := hne h
    cases other <;> rfl

/-- A part with a name leaves the extension parts as they are. -/
theorem extensions_set {value : List Char} (h : Denotes name value part) (p : Parts) :
    (p.set part).extensions = p.extensions := by
  cases h <;> rfl

end Part

/-! ## The parts of a text -/

/-- **Every part is what the last entry with its name denotes**, and without such an entry
the rule has no such part; under every other key the last value is kept as it stands. -/
structure HasLastValues (es : List Part.KeyValue) (p : Parts) : Prop where
  /-- The parts with a name. -/
  given : ∀ name, Option.Rel (Part.Denotes name) (Part.lastValue? es name) (p.given? name)
  /-- The parts without one. -/
  extension : ∀ key, p.extensions.get? key = Part.lastExtension? es key

namespace HasLastValues

variable {es : List Part.KeyValue} {e : Part.KeyValue} {name : PartName} {part : Part} {p q : Parts}

/-- Without entries a rule has no parts. -/
theorem nil : HasLastValues [] {} where
  given name := by cases name <;> exact .none
  extension key := by
    unfold Part.lastExtension?
    split <;> rfl

/-- **One more entry**: its part replaces those that its name replaces. -/
theorem append (h : HasLastValues es p) (he : Part.EntryDenotes e part) :
    HasLastValues (es ++ [e]) (p.set part) := by
  cases he with
  | @known key value name part hkey hpart =>
    subst hkey
    refine ⟨fun other => ?_, fun key => ?_⟩
    · rw [Part.lastValue?_append_known, Part.given?_set hpart]
      split
      · next heq => exact .some (heq ▸ hpart)
      · split
        · exact .none
        · exact h.given other
    · rw [Part.extensions_set hpart, h.extension, Part.lastExtension?_append_known]
  | @extension key value hkey =>
    refine ⟨fun name => ?_, fun other => ?_⟩
    · rw [Part.lastValue?_append_extension hkey]
      have hgiven := h.given name
      cases name <;> exact hgiven
    · rw [Part.lastExtension?_append_extension hkey, ← h.extension]
      exact Extensions.get?_insert _ _ _ _

/-- **All entries**, one after the other. -/
theorem foldl (h : HasLastValues es p) {es' : List Part.KeyValue} {parts : List Part}
    (hparts : List.Forall₂ Part.EntryDenotes es' parts) :
    HasLastValues (es ++ es') (parts.foldl Parts.set p) := by
  induction hparts generalizing es p with
  | nil => simpa using h
  | cons he _ ih => simpa using ih (h.append he)

/-- The parts with a name are what the last values denote. -/
theorem given?_eq_some_iff (h : HasLastValues es p) :
    p.given? name = some part ↔
      ∃ value, Part.lastValue? es name = some value ∧ Part.Denotes name value part := by
  have hrel := h.given name
  generalize hvalue : Part.lastValue? es name = v, hpart : p.given? name = o at hrel
  cases hrel with
  | none => simp
  | some hdenotes =>
    simp only [Option.some.injEq, exists_eq_left']
    exact ⟨fun heq => heq ▸ hdenotes, fun h' => hdenotes.unique h'⟩

/-- **The last values determine the rule.** -/
theorem unique (hp : HasLastValues es p) (hq : HasLastValues es q) : p = q := by
  apply Parts.eq_of_given?
  · intro name
    ext part
    rw [hp.given?_eq_some_iff, hq.given?_eq_some_iff]
  · intro key
    rw [hp.extension, hq.extension]

end HasLastValues

/-! ## The texts of rules -/

/-- The numbers that count have a meaning. Numbers that a later entry replaces may be any. -/
structure LastInRange (es : List Part.KeyValue) : Prop where
  /-- The last interval is not 0. -/
  interval : ∀ value ∈ Part.lastValue? es .interval, ∀ n : Word, Part.IsNumber value n → n.val ≠ 0
  /-- If a count is the last of all counts and last instants, it is not 0. -/
  count : ∀ value ∈ Part.lastValue? es .count, ∀ n : Word, Part.IsNumber value n → n.val ≠ 0
  /-- The last months are months of the year. -/
  byMonth : ∀ value ∈ Part.lastValue? es .byMonth, ∀ ms : List Octet, Part.IsNumbers value ms →
    ∀ m ∈ ms, 1 ≤ m.val ∧ m.val ≤ 12
  /-- The last seconds are seconds of a minute, or the leap second. -/
  bySecond : ∀ value ∈ Part.lastValue? es .bySecond, ∀ ss : List Octet, Part.IsNumbers value ss →
    ∀ s ∈ ss, s.val ≤ 60

/-- The text of a rule. -/
structure IsRuleText (cs : List Char) : Prop where
  /-- What stands between two semicolons is empty or has an `=`. -/
  equals_mem : ∀ piece ∈ cs.splitOn ';', piece ≠ [] → '=' ∈ piece
  /-- A value under one of the names has the form that the name asks for. -/
  denotes : ∀ e ∈ Part.entries cs, ∀ name : PartName, e.1 = name.text.toList →
    ∃ part, Part.Denotes name e.2 part
  /-- The numbers that count have a meaning. -/
  inRange : LastInRange (Part.entries cs)

namespace HasLastValues

variable {es : List Part.KeyValue} {name : PartName} {p : Parts}

/-- A field that is a part is what the last value denotes. -/
theorem eq_some_iff (h : HasLastValues es p) {α : Type} {make : α → Part}
    (hmake : Function.Injective make) {o : Option α} (ho : p.given? name = o.map make) {a : α} :
    o = some a ↔
      ∃ value, Part.lastValue? es name = some value ∧ Part.Denotes name value (make a) := by
  rw [← h.given?_eq_some_iff, ho]
  simp only [Option.map_eq_some_iff, hmake.eq_iff, exists_eq_right]

/-- A list that is a part has the entries that the last value denotes. -/
theorem mem_iff (h : HasLastValues es p) {α : Type} {make : List α → Part}
    (hmake : Function.Injective make) {xs : List α}
    (hxs : p.given? name = (Parts.ofEntries make xs).head?) {x : α} :
    x ∈ xs ↔
      ∃ value ys, Part.lastValue? es name = some value ∧ Part.Denotes name value (make ys) ∧
        x ∈ ys := by
  constructor
  · intro hx
    obtain ⟨y, ys, rfl⟩ := List.exists_cons_of_ne_nil (List.ne_nil_of_mem hx)
    obtain ⟨value, hvalue, hdenotes⟩ := h.given?_eq_some_iff.1 hxs
    exact ⟨value, y :: ys, hvalue, hdenotes, hx⟩
  · rintro ⟨value, ys, hvalue, hdenotes, hx⟩
    rw [h.given?_eq_some_iff.2 ⟨value, hvalue, hdenotes⟩] at hxs
    obtain ⟨-, hys⟩ := Parts.mem_ofEntries.1 (List.mem_of_mem_head? hxs.symm)
    rwa [← hmake hys]

/-- **A rule is valid exactly when its last values have a meaning.** -/
theorem valid_iff (h : HasLastValues es p) : p.Valid ↔ LastInRange es := by
  have hinterval : p.given? .interval = p.interval.map .interval := rfl
  have hcount : p.given? .count = p.count.map .count := rfl
  have hmonth : p.given? .byMonth = (Parts.ofEntries .byMonth p.byMonth).head? := rfl
  have hsecond : p.given? .bySecond = (Parts.ofEntries .bySecond p.bySecond).head? := rfl
  replace hinterval {n : Word} := h.eq_some_iff (fun _ _ => Part.interval.inj) hinterval (a := n)
  replace hcount {n : Word} := h.eq_some_iff (fun _ _ => Part.count.inj) hcount (a := n)
  replace hmonth {m : Octet} := h.mem_iff (fun _ _ => Part.byMonth.inj) hmonth (x := m)
  replace hsecond {s : Octet} := h.mem_iff (fun _ _ => Part.bySecond.inj) hsecond (x := s)
  constructor
  · intro hvalid
    constructor
    case interval =>
      intro value hvalue n hn
      have := hvalid.interval_pos n (hinterval.2 ⟨value, hvalue, .interval hn⟩)
      omega
    case count =>
      intro value hvalue n hn
      have := hvalid.count_pos n (hcount.2 ⟨value, hvalue, .count hn⟩)
      omega
    case byMonth =>
      intro value hvalue ms hms m hm
      exact hvalid.byMonth_mem m (hmonth.2 ⟨value, ms, hvalue, .byMonth hms, hm⟩)
    case bySecond =>
      intro value hvalue ss hss s hs
      exact hvalid.bySecond_le s (hsecond.2 ⟨value, ss, hvalue, .bySecond hss, hs⟩)
  · intro hrange
    constructor
    case interval_pos =>
      intro n hn
      obtain ⟨value, hvalue, hdenotes⟩ := hinterval.1 hn
      cases hdenotes with
      | interval hnumber =>
        have := hrange.interval value hvalue n hnumber
        have := n.lo_le
        omega
    case count_pos =>
      intro n hn
      obtain ⟨value, hvalue, hdenotes⟩ := hcount.1 hn
      cases hdenotes with
      | count hnumber =>
        have := hrange.count value hvalue n hnumber
        have := n.lo_le
        omega
    case byMonth_mem =>
      intro m hm
      obtain ⟨value, ms, hvalue, hdenotes, hm⟩ := hmonth.1 hm
      cases hdenotes with
      | byMonth hms => exact hrange.byMonth value hvalue ms hms m hm
    case bySecond_le =>
      intro s hs
      obtain ⟨value, ss, hvalue, hdenotes, hs⟩ := hsecond.1 hs
      cases hdenotes with
      | bySecond hss => exact hrange.bySecond value hvalue ss hss s hs

end HasLastValues

/-! ## Reading -/

namespace Part

/-- An entry denotes a part unless its name asks for another form. -/
theorem exists_entryDenotes_iff {e : KeyValue} :
    (∃ part, EntryDenotes e part) ↔
      ∀ name : PartName, e.1 = name.text.toList → ∃ part, Denotes name e.2 part := by
  obtain ⟨key, value⟩ := e
  constructor
  · rintro ⟨part, ⟨hkey, hpart⟩ | hkey⟩ name hname
    · have heq := PartName.text_injective (String.toList_inj.1 (hkey.symm.trans hname))
      exact ⟨part, heq ▸ hpart⟩
    · exact absurd hname (hkey name)
  · intro h
    by_cases hkey : ∃ name : PartName, key = name.text.toList
    · obtain ⟨name, hname⟩ := hkey
      obtain ⟨part, hpart⟩ := h name hname
      exact ⟨part, .known hname hpart⟩
    · exact ⟨_, .extension fun name hname => hkey ⟨name, hname⟩⟩

/-- The parts that are read from the pieces of a text are what its entries denote. -/
theorem forall₂_entryDenotes {pieces : List (List Char)} {parts : List Part}
    (h : List.Forall₂ (fun piece part => read piece = .ok part) pieces parts) :
    List.Forall₂ EntryDenotes (pieces.filterMap (cut? '=')) parts := by
  induction h with
  | nil => exact .nil
  | cons hread _ ih =>
    obtain ⟨e, hcut, he⟩ := read_eq_ok_iff.1 hread
    rw [List.filterMap_cons_some hcut]
    exact .cons he ih

end Part

namespace Parts

variable {cs : List Char} {p : Parts}

/-- **What has been read has the last values of its text.** -/
theorem hasLastValues_of_read (h : read cs = .ok p) : HasLastValues (Part.entries cs) p := by
  obtain ⟨parts, hparts, rfl⟩ := read_eq_ok_iff.1 h
  exact HasLastValues.nil.foldl (Part.forall₂_entryDenotes hparts)

/-- **A text is read exactly when each of its pieces has an `=` and each value the form that
its name asks for.** -/
theorem exists_read_iff :
    (∃ p, read cs = .ok p) ↔
      (∀ piece ∈ cs.splitOn ';', piece ≠ [] → '=' ∈ piece) ∧
        ∀ e ∈ Part.entries cs, ∀ name : PartName, e.1 = name.text.toList →
          ∃ part, Part.Denotes name e.2 part := by
  have hread : (∃ p, read cs = .ok p) ↔
      ∀ piece ∈ cs.splitOn ';', piece ≠ [] → ∃ e, cut? '=' piece = some e ∧
        ∃ part, Part.EntryDenotes e part := by
    simp only [read_eq_ok_iff, exists_comm (α := Parts), exists_and_left, exists_eq', and_true,
      exists_forall₂_iff, List.mem_filter, Bool.not_eq_true', List.isEmpty_eq_false_iff, and_imp,
      Part.read_eq_ok_iff, exists_comm (α := Part)]
  simp only [hread, Part.exists_entryDenotes_iff, Part.entries, List.mem_filterMap, List.mem_filter,
    Bool.not_eq_true', List.isEmpty_eq_false_iff]
  constructor
  · intro h
    constructor
    · intro piece hpiece hne
      obtain ⟨e, hcut, -⟩ := h piece hpiece hne
      by_contra hnot
      rw [cut?_eq_none_iff.2 hnot] at hcut
      cases hcut
    · rintro e ⟨piece, ⟨hpiece, hne⟩, hcut⟩
      obtain ⟨e', hcut', hdenotes⟩ := h piece hpiece hne
      rw [hcut] at hcut'
      cases hcut'
      exact hdenotes
  · rintro ⟨hequals, hdenotes⟩ piece hpiece hne
    cases hcut : cut? '=' piece with
    | none => exact absurd (hequals piece hpiece hne) (cut?_eq_none_iff.1 hcut)
    | some e => exact ⟨e, rfl, hdenotes e ⟨piece, ⟨hpiece, hne⟩, hcut⟩⟩

end Parts

namespace Rule

/-- **A text is read exactly when it is the text of a rule, and the rule that is read has the
last value of each name.** There is one rule only that has them. -/
theorem parse_eq_ok_iff_isRuleText (s : String) :
    ((∃ r, parse s = .ok r) ↔ IsRuleText s.toList) ∧
      ∀ r, parse s = .ok r ↔
        IsRuleText s.toList ∧ HasLastValues (Part.entries s.toList) r.toParts := by
  have haccept : (∃ r, parse s = .ok r) ↔ IsRuleText s.toList := by
    constructor
    · rintro ⟨r, hr⟩
      have hread := parse_eq_ok_iff.1 hr
      obtain ⟨hequals, hdenotes⟩ := Parts.exists_read_iff.1 ⟨_, hread⟩
      exact ⟨hequals, hdenotes, (Parts.hasLastValues_of_read hread).valid_iff.1 r.valid⟩
    · rintro ⟨hequals, hdenotes, hrange⟩
      obtain ⟨p, hp⟩ := Parts.exists_read_iff.2 ⟨hequals, hdenotes⟩
      have hvalid := (Parts.hasLastValues_of_read hp).valid_iff.2 hrange
      exact ⟨⟨p, hvalid⟩, parse_eq_ok_iff.2 hp⟩
  refine ⟨haccept, fun r => ⟨fun hr => ?_, fun ⟨htext, hlast⟩ => ?_⟩⟩
  · exact ⟨haccept.1 ⟨r, hr⟩, Parts.hasLastValues_of_read (parse_eq_ok_iff.1 hr)⟩
  · obtain ⟨r', hr'⟩ := haccept.2 htext
    have hread := parse_eq_ok_iff.1 hr'
    rwa [(Parts.hasLastValues_of_read hread).unique hlast, ← parse_eq_ok_iff] at hread

-- A count of 0 is read where another count follows it, and so is a name in small letters,
-- which is none.
example :
    (parse "FREQ=Daily;COUNT=0;;BYMONTH=13;BYMONTH= 1,+2;freq=;COUNT=3;").toOption.map text =
      some "FREQ=DAILY;COUNT=3;BYMONTH=1,2;freq=" := by
  decide +kernel

end Rule

end Recurrence
