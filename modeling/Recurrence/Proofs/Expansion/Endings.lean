import Recurrence.Proofs.Expansion.Bounds

/-!
# How rules end

A rule ends at a last instant, after a count of instants, or not at all. Its periods and
their candidates are the same in all three cases; where the loop begins and ends differs, and
what is left of the candidates. **A last instant does what the end of a window does**
(`Rule.instants_endingAt`), in the loop and at the end of it. A count has the loop begin with
the anchor and takes its share of the candidates before the window is looked at
(`Rule.instants_counted`): neither how many are counted nor where the window begins changes
the candidates among which it counts.
-/

namespace Recurrence

namespace Parts

/-- The same parts with another end. -/
def terminated (p : Parts) (e : Option Termination) : Parts :=
  { p with termination := e }

/-- The candidates of the periods from the anchor's own to the one past the end of a
window; none for a window without an end. -/
def reached (p : Parts) (f : Frequency) (anchor : Instant) : Option Instant → List Instant
  | none => []
  | some b => p.candidates f (pointsFrom (p.latticePoint? f anchor) b 0 [])

end Parts

/-- Nothing is left of no candidates. -/
@[simp] theorem Window.limit_nil (w : Window) (count : Option Nat) : w.limit count [] = [] := by
  cases count <;> simp [limit]

namespace Rule

variable {r : Rule} {f : Frequency} {anchor start b : Instant} {finish : Option Instant}
  {q : Request} {n c d : Word} {u : Until}

/-- The rule with a count for its end. -/
def counted (r : Rule) (n : Word) (h : 1 ≤ n.val) : Rule where
  toParts := r.toParts.terminated (some (.count n))
  valid :=
    { r.valid with
      count_pos := by
        rintro _ ⟨⟩
        exact h }

/-- The rule with a last instant for its end. -/
def endingAt (r : Rule) (u : Until) : Rule where
  toParts := r.toParts.terminated (some (.endsAt u))
  valid := { r.valid with count_pos := nofun }

/-- The rule without an end. -/
def endless (r : Rule) : Rule where
  toParts := r.toParts.terminated none
  valid := { r.valid with count_pos := nofun }

/-- Two requests are answered alike where the same instants answer them. -/
theorem occurrences_congr {r' : Rule} {q' : Request} (hfreq : r.freq = r'.freq)
    (hanchor : q.anchor = q'.anchor) (hkind : q.kind = q'.kind)
    (hinstants : ∀ f, ∀ a ∈ q.anchor,
      r.instants f a.instant q.start.instant (q.finish.map DateValue.instant) =
        r'.instants f a.instant q'.start.instant (q'.finish.map DateValue.instant)) :
    r.occurrences q = r'.occurrences q' := by
  unfold occurrences
  rw [← hfreq, ← hanchor, ← hkind]
  cases r.freq with
  | none => rfl
  | some f =>
    cases ha : q.anchor with
    | none => rfl
    | some a => simp only [hinstants f a ha]

/-! ## A last instant -/

/-- **A last instant bounds a rule as the end of a window does.** -/
theorem instants_endingAt (hb : earlier? (some u.instant) finish = some b) :
    (r.endingAt u).instants f anchor start finish = r.endless.instants f anchor start (some b) := by
  have hcontains : ((r.endingAt u).window anchor start finish).contains =
      (r.endless.window anchor start (some b)).contains := by
    funext t
    rw [Bool.eq_iff_iff]
    exact (Window.contains_iff (b := b) hb).trans (Window.contains_iff (b := b) rfl).symm
  rw [instants_eq_limit (r := r.endingAt u) (b := b) hb,
    instants_eq_limit (r := r.endless) (b := b) rfl]
  -- Neither rule counts, and both loops visit the same periods.
  exact congrArg (fun w => (r.candidates f (r.endless.lattice f anchor start b)).filter w) hcontains

/-- The last instant of a rule can be given to the window instead. -/
theorem occurrences_endingAt_eq {e : DateValue}
    (he : earlier? (some u.instant) (q.finish.map DateValue.instant) = some e.instant) :
    (r.endingAt u).occurrences q = r.endless.occurrences { q with finish := some e } :=
  occurrences_congr rfl rfl rfl fun _ _ _ => instants_endingAt he

/-- **A last instant and the end of a window can be exchanged.** A rule that ends at a last
instant answers every request as the rule without an end does when the window ends with the
last instant or with its own end, whichever is earlier. An end of the window that is no
earlier than the last instant therefore makes no difference. -/
theorem occurrences_endingAt (r : Rule) (u : Until) (q : Request) :
    (∀ e : DateValue, earlier? (some u.instant) (q.finish.map DateValue.instant) = some e.instant →
      (r.endingAt u).occurrences q = r.endless.occurrences { q with finish := some e }) ∧
    ∀ e : DateValue, u.instant ≤ e.instant →
      (r.endingAt u).occurrences { q with finish := some e } =
        (r.endingAt u).occurrences { q with finish := none } := by
  refine ⟨fun e he => occurrences_endingAt_eq he, ?_⟩
  intro e hle
  have hmin : min u.instant e.instant = u.instant := if_pos hle
  calc (r.endingAt u).occurrences { q with finish := some e }
      = r.endless.occurrences { q with finish := some (.dateTime u.instant) } :=
        occurrences_endingAt_eq (congrArg some hmin)
    _ = (r.endingAt u).occurrences { q with finish := none } :=
        (occurrences_endingAt_eq (q := { q with finish := none }) rfl).symm

/-- A rule whose last instant is a date, in a window that ends with the day before it. -/
theorem twiceADay_occurrences_endingAt :
    let u : Until := .date (Date.ymd 2020 1 5)
    let e : DateValue := .date (Date.ymd 2020 1 4)
    let q : Request := .of (some (.dateTime ((Date.ymd 2020 1 1).atHour 9)))
      (.dateTime ((Date.ymd 2020 1 2).atHour 10)) (some e)
    earlier? (some u.instant) (q.finish.map DateValue.instant) = some e.instant ∧
      (twiceADay.endingAt u).occurrences q =
        twiceADay.endless.occurrences { q with finish := some e } ∧
      (twiceADay.endingAt u).occurrences { q with finish := some (.date (Date.ymd 2020 1 6)) } =
        (twiceADay.endingAt u).occurrences { q with finish := none } := by
  intro u e q
  have he : earlier? (some u.instant) (q.finish.map DateValue.instant) = some e.instant := by
    decide +kernel
  obtain ⟨hexchange, hlater⟩ := occurrences_endingAt twiceADay u q
  exact ⟨he, hexchange e he, hlater _ (by decide +kernel)⟩

/-! ## A count -/

/-- A rule without a last instant that begins with the anchor: what the count and the window
leave of the candidates up to the end of the window. -/
theorem instants_eq_limit_reached (hends : r.endsAt = none)
    (hfirst : r.firstIndex f anchor start = 0) :
    r.instants f anchor start finish =
      (r.window anchor start finish).limit (r.count.map Ranged.toNat)
        (r.reached f anchor finish) := by
  cases finish with
  | none =>
    have hnone : earlier? (r.endsAt.map Until.instant) none = none := by rw [hends]; rfl
    simp only [instants, hnone, Parts.reached, Window.limit_nil]
  | some b =>
    have hb : earlier? (r.endsAt.map Until.instant) (some b) = some b := by rw [hends]; rfl
    rw [instants_eq_limit hb, Parts.lattice, hfirst, Parts.reached]

/-- **A count takes the first candidates from the anchor on**, and the window chooses among
them. -/
theorem instants_counted {h : 1 ≤ n.val} :
    (r.counted n h).instants f anchor start finish =
      ((r.reached f anchor finish).take n.toNat).filter
        (r.endless.window anchor start finish).contains :=
  instants_eq_limit_reached rfl (Parts.firstIndex_of_count rfl)

/-- Without an end a rule gives all of them, in a window that begins with the anchor or
before. -/
theorem instants_endless (h : start ≤ anchor) :
    r.endless.instants f anchor start finish =
      (r.reached f anchor finish).filter (r.endless.window anchor start finish).contains :=
  instants_eq_limit_reached rfl (Parts.firstIndex_of_le h)

/-- No more instants are left than are counted. -/
theorem length_instants_counted_le {h : 1 ≤ n.val} :
    ((r.counted n h).instants f anchor start finish).length ≤ n.toNat := by
  rw [instants_counted]
  exact Nat.le_trans (List.length_filter_le _ _) (List.length_take_le _ _)

/-- The smaller count gives the beginning of what the greater one gives. -/
theorem isPrefix_instants_counted {hc : 1 ≤ c.val} {hd : 1 ≤ d.val} (hcd : c.val ≤ d.val) :
    (r.counted c hc).instants f anchor start finish <+:
      (r.counted d hd).instants f anchor start finish := by
  rw [instants_counted, instants_counted]
  exact (List.take_prefix_take_left (Int.toNat_le_toNat hcd)).filter _

/-- And the beginning of all, in a window that begins with the anchor or before. -/
theorem isPrefix_instants_endless {h : 1 ≤ n.val} (hstart : start ≤ anchor) :
    (r.counted n h).instants f anchor start finish <+:
      r.endless.instants f anchor start finish := by
  rw [instants_counted, instants_endless hstart]
  exact (List.take_prefix _ _).filter _

/-- A window that begins later holds what the earlier one holds from there on. -/
theorem window_contains_of_le {start' : Instant} (h : start ≤ start') (t : Instant) :
    (r.window anchor start' finish).contains t =
      (decide (start' ≤ t) && (r.window anchor start finish).contains t) := by
  have hle : max start' anchor ≤ t ↔ start' ≤ t ∧ max start anchor ≤ t := by
    rw [Instant.max_le_iff, Instant.max_le_iff]
    constructor
    · rintro ⟨hs, ha⟩
      exact ⟨hs, Instant.le_trans h hs, ha⟩
    · rintro ⟨hs, -, ha⟩
      exact ⟨hs, ha⟩
  have hbegin : decide (max start' anchor ≤ t) =
      (decide (start' ≤ t) && decide (max start anchor ≤ t)) := by
    rw [Bool.eq_iff_iff, Bool.and_eq_true, decide_eq_true_iff, decide_eq_true_iff,
      decide_eq_true_iff]
    exact hle
  calc (r.window anchor start' finish).contains t
      = (decide (max start' anchor ≤ t) && finish.all (t ≤ ·) &&
          (r.endsAt.map Until.instant).all (t ≤ ·)) := rfl
    _ = (decide (start' ≤ t) && (decide (max start anchor ≤ t) && finish.all (t ≤ ·) &&
          (r.endsAt.map Until.instant).all (t ≤ ·))) := by
        rw [hbegin]
        simp only [Bool.and_assoc]

/-- **Instants before the window are counted**: a window that begins later leaves them out
and lets nothing take their place. -/
theorem instants_counted_of_le {h : 1 ≤ n.val} {start' : Instant} (hle : start ≤ start') :
    (r.counted n h).instants f anchor start' finish =
      ((r.counted n h).instants f anchor start finish).filter (start' ≤ ·) := by
  rw [instants_counted, instants_counted, List.filter_filter]
  exact List.filter_congr fun t _ => window_contains_of_le hle t

/-- **A count keeps to the beginning of a rule.** It takes the first candidates from the
anchor on, and the window chooses among them. So of two counts the smaller one gives the
beginning of what the greater one gives, and no more values than it counts; in a window that
begins with the anchor or before, it gives the beginning of what the rule without an end
gives; and a window that begins later leaves out what lies before it and lets nothing take
its place. -/
theorem occurrences_counted (hf : r.freq = some f) (hc : 1 ≤ c.val) (hcd : c.val ≤ d.val)
    (q : Request) :
    ∃ l, (r.counted c hc).occurrences q = .ok l ∧ l.dates.length ≤ c.toNat ∧
      (∀ a ∈ q.anchor, l.dates =
        (((r.reached f a.instant (q.finish.map DateValue.instant)).take c.toNat).filter
          (r.endless.window a.instant q.start.instant (q.finish.map DateValue.instant)).contains).map
            (DateValue.ofInstant · q.kind)) ∧
      (∃ l', (r.counted d (Int.le_trans hc hcd)).occurrences q = .ok l' ∧ l.dates <+: l'.dates) ∧
      ((∀ a ∈ q.anchor, q.start ≤ a) →
        ∃ l', r.endless.occurrences q = .ok l' ∧ l.dates <+: l'.dates) ∧
      (q.kind = .dateTime → ∀ s, q.start ≤ s →
        ∃ l', (r.counted c hc).occurrences { q with start := s } = .ok l' ∧
          l'.dates = l.dates.filter (s ≤ ·)) := by
  obtain ha | ⟨a, ha⟩ := Option.eq_none_or_eq_some q.anchor
  · exact ⟨_, occurrences_of_anchor_none (r := r.counted c hc) hf ha, Nat.zero_le _,
      fun a h => absurd (ha.symm.trans h) nofun,
      ⟨_, occurrences_of_anchor_none (r := r.counted d _) hf ha, List.nil_prefix⟩,
      fun _ => ⟨_, occurrences_of_anchor_none (r := r.endless) hf ha, List.nil_prefix⟩,
      fun _ s _ => ⟨_, occurrences_of_anchor_none (r := r.counted c hc)
        (q := { q with start := s }) hf ha, rfl⟩⟩
  · refine ⟨_, occurrences_eq_ofInstants (r := r.counted c hc) hf ha q.kind, ?_, ?_,
      ⟨_, occurrences_eq_ofInstants (r := r.counted d _) hf ha q.kind, ?_⟩, ?_, ?_⟩
    · rw [DateList.dates_ofInstants, List.length_map]
      exact length_instants_counted_le
    · intro a' ha'
      cases ha.symm.trans ha'
      rw [DateList.dates_ofInstants, instants_counted]
    · rw [DateList.dates_ofInstants, DateList.dates_ofInstants]
      exact (isPrefix_instants_counted hcd).map _
    · intro hstart
      refine ⟨_, occurrences_eq_ofInstants (r := r.endless) hf ha q.kind, ?_⟩
      rw [DateList.dates_ofInstants, DateList.dates_ofInstants]
      exact (isPrefix_instants_endless (hstart a ha)).map _
    · intro hkind s hs
      refine ⟨_, occurrences_eq_ofInstants (r := r.counted c hc) (q := { q with start := s }) hf ha
        q.kind, ?_⟩
      rw [DateList.dates_ofInstants, DateList.dates_ofInstants, List.filter_map,
        instants_counted_of_le hs, hkind]
      rfl

/-- Three and five of the mornings and evenings, asked for from the anchor on and from the
next day on. The morning of the first day lies before the anchor and **is counted**: three
candidates give two values. -/
theorem twiceADay_occurrences_counted :
    let a : DateValue := .dateTime ((Date.ymd 2020 1 1).atHour 9)
    let s : DateValue := .date (Date.ymd 2020 1 2)
    let q : Request := .fromAnchor a (some (.date (Date.ymd 2020 1 4)))
    let three := twiceADay.counted (.of 3) (by decide)
    let five := twiceADay.counted (.of 5) (by decide)
    (∃ l, three.occurrences q = .ok l ∧ l.dates.length ≤ 3 ∧
      l.dates = (((twiceADay.reached .daily a.instant (q.finish.map DateValue.instant)).take 3).filter
        (twiceADay.endless.window a.instant q.start.instant
          (q.finish.map DateValue.instant)).contains).map (DateValue.ofInstant · .dateTime) ∧
      (∃ l', five.occurrences q = .ok l' ∧ l.dates <+: l'.dates) ∧
      (∃ l', twiceADay.endless.occurrences q = .ok l' ∧ l.dates <+: l'.dates) ∧
      ∃ l', three.occurrences { q with start := s } = .ok l' ∧
        l'.dates = l.dates.filter (s ≤ ·)) ∧
    ∃ l, three.occurrences q = .ok l ∧ l.dates.length = 2 := by
  intro a s q three five
  obtain ⟨l, hl, hlength, hfirst, hfive, hendless, hlater⟩ :=
    occurrences_counted (r := twiceADay) (f := .daily) (c := .of 3) (d := .of 5) rfl (by decide)
      (by decide) q
  have hstart : ∀ v ∈ q.anchor, q.start ≤ v := by
    rintro v ⟨⟩
    exact Instant.le_refl _
  refine ⟨⟨l, hl, hlength, hfirst a rfl, hfive, hendless hstart, hlater rfl s (by decide)⟩, _,
    occurrences_eq_ofInstants (r := three) (f := .daily) (q := q) (a := a) rfl rfl .dateTime, ?_⟩
  rw [DateList.dates_ofInstants, List.length_map]
  decide +kernel

end Rule

end Recurrence
