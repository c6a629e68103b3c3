import Recurrence.Proofs.Rule.LastValues
import Recurrence.Rule.Edit

/-!
# What edits make of a rule

However many edits there are, and whatever numbers stand in the parts for a while, what
can be built in the end depends on the last edit of each place alone. **A rebuild in
between changes nothing** (`Parts.editAll_rebuild`), a part changes the place that it
belongs to and no other (`Parts.get_set`), and the run over all edits follows by induction
(`Parts.get_editAll`). A rule that has been built steps at all, so that later points of its
lattice are always later units, and it is built again from its own parts.
-/

namespace Recurrence

/-! ## Places -/

/-- The places of a rule, each for one thing at a time. **A last instant and a count share
theirs**, and every key of the extension parts has its own. -/
inductive Place where
  | freq
  | interval
  | termination
  | weekStart
  | bySecond
  | byMinute
  | byHour
  | byDay
  | byMonthDay
  | byYearDay
  | byWeekNo
  | byMonth
  | bySetPos
  | extension (key : String)

/-- What can stand in a place. -/
@[reducible] def Place.Value : Place → Type
  | freq => Option Frequency
  | interval => Option Word
  | termination => Option Termination
  | weekStart => Option Weekday
  | bySecond | byMinute | byHour | byMonth => List Octet
  | byDay => List DayEntry
  | byMonthDay | byWeekNo => List SignedOctet
  | byYearDay => List SignedShort
  | bySetPos => List SignedWord
  | extension _ => Option String

/-- What a part puts into a place; nothing where it belongs to another. -/
def Part.value? : Part → (k : Place) → Option k.Value
  | freq f, .freq => some (some f)
  | endsAt u, .termination => some (some (.endsAt u))
  | count n, .termination => some (some (.count n))
  | interval n, .interval => some (some n)
  | weekStart w, .weekStart => some (some w)
  | bySecond xs, .bySecond => some xs
  | byMinute xs, .byMinute => some xs
  | byHour xs, .byHour => some xs
  | byDay xs, .byDay => some xs
  | byMonthDay xs, .byMonthDay => some xs
  | byYearDay xs, .byYearDay => some xs
  | byWeekNo xs, .byWeekNo => some xs
  | byMonth xs, .byMonth => some xs
  | bySetPos xs, .bySetPos => some xs
  | extension key value, .extension k => if k = key then some (some value) else none
  | _, _ => none

namespace Edit

/-- What an edit puts into a place. -/
def value? : Edit → (k : Place) → Option k.Value
  | set part, k => part.value? k
  | rebuild, _ => none

/-- What the last edit of a place puts into it. -/
def last? (es : List Edit) (k : Place) : Option k.Value :=
  es.reverse.findSome? fun e => e.value? k

/-- The first of some edits counts for the places that no later one edits. -/
theorem last?_cons (e : Edit) (es : List Edit) (k : Place) :
    last? (e :: es) k = (last? es k).or (e.value? k) := by
  rw [last?, List.reverse_cons, List.findSome?_append, List.findSome?_singleton, last?]

end Edit

namespace Parts

variable {p q : Parts} {es : List Edit} {e : ParseError}

/-- What stands in a place of a rule. -/
def get (p : Parts) : (k : Place) → k.Value
  | .freq => p.freq
  | .interval => p.interval
  | .termination => p.termination
  | .weekStart => p.weekStart
  | .bySecond => p.bySecond
  | .byMinute => p.byMinute
  | .byHour => p.byHour
  | .byDay => p.byDay
  | .byMonthDay => p.byMonthDay
  | .byYearDay => p.byYearDay
  | .byWeekNo => p.byWeekNo
  | .byMonth => p.byMonth
  | .bySetPos => p.bySetPos
  | .extension key => p.extensions.get? key

/-- **There is nothing in a rule beside what stands in its places.** -/
theorem eq_of_get (h : ∀ k, p.get k = q.get k) : p = q := by
  have hext : p.extensions = q.extensions := Extensions.eq_of_get? fun key => h (.extension key)
  cases p
  cases q
  simp only [mk.injEq]
  exact ⟨h .freq, h .interval, h .termination, h .weekStart, h .bySecond, h .byMinute, h .byHour,
    h .byDay, h .byMonthDay, h .byYearDay, h .byWeekNo, h .byMonth, h .bySetPos, hext⟩

/-- **A part changes the place that it belongs to and no other.** -/
theorem get_set (p : Parts) (part : Part) (k : Place) :
    (p.set part).get k = (part.value? k).getD (p.get k) := by
  cases part with
  | extension key value =>
    cases k with
    | extension other =>
      have hget := p.extensions.get?_insert key value other
      simp only [get, set, Part.value?, hget]
      split <;> rfl
    | _ => rfl
  | _ => cases k <;> rfl

/-! ## Edits -/

/-- **A rebuild changes nothing**: it ends the edits or leaves them as they are. -/
theorem editAll_rebuild (p : Parts) (es : List Edit) :
    p.editAll (.rebuild :: es) = p.build >>= fun _ => p.editAll es := by
  show p.build.map Rule.toParts >>= (editAll · es) = _
  cases hbuild : p.build with
  | error e => rfl
  | ok r =>
    rw [← build_eq_ok_iff.1 hbuild]
    rfl

/-- Edits that begin with a rebuild begin with valid parts. -/
theorem editAll_of_editAll_rebuild (h : p.editAll (.rebuild :: es) = .ok q) :
    p.editAll es = .ok q := by
  rw [editAll_rebuild] at h
  cases hbuild : p.build with
  | error e =>
    rw [hbuild] at h
    cases h
  | ok r => rwa [hbuild] at h

/-- **After all edits a place holds what its last edit has put there**, or else what it held
before. -/
theorem get_editAll (h : p.editAll es = .ok q) (k : Place) :
    q.get k = (Edit.last? es k).getD (p.get k) := by
  induction es generalizing p with
  | nil =>
    cases h
    rfl
  | cons e es ih =>
    rw [Edit.last?_cons, Option.getD_or]
    cases e with
    | set part => rw [ih h, get_set, Edit.value?]
    | rebuild => exact ih (editAll_of_editAll_rebuild h)

/-- Edits follow one another. -/
theorem editAll_append (p : Parts) (es es' : List Edit) :
    p.editAll (es ++ es') = p.editAll es >>= (editAll · es') :=
  List.foldlM_append

/-- Nothing but a rebuild fails. -/
theorem exists_rebuild_of_error (h : p.editAll es = .error e) :
    ∃ before after q, es = before ++ .rebuild :: after ∧ p.editAll before = .ok q ∧
      q.build = .error e := by
  induction es generalizing p with
  | nil => cases h
  | cons edit es ih =>
    cases edit with
    | set part =>
      obtain ⟨before, after, q, rfl, hbefore, hq⟩ := ih h
      exact ⟨.set part :: before, after, q, rfl, hbefore, hq⟩
    | rebuild =>
      rw [editAll_rebuild] at h
      cases hbuild : p.build with
      | error e' =>
        rw [hbuild] at h
        cases h
        exact ⟨[], es, p, rfl, rfl, hbuild⟩
      | ok r =>
        rw [hbuild] at h
        obtain ⟨before, after, q, rfl, hbefore, hq⟩ := ih h
        refine ⟨.rebuild :: before, after, q, rfl, ?_, hq⟩
        rw [editAll_rebuild, hbuild]
        exact hbefore

/-- **Edits fail at a rebuild of parts that no rule can have**, with what is wrong about
these; what follows makes no difference. -/
theorem editAll_eq_error_iff :
    p.editAll es = .error e ↔
      ∃ before after q, es = before ++ .rebuild :: after ∧ p.editAll before = .ok q ∧
        q.build = .error e := by
  refine ⟨exists_rebuild_of_error, ?_⟩
  rintro ⟨before, after, q, rfl, hbefore, hq⟩
  calc p.editAll (before ++ .rebuild :: after)
      = q.editAll (.rebuild :: after) := by rw [editAll_append, hbefore]; rfl
    _ = .error e := by rw [editAll_rebuild, hq]; rfl

/-! ## Rules -/

/-- Valid parts, and no others, are built to a rule. -/
theorem exists_build_iff : (∃ r, p.build = .ok r) ↔ p.Valid := by
  constructor
  · rintro ⟨r, hr⟩
    rw [← build_eq_ok_iff.1 hr]
    exact r.valid
  · intro h
    exact ⟨⟨p, h⟩, build_eq_ok_iff.2 rfl⟩

/-- **A rule has the last edit of each place, whatever stood there in between.** Edits end
early at a rebuild of parts with a number that has no meaning, and in no other way. Where
they do not, their parts are built exactly when the numbers that they leave have a meaning,
and to the rule that has in each place what its last edit put there, or what it held at the
beginning. Such a rule steps at all, by more units the more steps it takes, and is built
again from its own parts. -/
theorem build_editAll (start : Parts) (es : List Edit) :
    (∀ e, start.editAll es = .error e ↔
      ∃ before after p, es = before ++ .rebuild :: after ∧ start.editAll before = .ok p ∧
        p.build = .error e) ∧
    ∀ p, start.editAll es = .ok p →
      ((∃ r, p.build = .ok r) ↔ p.Valid) ∧
      (∀ r : Rule, p.build = .ok r ↔ ∀ k, r.get k = (Edit.last? es k).getD (start.get k)) ∧
      ∀ r, p.build = .ok r →
        1 ≤ r.step ∧ (∀ m n, m < n → m * r.step < n * r.step) ∧ r.toParts.build = .ok r := by
  refine ⟨fun e => editAll_eq_error_iff, ?_⟩
  intro p hp
  refine ⟨exists_build_iff, ?_, ?_⟩
  · intro r
    rw [build_eq_ok_iff]
    constructor
    · rintro rfl k
      exact get_editAll hp k
    · intro hget
      apply eq_of_get
      intro k
      rw [hget, get_editAll hp]
  · intro r _
    refine ⟨r.one_le_step, ?_, build_eq_ok_iff.2 rfl⟩
    intro m n hmn
    exact Nat.mul_lt_mul_of_pos_right hmn r.one_le_step

/-- A rule that is made by mistakes and their repair: a count and an interval of 0 and a
thirteenth month are all replaced before the rebuild, and a last instant gives way to a
count after it. -/
theorem repairs_build :
    let start := ofFrequency .monthly
    let es : List Edit :=
      [.set (.count (.of 0)), .set (.interval (.of 0)), .set (.byMonth [.of 2, .of 13]),
        .set (.extension "X-NOTE" "draft"), .set (.endsAt (.date (Date.ymd 2020 11 30))),
        .set (.byMonth [.of 2]), .set (.interval (.of 2)), .rebuild, .set (.count (.of 5)),
        .set (.extension "X-NOTE" "final")]
    ∃ p r, start.editAll es = .ok p ∧ p.build = .ok r ∧
      r.text = "FREQ=MONTHLY;INTERVAL=2;COUNT=5;BYMONTH=2;X-NOTE=final" ∧
      ((∃ r, p.build = .ok r) ↔ p.Valid) ∧
      (∀ k, r.get k = (Edit.last? es k).getD (start.get k)) ∧
      1 ≤ r.step ∧ (∀ m n, m < n → m * r.step < n * r.step) ∧ r.toParts.build = .ok r := by
  intro start es
  have hrun : ∃ p r, start.editAll es = .ok p ∧ p.build = .ok r ∧
      r.text = "FREQ=MONTHLY;INTERVAL=2;COUNT=5;BYMONTH=2;X-NOTE=final" :=
    ⟨_, _, rfl, rfl, by decide +kernel⟩
  obtain ⟨p, r, hp, hr, htext⟩ := hrun
  obtain ⟨hvalid, hget, hsteps⟩ := (build_editAll start es).2 p hp
  exact ⟨p, r, hp, hr, htext, hvalid, (hget r).1 hr, hsteps r hr⟩

end Parts

end Recurrence
