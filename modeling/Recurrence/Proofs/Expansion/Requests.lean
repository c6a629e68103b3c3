import Recurrence.Proofs.Expansion.Periods

/-!
# Requests within requests

A request lies within another when both have one anchor and its window lies in
the other's. `Request.covers` says which values lie in a window. The rule's own
window then holds what **the wider one holds and the narrower one covers**
(`Request.Within.contains_iff`), so that a theorem about two windows becomes one
about a window and the series.
-/

namespace Recurrence

/-- Instants are told apart as values. -/
theorem DateValue.dateTime_injective : Function.Injective DateValue.dateTime := by
  intro t u h
  exact DateValue.dateTime.inj h

/-- The values of a list that is made of instants. -/
@[simp] theorem DateList.dates_ofInstants (kind : ValueKind) (ts : List Instant) :
    (ofInstants kind ts).dates = ts.map (DateValue.ofInstant · kind) := by
  simp [ofInstants, extend, empty, DateValue.ofInstant]

namespace Request

/-- The bounds that a rule with this anchor keeps to when it answers a request. -/
def window (q : Request) (r : Rule) (anchor : Instant) : Window :=
  r.window anchor q.start.instant (q.finish.map DateValue.instant)

/-- Whether a value lies in the window of a request. A window without an end covers
everything from its beginning on. -/
def covers (q : Request) (v : DateValue) : Bool :=
  decide (q.start ≤ v) && q.finish.all (v ≤ ·)

/-- The window of one request lies in the window of another with the same anchor;
**a window without an end only lies in another without an end.** -/
structure Within (q q' : Request) : Prop where
  /-- The requests have one anchor. -/
  anchor_eq : q.anchor = q'.anchor
  /-- The wider window begins no later. -/
  start_le : q'.start ≤ q.start
  /-- The narrower window ends no later. -/
  finish_le : ∀ e' ∈ q'.finish, ∃ e ∈ q.finish, e ≤ e'

/-- The request for the instants between two others. -/
def between (anchor start finish : Instant) : Request :=
  of (some (.dateTime anchor)) (.dateTime start) (some (.dateTime finish))

/-- The instant after which nothing is asked for: the last one of the rule or the end
of the window, whichever is earlier. -/
def bound? (q : Request) (r : Rule) : Option Instant :=
  earlier? (r.endsAt.map Until.instant) (q.finish.map DateValue.instant)

/-- The last instant of the rule or the end of the window bounds what is asked for. -/
def BoundedFor (q : Request) (r : Rule) : Prop :=
  r.endsAt.isSome ∨ q.finish.isSome

variable {q q' : Request} {r : Rule}

theorem covers_iff {t : Instant} :
    q.covers (.dateTime t) ↔
      q.start.instant ≤ t ∧ ∀ e ∈ q.finish.map DateValue.instant, t ≤ e := by
  have hle : ∀ {v w : DateValue}, v ≤ w ↔ v.instant ≤ w.instant := Iff.rfl
  unfold covers
  cases q.finish with
  | none => simp [hle, DateValue.instant]
  | some e => simp [hle, DateValue.instant]

/-- A bounded request has an instant that nothing in its window is later than. -/
theorem BoundedFor.exists_bound (h : q.BoundedFor r) : ∃ b, q.bound? r = some b := by
  unfold BoundedFor at h
  unfold bound?
  cases hu : r.endsAt with
  | none =>
    cases hq : q.finish with
    | none => simp [hu, hq] at h
    | some e => exact ⟨e.instant, rfl⟩
  | some u =>
    cases q.finish with
    | none => exact ⟨u.instant, rfl⟩
    | some e => exact ⟨min u.instant e.instant, rfl⟩

namespace Within

/-- A span of time lies within a longer one. -/
theorem between {anchor s s' e e' : Instant} (hs : s' ≤ s) (he : e ≤ e') :
    (between anchor s e).Within (between anchor s' e') :=
  ⟨rfl, hs, by
    rintro _ ⟨⟩
    exact ⟨_, rfl, he⟩⟩

/-- A request within a bounded one is bounded. -/
theorem boundedFor (h : q.Within q') (hb : q'.BoundedFor r) : q.BoundedFor r := by
  refine hb.imp_right ?_
  intro hs
  obtain ⟨e', he'⟩ := Option.isSome_iff_exists.1 hs
  obtain ⟨e, he, -⟩ := h.finish_le e' he'
  exact Option.isSome_iff_exists.2 ⟨e, he⟩

/-- The bound of the narrower window is no later. -/
theorem bound_le (h : q.Within q') {b b' : Instant} (hb : q.bound? r = some b)
    (hb' : q'.bound? r = some b') : b ≤ b' := by
  obtain ⟨hlast, hfinish⟩ := (le_earlier?_iff hb).1 (Instant.le_refl b)
  refine (le_earlier?_iff hb').2 ⟨hlast, ?_⟩
  simp only [Option.all_eq_true, decide_eq_true_eq] at *
  intro e' he'
  obtain ⟨v', hv', rfl⟩ := Option.map_eq_some_iff.1 he'
  obtain ⟨v, hv, hle⟩ := h.finish_le v' hv'
  exact Instant.le_trans (hfinish v.instant (Option.mem_map_of_mem _ hv)) hle

/-- **The narrower window holds what the wider one holds and the request covers.** -/
theorem contains_iff (h : q.Within q') (r : Rule) (anchor t : Instant) :
    (q.window r anchor).contains t ↔
      (q'.window r anchor).contains t ∧
        q.covers (.dateTime t) := by
  have hstart : q'.start.instant ≤ q.start.instant := h.start_le
  rw [covers_iff]
  simp only [window, Rule.window, Window.contains, Bool.and_eq_true, decide_eq_true_eq,
    Option.all_eq_true, Instant.max_le_iff]
  constructor
  · rintro ⟨⟨⟨hs, ha⟩, he⟩, hl⟩
    refine ⟨⟨⟨⟨Instant.le_trans hstart hs, ha⟩, ?_⟩, hl⟩, hs, he⟩
    intro e' he'
    obtain ⟨v', hv', rfl⟩ := Option.map_eq_some_iff.1 he'
    obtain ⟨v, hv, hle⟩ := h.finish_le v' hv'
    exact Instant.le_trans (he v.instant (Option.mem_map_of_mem _ hv)) hle
  · rintro ⟨⟨⟨⟨-, ha⟩, -⟩, hl⟩, hs, he⟩
    exact ⟨⟨⟨hs, ha⟩, he⟩, hl⟩

/-- What the wider window leaves of some candidates, cut down to the narrower
window, is what the narrower one leaves of them. -/
theorem filter_limit (h : q.Within q') (r : Rule) (anchor : Instant) (count : Option Nat)
    (cs : List Instant) :
    ((q'.window r anchor).limit count cs).filter (fun t => q.covers (.dateTime t)) =
      (q.window r anchor).limit count cs := by
  unfold Window.limit
  rw [List.filter_filter]
  apply List.filter_congr
  intro t _
  rw [Bool.eq_iff_iff, Bool.and_eq_true, h.contains_iff r anchor t]
  exact and_comm

end Within

end Request

namespace Rule

variable {r : Rule} {f : Frequency} {q : Request}

/-- A request without an anchor is answered with no values. -/
theorem occurrences_of_anchor_none (hf : r.freq = some f) (ha : q.anchor = none) :
    r.occurrences q = .ok (.empty q.kind) := by
  simp only [occurrences, hf, ha]

/-- A rule with a frequency answers a request of any kind with the same instants. -/
theorem occurrences_eq_ofInstants (hf : r.freq = some f) {a : DateValue}
    (ha : q.anchor = some a) (kind : ValueKind) :
    r.occurrences (q.withKind kind) = .ok (.ofInstants kind
      (r.instants f a.instant q.start.instant (q.finish.map DateValue.instant))) := by
  simp only [occurrences, Request.withKind, hf, ha]

/-- **A rule that says how often it repeats answers every request**, with its
instants in the window as values. -/
theorem exists_occurrences (hf : r.freq = some f) (hk : q.kind = .dateTime) {a : DateValue}
    (ha : q.anchor = some a) :
    ∃ l, r.occurrences q = .ok l ∧
      l.dates = (r.instants f a.instant q.start.instant
        (q.finish.map DateValue.instant)).map .dateTime := by
  refine ⟨_, occurrences_eq_ofInstants hf ha q.kind, ?_⟩
  rw [DateList.dates_ofInstants, hk]
  rfl

/-- **Both requests are answered**, a bounded one and one within it, each with what the
rule gives in its window up to its bound. -/
theorem exists_occurrences_within {q' : Request} (hf : r.freq = some f)
    (hk : q.kind = .dateTime) (hk' : q'.kind = .dateTime) (h : q.Within q')
    (hb : q'.BoundedFor r) {a : DateValue} (ha : q.anchor = some a) :
    ∃ b b' l l', q.bound? r = some b ∧ q'.bound? r = some b' ∧
      r.occurrences q = .ok l ∧ r.occurrences q' = .ok l' ∧
      l.dates = (r.instants f a.instant q.start.instant
        (q.finish.map DateValue.instant)).map .dateTime ∧
      l'.dates = (r.instants f a.instant q'.start.instant
        (q'.finish.map DateValue.instant)).map .dateTime := by
  obtain ⟨b, hbound⟩ := (h.boundedFor hb).exists_bound
  obtain ⟨b', hbound'⟩ := hb.exists_bound
  obtain ⟨l, hl, hdates⟩ := exists_occurrences hf hk ha
  obtain ⟨l', hl', hdates'⟩ := exists_occurrences hf hk' (h.anchor_eq ▸ ha)
  exact ⟨b, b', l, l', hbound, hbound', hl, hl', hdates, hdates'⟩

/-- Answers differ where the instants do. -/
theorem exists_occurrences_ne {anchor s s' e e' : Instant} (hf : r.freq = some f)
    (h : r.instants f anchor s (some e) ≠ (r.instants f anchor s' (some e')).filter fun t =>
      (Request.between anchor s e).covers (.dateTime t)) :
    ∃ l l', r.occurrences (.between anchor s e) = .ok l ∧
      r.occurrences (.between anchor s' e') = .ok l' ∧
      l.dates ≠ l'.dates.filter (Request.between anchor s e).covers := by
  obtain ⟨l, hl, hdates⟩ :=
    exists_occurrences hf (rfl : (Request.between anchor s e).kind = _) rfl
  obtain ⟨l', hl', hdates'⟩ :=
    exists_occurrences hf (rfl : (Request.between anchor s' e').kind = _) rfl
  refine ⟨l, l', hl, hl', ?_⟩
  intro heq
  apply h
  rw [hdates, hdates', List.filter_map] at heq
  exact List.map_injective_iff.2 DateValue.dateTime_injective heq

end Rule

end Recurrence
