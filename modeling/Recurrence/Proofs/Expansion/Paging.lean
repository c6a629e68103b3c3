import Recurrence.Proofs.Expansion.Requests

/-!
# Longer windows

Of two windows that begin together the longer one visits the periods of the shorter
one first, and then more. Between the bounds of the shorter window it therefore gives
what that one gives and, **after it, the candidates of the further periods**
(`Parts.candidates_lattice_eq_append`). The windows agree when there are none. A rule
with a month list has such candidates easily: the month of a point makes no difference
to its candidates, and the points of the months after the bound repeat those of the
months before it.
-/

namespace Recurrence

namespace Parts

variable {p : Parts} {f : Frequency} {anchor start bound bound' t u c : Instant} {n : Nat}

/-! ## Further periods -/

/-- A window with a later bound visits all points that one with an earlier bound
visits. -/
theorem visits_mono (h : bound ≤ bound') (hn : p.visits f anchor start bound n) :
    p.visits f anchor start bound' n := by
  rw [visits_iff] at *
  obtain ⟨hfirst, heq | ⟨t, ht, hle⟩⟩ := hn
  · exact ⟨hfirst, .inl heq⟩
  · exact ⟨hfirst, .inr ⟨t, ht, Instant.le_trans hle h⟩⟩

/-- The candidates of the periods that a window visits when its bound is moved on. -/
def further (p : Parts) (f : Frequency) (anchor start bound bound' : Instant) : List Instant :=
  (List.range stepLimit).flatMap fun n =>
    if p.visits f anchor start bound' n && !p.visits f anchor start bound n then
      p.periodAt f anchor n
    else []

/-- **Further periods begin after a point that lies between the two bounds.** -/
theorem mem_further (hstep : 1 ≤ p.step) :
    c ∈ p.further f anchor start bound bound' ↔
      ∃ n t u, p.firstIndex f anchor start ≤ n ∧
        p.latticePoint? f anchor n = some t ∧ bound < t ∧ t ≤ bound' ∧
        p.latticePoint? f anchor (n + 1) = some u ∧ c ∈ p.candidates f [u] := by
  simp only [further, List.mem_flatMap, List.mem_range]
  constructor
  · rintro ⟨n, -, hc⟩
    split at hc
    · next hv =>
      rw [Bool.and_eq_true, Bool.not_eq_true', ← Bool.not_eq_true, visits_iff, visits_iff] at hv
      obtain ⟨⟨hfirst, hvis'⟩, hvis⟩ := hv
      obtain ⟨u, hu, hcu⟩ := mem_periodAt.1 hc
      rcases hvis' with rfl | ⟨t, ht, hle⟩
      · exact absurd ⟨hfirst, .inl rfl⟩ hvis
      · -- The shorter window visits neither its first period nor one before its bound.
        have hlt : bound < t := by
          by_contra hle
          exact hvis ⟨hfirst, .inr ⟨t, ht, Instant.not_lt.1 hle⟩⟩
        have hn : p.firstIndex f anchor start < n := by
          refine Nat.lt_of_le_of_ne hfirst ?_
          intro heq
          exact hvis ⟨hfirst, .inl heq.symm⟩
        refine ⟨n - 1, t, u, by omega, ht, hlt, hle, ?_, hcu⟩
        rw [Nat.sub_add_cancel (by omega), hu]
    · cases hc
  · rintro ⟨n, t, u, hfirst, ht, hlt, hle, hu, hcu⟩
    refine ⟨n + 1, lt_stepLimit hstep hu, ?_⟩
    have hvis' : p.visits f anchor start bound' (n + 1) :=
      visits_iff.2 ⟨by omega, .inr ⟨t, ht, hle⟩⟩
    have hvis : ¬ p.visits f anchor start bound (n + 1) := by
      rw [visits_iff]
      rintro ⟨-, heq | ⟨v, hv, hle⟩⟩
      · omega
      · cases ht.symm.trans hv
        exact Instant.not_lt.2 hle hlt
    rw [if_pos (by simp [hvis', hvis])]
    exact mem_periodAt.2 ⟨u, hu, hcu⟩

/-- What is selected up to a place comes before what is selected after it only. -/
theorem flatMap_range_eq_append {α : Type} {V V' : Nat → Bool} (P : Nat → List α)
    (hsub : ∀ n, V n → V' n) (hdown : ∀ m n, m ≤ n → V n → V' m → V m) (k : Nat) :
    ((List.range k).flatMap fun n => if V' n then P n else []) =
      ((List.range k).flatMap fun n => if V n then P n else []) ++
        (List.range k).flatMap fun n => if V' n && !V n then P n else [] := by
  induction k with
  | zero => rfl
  | succ k ih =>
    simp only [List.range_succ, List.flatMap_append, ih, List.flatMap_singleton]
    cases hk : V k with
    | false => simp
    | true =>
      -- Nothing before this place has been left out so far.
      have hnone : ((List.range k).flatMap fun n => if V' n && !V n then P n else []) = [] := by
        rw [List.flatMap_eq_nil_iff]
        intro n hn
        refine if_neg ?_
        intro h
        obtain ⟨h', hnot⟩ := (Bool.and_eq_true _ _).mp h
        have hn := List.mem_range.1 hn
        simp [hdown n k (by omega) hk h'] at hnot
      rw [hnone]
      simp [hsub k hk]

/-- **The candidates of a longer window are those of the shorter one and then the
further ones.** -/
theorem candidates_lattice_eq_append (hstep : 1 ≤ p.step) (h : bound ≤ bound') :
    p.candidates f (p.lattice f anchor start bound') =
      p.candidates f (p.lattice f anchor start bound) ++
        p.further f anchor start bound bound' := by
  rw [candidates_lattice hstep, candidates_lattice hstep, further]
  exact flatMap_range_eq_append (p.periodAt f anchor) (fun n hn => visits_mono h hn)
    (fun m n hmn hn hm => visits_of_le hstep (visits_iff.1 hm).1 hmn hn) stepLimit

end Parts

namespace Rule

variable {r : Rule} {f : Frequency} {q q' : Request}

/-- **A longer window only adds at the end, and what it adds belongs to later
points.** Without a count, what a rule gives in a window is the beginning of what it
gives in a longer one that begins with it, less the values that the shorter one does
not cover; and it is all of that if and only if no point that comes after one between
the two bounds has a candidate in the shorter window. -/
theorem occurrences_filter_eq_append (hf : r.freq = some f) (hcount : r.count = none)
    (hk : q.kind = .dateTime) (hk' : q'.kind = .dateTime) (hstart : q.start = q'.start)
    (h : q.Within q') (hb : q'.BoundedFor r) {a : DateValue} (ha : q.anchor = some a) :
    ∃ b b' l l', q.bound? r = some b ∧ q'.bound? r = some b' ∧
      r.occurrences q = .ok l ∧ r.occurrences q' = .ok l' ∧
      (∃ added, l'.dates.filter q.covers = l.dates ++ added) ∧
      (l.dates = l'.dates.filter q.covers ↔
        ∀ n t u, r.latticePoint? f a.instant n = some t → b < t → t ≤ b' →
          r.latticePoint? f a.instant (n + 1) = some u →
          ∀ c ∈ r.candidates f [u], ¬ (q.window r a.instant).contains c) := by
  obtain ⟨b, b', l, l', hbound, hbound', hl, hl', hdates, hdates'⟩ :=
    exists_occurrences_within hf hk hk' h hb ha
  let further := (r.further f a.instant q.start.instant b b').filter (q.window r a.instant).contains
  have happend : l'.dates.filter q.covers = l.dates ++ further.map .dateTime := by
    have hlimit := h.filter_limit r a.instant none
      (r.candidates f (r.lattice f a.instant q'.start.instant b'))
    rw [hdates', instants_eq_limit hbound', hcount, List.filter_map]
    refine (congrArg (List.map DateValue.dateTime) hlimit).trans ?_
    rw [hdates, instants_eq_limit hbound, hcount, ← hstart,
      Parts.candidates_lattice_eq_append r.one_le_step (h.bound_le hbound hbound'),
      ← List.map_append]
    exact congrArg (List.map DateValue.dateTime) (List.filter_append _ _)
  refine ⟨b, b', l, l', hbound, hbound', hl, hl', ⟨_, happend⟩, ?_⟩
  rw [happend, List.self_eq_append_right, List.map_eq_nil_iff, List.filter_eq_nil_iff]
  constructor
  · intro hnone n t u ht hlt hle hu c hc hin
    refine hnone c ((Parts.mem_further r.one_le_step).2 ?_) hin
    refine ⟨n, t, u, ?_, ht, hlt, hle, hu, hc⟩
    -- A point before the first index lies before the window, and not past its bound.
    by_contra hn
    rw [Nat.not_le] at hn
    obtain ⟨hmax, hcb⟩ := (Window.contains_iff hbound).1 hin
    have hbefore : t < max q.start.instant a.instant :=
      Instant.lt_of_unit_lt (Parts.unit_lt_of_lt_firstIndex r.one_le_step hn ht)
    exact Instant.not_lt.2 (Instant.le_trans hmax hcb)
      (Instant.lt_of_lt_of_le hlt (Instant.le_of_lt hbefore))
  · intro hnone c hc hin
    obtain ⟨n, t, u, -, ht, hlt, hle, hu, hcu⟩ := (Parts.mem_further r.one_le_step).1 hc
    exact hnone n t u ht hlt hle hu c hcu hin

/-- Every month, moved to January. -/
def everyMonthInJanuary : Rule where
  freq := some .monthly
  byMonth := [⟨1, by decide, by decide⟩]
  valid := Parts.fault?_eq_none_iff.1 (by decide)

/-- A window of ten weeks and one of five months. -/
theorem everyMonthInJanuary_filter_eq_append :
    let anchor := (Date.ymd 2020 1 1).atHour 0
    let q := Request.between anchor anchor ((Date.ymd 2020 3 15).atHour 0)
    let q' := Request.between anchor anchor ((Date.ymd 2020 6 1).atHour 0)
    ∃ b b' l l', q.bound? everyMonthInJanuary = some b ∧ q'.bound? everyMonthInJanuary = some b' ∧
      everyMonthInJanuary.occurrences q = .ok l ∧ everyMonthInJanuary.occurrences q' = .ok l' ∧
      (∃ added, l'.dates.filter q.covers = l.dates ++ added) ∧
      (l.dates = l'.dates.filter q.covers ↔
        ∀ n t u, everyMonthInJanuary.latticePoint? .monthly anchor n = some t → b < t → t ≤ b' →
          everyMonthInJanuary.latticePoint? .monthly anchor (n + 1) = some u →
          ∀ c ∈ everyMonthInJanuary.candidates .monthly [u],
            ¬ (q.window everyMonthInJanuary anchor).contains c) := by
  intro anchor q q'
  have hf : everyMonthInJanuary.freq = some .monthly := rfl
  have hcount : everyMonthInJanuary.count = none := rfl
  have hk : q.kind = .dateTime := rfl
  have hk' : q'.kind = .dateTime := rfl
  have hstart : q.start = q'.start := rfl
  have h : q.Within q' := .between (by decide) (by decide)
  have hb : q'.BoundedFor everyMonthInJanuary := .inr rfl
  have ha : q.anchor = some (.dateTime anchor) := rfl
  have hall := occurrences_filter_eq_append hf hcount hk hk' hstart h hb ha
  exact hall

/-- **The longer window repeats the instant of the shorter one**: four points stand for
1 January up to the middle of March, and seven up to June. -/
theorem everyMonthInJanuary_repeats_occurrences :
    let anchor := (Date.ymd 2020 1 1).atHour 0
    let q := Request.between anchor anchor ((Date.ymd 2020 3 15).atHour 0)
    let q' := Request.between anchor anchor ((Date.ymd 2020 6 1).atHour 0)
    q.Within q' ∧ ∃ l l', everyMonthInJanuary.occurrences q = .ok l ∧
      everyMonthInJanuary.occurrences q' = .ok l' ∧ l.dates ≠ l'.dates.filter q.covers := by
  intro anchor q q'
  refine ⟨.between ?_ ?_, exists_occurrences_ne rfl ?_⟩
  all_goals decide +kernel

end Rule

end Recurrence
