import Recurrence.Proofs.Expansion.Confined
import Recurrence.Proofs.Expansion.WeekYears
import Mathlib.Data.List.Forall2

/-!
# Periods follow one another

The candidates of a period come in the order of the rule's lists, which need not be
the order of time. The periods themselves are in order: of a rule that stays in its
periods, or in the weeks of their years, **every candidate of an earlier period is
earlier than every candidate of a later one** (`Parts.Chronological.lt_of_mem`). What
counts and windows leave of the candidates is a block for each period, and the answer
to a request is the blocks one after the other (`Rule.occurrences_eq_flatten`).
-/

namespace Recurrence

/-! ## Blocks -/

/-- What is left of joined lists is a block of each, joined. -/
theorem exists_blocks_of_sublist {α β : Type} {xs : List α} {g : α → List β} {ys : List β}
    (h : ys.Sublist (xs.flatMap g)) :
    ∃ blocks, List.Forall₂ (fun x block => block.Sublist (g x)) xs blocks ∧
      ys = blocks.flatten := by
  induction xs generalizing ys with
  | nil => exact ⟨[], .nil, List.sublist_nil.1 h⟩
  | cons x xs ih =>
    rw [List.flatMap_cons] at h
    obtain ⟨block, rest, rfl, hblock, hrest⟩ := List.sublist_append_iff.1 h
    obtain ⟨blocks, hblocks, rfl⟩ := ih hrest
    exact ⟨block :: blocks, .cons hblock hblocks, rfl⟩

/-- What stands to one list element by element has its order. -/
theorem pairwise_of_forall₂ {α β : Type} {R : α → β → Prop} {S : α → α → Prop} {T : β → β → Prop}
    (hT : ∀ x x' y y', R x y → R x' y' → S x x' → T y y') {xs : List α} {ys : List β}
    (h : List.Forall₂ R xs ys) (hS : xs.Pairwise S) : ys.Pairwise T := by
  rw [List.pairwise_iff_getElem] at hS ⊢
  intro i j hi hj hij
  have hlen := h.length_eq
  exact hT _ _ _ _ (h.get (by omega) hi) (h.get (by omega) hj) (hS i j (by omega) (by omega) hij)

/-- Every instant of one list is earlier than every instant of another. -/
def Instant.AllBefore (ts us : List Instant) : Prop :=
  ∀ t ∈ ts, ∀ u ∈ us, t < u

namespace Instant

variable {t u : Instant} {ts us ts' us' : List Instant}

/-- An instant in the weeks of an earlier year is earlier. -/
theorem lt_of_weekYear_lt (h : t.date.weekYear < u.date.weekYear) : t < u := by
  rw [← not_le]
  intro hle
  have := Date.weekYear_mono (day_le_of_le hle)
  omega

/-- What is left of earlier and later instants is earlier and later. -/
theorem AllBefore.sublist (h : AllBefore ts us) (hts : ts'.Sublist ts) (hus : us'.Sublist us) :
    AllBefore ts' us' := by
  intro t ht u hu
  exact h t (hts.subset ht) u (hus.subset hu)

end Instant

namespace Parts

variable {p : Parts} {f : Frequency} {anchor start bound t u c d : Instant} {m n : Nat}

/-! ## Periods -/

/-- The rule has no list that leaves the units of the frequency or, **with week
numbers, the weeks of the year.** -/
def Chronological (p : Parts) (f : Frequency) : Prop :=
  p.Confined f ∨ f = .yearly ∧ p.WeekNumbered

/-- **Candidates of earlier periods are earlier.** -/
theorem Chronological.lt_of_mem (h : p.Chronological f) (hstep : 1 ≤ p.step) (hmn : m < n)
    (hm : p.latticePoint? f anchor m = some t) (hn : p.latticePoint? f anchor n = some u)
    (hc : c ∈ p.candidates f [t]) (hd : d ∈ p.candidates f [u]) : c < d := by
  have hunit : t.unit f < u.unit f := by
    have := Nat.mul_lt_mul_of_pos_right hmn hstep
    rw [unit_latticePoint? hm, unit_latticePoint? hn]
    omega
  obtain hconf | ⟨rfl, hweek⟩ := h
  · apply Instant.lt_of_unit_lt (f := f)
    rwa [hconf.unit_of_mem_candidates hc, hconf.unit_of_mem_candidates hd]
  · apply Instant.lt_of_weekYear_lt
    rwa [hweek.weekYear_of_mem_candidates hc, hweek.weekYear_of_mem_candidates hd]

/-- The periods that a window visits follow one another. -/
theorem Chronological.lattice_pairwise (h : p.Chronological f) (hstep : 1 ≤ p.step) :
    (p.lattice f anchor start bound).Pairwise fun t u =>
      Instant.AllBefore (p.candidates f [t]) (p.candidates f [u]) := by
  rw [lattice_eq_filterMap hstep, List.pairwise_filterMap]
  refine List.pairwise_lt_range.imp ?_
  intro m n hmn t ht u hu c hc d hd
  have hm : p.latticePoint? f anchor m = some t := by
    split at ht
    · exact ht
    · cases ht
  have hn : p.latticePoint? f anchor n = some u := by
    split at hu
    · exact hu
    · cases hu
  exact h.lt_of_mem hstep hmn hm hn hc hd

end Parts

/-- Counts and windows leave candidates out, and change nothing else. -/
theorem Window.limit_sublist (w : Window) (count : Option Nat) (cs : List Instant) :
    (w.limit count cs).Sublist cs := by
  unfold limit
  cases count with
  | none => exact List.filter_sublist
  | some n => exact List.filter_sublist.trans (List.take_sublist n cs)

namespace Rule

variable {r : Rule} {f : Frequency} {q : Request}

/-! ## Answers -/

/-- The instants at which the periods open that a request visits; none without an
anchor or without a bound. -/
def opening (r : Rule) (f : Frequency) (q : Request) : List Instant :=
  match q.anchor, q.bound? r with
  | some a, some b => r.lattice f a.instant q.start.instant b
  | _, _ => []

/-- Every request is answered with what is left of the candidates, as values of the
kind that is asked for. -/
theorem exists_sublist_candidates (hf : r.freq = some f) (q : Request) :
    ∃ l, ∃ cs : List Instant, r.occurrences q = .ok l ∧
      l.dates = cs.map (DateValue.ofInstant · q.kind) ∧
      cs.Sublist (r.candidates f (r.opening f q)) := by
  cases ha : q.anchor with
  | none =>
    exact ⟨_, [], occurrences_of_anchor_none hf ha, rfl, List.nil_sublist _⟩
  | some a =>
    refine ⟨_, _, occurrences_eq_ofInstants hf ha q.kind, DateList.dates_ofInstants _ _, ?_⟩
    cases hb : q.bound? r with
    | none =>
      have hnone : earlier? (r.endsAt.map Until.instant) (q.finish.map DateValue.instant) =
          none := hb
      simp [instants, hnone]
    | some b =>
      rw [instants_eq_limit hb]
      simp only [opening, ha, hb]
      exact Window.limit_sublist _ _ _

/-- **Periods follow one another.** Where the lists of a rule do not leave its periods,
all candidates of a point come before all candidates of a later one, from every anchor
and in steps of every length. The answer to a request of any kind is then a block for
each period that the request visits, and every block is earlier than the ones after
it. -/
theorem occurrences_eq_flatten (hf : r.freq = some f) (hc : r.Chronological f) :
    (∀ anchor m n t u, m < n → r.latticePoint? f anchor m = some t →
      r.latticePoint? f anchor n = some u →
      Instant.AllBefore (r.candidates f [t]) (r.candidates f [u])) ∧
    ∀ q, ∃ l blocks, r.occurrences q = .ok l ∧
      l.dates = blocks.flatten.map (DateValue.ofInstant · q.kind) ∧
      List.Forall₂ (fun t block => block.Sublist (r.candidates f [t])) (r.opening f q) blocks ∧
      blocks.Pairwise Instant.AllBefore := by
  constructor
  · intro anchor m n t u hmn hm hn c hct d hdu
    exact hc.lt_of_mem r.one_le_step hmn hm hn hct hdu
  · intro q
    obtain ⟨l, cs, hl, hdates, hcs⟩ := exists_sublist_candidates hf q
    rw [Parts.candidates_eq_flatMap] at hcs
    obtain ⟨blocks, hblocks, rfl⟩ := exists_blocks_of_sublist hcs
    refine ⟨l, blocks, hl, hdates, hblocks, ?_⟩
    have hopening : (r.opening f q).Pairwise fun t u =>
        Instant.AllBefore (r.candidates f [t]) (r.candidates f [u]) := by
      unfold opening
      split
      · exact hc.lattice_pairwise r.one_le_step
      · exact .nil
    exact pairwise_of_forall₂ (fun t u b b' hb hb' h => h.sublist hb hb') hblocks hopening

/-- The first week of 2020 begins in December, and the 53rd of the same year ends in
January. -/
theorem firstAndLastWeek_occurrences_eq_flatten :
    let anchor := (Date.ymd 2019 12 31).atHour 9
    let q := Request.between anchor anchor ((Date.ymd 2021 6 1).atHour 0)
    Instant.AllBefore
        (firstAndLastWeek.candidates .yearly [anchor])
        (firstAndLastWeek.candidates .yearly [(Date.ymd 2020 12 31).atHour 9]) ∧
      ∃ l blocks, firstAndLastWeek.occurrences q = .ok l ∧
        l.dates = blocks.flatten.map (DateValue.ofInstant · q.kind) ∧
        List.Forall₂ (fun t block => block.Sublist (firstAndLastWeek.candidates .yearly [t]))
          (firstAndLastWeek.opening .yearly q) blocks ∧
        blocks.Pairwise Instant.AllBefore := by
  intro anchor q
  have hchrono : firstAndLastWeek.Chronological .yearly := .inr ⟨rfl, by decide, rfl, rfl⟩
  have hall := occurrences_eq_flatten (r := firstAndLastWeek) rfl hchrono
  exact ⟨hall.1 anchor 0 1 _ _ (by decide) (by decide +kernel) (by decide +kernel), hall.2 q⟩

end Rule

end Recurrence
