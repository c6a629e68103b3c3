import Recurrence.Proofs.Expansion.Stages
import Mathlib.Data.List.Basic

/-!
# Positions

Positions are picked inside the loop over the stages, after whichever stage is the last one
of the rule. Since the stages of a rule are different, the loop comes to that stage once,
and **what it does with positions is what it does without them and then one choice**
(`Parts.candidates_singleton_eq_picked`). A period is chosen from on its own, also where a
stage has left nothing of it; a rule without stages chooses nothing at all.
-/

namespace Recurrence

namespace Parts

variable {p : Parts} {f : Frequency} {scope : Scope} {s : Stage} {period : List Instant}
  {t : Instant}

/-- The rule without its positions. -/
def unpicked (p : Parts) : Parts :=
  { p with bySetPos := [] }

/-- What a rule keeps of what its stages make of a period: the positions that it lists, or
everything if it lists none. -/
def picked (p : Parts) (made : List Instant) : List Instant :=
  if p.bySetPos = [] then made else Position.select made (p.bySetPos.map (·.val))

/-! ## One stage -/

/-- Without positions a stage makes instants and picks none. -/
theorem afterStage_unpicked :
    p.unpicked.afterStage scope s period = period.flatMap fun t => s.instants p scope t := by
  rw [afterStage_eq_flatMap (p := p.unpicked) rfl]
  cases s <;> rfl

/-- **Positions are picked after the last stage.** -/
theorem afterStage_of_eq_last (h : p.lastStage? = some s) :
    p.afterStage scope s period = p.picked (p.unpicked.afterStage scope s period) := by
  rw [afterStage_unpicked, afterStage, picked]
  by_cases hpos : p.bySetPos = []
  · rw [if_neg (by simp [picksAfter, hpos]), if_pos hpos]
  · rw [if_pos (by simp [picksAfter, hpos, h]), if_neg hpos]

/-- **And after no other.** -/
theorem afterStage_of_ne_last (h : p.lastStage? ≠ some s) :
    p.afterStage scope s period = p.unpicked.afterStage scope s period := by
  rw [afterStage_unpicked, afterStage, if_neg (by simp [picksAfter, h])]

/-! ## All stages -/

/-- A rule with stages has a last one, and it is none of those before it. -/
theorem exists_stages_eq_append (h : p.stages ≠ []) :
    ∃ before last, p.stages = before ++ [last] ∧ p.lastStage? = some last ∧
      ∀ s ∈ before, p.lastStage? ≠ some s := by
  obtain hnil | ⟨before, last, heq⟩ := p.stages.eq_nil_or_concat'
  · exact absurd hnil h
  · have hlast : p.lastStage? = some last := by simp [lastStage?, heq]
    refine ⟨before, last, heq, hlast, ?_⟩
    intro s hs hs'
    have hrank := p.stages_pairwise
    rw [heq, List.pairwise_append] at hrank
    have hlt := hrank.2.2 s hs last List.mem_cons_self
    rw [hlast, Option.some.injEq] at hs'
    rw [hs'] at hlt
    omega

/-- **The stages of a period and one choice after them.** -/
theorem candidates_singleton_eq_picked (h : p.stages ≠ []) :
    p.candidates f [t] = p.picked (p.unpicked.candidates f [t]) := by
  obtain ⟨before, last, heq, hlast, hbefore⟩ := exists_stages_eq_append h
  have hstages : p.unpicked.stages = before ++ [last] := heq
  have hscope : p.unpicked.scope f = p.scope f := rfl
  -- Up to the last stage both loops carry the same instants.
  have hsame : before.foldl (fun period s => p.afterStage (p.scope f) s period) [t] =
      before.foldl (fun period s => p.unpicked.afterStage (p.scope f) s period) [t] :=
    List.foldl_ext _ _ _ fun period s hs => afterStage_of_ne_last (hbefore s hs)
  rw [candidates_singleton, candidates_singleton, hstages, heq, hscope, List.foldl_append,
    List.foldl_append, hsame]
  exact afterStage_of_eq_last hlast

/-- **Positions are picked once, after every stage, and never across periods.** The
candidates of some instants are, instant after instant, what the stages make of each
without regard to positions, and of this what the positions pick; where no stage is active
they are the instants themselves. So the candidates of joined lists are the joined
candidates. -/
theorem candidates_eq_flatMap_picked (p : Parts) (f : Frequency) :
    (∀ ts, p.candidates f ts = ts.flatMap fun t =>
      if p.stages = [] then [t] else p.picked (p.unpicked.candidates f [t])) ∧
    ∀ ts us, p.candidates f (ts ++ us) = p.candidates f ts ++ p.candidates f us := by
  constructor
  · intro ts
    rw [candidates_eq_flatMap]
    apply List.flatMap_congr
    intro t _
    by_cases h : p.stages = []
    · rw [if_pos h, candidates_singleton, h, List.foldl_nil]
    · rw [if_neg h, candidates_singleton_eq_picked h]
  · intro ts us
    rw [candidates_eq_flatMap (ts ++ us), List.flatMap_append, ← candidates_eq_flatMap,
      ← candidates_eq_flatMap]

-- Of 15 and 1 January the first is 15 January: positions follow the order of the list.
example :
    ({ byMonthDay := [.of 15, .of 1], bySetPos := [.of 1] } : Parts).candidates .monthly
      [(Date.ymd 2020 1 1).midnight, (Date.ymd 2020 2 1).midnight] =
        [(Date.ymd 2020 1 15).midnight, (Date.ymd 2020 2 15).midnight] := by
  decide +kernel

end Parts

end Recurrence
