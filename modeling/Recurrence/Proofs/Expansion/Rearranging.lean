import Recurrence.Proofs.Expansion.Bounds
import Mathlib.Data.List.Perm.Basic

/-!
# The order of entries

A rule whose lists have the same entries in another order visits the same periods: which
stages it has, how wide its weekdays look and where its seeds lie depend on what lists there
are and not on what stands in them (`Parts.SameEntries.lattice_eq`). A stage makes of an
instant the same instants in another order, and of a period in another order a period in
another order (`Parts.SameEntries.afterStage_perm`); **without positions and without a count
this is all that comes of it** (`Rule.occurrences_perm`), for either would choose by the
order.
-/

namespace Recurrence

/-- Parts that differ in nothing but the order of the entries in their lists; **positions
are the same, and in the same order.** -/
structure Parts.SameEntries (p p' : Parts) : Prop where
  /-- Both repeat in the same unit. -/
  freq : p.freq = p'.freq
  /-- Both repeat after the same number of units. -/
  interval : p.interval = p'.interval
  /-- Both end alike. -/
  termination : p.termination = p'.termination
  /-- Weeks begin on the same day. -/
  weekStart : p.weekStart = p'.weekStart
  /-- The same seconds. -/
  bySecond : p.bySecond.Perm p'.bySecond
  /-- The same minutes. -/
  byMinute : p.byMinute.Perm p'.byMinute
  /-- The same hours. -/
  byHour : p.byHour.Perm p'.byHour
  /-- The same weekdays. -/
  byDay : p.byDay.Perm p'.byDay
  /-- The same days of the month. -/
  byMonthDay : p.byMonthDay.Perm p'.byMonthDay
  /-- The same days of the year. -/
  byYearDay : p.byYearDay.Perm p'.byYearDay
  /-- The same weeks. -/
  byWeekNo : p.byWeekNo.Perm p'.byWeekNo
  /-- The same months. -/
  byMonth : p.byMonth.Perm p'.byMonth
  /-- The same positions. -/
  bySetPos : p.bySetPos = p'.bySetPos
  /-- The same parts without a meaning. -/
  extensions : p.extensions = p'.extensions

namespace Parts.SameEntries

variable {p p' : Parts} {f : Frequency} {scope : Scope} {s : Stage} {anchor start bound : Instant}

/-! ## The same periods -/

/-- A list keeps its entries, so it keeps having some. -/
theorem stages_eq (h : p.SameEntries p') : p.stages = p'.stages := by
  have hactive : ∀ s, Stage.isActive p s = Stage.isActive p' s := by
    intro s
    cases s with
    | month => simp only [Stage.isActive, h.byMonth.isEmpty_eq]
    | weekNo => simp only [Stage.isActive, h.byWeekNo.isEmpty_eq]
    | yearDay => simp only [Stage.isActive, h.byYearDay.isEmpty_eq]
    | monthDay => simp only [Stage.isActive, h.byMonthDay.isEmpty_eq]
    | day => simp only [Stage.isActive, h.byDay.isEmpty_eq]
    | hour => simp only [Stage.isActive, h.byHour.isEmpty_eq]
    | minute => simp only [Stage.isActive, h.byMinute.isEmpty_eq]
    | second => simp only [Stage.isActive, h.bySecond.isEmpty_eq]
  exact List.filter_congr fun s _ => hactive s

/-- Weekdays look equally wide. -/
theorem scope_eq (h : p.SameEntries p') : p.scope f = p'.scope f := by
  simp only [scope, h.byWeekNo.isEmpty_eq, h.byMonth.isEmpty_eq]

/-- **The same periods are visited**: where they begin depends on which lists there are. -/
theorem lattice_eq (h : p.SameEntries p') :
    p.lattice f anchor start bound = p'.lattice f anchor start bound := by
  have hstep : p.step = p'.step := by simp only [step, h.interval]
  have hcount : p.count = p'.count := by simp only [count, h.termination]
  have hpoint : p.latticePoint? f anchor = p'.latticePoint? f anchor := by
    funext n
    simp only [latticePoint?, hstep]
  simp only [lattice, hpoint, firstIndex, seed?, finestField, h.stages_eq, hstep, hcount]

/-! ## The same candidates -/

/-- **A stage makes the same instants of an instant**, in the order of its list. -/
theorem instants_perm (h : p.SameEntries p') (t : Instant) :
    (s.instants p scope t).Perm (s.instants p' scope t) := by
  cases s with
  | month => exact h.byMonth.filterMap _
  | weekNo => exact h.byWeekNo.filterMap _
  | yearDay => exact h.byYearDay.filterMap _
  | monthDay => exact h.byMonthDay.filterMap _
  | day => exact h.byDay.flatMap_right _
  | hour => exact h.byHour.filterMap _
  | minute => exact h.byMinute.filterMap _
  | second => exact h.bySecond.filterMap _

/-- **A stage keeps a period the same but for the order.** -/
theorem afterStage_perm (h : p.SameEntries p') (hpos : p.bySetPos = [])
    {period period' : List Instant} (hperiod : period.Perm period') :
    (p.afterStage scope s period).Perm (p'.afterStage scope s period') := by
  rw [afterStage_eq_flatMap hpos, afterStage_eq_flatMap (h.bySetPos.symm.trans hpos)]
  exact hperiod.flatMap fun t _ => h.instants_perm t

/-- And so do all stages. -/
theorem foldl_afterStage_perm (h : p.SameEntries p') (hpos : p.bySetPos = []) (stages : List Stage)
    {period period' : List Instant} (hperiod : period.Perm period') :
    (stages.foldl (fun period s => p.afterStage scope s period) period).Perm
      (stages.foldl (fun period s => p'.afterStage scope s period) period') := by
  induction stages generalizing period period' with
  | nil => exact hperiod
  | cons s stages ih => exact ih (h.afterStage_perm hpos hperiod)

/-- **The candidates of every period are the same** but for the order. -/
theorem candidates_perm (h : p.SameEntries p') (hpos : p.bySetPos = []) (ts : List Instant) :
    (p.candidates f ts).Perm (p'.candidates f ts) := by
  rw [candidates_eq_flatMap, candidates_eq_flatMap]
  refine List.Perm.flatMap_left ts fun t _ => ?_
  rw [candidates_singleton, candidates_singleton, ← h.stages_eq, ← h.scope_eq]
  exact h.foldl_afterStage_perm hpos p.stages (.refl _)

end Parts.SameEntries

namespace Rule

variable {r r' : Rule} {f : Frequency} {anchor start : Instant} {finish : Option Instant}

/-- The same instants in a window, but for the order. -/
theorem instants_perm (h : r.SameEntries r'.toParts) (hpos : r.bySetPos = [])
    (hcount : r.count = none) :
    (r.instants f anchor start finish).Perm (r'.instants f anchor start finish) := by
  have hends : r.endsAt = r'.endsAt := by simp only [Parts.endsAt, h.termination]
  have hcount' : r'.count = none := by rw [← hcount]; simp only [Parts.count, h.termination]
  cases hb : earlier? (r.endsAt.map Until.instant) finish with
  | none =>
    have hb' : earlier? (r'.endsAt.map Until.instant) finish = none := hends ▸ hb
    simp only [instants, hb, hb', List.Perm.refl]
  | some b =>
    have hb' : earlier? (r'.endsAt.map Until.instant) finish = some b := hends ▸ hb
    rw [instants_eq_limit hb, instants_eq_limit hb', hcount, hcount', window, window, ← hends,
      h.lattice_eq]
    exact (h.candidates_perm hpos _).filter _

/-- **The order of the entries in its lists changes the order of a rule's answers and nothing
else.** Without positions and without a count, a rule with the same entries in another order
answers every request with values of the same kind, the same ones and each as often; and
where the one is refused for want of a frequency, so is the other. -/
theorem occurrences_perm (h : r.SameEntries r'.toParts) (hpos : r.bySetPos = [])
    (hcount : r.count = none) (q : Request) :
    (r.freq = none → r.occurrences q = .error .missingFrequency ∧
      r'.occurrences q = .error .missingFrequency) ∧
    (r.freq ≠ none → ∃ l l', r.occurrences q = .ok l ∧ r'.occurrences q = .ok l' ∧
      l.kind = q.kind ∧ l'.kind = q.kind ∧ l.dates.Perm l'.dates) := by
  constructor
  · intro hf
    have hf' : r'.freq = none := h.freq ▸ hf
    simp only [occurrences, hf, hf', and_self]
  · intro hf
    obtain ⟨f, hf⟩ := Option.ne_none_iff_exists'.1 hf
    have hf' : r'.freq = some f := h.freq ▸ hf
    cases ha : q.anchor with
    | none =>
      exact ⟨_, _, occurrences_of_anchor_none hf ha, occurrences_of_anchor_none hf' ha, rfl, rfl,
        .refl _⟩
    | some a =>
      refine ⟨_, _, occurrences_eq_ofInstants hf ha q.kind, occurrences_eq_ofInstants hf' ha q.kind,
        rfl, rfl, ?_⟩
      rw [DateList.dates_ofInstants, DateList.dates_ofInstants]
      exact (instants_perm h hpos hcount).map _

/-- Days near the ends of December and April, in the evening and in the morning. In the month
with 30 days they are the same, which is listed twice. -/
def endOfTerm : Rule where
  freq := some .yearly
  byMonth := [.of 12, .of 4]
  byMonthDay := [.of 28, .of (-3)]
  byHour := [.of 18, .of 10]
  valid := Parts.fault?_eq_none_iff.1 (by decide)

/-- The same, in the order of the calendar. -/
def endOfTermSorted : Rule where
  freq := some .yearly
  byMonth := [.of 4, .of 12]
  byMonthDay := [.of (-3), .of 28]
  byHour := [.of 10, .of 18]
  valid := Parts.fault?_eq_none_iff.1 (by decide)

/-- From the middle of such a day in April to the middle of one in December. -/
theorem endOfTerm_occurrences_perm :
    let anchor := (Date.ymd 2019 2 15).atHour 8
    let q := Request.between anchor ((Date.ymd 2020 4 28).atHour 12)
      ((Date.ymd 2021 12 28).atHour 12)
    endOfTerm.SameEntries endOfTermSorted.toParts ∧
      ∃ l l', endOfTerm.occurrences q = .ok l ∧ endOfTermSorted.occurrences q = .ok l' ∧
        l.kind = q.kind ∧ l'.kind = q.kind ∧ l.dates.Perm l'.dates := by
  intro anchor q
  have h : endOfTerm.SameEntries endOfTermSorted.toParts :=
    { freq := rfl, interval := rfl, termination := rfl, weekStart := rfl, bySecond := .refl _,
      byMinute := .refl _, byHour := by decide, byDay := .refl _, byMonthDay := by decide,
      byYearDay := .refl _, byWeekNo := .refl _, byMonth := by decide, bySetPos := rfl,
      extensions := rfl }
  exact ⟨h, (occurrences_perm h rfl rfl q).2 (by decide)⟩

end Rule

end Recurrence
