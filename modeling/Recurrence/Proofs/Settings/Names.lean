import Recurrence.Proofs.Settings.Layers

/-!
# Names that stand once

Whatever is laid over each other, the tables that come of it have each name once
(`Tree.distinct_overlay`). A tree with such tables can be laid over another one as a whole:
**at the end of a way that leads through it stands what the upper tree has there, laid over
what the lower one has, or else what the lower one has** (`Tree.get?_merge`).
-/

namespace Recurrence

namespace Tree

variable {t old new sub : Tree} {name s : String} {names : List String} {path : List Step}
  {es : List (String × Tree)} {source : List Entry}

/-- An entry whose name stands once is found. -/
theorem lookup_of_mem {e : String × Tree} (h : (es.map Prod.fst).Nodup) (he : e ∈ es) :
    es.lookup e.1 = some e.2 := by
  obtain ⟨before, after, rfl⟩ := List.append_of_mem he
  rw [List.map_append, List.map_cons, List.nodup_append] at h
  refine List.lookup_eq_some_iff.2 ⟨before, after, rfl, fun e' he' => ?_⟩
  have hne := h.2.2 e'.1 (List.mem_map_of_mem he') e.1 List.mem_cons_self
  simpa using Ne.symm hne

/-- The tables on a way of names and at its end have each name once. -/
def Distinct (t : Tree) : List String → Prop
  | [] => (t.entries.map Prod.fst).Nodup
  | name :: names =>
    (t.entries.map Prod.fst).Nodup ∧
      ∀ sub, t.step? (.name name) = some sub → sub.Distinct names

/-- The tables below the first one have each name once. -/
theorem Distinct.getD_step? (h : t.Distinct (name :: names)) :
    ((t.step? (.name name)).getD nothing).Distinct names := by
  cases hl : t.step? (.name name) with
  | none => cases names <;> simp [Distinct, step?, entries]
  | some sub => exact h.2 sub hl

/-- What has no entries has no name twice. -/
theorem distinct_of_entries_nil (h : t.entries = []) : t.Distinct names := by
  cases names <;> simp [Distinct, step?, h]

/-- Names are counted in the entries of a tree. -/
theorem Distinct.asTable (h : t.Distinct names) : t.asTable.Distinct names := by
  cases names <;> exact h

/-- So has the table at the end of the way. -/
theorem Distinct.of_get? (h : t.Distinct names) (hsub : t.get? (way names) = some sub) :
    (sub.entries.map Prod.fst).Nodup := by
  induction names generalizing t with
  | nil => exact Option.some.inj hsub ▸ h
  | cons name names ih =>
    rw [way_cons, get?, Option.bind_eq_some_iff] at hsub
    obtain ⟨next, hnext, hsub⟩ := hsub
    exact ih (h.2 next hnext) hsub

/-- A way that leads through such tables is open, as no entry hides another. -/
theorem Distinct.isOpen_of_leads (h : t.Distinct names) (hleads : t.Leads names) :
    t.isOpen names := by
  induction names generalizing t with
  | nil => rfl
  | cons name names ih =>
    cases t with
    | nothing | scalar _ | list _ => exact hleads.elim
    | table es =>
      refine isOpen_table_iff.2 fun e he hname => ?_
      subst hname
      have hfound : es.lookup e.1 = some e.2 := lookup_of_mem h.1 he
      exact ih (h.2 e.2 hfound) (hleads e.2 hfound)

/-! ## What is made stays distinct -/

/-- Nothing else comes into a table. -/
theorem eq_or_mem_of_mem_put {e : String × Tree} (h : e ∈ put name t es) :
    e = (name, t) ∨ e ∈ es := by
  induction es with
  | nil => exact .inl (List.mem_singleton.1 h)
  | cons e' es ih =>
    rw [put] at h
    split at h
    · rcases List.mem_cons.1 h with rfl | h
      · exact .inl rfl
      · exact .inr (List.mem_cons_of_mem _ h)
    · rcases List.mem_cons.1 h with rfl | h
      · exact .inr List.mem_cons_self
      · exact (ih h).imp_right (List.mem_cons_of_mem _)

/-- A tree that is put under a name takes the place of the old one or a new place. -/
theorem nodup_put (h : (es.map Prod.fst).Nodup) : ((put name t es).map Prod.fst).Nodup := by
  induction es with
  | nil => simp [put]
  | cons e es ih =>
    rw [List.map_cons, List.nodup_cons] at h
    rw [put]
    split
    · next he => rw [List.map_cons, List.nodup_cons]; exact he ▸ h
    · next he =>
      rw [List.map_cons, List.nodup_cons]
      refine ⟨fun hmem => ?_, ih h.2⟩
      obtain ⟨e', he', heq⟩ := List.mem_map.1 hmem
      rcases eq_or_mem_of_mem_put he' with rfl | he'
      · exact he heq.symm
      · exact h.1 (heq ▸ List.mem_map_of_mem he')

/-- An insertion keeps names distinct, if they are so in what is inserted on the way. -/
theorem Distinct.insert {step : Step} (h : t.Distinct names)
    (hsub : ∀ s rest, step = .name s → names = s :: rest → sub.Distinct rest) :
    (t.insert step sub).Distinct names := by
  match step, names with
  | .index _, _ => exact distinct_of_entries_nil rfl
  | .name _, [] => exact nodup_put h
  | .name s, name :: names =>
    refine ⟨nodup_put h.1, fun sub' hsub' => ?_⟩
    by_cases hname : name = s
    · subst hname
      rw [step?_insert, Option.some.injEq] at hsub'
      exact hsub' ▸ hsub name names rfl rfl
    · have hstep : (t.insert (.name s) sub).step? (.name name) = t.step? (.name name) :=
        lookup_put_of_ne hname
      exact h.2 sub' (hstep ▸ hsub')

/-- So does laying over, where it does so below the first name. -/
theorem Distinct.merge_of_rest (h : t.Distinct names)
    (hrest : ∀ s rest, names = s :: rest → ∀ old new : Tree, old.Distinct rest →
      (old.merge new).Distinct rest) : (t.merge new).Distinct names := by
  cases new with
  | nothing | scalar _ | list _ => exact distinct_of_entries_nil (by simp [Tree.merge, entries])
  | table es =>
    rw [merge_table]
    replace h := h.asTable
    generalize t.asTable = t at h ⊢
    induction es generalizing t with
    | nil => exact h
    | cons e es ih =>
      refine ih _ (h.insert fun s rest hs hnames => ?_)
      obtain rfl := Step.name.inj hs
      subst hnames
      exact hrest _ _ rfl _ _ h.getD_step?

/-- **Laying over keeps names distinct.** -/
theorem Distinct.merge (h : t.Distinct names) (new : Tree) : (t.merge new).Distinct names := by
  induction names generalizing t new with
  | nil => exact h.merge_of_rest fun _ _ hnil => by cases hnil
  | cons name names ih =>
    refine h.merge_of_rest fun s rest hrest old new hold => ?_
    obtain ⟨-, rfl⟩ := List.cons.inj hrest
    exact ih hold new

/-- A change at the end of a way keeps names distinct, if it does so where it takes place. -/
theorem Distinct.modify {f : Tree → Tree} (h : t.Distinct names)
    (hf : ∀ t names, Distinct t names → (f t).Distinct names) :
    (t.modify f path).Distinct names := by
  induction path generalizing t names with
  | nil => exact hf t names h
  | cons step path ih =>
    refine h.insert fun s rest hs hnames => ?_
    subst hs hnames
    exact ih h.getD_step?

/-- **In a tree that sources have made, no name stands twice.** -/
theorem distinct_overlay (h : t.Distinct names) : (t.overlay source).Distinct names := by
  induction source generalizing t with
  | nil => exact h
  | cons e source ih => exact ih (h.modify fun _ _ ht => ht.merge e.value)

/-! ## Laying a whole tree over another -/

/-- Under a name of the upper table stands its tree, laid over that of the lower one. -/
theorem lookup_mergeEntries_of_nodup {lower upper : List (String × Tree)}
    (h : (upper.map Prod.fst).Nodup) :
    (mergeEntries lower upper).lookup name =
      match upper.lookup name with
      | some t => some (((lower.lookup name).getD nothing).merge t)
      | none => lower.lookup name := by
  induction upper generalizing lower with
  | nil => rw [mergeEntries, List.lookup_nil]
  | cons e upper ih =>
    obtain ⟨s, t⟩ := e
    rw [List.map_cons, List.nodup_cons] at h
    rw [mergeEntries, ih h.2, List.lookup_cons]
    by_cases hname : name = s
    · subst hname
      have hnone : upper.lookup name = none := by
        refine List.lookup_eq_none_iff.2 fun e he => bne_iff_ne.2 ?_
        intro heq
        have hmem : e.1 ∈ upper.map Prod.fst := List.mem_map_of_mem he
        exact h.1 (heq ▸ hmem)
      simp only [hnone, beq_self_eq_true, lookup_put_self]
    · simp only [beq_false_of_ne hname, lookup_put_of_ne hname]

/-- **What stands at the end of a way** after one tree has been laid over another. -/
theorem get?_merge (old : Tree) (hleads : new.Leads names) (hnew : new.Distinct names) :
    (old.merge new).get? (way names) =
      match new.get? (way names) with
      | some v => some (((old.get? (way names)).getD nothing).merge v)
      | none => old.get? (way names) := by
  induction names generalizing old new with
  | nil => rfl
  | cons name names ih =>
    cases new with
    | nothing | scalar _ | list _ => exact hleads.elim
    | table es =>
      have hstep : ∀ t : Tree, t.step? (.name name) = t.entries.lookup name := fun _ => rfl
      have hnodup : (es.map Prod.fst).Nodup := hnew.1
      rw [way_cons, get?, get?, get?, merge, hstep, hstep, hstep, entries, entries,
        lookup_mergeEntries_of_nodup hnodup]
      cases hx : es.lookup name with
      | none => rfl
      | some x =>
        have hxleads : x.Leads names := hleads x hx
        have hxnew : x.Distinct names := hnew.2 x hx
        simp only [Option.bind_some]
        rw [ih _ hxleads hxnew]
        -- What is missing in the lower tree has nothing on the rest of the way.
        cases old.entries.lookup name with
        | some y => rfl
        | none =>
          cases names with
          | nil => rfl
          | cons name' names =>
            have hnothing : nothing.get? (way (name' :: names)) = none :=
              get?_nothing (by simp [way])
            simp only [Option.getD_none, hnothing, Option.bind_none]

/-- A new name comes last. -/
theorem map_fst_put (h : name ∉ es.map Prod.fst) :
    (put name t es).map Prod.fst = es.map Prod.fst ++ [name] := by
  induction es with
  | nil => rfl
  | cons e es ih =>
    rw [List.map_cons, List.mem_cons, not_or] at h
    rw [put, if_neg (Ne.symm h.1), List.map_cons, ih h.2]
    rfl

/-- The names of a table with other names come after those of the table below it. -/
theorem map_fst_mergeEntries {lower : List (String × Tree)} (h : (es.map Prod.fst).Nodup)
    (hlower : ∀ e ∈ es, e.1 ∉ lower.map Prod.fst) :
    (mergeEntries lower es).map Prod.fst = lower.map Prod.fst ++ es.map Prod.fst := by
  induction es generalizing lower with
  | nil => rw [mergeEntries, List.map_nil, List.append_nil]
  | cons e es ih =>
    rw [List.map_cons, List.nodup_cons] at h
    have hput : (put e.1 (((lower.lookup e.1).getD nothing).merge e.2) lower).map Prod.fst =
        lower.map Prod.fst ++ [e.1] := map_fst_put (hlower e List.mem_cons_self)
    rw [mergeEntries, ih h.2, hput, List.map_cons, List.append_assoc]
    · rfl
    · intro e' he' hmem
      rw [hput, List.mem_append, List.mem_singleton] at hmem
      rcases hmem with hmem | heq
      · exact hlower e' (List.mem_cons_of_mem _ he') hmem
      · exact h.1 (heq ▸ List.mem_map_of_mem he')

end Tree

end Recurrence
