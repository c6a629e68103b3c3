import Recurrence.Settings.Tree

/-!
# Layers over a way

Sources are laid over each other entry by entry, and here it is shown what comes of it at
the end of one way of names. The way is *open* in a value if only tables stand on it, and an
entry *fits* the way if it says nothing on it but tables: it may stand beside the way, above
it or at its end. Entries that fit let the way lead where it led (`Tree.Respects`): at its
end each of them leaves what stands there, or puts a value there, or adds to the table
there. So **the last source that says something at the end of a way wins there**, whatever
the sources say elsewhere (`Tree.get?_overlay`).
-/

namespace Recurrence

/-- The way of some names. -/
def way (names : List String) : List Step :=
  names.map .name

/-- A way begins with its first name. -/
theorem way_cons (name : String) (names : List String) :
    way (name :: names) = .name name :: way names := rfl

namespace Tree

variable {t old new sub : Tree} {name s : String} {names : List String} {path : List Step}
  {f g : Tree → Tree} {es : List (String × Tree)}

/-! ## Ways through a tree -/

/-- Whether only tables stand on a way of names, before its end. -/
def isOpen : Tree → List String → Bool
  | _, [] => true
  | table es, name :: names => es.all fun e => e.1 != name || e.2.isOpen names
  | _, _ :: _ => false

/-- Only tables are found on a way of names, before its end. Of the entries with one name
only the first is found. -/
def Leads : Tree → List String → Prop
  | _, [] => True
  | table es, name :: names => ∀ sub, es.lookup name = some sub → sub.Leads names
  | _, _ :: _ => False

/-- The table with the entries of a tree. -/
def asTable (t : Tree) : Tree :=
  table t.entries

/-- Every entry of a table with the first name of an open way leaves the rest open. -/
theorem isOpen_table_iff :
    (table es).isOpen (name :: names) ↔ ∀ e ∈ es, e.1 = name → e.2.isOpen names := by
  simp [isOpen, Classical.or_iff_not_imp_left]

/-- What is found is an entry. -/
theorem mem_of_lookup (h : es.lookup name = some sub) : (name, sub) ∈ es := by
  obtain ⟨before, after, rfl, -⟩ := List.lookup_eq_some_iff.1 h
  exact List.mem_append_right _ List.mem_cons_self

/-- An open way leads through the tree. -/
theorem leads_of_isOpen (h : t.isOpen names) : t.Leads names := by
  induction names generalizing t with
  | nil => trivial
  | cons name names ih =>
    cases t with
    | table es => exact fun sub hsub => ih (isOpen_table_iff.1 h _ (mem_of_lookup hsub) rfl)
    | nothing | scalar _ | list _ => cases h

/-- A tree through which a way leads is a table. -/
theorem asTable_of_leads (h : t.Leads (name :: names)) : t.asTable = t := by
  cases t with
  | table es => rfl
  | nothing | scalar _ | list _ => exact h.elim

/-- A way leads through the table of the entries as well. -/
theorem leads_asTable (h : t.Leads names) : t.asTable.Leads names := by
  cases names with
  | nil => trivial
  | cons name names => rwa [asTable_of_leads h]

/-- The rest of a way leads through the tree under its first name, made if need be. -/
theorem leads_asTable_step? (h : t.asTable.Leads (name :: names)) :
    ((t.step? (.name name)).getD nothing).asTable.Leads names := by
  cases hl : t.step? (.name name) with
  | none => cases names <;> simp [Leads, asTable, entries]
  | some sub => exact leads_asTable (h sub hl)

/-! ## Insertions under a name -/

/-- A way leads through a table after an insertion, if the rest of it leads through what is
inserted on it. -/
theorem leads_insert (h : name ≠ s → t.asTable.Leads (name :: names))
    (hsub : name = s → sub.Leads names) : (t.insert (.name s) sub).Leads (name :: names) := by
  intro sub' hsub'
  by_cases hname : name = s
  · subst hname
    rw [lookup_put_self, Option.some.injEq] at hsub'
    exact hsub' ▸ hsub rfl
  · rw [lookup_put_of_ne hname] at hsub'
    exact h hname sub' hsub'

/-- Below the name of an insertion stands what was inserted. -/
theorem get?_insert_self : (t.insert (.name s) sub).get? (.name s :: path) = sub.get? path := by
  rw [get?, step?_insert, Option.bind_some]

/-- Below other names everything stays. -/
theorem get?_insert_of_ne (h : name ≠ s) :
    (t.insert (.name s) sub).get? (.name name :: path) = t.get? (.name name :: path) := by
  have hstep : (t.insert (.name s) sub).step? (.name name) = t.step? (.name name) :=
    lookup_put_of_ne h
  rw [get?, get?, hstep]

/-! ## Changes that respect a way -/

/-- A change of trees that does nothing on a way but to put tables there, and at its end
leaves what stands there, or puts a value there, or changes the entries of a table there. -/
structure Respects (f : Tree → Tree) (names : List String) : Prop where
  /-- The way leads where it led. -/
  leads : ∀ t, t.asTable.Leads names → (f t).Leads names
  /-- The change leaves the place before the end, or the way leads through it anyway. -/
  opens : (∀ t, (f t).get? (way names.dropLast) = t.get? (way names.dropLast)) ∨
    ∀ t, (f t).Leads names
  /-- At the end everything stays, or one value is put there, or a table. -/
  lays : (names ≠ [] ∧ ∀ t, (f t).get? (way names) = t.get? (way names)) ∨
    (∃ v, ∀ t, (f t).get? (way names) = some v) ∨
    ∃ g : List (String × Tree) → List (String × Tree), ∀ t,
      (f t).get? (way names) = some (table (g ((t.get? (way names)).getD nothing).entries))

/-- One change after another respects what both do. -/
theorem Respects.comp (hg : Respects g names) (hf : Respects f names) :
    Respects (fun t => g (f t)) names where
  leads t h := hg.leads _ (leads_asTable (hf.leads t h))
  opens := by
    rcases hg.opens with hg' | hg'
    · rcases hf.opens with hf | hf
      · exact .inl fun t => by rw [hg', hf]
      · exact .inr fun t => hg.leads _ (leads_asTable (hf t))
    · exact .inr fun t => hg' (f t)
  lays := by
    rcases hg.lays with ⟨hne, hg⟩ | ⟨v, hg⟩ | ⟨gg, hg⟩
    · rcases hf.lays with ⟨-, hf⟩ | ⟨v, hf⟩ | ⟨gf, hf⟩
      · exact .inl ⟨hne, fun t => by rw [hg, hf]⟩
      · exact .inr (.inl ⟨v, fun t => by rw [hg, hf]⟩)
      · exact .inr (.inr ⟨gf, fun t => by rw [hg, hf]⟩)
    · exact .inr (.inl ⟨v, fun t => hg (f t)⟩)
    · rcases hf.lays with ⟨-, hf⟩ | ⟨v, hf⟩ | ⟨gf, hf⟩
      · exact .inr (.inr ⟨gg, fun t => by rw [hg, hf]⟩)
      · exact .inr (.inl ⟨table (gg v.entries), fun t => by rw [hg, hf, Option.getD_some]⟩)
      · exact .inr (.inr ⟨fun es => gg (gf es), fun t => by rw [hg, hf]; rfl⟩)

/-- So do many changes. -/
theorem Respects.foldl {β : Type} {change : Tree → β → Tree} {bs : List β}
    (hf : Respects f names) (h : ∀ b ∈ bs, Respects (change · b) names) :
    Respects (fun t => bs.foldl change (f t)) names := by
  induction bs generalizing f with
  | nil => exact hf
  | cons b bs ih =>
    exact ih ((h b List.mem_cons_self).comp hf) fun b hb => h b (List.mem_cons_of_mem _ hb)

/-- Taking a tree as a table changes nothing below it. -/
theorem respects_asTable : Respects asTable (name :: names) where
  leads _ h := h
  opens := by
    cases names with
    | nil => exact .inr fun _ _ _ => trivial
    | cons name' names => exact .inl fun _ => rfl
  lays := .inl ⟨List.cons_ne_nil _ _, fun _ => rfl⟩

/-- A change beside the way. -/
theorem Respects.modify_of_ne (h : name ≠ s) :
    Respects (fun t => t.modify f (.name s :: path)) (name :: names) where
  leads _ ht := leads_insert (fun _ => ht) fun hname => absurd hname h
  opens := by
    cases names with
    | nil => exact .inr fun _ _ _ => trivial
    | cons name' names => exact .inl fun _ => get?_insert_of_ne h
  lays := .inl ⟨List.cons_ne_nil _ _, fun _ => get?_insert_of_ne h⟩

/-- Where a change below a name leaves what stands at the end of a way, it does so above the
name, if it leaves nothing where there is nothing. -/
theorem get?_modify_eq_self (hf : ∀ t : Tree, (t.modify f path).get? (way names) =
      t.get? (way names)) (hne : names ≠ []) (t : Tree) :
    (t.modify f (.name s :: path)).get? (way (s :: names)) = t.get? (way (s :: names)) := by
  rw [way_cons, Tree.modify, get?_insert_self, hf, get?]
  cases t.step? (.name s) with
  | none => exact get?_nothing (by simpa [way] using hne)
  | some sub => rfl

/-- A change on the way, below its first name. -/
theorem Respects.modify (hf : Respects (fun t => t.modify f path) names) :
    Respects (fun t => t.modify f (.name s :: path)) (s :: names) where
  leads t ht := leads_insert (fun hne => absurd rfl hne) fun _ =>
    hf.leads _ (leads_asTable_step? ht)
  opens := by
    cases names with
    | nil => exact .inr fun _ _ _ => trivial
    | cons name names =>
      rcases hf.opens with hopens | hopens
      · refine .inl (get?_modify_eq_self hopens fun hnil => ?_)
        -- What is nothing does not stay so, since the way leads through it afterwards.
        rw [hnil] at hopens
        have hstays : nothing.modify f path = nothing := Option.some.inj (hopens nothing)
        have hempty : empty.asTable.Leads (s :: name :: names) := fun sub hsub => by cases hsub
        have hleads := hf.leads nothing (leads_asTable_step? hempty)
        rw [hstays] at hleads
        exact hleads
      · exact .inr fun t => leads_insert (fun hne => absurd rfl hne) fun _ => hopens _
  lays := by
    rcases hf.lays with ⟨hne, hf⟩ | ⟨v, hf⟩ | ⟨g, hf⟩
    · exact .inl ⟨List.cons_ne_nil _ _, get?_modify_eq_self hf hne⟩
    · exact .inr (.inl ⟨v, fun t => get?_insert_self.trans (hf _)⟩)
    · refine .inr (.inr ⟨g, fun t => ?_⟩)
      rw [way_cons, Tree.modify, get?_insert_self, hf, get?]
      cases t.step? (.name s) with
      | none =>
        -- What is made on the way has no entries, and neither has what is missing.
        cases names with
        | nil => rfl
        | cons name names => rw [Option.getD_none, get?_nothing (by simp [way])]; rfl
      | some sub => rfl

/-! ## Merging and adding -/

/-- What is no table takes the place of a tree. -/
theorem merge_eq_self (h : ∀ es, new ≠ table es) : t.merge new = new := by
  cases new with
  | table es => exact absurd rfl (h es)
  | nothing | scalar _ | list _ => simp [merge]

/-- **A table is laid over a tree entry by entry.** -/
theorem merge_table (t : Tree) (es : List (String × Tree)) :
    t.merge (table es) =
      es.foldl (fun t e => t.modify (·.merge e.2) [.name e.1]) t.asTable := by
  rw [merge, asTable]
  generalize t.entries = old
  induction es generalizing old with
  | nil => rw [mergeEntries, List.foldl_nil]
  | cons e es ih =>
    rw [mergeEntries, ih, List.foldl_cons]
    rfl

/-- **What has only tables on a way respects it** when it is laid over a tree. -/
theorem respects_merge (h : new.isOpen names) : Respects (·.merge new) names := by
  induction names generalizing new with
  | nil =>
    refine ⟨fun _ _ => trivial, .inr fun _ => trivial, .inr ?_⟩
    by_cases htable : ∃ es, new = table es
    · obtain ⟨es, rfl⟩ := htable
      refine .inr ⟨fun old => mergeEntries old es, fun t => congrArg some ?_⟩
      rw [merge]
      rfl
    · exact .inl ⟨new, fun t => congrArg some (merge_eq_self fun es heq => htable ⟨es, heq⟩)⟩
  | cons name names ih =>
    cases new with
    | nothing | scalar _ | list _ => cases h
    | table es =>
      simp only [merge_table]
      refine respects_asTable.foldl fun e he => ?_
      by_cases hname : e.1 = name
      · subst hname
        have hbelow : Respects (fun t => t.modify (·.merge e.2) []) names :=
          ih (isOpen_table_iff.1 h e he rfl)
        exact hbelow.modify
      · exact .modify_of_ne (Ne.symm hname)

end Tree

/-- Whether a value at the end of one way fits another way: it lies beside it, or above it
or at its end with only tables on the rest. -/
def fitsAt (value : Tree) : List Step → List String → Bool
  | [], names => value.isOpen names
  | .name s :: path, name :: names => s != name || fitsAt value path names
  | _ :: _, _ => false

/-- Whether an entry fits a way of names. -/
def Entry.fits (e : Entry) (names : List String) : Bool :=
  fitsAt e.value e.path names

namespace Tree

variable {t : Tree} {name name' : String} {names : List String} {source : List Entry}

/-- **An entry that fits a way respects it.** -/
theorem respects_add {e : Entry} (h : e.fits names) : Respects (·.add e) names := by
  obtain ⟨path, value⟩ := e
  change fitsAt value path names = true at h
  show Respects (fun t => t.modify (·.merge value) path) names
  induction path generalizing names with
  | nil => exact respects_merge h
  | cons step path ih =>
    match step, names with
    | .index _, _ => simp [fitsAt] at h
    | .name _, [] => simp [fitsAt] at h
    | .name s, name :: names =>
      by_cases hname : s = name
      · subst hname
        exact .modify (ih (by simpa [fitsAt] using h))
      · exact .modify_of_ne (Ne.symm hname)

/-- So does a source of such entries. -/
theorem respects_overlay (h : ∀ e ∈ source, e.fits (name :: names)) :
    Respects (fun t => t.asTable.overlay source) (name :: names) :=
  respects_asTable.foldl fun e he => respects_add (h e he)

/-- **A way leads through what a source makes of a table**, if it leads through the table, or
the source has the place before the end of the way. -/
theorem leads_overlay (ht : t.asTable = t) (h : ∀ e ∈ source, e.fits (name :: name' :: names))
    (hopen : t.Leads (name :: name' :: names) ∨
      ((empty.overlay source).get? (way (name :: name' :: names).dropLast)).isSome) :
    (t.overlay source).Leads (name :: name' :: names) := by
  have hrespects := respects_overlay h
  rw [← ht]
  rcases hopen with hopen | hopen
  · exact hrespects.leads t (leads_asTable hopen)
  · rcases hrespects.opens with hopens | hopens
    · have hempty : (empty.overlay source).get? (way (name :: name' :: names).dropLast) = none :=
        hopens empty
      rw [hempty] at hopen
      cases hopen
    · exact hopens t

/-- **What a source says at the end of a way wins there**, and else what stood there stays.
Where the source has a table, no entries may have stood there. -/
theorem get?_overlay (ht : t.asTable = t) (h : ∀ e ∈ source, e.fits (name :: names))
    (hbare : ((t.get? (way (name :: names))).getD nothing).entries = [] ∨
      ∃ v, (empty.overlay source).get? (way (name :: names)) = some v ∧ ∀ es, v ≠ table es) :
    (t.overlay source).get? (way (name :: names)) =
      ((empty.overlay source).get? (way (name :: names))).or
        (t.get? (way (name :: names))) := by
  have hlone : empty.overlay source = empty.asTable.overlay source := rfl
  have hempty : empty.get? (way (name :: names)) = none := rfl
  have htable : t.overlay source = t.asTable.overlay source := by rw [ht]
  rw [hlone] at hbare ⊢
  rw [htable]
  rcases (respects_overlay h).lays with ⟨-, hlays⟩ | ⟨v, hlays⟩ | ⟨g, hlays⟩
  · rw [hlays, hlays, hempty, Option.none_or]
  · rw [hlays, hlays, Option.some_or]
  · rw [hlays, hlays, hempty, Option.some_or]
    rcases hbare with hbare | ⟨v, hv, htable⟩
    · rw [hbare]
      rfl
    · rw [hlays, Option.some.injEq] at hv
      exact absurd hv.symm (htable _)

/-- What begins with a name makes a table of a table. -/
theorem asTable_overlay (ht : t.asTable = t)
    (h : ∀ e ∈ source, ∃ s path, e.path = .name s :: path) :
    (t.overlay source).asTable = t.overlay source := by
  induction source generalizing t with
  | nil => exact ht
  | cons e source ih =>
    refine ih ?_ fun e he => h e (List.mem_cons_of_mem _ he)
    obtain ⟨s, path, hpath⟩ := h e List.mem_cons_self
    rw [add, hpath]
    rfl

end Tree

end Recurrence
