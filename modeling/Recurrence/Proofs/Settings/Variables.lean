import Mathlib.Data.List.Induction
import Recurrence.Proofs.Settings.Layers
import Recurrence.Settings.Environment
import Recurrence.Settings.Dotenv

/-!
# Variables and the settings that they name

A file of variables adds those that are not set, and of several assignments to one name the
first counts (`Dotenv.lookup_complete`). What the variables say about a setting is the text
of the last one that names it and has a text (`Environment.text?`); if no other spelling of
its name has one, **the process goes before the file, and a variable without a text hides
the one in the file** (`Environment.text?_complete`).
-/

namespace Recurrence

namespace Dotenv

open Text

variable {vars vs : Variables} {v : String × String} {file name : String} {c : Char}
  {cs : List Char}

/-! ## What a file assigns -/

/-- The variables that lines assign, up to the first line that is malformed. Each text may
refer to what has been set before it. -/
def assignedBy (vars : Variables) : List (Option (List Char)) → Variables
  | [] | none :: _ => []
  | some l :: ls =>
    match line? (textIn vars) l with
    | none => []
    | some none => assignedBy vars ls
    | some (some v) => v :: assignedBy (withVariable vars v) ls

/-- The variables that a file assigns in an environment. -/
def assigned (vars : Variables) (file : String) : Variables :=
  assignedBy vars (joined [] .plain (lines (withoutMark file.toList)))

/-- A file adds the variables that it assigns, one after the other. -/
theorem complete_eq (vars : Variables) (file : String) :
    complete vars file = (assigned vars file).foldl withVariable vars := by
  unfold complete assigned
  generalize joined [] .plain (lines (withoutMark file.toList)) = ls
  induction ls generalizing vars with
  | nil => rfl
  | cons l ls ih =>
    cases l with
    | none => rfl
    | some l =>
      rw [afterLines, assignedBy]
      match line? (textIn vars) l with
      | none => rfl
      | some none => exact ih vars
      | some (some v) => exact ih (withVariable vars v)

/-- A variable is added where none of its name is set. -/
theorem lookup_withVariable :
    (withVariable vars v).lookup name = (vars.lookup name).or ([v].lookup name) := by
  obtain ⟨s, text⟩ := v
  unfold withVariable
  split
  · next h =>
    by_cases hname : name = s
    · subst hname
      rw [Option.or_of_isSome h]
    · rw [List.lookup_cons, beq_false_of_ne hname, List.lookup_nil, Option.or_none]
  · rw [List.lookup_append]

/-- **What is set stays, and of what a file assigns the first counts.** -/
theorem lookup_complete :
    (complete vars file).lookup name =
      (vars.lookup name).or ((assigned vars file).lookup name) := by
  rw [complete_eq]
  generalize assigned vars file = vs
  induction vs generalizing vars with
  | nil => rw [List.foldl_nil, List.lookup_nil, Option.or_none]
  | cons v vs ih =>
    rw [List.foldl_cons, ih, lookup_withVariable, Option.or_assoc, ← List.lookup_append,
      List.singleton_append]

/-- A completed environment still has each name once. -/
theorem nodup_complete (h : (vars.map Prod.fst).Nodup) :
    ((complete vars file).map Prod.fst).Nodup := by
  rw [complete_eq]
  generalize assigned vars file = vs
  induction vs generalizing vars with
  | nil => exact h
  | cons v vs ih =>
    refine ih ?_
    unfold withVariable
    split
    · exact h
    · next hv =>
      rw [List.map_append, List.map_singleton, List.nodup_append]
      refine ⟨h, by simp, fun s hs s' hs' => ?_⟩
      rw [List.mem_singleton.1 hs']
      rintro rfl
      obtain ⟨e, he, heq⟩ := List.mem_map.1 hs
      rw [Option.not_isSome_iff_eq_none, List.lookup_eq_none_iff] at hv
      exact absurd heq.symm (by simpa using hv e he)

/-! ## Plain files -/

/-- Whether a character stands for itself in the text of a variable. -/
def isOrdinary (c : Char) : Bool :=
  !isBlank c && !(['\'', '"', '\\', '$'].contains c)

/-- A variable that a line can assign without quotes and without `$`. -/
structure IsPlain (v : String × String) : Prop where
  /-- The name begins as names do. -/
  start : v.1.toList.head?.any isNameStart
  /-- The name goes on as names do. -/
  name : ∀ c ∈ v.1.toList, isNameChar c
  /-- The text does not begin a remark. -/
  noRemark : v.2.toList.head? ≠ some '#'
  /-- The text stands for itself. -/
  text : ∀ c ∈ v.2.toList, isOrdinary c

/-- The line that assigns a variable. -/
def lineOf (v : String × String) : List Char :=
  v.1.toList ++ '=' :: v.2.toList

/-- The file of such lines. -/
def fileOf (vs : Variables) : String :=
  String.ofList (vs.flatMap fun v => lineOf v ++ ['\n'])

/-- Blanks, quotes, backslashes and `$` do not stand for themselves. -/
theorem isOrdinary_iff :
    isOrdinary c ↔ isBlank c = false ∧ c ≠ '\'' ∧ c ≠ '"' ∧ c ≠ '\\' ∧ c ≠ '$' := by
  simp [isOrdinary]

/-- The characters of names stand for themselves. -/
theorem isOrdinary_of_isNameChar (h : isNameChar c) : isOrdinary c := by
  have hrange : (48 ≤ c.toNat ∧ c.toNat ≤ 57) ∨ (65 ≤ c.toNat ∧ c.toNat ≤ 90) ∨
      (97 ≤ c.toNat ∧ c.toNat ≤ 122) ∨ c.toNat = 95 ∨ c.toNat = 46 := by
    unfold isNameChar at h
    delta Char.isAlphanum Char.isAlpha Char.isUpper Char.isLower Char.isDigit at h
    simp only [Bool.or_eq_true, Bool.and_eq_true, decide_eq_true_eq, beq_iff_eq, ge_iff_le,
      UInt32.le_iff_toNat_le] at h
    rcases h with (((h | h) | h) | rfl) | rfl
    · exact .inr (.inl h)
    · exact .inr (.inr (.inl h))
    · exact .inl h
    · exact .inr (.inr (.inr (.inl rfl)))
    · exact .inr (.inr (.inr (.inr rfl)))
  refine isOrdinary_iff.2 ⟨?_, ?_, ?_, ?_, ?_⟩
  · simp only [isBlank, Bool.or_eq_false_iff, Bool.and_eq_false_iff, decide_eq_false_iff_not,
      beq_eq_false_iff_ne]
    omega
  all_goals
    rintro rfl
    exact absurd hrange (by decide)

/-- No blank stands before an ordinary text. -/
theorem dropWhile_isBlank_eq_self (h : ∀ c ∈ cs, isOrdinary c) : cs.dropWhile isBlank = cs := by
  cases cs with
  | nil => rfl
  | cons c cs => simp [(isOrdinary_iff.1 (h c List.mem_cons_self)).1]

/-- Ordinary characters and line feeds stay outside of quotes. -/
theorem scan_plain (h : ∀ c ∈ cs, isOrdinary c ∨ c = '\n') :
    Place.plain.scan cs = (cs, some .plain) := by
  induction cs with
  | nil => rfl
  | cons c cs ih =>
    have hnext : Place.plain.next? c = some .plain := by
      rcases h c List.mem_cons_self with hc | rfl
      · simp [Place.next?, Place.after, isOrdinary_iff.1 hc]
      · rfl
    rw [Place.scan, hnext]
    simp only [ih fun c hc => h c (List.mem_cons_of_mem _ hc)]

/-- An ordinary text stands for itself. -/
theorem value?_eq_self {textOf : List Char → List Char} (h : ∀ c ∈ cs, isOrdinary c) :
    value? textOf (.text false) cs = some cs := by
  induction cs with
  | nil => rfl
  | cons c cs ih =>
    obtain ⟨hblank, hquotes⟩ := isOrdinary_iff.1 (h c List.mem_cons_self)
    have hspace : c ≠ ' ' ∧ c ≠ '\t' := by
      constructor <;> · rintro rfl; exact absurd hblank (by decide)
    simp [value?, hquotes, hspace, ih fun c hc => h c (List.mem_cons_of_mem _ hc)]

namespace IsPlain

/-- A plain line is not blank, and it has no characters of quotes. -/
theorem isOrdinary_of_mem (h : IsPlain v) (hc : c ∈ lineOf v) : isOrdinary c := by
  rcases List.mem_append.1 hc with hc | hc
  · exact isOrdinary_of_isNameChar (h.name c hc)
  · rcases List.mem_cons.1 hc with rfl | hc
    · decide
    · exact h.text c hc

/-- A plain line begins with the first character of a name. -/
theorem exists_lineOf_eq (h : IsPlain v) : ∃ c cs, lineOf v = c :: cs ∧ isNameStart c := by
  have hstart := h.start
  cases hname : v.1.toList with
  | nil => simp [hname] at hstart
  | cons c cs => exact ⟨c, cs ++ '=' :: v.2.toList, by simp [lineOf, hname], by
      simpa [hname] using hstart⟩

/-- The name of a plain line is read to the equals sign. -/
theorem name?_eq (h : IsPlain v) :
    name? (lineOf v) = some (v.1.toList, '=' :: v.2.toList) := by
  have hsign : isNameChar '=' = false := by decide
  have hblank : isBlank '=' = false := by decide
  have htake : (lineOf v).takeWhile isNameChar = v.1.toList := by
    rw [lineOf, List.takeWhile_append_of_pos h.name]
    simp [hsign]
  have hdrop : (lineOf v).dropWhile isNameChar = '=' :: v.2.toList := by
    rw [lineOf, List.dropWhile_append_of_pos h.name]
    simp [hsign]
  obtain ⟨c, cs, heq, hc⟩ := h.exists_lineOf_eq
  rw [heq] at htake hdrop ⊢
  simp [name?, hc, htake, hdrop, hblank]

/-- No blank stands before a plain line, and it is no remark. -/
theorem dropWhile_line (h : IsPlain v) :
    (lineOf v ++ ['\n']).dropWhile isBlank = lineOf v ++ ['\n'] ∧
      isRemark (lineOf v ++ ['\n']) = false := by
  obtain ⟨c, cs, heq, hc⟩ := h.exists_lineOf_eq
  have hblank := (isOrdinary_iff.1 (h.isOrdinary_of_mem (heq ▸ List.mem_cons_self))).1
  have hne : c ≠ '#' := by
    rintro rfl
    exact absurd hc (by decide)
  have hdrop : (lineOf v ++ ['\n']).dropWhile isBlank = lineOf v ++ ['\n'] := by
    rw [heq]
    simp [hblank]
  refine ⟨hdrop, ?_⟩
  rw [isRemark, hdrop, heq]
  simpa using hne

/-- **A plain line assigns its variable.** -/
theorem line?_eq (h : IsPlain v) (textOf : List Char → List Char) :
    line? textOf (lineOf v ++ ['\n']) = some (some v) := by
  have hline : ∀ c ∈ (lineOf v).reverse, isOrdinary c := fun c hc =>
    h.isOrdinary_of_mem (List.mem_reverse.1 hc)
  have htrim : trim (lineOf v ++ ['\n']) = lineOf v := by
    have hfeed : isBlank '\n' = true := by decide
    rw [trim, h.dropWhile_line.1, List.reverse_append, List.reverse_singleton,
      List.singleton_append, List.dropWhile_cons, if_pos hfeed, dropWhile_isBlank_eq_self hline,
      List.reverse_reverse]
  have hassign : assignment? textOf (lineOf v) = some v := by
    have hremark := h.noRemark
    rw [assignment?, h.name?_eq]
    simp only [Option.bind_eq_bind, Option.bind_some, afterEquals?,
      dropWhile_isBlank_eq_self h.text]
    split
    · next cs heq => simp [heq] at hremark
    · simp [value?_eq_self h.text]
  obtain ⟨c, cs, heq, hc⟩ := h.exists_lineOf_eq
  have hne : c ≠ '#' := by
    rintro rfl
    exact absurd hc (by decide)
  rw [line?, htrim]
  split
  · next hnil => simp [hnil] at heq
  · next cs' heq' => exact absurd (List.cons.inj (heq.symm.trans heq')).1 hne
  · rw [hassign, Option.map_some]

end IsPlain

/-- A line ends at its first line feed. -/
theorem lines_append (h : '\n' ∉ cs) (rest : List Char) :
    lines (cs ++ '\n' :: rest) = (cs ++ ['\n']) :: lines rest := by
  induction cs with
  | nil => simp [lines]
  | cons c cs ih =>
    rw [List.mem_cons, not_or] at h
    rw [List.cons_append, lines, if_neg (Ne.symm h.1), ih h.2]
    rfl

/-- The lines of a plain file. -/
theorem lines_plain (h : ∀ v ∈ vs, IsPlain v) :
    lines (vs.flatMap fun v => lineOf v ++ ['\n']) = vs.map fun v => lineOf v ++ ['\n'] := by
  induction vs with
  | nil => rfl
  | cons v vs ih =>
    have hfeed : '\n' ∉ lineOf v := fun hmem =>
      absurd ((h v List.mem_cons_self).isOrdinary_of_mem hmem) (by decide)
    rw [List.flatMap_cons, List.append_assoc, List.singleton_append, lines_append hfeed,
      ih fun v hv => h v (List.mem_cons_of_mem _ hv), List.map_cons]

/-- No line of a plain file is joined to another one. -/
theorem joined_plain (h : ∀ v ∈ vs, IsPlain v) :
    joined [] .plain (vs.map fun v => lineOf v ++ ['\n']) =
      vs.map fun v => some (lineOf v ++ ['\n']) := by
  induction vs with
  | nil => rfl
  | cons v vs ih =>
    have hv := h v List.mem_cons_self
    have hscan : Place.plain.scan (lineOf v ++ ['\n']) = (lineOf v ++ ['\n'], some .plain) := by
      refine scan_plain fun c hc => ?_
      rcases List.mem_append.1 hc with hc | hc
      · exact .inl (hv.isOrdinary_of_mem hc)
      · exact .inr (List.mem_singleton.1 hc)
    rw [List.map_cons, joined, hv.dropWhile_line.2, hscan,
      ih fun v hv => h v (List.mem_cons_of_mem _ hv)]
    simp

/-- **A plain file assigns the variables of its lines**, in any environment. -/
theorem assigned_fileOf (h : ∀ v ∈ vs, IsPlain v) : assigned vars (fileOf vs) = vs := by
  have hmark : withoutMark (fileOf vs).toList = vs.flatMap fun v => lineOf v ++ ['\n'] := by
    rw [fileOf, String.toList_ofList]
    refine withoutMark_eq_self ?_
    cases vs with
    | nil => simp
    | cons v vs =>
      obtain ⟨c, cs, heq, hc⟩ := (h v List.mem_cons_self).exists_lineOf_eq
      rw [List.flatMap_cons, heq, List.cons_append, List.cons_append, List.head?_cons, ne_eq,
        Option.some.injEq]
      rintro rfl
      exact absurd hc (by decide)
  rw [assigned, hmark, lines_plain h, joined_plain h]
  clear hmark
  induction vs generalizing vars with
  | nil => rfl
  | cons v vs ih =>
    rw [List.map_cons, assignedBy, (h v List.mem_cons_self).line?_eq]
    exact congrArg (v :: ·) (ih fun v hv => h v (List.mem_cons_of_mem _ hv))

end Dotenv

/-- The way that a key names begins with a name. -/
theorem Key.exists_path_eq (key : List Char) : ∃ s rest, Key.path key = .name s :: rest := by
  unfold Key.path
  split
  · next segments h =>
    -- A key has a first segment, which begins with a name.
    cases hparts : key.splitOn '.' with
    | nil => exact absurd hparts (List.splitOn_ne_nil _ _)
    | cons part parts =>
      rw [hparts, List.mapM_cons] at h
      simp only [Option.bind_eq_bind, Option.bind_eq_some_iff, Option.pure_def,
        Option.some.injEq] at h
      obtain ⟨segment, hsegment, rest, -, rfl⟩ := h
      unfold Key.segment? at hsegment
      dsimp only at hsegment
      split at hsegment
      · cases hsegment
      · obtain ⟨indices, -, rfl⟩ := Option.map_eq_some_iff.1 hsegment
        exact ⟨_, _, rfl⟩
  · exact ⟨_, _, rfl⟩

namespace Environment

open Recurrence.Tree

variable {vars : Variables} {path : List Step} {name s : String} {names : List String}

/-! ## What variables say about a setting -/

/-- What a variable says begins with a name. -/
theorem exists_path_eq {e : Entry} (h : e ∈ entries vars) :
    ∃ s rest, e.path = .name s :: rest := by
  obtain ⟨v, -, hv⟩ := List.mem_filterMap.1 h
  unfold entry? path? at hv
  split at hv
  · cases hv
  · obtain ⟨path, hpath, rfl⟩ := Option.map_eq_some_iff.1 hv
    dsimp only at hpath
    split at hpath
    · rw [← Option.some.inj hpath]
      exact Key.exists_path_eq _
    · cases hpath

/-- Whether a variable names a place in the tree of settings, and has a text. -/
def tells (path : List Step) (v : String × String) : Bool :=
  !v.2.isEmpty && decide (path? v.1 = some path)

/-- The text of the last variable that names a place and has a text. -/
def text? (vars : Variables) (path : List Step) : Option String :=
  (vars.reverse.find? (tells path)).map (·.2)

/-- The last variable is looked at first. -/
theorem text?_append_singleton (v : String × String) :
    text? (vars ++ [v]) path = if tells path v then some v.2 else text? vars path := by
  rw [text?, List.reverse_append, List.reverse_singleton, List.singleton_append,
    List.find?_cons]
  cases tells path v <;> rfl

/-- An entry with a single value that fits a way stands at its end or beside it. -/
theorem get?_modify_of_fitsAt {value : Scalar} {f : Tree → Tree} {t : Tree}
    (h : fitsAt (.scalar value) path names) (hne : path ≠ way names) :
    (t.modify f path).get? (way names) = t.get? (way names) := by
  induction path generalizing t names with
  | nil =>
    cases names with
    | nil => exact absurd rfl hne
    | cons name names => cases h
  | cons step path ih =>
    match step, names with
    | .index _, _ => simp [fitsAt] at h
    | .name _, [] => simp [fitsAt] at h
    | .name s, name :: names =>
      by_cases hname : name = s
      · subst hname
        have hrest : path ≠ way names := fun heq => hne (by rw [heq, way_cons])
        have hfits : fitsAt (.scalar value) path names := by simpa [fitsAt] using h
        rw [way_cons, Tree.modify, get?_insert_self, ih hfits hrest, get?]
        cases t.step? (.name name) with
        | some sub => rfl
        | none =>
          -- A way without names is the end of every way that fits it.
          cases names with
          | nil => cases path <;> simp_all [fitsAt, way]
          | cons name' names => exact get?_nothing (by simp [way])
      · exact get?_insert_of_ne hname

/-- **The variables put the last text at the end of a way**, if none of them says something
else on it. -/
theorem get?_overlay_entries (h : ∀ e ∈ entries vars, e.fits (name :: names)) :
    (Tree.empty.overlay (entries vars)).get? (way (name :: names)) =
      (text? vars (way (name :: names))).map fun s => .scalar (.ofBareText s) := by
  induction vars using List.reverseRecOn with
  | nil => rfl
  | append_singleton vars v ih =>
    have happend : entries (vars ++ [v]) = entries vars ++ entries [v] := List.filterMap_append
    have hadd : Tree.empty.overlay (entries vars ++ entries [v]) =
        (entries [v]).foldl add (Tree.empty.overlay (entries vars)) := List.foldl_append
    rw [happend] at h ⊢
    replace ih := ih fun e he => h e (List.mem_append_left _ he)
    rw [hadd, text?_append_singleton]
    cases htext : v.2.isEmpty with
    | true =>
      have hnone : entries [v] = [] := by simp [entries, entry?, htext]
      simpa [hnone, tells, htext] using ih
    | false =>
      cases hpath : path? v.1 with
      | none =>
        have hnone : entries [v] = [] := by simp [entries, entry?, htext, hpath]
        simpa [hnone, tells, htext, hpath] using ih
      | some path =>
        have hentry : entries [v] = [⟨path, .scalar (.ofBareText v.2)⟩] := by
          simp [entries, entry?, htext, hpath]
        have hfits : Entry.fits ⟨path, .scalar (.ofBareText v.2)⟩ (name :: names) :=
          h _ (List.mem_append_right _ (hentry ▸ List.mem_singleton_self _))
        simp only [hentry, List.foldl_cons, List.foldl_nil, add, tells, htext, hpath,
          Option.some.injEq, Bool.not_false, Bool.true_and, decide_eq_true_eq]
        by_cases hway : path = way (name :: names)
        · rw [if_pos hway, hway, get?_modify, Option.map_some]
          simp [merge]
        · rw [if_neg hway, get?_modify_of_fitsAt hfits hway, ih]

/-- Where only one name is given a text for a setting, its text counts. -/
theorem text?_eq_filter (hnodup : (vars.map Prod.fst).Nodup) (hname : path? name = some path)
    (hown : ∀ v ∈ vars, v.2.isEmpty = false → path? v.1 = some path → v.1 = name) :
    text? vars path = (vars.lookup name).filter (!·.isEmpty) := by
  induction vars using List.reverseRecOn with
  | nil => rfl
  | append_singleton vars v ih =>
    rw [List.map_append, List.map_singleton, List.nodup_append] at hnodup
    have hrest := ih hnodup.1 fun v' hv' => hown v' (List.mem_append_left _ hv')
    rw [text?_append_singleton, List.lookup_append]
    by_cases hv : v.1 = name
    · have hnone : vars.lookup name = none := by
        refine List.lookup_eq_none_iff.2 fun e he => bne_iff_ne.2 fun heq => ?_
        exact hnodup.2.2 e.1 (List.mem_map_of_mem he) v.1 (by simp) (heq.symm.trans hv.symm)
      have hlookup : [v].lookup name = some v.2 := by
        obtain ⟨s, text⟩ := v
        subst hv
        simp
      rw [hnone, Option.none_or, hlookup, hrest, hnone]
      cases htext : v.2.isEmpty <;> simp [tells, htext, hv, hname, Option.filter]
    · have hlookup : [v].lookup name = none := by
        obtain ⟨s, text⟩ := v
        rw [List.lookup_cons, beq_false_of_ne (Ne.symm hv), List.lookup_nil]
      have htells : tells path v = false := by
        cases htext : v.2.isEmpty with
        | true => simp [tells, htext]
        | false =>
          have hne : path? v.1 ≠ some path := fun h =>
            hv (hown v (List.mem_append_right _ List.mem_cons_self) htext h)
          simp [tells, hne]
      rw [htells, if_neg Bool.false_ne_true, hlookup, Option.or_none, hrest]

/-- **The process goes before the file, and an empty text hides the one in the file**: where
only one name is given a text for a setting, the process's text counts, or the file's where
the process does not set the name, unless it is empty. -/
theorem text?_complete {file : String} (hnodup : (vars.map Prod.fst).Nodup)
    (hname : path? name = some path)
    (hown : ∀ v ∈ Dotenv.complete vars file, v.2.isEmpty = false → path? v.1 = some path →
      v.1 = name) :
    text? (Dotenv.complete vars file) path =
      ((vars.lookup name).or ((Dotenv.assigned vars file).lookup name)).filter (!·.isEmpty) := by
  rw [text?_eq_filter (Dotenv.nodup_complete hnodup) hname hown, Dotenv.lookup_complete]

end Environment

end Recurrence
