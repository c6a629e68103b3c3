import Mathlib
import Recurrence.Proofs.Settings.Names
import Recurrence.Proofs.Settings.Variables
import Recurrence.Proofs.Text.Plain
import Recurrence.Settings.Load

/-!
# Settings from layers

For each setting by itself one source counts (`Settings.chosen`): the document if it sets
it, else the last variable that names it and has a text, else the default value. **Sources
give exactly the settings that are read from what counts, if they can be used**
(`Settings.ofSources_eq_ok_iff_takenFrom`), so that what is overridden never matters, even if
it is malformed. Only variables can get in the way (`Settings.Undisturbed`): one that names a
whole group takes the group's place, default values and all, unless the document has the group.
-/

namespace Recurrence

namespace Tree

variable {t lower v : Tree} {ms : List Member}

/-! ## Reading one setting -/

/-- The text that a tree stands for. -/
def text? : Tree → Option String
  | scalar s => some s.asText
  | _ => none

/-- The number of days that a tree stands for. -/
def count? : Tree → Option Word
  | scalar s => s.asCount?
  | _ => none

/-- The format that a tree stands for. -/
def format? (t : Tree) : Option OutputFormat :=
  t.formatName?.bind OutputFormat.ofName?

theorem textAt_eq_ok_iff {level : String} :
    t.textAt ms = .ok level ↔ (t.at? ms).bind text? = some level := by
  unfold textAt
  split
  · next s h => simp [h, text?]
  · next h =>
    cases hv : t.at? ms with
    | none => simp
    | some v =>
      cases v with
      | scalar s => exact absurd hv (h s)
      | nothing | list _ | table _ => simp [text?]

theorem countAt_eq_ok_iff {n : Word} :
    t.countAt ms = .ok n ↔ (t.at? ms).bind count? = some n := by
  unfold countAt
  split
  · next s h => cases hs : s.asCount? <;> simp [h, count?, hs]
  · next h =>
    cases hv : t.at? ms with
    | none => simp
    | some v =>
      cases v with
      | scalar s => exact absurd hv (h s)
      | nothing | list _ | table _ => simp [count?]

theorem formatAt_eq_ok_iff {f : OutputFormat} :
    t.formatAt ms = .ok f ↔ (t.at? ms).bind format? = some f := by
  have hbind : ((t.at? ms).bind formatName?).bind OutputFormat.ofName? =
      (t.at? ms).bind format? := Option.bind_assoc _ _ _
  unfold formatAt
  rw [hbind]
  cases (t.at? ms).bind format? <;> simp

/-- Members of tables are found by their names. -/
theorem at?_eq_get? (h : t.Leads (ms.map (·.name))) :
    t.at? ms = t.get? (way (ms.map (·.name))) := by
  induction ms generalizing t with
  | nil => rfl
  | cons m ms ih =>
    cases t with
    | nothing | scalar _ | list _ => exact h.elim
    | table es =>
      rw [List.map_cons, at?, way_cons, get?]
      show (es.lookup m.name).bind _ = (es.lookup m.name).bind _
      cases hsub : es.lookup m.name with
      | none => rfl
      | some sub => exact ih (h sub hsub)

/-! ## What is laid over a tree is read as it stands -/

theorem text?_merge : (lower.merge v).text? = v.text? := by
  cases v <;> rw [merge] <;> first | rfl | exact fun es h => by cases h

theorem count?_merge : (lower.merge v).count? = v.count? := by
  cases v <;> rw [merge] <;> first | rfl | exact fun es h => by cases h

/-- A format may be the name in a table, so it takes a tree without one below it. -/
theorem format?_merge (hlower : lower.entries = []) (hv : (v.entries.map Prod.fst).Nodup) :
    (lower.merge v).format? = v.format? := by
  cases v with
  | nothing | scalar _ | list _ => rw [merge]; exact fun es h => by cases h
  | table es =>
    -- Only the names of the table are read.
    have hread : ∀ es : List (String × Tree), (table es).formatName? =
        if (es.map Prod.fst).length = 1 then (es.map Prod.fst).head? else none := by
      intro es
      rcases es with _ | ⟨e, _ | ⟨e', es⟩⟩ <;> simp [formatName?]
    have hnames : (mergeEntries [] es).map Prod.fst = es.map Prod.fst :=
      map_fst_mergeEntries hv fun _ _ => List.not_mem_nil
    rw [merge, hlower, format?, format?, hread, hread, hnames]

end Tree

namespace Settings

open Recurrence.Tree

variable {vars : Variables} {written : List Entry} {ms : List Member} {s : Settings}

/-! ## The value that counts -/

/-- Where the settings stand. -/
def paths : List (List Member) :=
  [levelPath, windowDaysPath, outputPath]

/-- There are three settings. -/
theorem mem_paths_iff :
    ms ∈ paths ↔ ms = levelPath ∨ ms = windowDaysPath ∨ ms = outputPath := by
  simp [paths]

/-- The names on the way to a setting. -/
def namesOf (ms : List Member) : List String :=
  ms.map (·.name)

/-- The way to a setting. -/
def wayOf (ms : List Member) : List Step :=
  way (namesOf ms)

/-- What the variables make alone. -/
def fromVariables (vars : Variables) : Tree :=
  Tree.empty.overlay (Environment.entries vars)

/-- What a document makes alone. -/
def fromDocument (written : List Entry) : Tree :=
  Tree.empty.overlay written

/-- What a document makes over the variables. -/
def fromBoth (vars : Variables) (written : List Entry) : Tree :=
  (fromVariables vars).overlay written

/-- The last text that the variables give a setting, as a value. -/
def textValue? (vars : Variables) (ms : List Member) : Option Tree :=
  (Environment.text? vars (wayOf ms)).map fun s => .scalar (.ofBareText s)

/-- The value that counts for a setting: what the document says, or else the last text of
the variables, or else the default value. -/
def chosen (vars : Variables) (written : List Entry) (ms : List Member) : Option Tree :=
  ((fromDocument written).get? (wayOf ms)).or
    ((textValue? vars ms).or (defaults.get? (wayOf ms)))

/-- Settings that are read from the values that count, and that can be used. -/
structure TakenFrom (vars : Variables) (written : List Entry) (s : Settings) : Prop where
  /-- The level is a text. -/
  level : (chosen vars written levelPath).bind text? = some s.level
  /-- The default window is a number of days. -/
  windowDays : (chosen vars written windowDaysPath).bind count? = some s.windowDays
  /-- The output has a format. -/
  output : (chosen vars written outputPath).bind format? = some s.output
  /-- They can be used. -/
  valid : s.Valid

/-- Nothing that the variables say gets in the way of a setting. -/
structure Undisturbed (vars : Variables) (written : List Entry) (ms : List Member) : Prop where
  /-- The variables leave the group of the setting a table, or the document has the group. -/
  group : (fromVariables vars).Leads (namesOf ms) ∨
    ((fromDocument written).get? (way (namesOf ms).dropLast)).isSome
  /-- The variables make nothing of the setting but the last text that they give it, or the
  document replaces it. -/
  value : (fromVariables vars).get? (wayOf ms) = textValue? vars ms ∨
    ∃ v, (fromDocument written).get? (wayOf ms) = some v ∧ ∀ es, v ≠ .table es

/-- Every setting has a default value, a single one. -/
theorem exists_get?_defaults (hms : ms ∈ paths) :
    ∃ d, defaults.get? (wayOf ms) = some (.scalar d) := by
  rcases mem_paths_iff.1 hms with rfl | rfl | rfl
  · exact ⟨.text "info", rfl⟩
  · exact ⟨.integer 365, rfl⟩
  · exact ⟨.text "text", rfl⟩

/-- The default values stand in tables. -/
theorem leads_defaults (hms : ms ∈ paths) : defaults.Leads (namesOf ms) := by
  apply leads_of_isOpen
  rcases mem_paths_iff.1 hms with rfl | rfl | rfl <;> rfl

/-- Every setting stands in a group. -/
theorem exists_namesOf_eq (hms : ms ∈ paths) :
    ∃ group name names, namesOf ms = group :: name :: names := by
  rcases mem_paths_iff.1 hms with rfl | rfl | rfl <;> exact ⟨_, _, _, rfl⟩

/-- Variables that fit a setting do not disturb it. -/
theorem undisturbed_of_fits (hms : ms ∈ paths)
    (h : ∀ e ∈ Environment.entries vars, e.fits (namesOf ms)) : Undisturbed vars written ms := by
  obtain ⟨group, name, names, hnames⟩ := exists_namesOf_eq hms
  refine ⟨.inl ?_, .inl ?_⟩
  · rw [hnames] at h ⊢
    exact leads_overlay rfl h (.inl fun sub hsub => by cases hsub)
  · rw [textValue?, wayOf]
    rw [hnames] at h ⊢
    exact Environment.get?_overlay_entries h

/-- What variables make is a table. -/
theorem asTable_fromVariables : (fromVariables vars).asTable = fromVariables vars :=
  asTable_overlay rfl fun _ => Environment.exists_path_eq

/-- The way to a setting that nothing disturbs leads through what the sources make. -/
theorem leads_fromBoth (hms : ms ∈ paths) (hwritten : ∀ e ∈ written, e.fits (namesOf ms))
    (h : Undisturbed vars written ms) : (fromBoth vars written).Leads (namesOf ms) := by
  obtain ⟨group, name, names, hnames⟩ := exists_namesOf_eq hms
  have hgroup := h.group
  rw [hnames] at hwritten hgroup ⊢
  exact leads_overlay asTable_fromVariables hwritten hgroup

/-- No name stands twice there. -/
theorem distinct_fromBoth {names : List String} : (fromBoth vars written).Distinct names :=
  distinct_overlay (distinct_overlay (distinct_of_entries_nil rfl))

/-- What counts for such a setting is what the sources make of it, or the default value. -/
theorem chosen_eq_or (hms : ms ∈ paths) (hwritten : ∀ e ∈ written, e.fits (namesOf ms))
    (h : Undisturbed vars written ms) :
    chosen vars written ms =
      ((fromBoth vars written).get? (wayOf ms)).or (defaults.get? (wayOf ms)) := by
  have hbare : (((fromVariables vars).get? (wayOf ms)).getD nothing).entries = [] ∨
      ∃ v, (fromDocument written).get? (wayOf ms) = some v ∧ ∀ es, v ≠ .table es := by
    refine h.value.imp_left fun hvalue => ?_
    rw [hvalue, textValue?]
    cases Environment.text? vars (wayOf ms) <;> rfl
  have hget : (fromBoth vars written).get? (wayOf ms) =
      ((fromDocument written).get? (wayOf ms)).or ((fromVariables vars).get? (wayOf ms)) := by
    obtain ⟨group, name, names, hnames⟩ := exists_namesOf_eq hms
    rw [wayOf, hnames] at hbare ⊢
    exact get?_overlay asTable_fromVariables (hnames ▸ hwritten) hbare
  rw [chosen, hget, Option.or_assoc]
  rcases h.value with hvalue | ⟨v, hv, -⟩
  · rw [hvalue]
  · rw [hv, Option.some_or, Option.some_or]

/-- **The value that counts is the one that is found** in what the sources make over the
default values. It lies there over a value without entries. -/
theorem exists_at?_eq (hms : ms ∈ paths) (hwritten : ∀ e ∈ written, e.fits (namesOf ms))
    (h : Undisturbed vars written ms) :
    ∃ lower v : Tree, lower.entries = [] ∧ (v.entries.map Prod.fst).Nodup ∧
      chosen vars written ms = some v ∧
      (defaults.merge (fromBoth vars written)).at? ms = some (lower.merge v) := by
  obtain ⟨d, hd⟩ := exists_get?_defaults hms
  have hleads := leads_fromBoth hms hwritten h
  have hdistinct : (fromBoth vars written).Distinct (namesOf ms) := distinct_fromBoth
  have hmerged : (defaults.merge (fromBoth vars written)).Leads (namesOf ms) :=
    (respects_merge (hdistinct.isOpen_of_leads hleads)).leads _
      (leads_asTable (leads_defaults hms))
  have hat : (defaults.merge (fromBoth vars written)).at? ms =
      (defaults.merge (fromBoth vars written)).get? (wayOf ms) := at?_eq_get? hmerged
  have hget := get?_merge defaults hleads hdistinct
  rw [← wayOf] at hget
  rw [chosen_eq_or hms hwritten h, hat, hget, hd]
  cases hsub : (fromBoth vars written).get? (wayOf ms) with
  | some v => exact ⟨.scalar d, v, rfl, hdistinct.of_get? hsub, rfl, rfl⟩
  | none => exact ⟨nothing, .scalar d, rfl, List.nodup_nil, rfl, by simp [merge]⟩

/-- So it is read as it would be read alone, by whatever reads the same over a value without
entries. -/
theorem bind_at?_eq {α : Type} (read : Tree → Option α) (hms : ms ∈ paths)
    (hwritten : ∀ e ∈ written, e.fits (namesOf ms)) (h : Undisturbed vars written ms)
    (hread : ∀ lower v : Tree, lower.entries = [] → (v.entries.map Prod.fst).Nodup →
      read (lower.merge v) = read v) :
    ((defaults.merge (fromBoth vars written)).at? ms).bind read =
      (chosen vars written ms).bind read := by
  obtain ⟨lower, v, hlower, hv, hchosen, hat⟩ := exists_at?_eq hms hwritten h
  rw [hat, hchosen, Option.bind_some, Option.bind_some, hread lower v hlower hv]

/-! ## What sources give -/

/-- Settings are taken from a tree if each of them can be read in it. -/
theorem ofTree_eq_ok_iff {t : Tree} :
    ofTree t = .ok s ↔ (t.at? levelPath).bind text? = some s.level ∧
      (t.at? windowDaysPath).bind count? = some s.windowDays ∧
      (t.at? outputPath).bind format? = some s.output := by
  rw [← textAt_eq_ok_iff, ← countAt_eq_ok_iff, ← formatAt_eq_ok_iff]
  unfold ofTree
  simp only [bind_eq_ok_iff]
  constructor
  · rintro ⟨level, hlevel, windowDays, hdays, output, houtput, heq⟩
    cases heq
    exact ⟨hlevel, hdays, houtput⟩
  · rintro ⟨hlevel, hdays, houtput⟩
    exact ⟨_, hlevel, _, hdays, _, houtput, rfl⟩

/-- What sources say is used only if it can be. -/
theorem ofSources_eq_ok_iff {sources : List (List Entry)} :
    ofSources sources = .ok s ↔
      ofTree (defaults.merge (sources.foldl Tree.overlay .empty)) = .ok s ∧ s.Valid := by
  unfold ofSources
  simp only [bind_eq_ok_iff, validate_eq_ok_iff]
  constructor
  · rintro ⟨t, ht, rfl, hvalid⟩
    exact ⟨ht, hvalid⟩
  · rintro ⟨hs, hvalid⟩
    exact ⟨s, hs, rfl, hvalid⟩

/-- **Where the document fits the settings and no variable disturbs them, the settings are
those that are read from the values that count.** -/
theorem ofSources_eq_ok_iff_takenFrom
    (hwritten : ∀ e ∈ written, ∀ ms ∈ paths, e.fits (namesOf ms))
    (h : ∀ ms ∈ paths, Undisturbed vars written ms) :
    ofSources [Environment.entries vars, written] = .ok s ↔ TakenFrom vars written s := by
  have hfits : ∀ ms ∈ paths, ∀ e ∈ written, e.fits (namesOf ms) :=
    fun ms hms e he => hwritten e he ms hms
  have hl : levelPath ∈ paths := mem_paths_iff.2 (.inl rfl)
  have hd : windowDaysPath ∈ paths := mem_paths_iff.2 (.inr (.inl rfl))
  have ho : outputPath ∈ paths := mem_paths_iff.2 (.inr (.inr rfl))
  have hlevel := bind_at?_eq text? hl (hfits _ hl) (h _ hl) fun _ _ _ _ => text?_merge
  have hdays := bind_at?_eq count? hd (hfits _ hd) (h _ hd) fun _ _ _ _ => count?_merge
  have houtput := bind_at?_eq format? ho (hfits _ ho) (h _ ho) fun _ _ hlower hv =>
    format?_merge hlower hv
  have hboth : [Environment.entries vars, written].foldl Tree.overlay .empty =
      fromBoth vars written := rfl
  rw [ofSources_eq_ok_iff, ofTree_eq_ok_iff, hboth, hlevel, hdays, houtput]
  constructor
  · rintro ⟨⟨hlevel, hdays, houtput⟩, hvalid⟩
    exact ⟨hlevel, hdays, houtput, hvalid⟩
  · rintro ⟨hlevel, hdays, houtput, hvalid⟩
    exact ⟨⟨hlevel, hdays, houtput⟩, hvalid⟩

/-! ## Loading -/

/-- What a settings document says, if there is one. -/
def documentEntries (document : Option String) : Except SettingsError (List Entry) :=
  match document with
  | some d => Toml.read (String.ofList (Text.withoutMark d.toList))
  | none => pure []

/-- The environment, completed by the file, is one source and the document another. -/
theorem load_eq_bind (environment : Variables) (file : String) (document : Option String) :
    load environment file document = (documentEntries document).bind fun written =>
      ofSources [Environment.entries (Dotenv.complete environment file), written] := by
  cases document <;> rfl

/-- Settings that have been loaded can be used. -/
theorem valid_of_load {environment : Variables} {file : String} {document : Option String}
    (h : load environment file document = .ok s) : s.Valid := by
  rw [load_eq_bind] at h
  obtain ⟨written, -, h⟩ := bind_eq_ok_iff.1 h
  exact (ofSources_eq_ok_iff.1 h).2

/-- So can those of a document alone. -/
theorem valid_of_ofDocument {document : String} (h : ofDocument document = .ok s) :
    s.Valid := by
  obtain ⟨written, -, h⟩ := bind_eq_ok_iff.1 h
  exact (ofSources_eq_ok_iff.1 h).2

/-- The variable for a setting, as it is usually written. -/
def variableName (ms : List Member) : String :=
  String.ofList ((Environment.opening ++
    ['_', '_'].intercalate (ms.map (·.name.toList))).map Char.toUpper)

/-- The variable for a setting names it. -/
theorem path?_variableName (hms : ms ∈ paths) :
    Environment.path? (variableName ms) = some (wayOf ms) := by
  have hall : ∀ ms ∈ paths, Environment.path? (variableName ms) = some (wayOf ms) := by
    decide +kernel
  exact hall ms hms

/-- **Each setting is loaded from the last layer that has it.** If the document fits the
settings and no variable disturbs them, what is loaded is read from the values that count;
variables that fit a setting do not disturb it. For a setting that no other spelling gives a
text, the variable is the one of the environment, or of the file if the environment does not
have it, unless its text is empty; a file of plain lines has the variables that it writes.
Whatever has been loaded can be used. -/
theorem load_layered (environment : Variables) (file : String) (document : Option String) :
    (∀ written, documentEntries document = .ok written →
      (∀ e ∈ written, ∀ ms ∈ paths, e.fits (namesOf ms)) →
      (∀ ms ∈ paths, Undisturbed (Dotenv.complete environment file) written ms) →
      ∀ s, load environment file document = .ok s ↔
        TakenFrom (Dotenv.complete environment file) written s) ∧
    (∀ written, ∀ ms ∈ paths,
      (∀ e ∈ Environment.entries (Dotenv.complete environment file), e.fits (namesOf ms)) →
      Undisturbed (Dotenv.complete environment file) written ms) ∧
    ((environment.map Prod.fst).Nodup → ∀ ms ∈ paths,
      (∀ v ∈ Dotenv.complete environment file, v.2.isEmpty = false →
        Environment.path? v.1 = some (wayOf ms) → v.1 = variableName ms) →
      Environment.text? (Dotenv.complete environment file) (wayOf ms) =
        ((environment.lookup (variableName ms)).or
          ((Dotenv.assigned environment file).lookup (variableName ms))).filter (!·.isEmpty)) ∧
    (∀ vs, (∀ v ∈ vs, Dotenv.IsPlain v) → file = Dotenv.fileOf vs →
      Dotenv.assigned environment file = vs) ∧
    (∀ s, load environment file document = .ok s → s.validate = .ok s) ∧
    ∀ d s, ofDocument d = .ok s → s.validate = .ok s := by
  refine ⟨fun written hdocument hwritten h s => ?_, fun written ms hms hfits => ?_,
    fun hnodup ms hms hown => ?_, fun vs hplain hfile => ?_, fun s h => ?_, fun d s h => ?_⟩
  · rw [load_eq_bind, hdocument]
    exact ofSources_eq_ok_iff_takenFrom hwritten h
  · exact undisturbed_of_fits hms hfits
  · exact Environment.text?_complete hnodup (path?_variableName hms) hown
  · rw [hfile, Dotenv.assigned_fileOf hplain]
  · exact validate_eq_ok_iff.2 ⟨rfl, valid_of_load h⟩
  · exact validate_eq_ok_iff.2 ⟨rfl, valid_of_ofDocument h⟩

/-- An environment with an empty level and an output that is not a format. -/
def emptyLevel : Variables :=
  [("CADENCE_LOGGING__LEVEL", ""), ("CADENCE_EXPANSION__OUTPUT", "xml")]

/-- Variables for a file, with a level and a month as the default window. -/
def monthWindow : Variables :=
  [("CADENCE_LOGGING__LEVEL", "debug"), ("CADENCE_EXPANSION__DEFAULT_WINDOW_DAYS", "30")]

/-- A document with an output. -/
def jsonOutput : String :=
  "[expansion]\noutput = \"json\"\n"

/-- The level of the file is hidden, its window counts, and the document replaces the output
that is not a format. -/
theorem emptyLevel_load_layered :
    load emptyLevel (Dotenv.fileOf monthWindow) (some jsonOutput) =
      .ok { windowDays := ⟨30, by decide, by decide⟩, output := .json } ∧
    ({ windowDays := ⟨30, by decide, by decide⟩, output := .json } : Settings).validate =
      .ok { windowDays := ⟨30, by decide, by decide⟩, output := .json } ∧
    Environment.text? (Dotenv.complete emptyLevel (Dotenv.fileOf monthWindow))
      (wayOf levelPath) = none ∧
    Dotenv.assigned emptyLevel (Dotenv.fileOf monthWindow) = monthWindow ∧
    ofDocument jsonOutput = .ok { output := .json } ∧
    ({ output := .json } : Settings).validate = .ok { output := .json } := by
  obtain ⟨hload, hfits, htext, hassigned, hvalid, hvalidDocument⟩ := load_layered emptyLevel
    (Dotenv.fileOf monthWindow) (some jsonOutput)
  have hwritten : documentEntries (some jsonOutput) =
      .ok [⟨[.name "expansion"], .table [("output", .scalar (.text "json"))]⟩] := by
    cbv
  have hdocument : ofDocument jsonOutput = .ok { output := .json } := by
    cbv
  have hloaded := (hload _ hwritten (by decide +kernel)
    (fun ms hms => hfits _ ms hms (by revert ms; decide +kernel))
    { windowDays := ⟨30, by decide, by decide⟩, output := .json }).2
    ⟨by decide +kernel, by decide +kernel, by decide +kernel, by decide, by decide⟩
  have hplain : ∀ v ∈ monthWindow, Dotenv.IsPlain v := by
    intro v hv
    simp only [monthWindow, List.mem_cons, List.not_mem_nil, or_false] at hv
    rcases hv with rfl | rfl <;>
      exact ⟨by decide, List.all_eq_true.1 (by decide), by decide, List.all_eq_true.1 (by decide)⟩
  refine ⟨hloaded, hvalid _ hloaded, ?_, hassigned _ hplain rfl, hdocument,
    hvalidDocument _ _ hdocument⟩
  rw [htext (by decide) levelPath (mem_paths_iff.2 (.inl rfl)) (by decide +kernel)]
  decide +kernel

/-- **A variable that names a whole group takes its place**, so that nothing can be loaded,
although no variable for a setting is set and the default values can be used. -/
theorem load_groupVariable :
    (∀ ms ∈ paths,
      (Dotenv.complete [("CADENCE_LOGGING", "3")] "").lookup (variableName ms) = none ∧
      Environment.text? (Dotenv.complete [("CADENCE_LOGGING", "3")] "") (wayOf ms) = none) ∧
    documentEntries none = .ok [] ∧
    TakenFrom (Dotenv.complete [("CADENCE_LOGGING", "3")] "") [] {} ∧
    load [("CADENCE_LOGGING", "3")] "" none = .error (.mistyped ["logging", "level"]) :=
  ⟨by decide +kernel, rfl,
    ⟨by decide +kernel, by decide +kernel, by decide +kernel, by decide, by decide⟩, by cbv⟩

end Settings

end Recurrence
