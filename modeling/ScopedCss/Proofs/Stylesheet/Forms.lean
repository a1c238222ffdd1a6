import ScopedCss.Proofs.Stylesheet.Records

/-!
# How scoped names are formed

A table says which scoped name a name was given, and nothing of what the sheet or the tables held at
the time.  That is enough, because a scoped name is formed from the name alone: where `*` has one
name, each category has one rule for it (`Mapping.Formed`).

So it does not matter through which door a name gets into a ledger.  The token of a class and the
value of a class attribute write under the same key, a family may be declared twice, and a selector
list may be looked for part by part in any way.  Each of these is a `Recording`, and after any
recordings in a row the names are formed by the rules.  A recording that writes under a key once more
writes what is there already (`names_formed`): what is in a table stays in it.
-/
namespace ScopedCss

/-! ### The rules -/

/-- Each scoped name is formed from its name, by the rule of its category. -/
structure Mapping.Formed (scope elementName : Text → Text) (asterisk : Text) (mapping : Mapping) :
    Prop where
  universal : ∀ new, (['*'], new) ∈ mapping.elements.entries → new = bareName (scope asterisk)
  element : ∀ name new, name ≠ ['*'] → (name, new) ∈ mapping.elements.entries →
    new = bareName (scope (elementName name ++ "_el".toList))
  ofClass : ∀ name new, (name, new) ∈ mapping.classes.entries →
    new = bareName (scope (Text.joinWith ['_'] (Text.words name)))
  ofId : ∀ name new, (name, new) ∈ mapping.ids.entries → new = bareName (scope name)
  keyframes : ∀ name new, (name, new) ∈ mapping.keyframes.entries → new = scope name
  fontFace : ∀ name new, (name, new) ∈ mapping.fontFaces.entries → new = scope name

/-- Whatever is recorded in the one mapping is recorded in the other, with the same scoped name. -/
def Mapping.KeptIn (mapping later : Mapping) : Prop :=
  ∀ category name new, (name, new) ∈ (mapping.table category).entries →
    (name, new) ∈ (later.table category).entries

variable {scheme : Scheme}

/-- A mapping is formed by the rules if it gives each name the scoped form of the scheme. -/
theorem Mapping.formed_of_scopedForm {asterisk : Text} (literal : scheme.asteriskName = .literal asterisk)
    {mapping : Mapping} (forms : ∀ category name new,
      (name, new) ∈ (mapping.table category).entries → new = scheme.scopedForm category name) :
    mapping.Formed scheme.scope scheme.elementName asterisk where
  universal new mem := by
    rw [forms .elements _ _ mem, Scheme.scopedForm, if_pos rfl, literal]
    rfl
  element name new other mem := by
    rw [forms .elements _ _ mem, Scheme.scopedForm, if_neg other]
    rfl
  ofClass name new mem := forms .classes name new mem
  ofId name new mem := forms .ids name new mem
  keyframes name new mem := forms .keyframes name new mem
  fontFace name new mem := forms .fontFaces name new mem

/-! ### Names recorded from nothing on -/

/-- The mapping in which names were recorded one after the other. -/
def Mapping.recorded (scheme : Scheme) (names : List (Category × Text)) : Mapping :=
  names.foldl (Mapping.record scheme) {}

namespace Mapping
variable {names more : List (Category × Text)} {category : Category} {name new : Text}

theorem mem_recorded_iff : (name, new) ∈ ((recorded scheme names).table category).entries ↔
    (category, name) ∈ names ∧ new = scheme.scopedForm category name := by
  have blank : ((({} : Mapping).table category).find? name) = none := by
    cases category <;> rfl
  rw [Stylesheet.mem_entries_iff, recorded, Stylesheet.find?_foldl_record, blank]
  split
  next there => simp [there, eq_comm]
  next absent => simp [absent]

/-- **A later name changes no earlier one.** -/
theorem keptIn_recorded_append :
    (recorded scheme names).KeptIn (recorded scheme (names ++ more)) := by
  intro category name new mem
  obtain ⟨there, form⟩ := mem_recorded_iff.1 mem
  exact mem_recorded_iff.2 ⟨List.mem_append_left more there, form⟩

end Mapping

/-! ### Recordings -/

/-- Something that records names in a ledger: a selector list, in which the given parts are looked for
one after the other, a selector of keyframes, or the value of a declared family. -/
inductive Recording where
  | selectors (switches : Switches) (list : Text) (parts : List Text)
  | keyframes (selector : Text)
  | family (value : Text)

namespace Recording

/-- The ledger after a recording.  What is scoped of a list may differ from one list to the next. -/
def run (scheme : Scheme) (ledger : Ledger) : Recording → Except Fault Ledger
  | selectors switches list parts =>
    (Selector.scopeParts { scheme with switches } list parts ledger).map Prod.fst
  | keyframes selector =>
    match KeyframesSelector.ofText? selector with
    | some selector => .ok (selector.rename scheme.scope ledger).1
    | none => .ok ledger
  | family value => .ok (FontFamily.declare scheme.scope value ledger).1

/-- The names that a recording records. -/
def names : Recording → List (Category × Text)
  | selectors switches _ parts => parts.flatMap (Selector.recordsOf switches)
  | keyframes selector =>
    ((KeyframesSelector.ofText? selector).map fun selector => (.keyframes, selector.name)).toList
  | family value =>
    if (FontFamily.nameOf value).isEmpty then [] else [(.fontFaces, FontFamily.nameOf value)]

/-- A recording leaves the mapping with its names recorded. -/
theorem mapping_run (fixed : scheme.Fixed) {recording : Recording} {ledger after : Ledger}
    (ok : recording.run scheme ledger = .ok after) :
    after.mapping = recording.names.foldl (Mapping.record scheme) ledger.mapping := by
  cases recording with
  | selectors switches list parts =>
    rw [run] at ok
    cases result : Selector.scopeParts { scheme with switches } list parts ledger with
    | error e =>
      rw [result] at ok
      cases ok
    | ok state =>
      rw [result] at ok
      cases ok
      have fixed' : ({ scheme with switches } : Scheme).Fixed := fixed
      rw [Selector.ledger_of_scopeFrom result, Selector.mapping_foldl_notePart fixed']
      -- Which categories are scoped says which names are recorded, and not what they are scoped to.
      rfl
  | keyframes selector =>
    rw [run] at ok
    rw [names]
    cases read : KeyframesSelector.ofText? selector with
    | none =>
      rw [read] at ok
      cases ok
      rfl
    | some selector =>
      rw [read] at ok
      cases ok
      rfl
  | family value =>
    cases ok
    rw [names, FontFamily.declare]
    split
    · rfl
    · rfl

/-- So do recordings in a row. -/
theorem mapping_foldlM_run (fixed : scheme.Fixed) {recordings : List Recording}
    {ledger after : Ledger} (ok : recordings.foldlM (run scheme) ledger = .ok after) :
    after.mapping = (recordings.flatMap names).foldl (Mapping.record scheme) ledger.mapping := by
  induction recordings generalizing ledger with
  | nil =>
    cases ok
    rfl
  | cons recording recordings ih =>
    rw [List.foldlM_cons] at ok
    cases first : recording.run scheme ledger with
    | error e =>
      rw [first] at ok
      cases ok
    | ok next =>
      rw [first] at ok
      rw [ih ok, mapping_run fixed first, List.flatMap_cons, List.foldl_append]

end Recording

/-! ### Passes and recordings -/

namespace Stylesheet

/-- **How scoped names are formed.**  Where `*` has one name, every scoped name in the mapping of a pass
is formed from its name by the rule of its category, and so is every one after any recordings in a row.
What is recorded at some point of a pass, or after some recordings, stays as it is recorded. -/
theorem names_formed :
    (∀ (options : Options) (asterisk source : Text) (result : Result),
      options.asteriskName = .literal asterisk → scope options source = .ok result →
        result.mapping.Formed (options.scopeName (options.keyOf source)) options.elementName asterisk ∧
        ∀ before after ledger, leaves (walked options source) = before ++ after →
          before.foldlM (scopeLedger (options.schemeFor source)) {} = .ok ledger →
            ledger.mapping.KeptIn result.mapping) ∧
    ∀ (scheme : Scheme) (asterisk : Text) (recordings : List Recording) (ledger : Ledger),
      scheme.asteriskName = .literal asterisk →
        recordings.foldlM (Recording.run scheme) {} = .ok ledger →
          ledger.mapping.Formed scheme.scope scheme.elementName asterisk ∧
          ∀ next later, Recording.run scheme ledger next = .ok later →
            ledger.mapping.KeptIn later.mapping := by
  constructor
  · intro options asterisk source result literal ok
    have fixed : (options.schemeFor source).Fixed := ⟨asterisk, literal⟩
    obtain ⟨stop, run, same, -⟩ := exists_ledger_of_scope ok
    have whole : result.mapping = .recorded (options.schemeFor source)
        ((leaves (walked options source)).flatMap (recordsOf options.switches)) := by
      rw [same]
      exact (leaves_foldlM fixed run).mapping
    have literal' : (options.schemeFor source).asteriskName = .literal asterisk := literal
    rw [whole]
    refine ⟨Mapping.formed_of_scopedForm literal' fun _ _ _ mem => (Mapping.mem_recorded_iff.1 mem).2, ?_⟩
    intro before after ledger split reached
    have here : ledger.mapping = .recorded (options.schemeFor source)
        (before.flatMap (recordsOf options.switches)) := (leaves_foldlM fixed reached).mapping
    rw [here, split, List.flatMap_append]
    exact Mapping.keptIn_recorded_append
  · intro scheme asterisk recordings ledger literal reached
    have fixed : scheme.Fixed := ⟨asterisk, literal⟩
    have here : ledger.mapping = .recorded scheme (recordings.flatMap Recording.names) :=
      Recording.mapping_foldlM_run fixed reached
    constructor
    · rw [here]
      exact Mapping.formed_of_scopedForm literal fun _ _ _ mem => (Mapping.mem_recorded_iff.1 mem).2
    · intro next later ok
      have more : later.mapping = .recorded scheme
          (recordings.flatMap Recording.names ++ next.names) := by
        rw [Recording.mapping_run fixed ok, here, Mapping.recorded, Mapping.recorded, List.foldl_append]
      rw [here, more]
      exact Mapping.keptIn_recorded_append

/-- A sheet with `*`, a class and the value of a class attribute. -/
def threeNames : Text := "*.c,[class=\" c  d \"]\x7b\x7d".toList

/-- The names of that sheet are formed by the rules, and so are those of a class recorded through both
doors. -/
theorem names_formed_threeNames :
    (∃ result, scope {} threeNames = .ok result ∧
      result.mapping.Formed (Suffix.scope threeNames) id "__asterisk".toList) ∧
    ∃ ledger, [Recording.selectors {} ".c".toList [".c".toList],
        .selectors {} "[class=c]".toList ["[class=c]".toList]].foldlM
          (Recording.run (({} : Options).schemeFor threeNames)) {} = .ok ledger ∧
      ledger.mapping.Formed (Suffix.scope threeNames) id "__asterisk".toList := by
  obtain ⟨passes, records⟩ := names_formed
  constructor
  · have ok : scope {} threeNames =
        .ok ⟨".__asterisk_3q4zWy.c_3q4zWy,[class~=\"c_d_3q4zWy\"]\x7b\x7d".toList,
          ((({} : Mapping).insert .elements "*".toList "__asterisk_3q4zWy".toList).insert .classes
            "c".toList "c_3q4zWy".toList).insert .classes " c  d ".toList "c_d_3q4zWy".toList, []⟩ := by
      decide +kernel
    exact ⟨_, ok, (passes {} _ threeNames _ rfl ok).1⟩
  · have run : [Recording.selectors {} ".c".toList [".c".toList],
        .selectors {} "[class=c]".toList ["[class=c]".toList]].foldlM
          (Recording.run (({} : Options).schemeFor threeNames)) {} =
        .ok ⟨({} : Mapping).insert .classes "c".toList "c_3q4zWy".toList, [], 0⟩ := by
      decide +kernel
    exact ⟨_, run, (records _ _ _ _ rfl run).1⟩

end Stylesheet
end ScopedCss
