import ScopedCss.Proofs.Stylesheet.Forms

/-!
# Categories do not interfere

Switching a category off changes the text that is being rewritten: what is left alone keeps its length,
cursors move differently, and a name that was hidden by a longer one may come to light.  None of this
reaches the mapping or the warnings.  They are those of the leaves of the sheet as it was given, and a
leaf records the names of a category whether or not those of another are recorded
(`filter_recordsOf`).

So two passes that differ in their switches alone agree on every category that both scope, down to the
order of its names, and they warn of the same fragments (`tables_agree`).
-/
namespace ScopedCss

/-! ### One table of a mapping -/

/-- The table with the scoped form of a name of its category recorded. -/
def NameTable.record (scheme : Scheme) (table : NameTable) (entry : Category × Text) : NameTable :=
  table.insert entry.2 (scheme.scopedForm entry.1 entry.2)

/-- The table of a category depends on the names of that category alone. -/
theorem Mapping.table_foldl_record (scheme : Scheme) (names : List (Category × Text))
    (mapping : Mapping) (category : Category) :
    (names.foldl (Mapping.record scheme) mapping).table category =
      (names.filter (·.1 = category)).foldl (NameTable.record scheme) (mapping.table category) := by
  induction names generalizing mapping with
  | nil => rfl
  | cons entry names ih =>
    rw [List.foldl_cons, ih, Mapping.record, Mapping.table_insert, List.filter_cons]
    by_cases same : entry.1 = category
    · rw [if_pos same.symm, if_pos (decide_eq_true same), List.foldl_cons, same]
      exact congrArg (List.foldl _ · _) (by rw [NameTable.record, same])
    · rw [if_neg fun h => same h.symm, if_neg (by simpa using same)]

/-! ### The names of one category -/

variable (switches : Switches) (category : Category)

/-- Of the tokens of a part those of a category record their names, if the category is scoped. -/
theorem Selector.filter_recordsOf (part : Text) :
    (recordsOf switches part).filter (·.1 = category) =
      if switches.on category then (recordsOf {} part).filter (·.1 = category) else [] := by
  have all (other : Category) : ({} : Switches).on other = true := by
    cases other <;> rfl
  have each (l : List Token) : (l.filterMap (Token.record? switches)).filter (·.1 = category) =
      if switches.on category then (l.filterMap (Token.record? {})).filter (·.1 = category) else [] := by
    induction l with
    | nil => simp
    | cons token l ih =>
      rw [List.filterMap_cons, List.filterMap_cons, Token.record?, Token.record?]
      cases token.category? with
      | none => exact ih
      | some kind =>
        rw [Option.filter_some, Option.filter_some, all, if_pos rfl]
        by_cases same : kind = category
        · subst same
          cases on : switches.on kind with
          | true => simpa [on] using ih
          | false => simpa [on] using ih
        · cases switches.on kind with
          | true => simpa [same] using ih
          | false => simpa [same] using ih
  exact each _

namespace Stylesheet

/-- A rule of keyframes is no `@font-face` rule. -/
theorem isFontFace_of_isKeyframes {rule : Rule} (keyframes : isKeyframes rule) :
    isFontFace rule = false := by
  obtain ⟨name, found, ends⟩ := (Option.any_eq_true ..).1 keyframes
  rw [isFontFace, found]
  refine decide_eq_false fun same => ?_
  rw [Option.some.inj same] at ends
  exact absurd ends (by decide)

/-- **A rule records the names of a category if the category is scoped**, whatever else is. -/
theorem filter_recordsOf (rule : Rule) :
    (recordsOf switches rule).filter (·.1 = category) =
      if switches.on category then (recordsOf {} rule).filter (·.1 = category) else [] := by
  have single (other : Category) (names : List Text) (on : Bool) (same : switches.on other = on) :
      (if on then names.map (other, ·) else []).filter (·.1 = category) =
        if switches.on category then (names.map (other, ·)).filter (·.1 = category) else [] := by
    by_cases kind : other = category
    · subst kind
      rw [same]
      cases on <;> simp
    · cases on <;> simp [List.filter_map, Function.comp_def, kind]
  cases isAt : rule.isAtRule with
  | false =>
    rw [recordsOf, recordsOf, isAt]
    simp only [Bool.false_eq_true, if_false, List.filter_flatMap, Selector.filter_recordsOf switches]
    split
    · rfl
    · simp
  | true =>
    rw [recordsOf, recordsOf, isAt, if_pos rfl, if_pos rfl]
    cases keyframes : isKeyframes rule with
    | true =>
      rw [isFontFace_of_isKeyframes keyframes]
      have names := single .keyframes
        ((KeyframesSelector.ofText? rule.selector).map (·.name)).toList switches.keyframes rfl
      cases found : KeyframesSelector.ofText? rule.selector with
      | none => simp
      | some selector =>
        rw [found] at names
        simpa using names
    | false =>
      cases fontFace : isFontFace rule with
      | true =>
        simpa using single .fontFaces (FontFamily.declaredIn rule.content) switches.fontFaces rfl
      | false => simp

/-! ### Two passes -/

/-- The table of a category behind a pass: that of the names which the leaves record of this category,
if it is scoped. -/
theorem table_of_scope {options : Options} {source : Text} {result : Result}
    (fixed : (options.schemeFor source).Fixed) (ok : scope options source = .ok result)
    (category : Category) :
    result.mapping.table category =
      (if options.switches.on category then
        ((leaves (walked options source)).flatMap (recordsOf {})).filter (·.1 = category)
      else []).foldl (NameTable.record (options.schemeFor source)) .empty := by
  obtain ⟨ledger, run, mapping, -⟩ := exists_ledger_of_scope ok
  have names : ((leaves (walked options source)).flatMap (recordsOf options.switches)).filter
        (·.1 = category) =
      if options.switches.on category then
        ((leaves (walked options source)).flatMap (recordsOf {})).filter (·.1 = category)
      else [] := by
    simp only [List.filter_flatMap, filter_recordsOf options.switches]
    split
    · rfl
    · simp
  have blank : ({} : Mapping).table category = .empty := by
    cases category <;> rfl
  rw [mapping, (leaves_foldlM fixed run).mapping, Mapping.table_foldl_record, blank, ← names]
  rfl

/-- **Categories do not interfere.**  Two passes over a sheet that differ in their switches alone, with
one name for `*`, have the same table for every category that both scope, entry for entry; the table of
a category that a pass does not scope is empty; and they warn of the same fragments in the same
order. -/
theorem tables_agree {options : Options} {asterisk : Text}
    (literal : options.asteriskName = .literal asterisk) {source : Text} {first second : Switches}
    {result result' : Result}
    (ok : scope { options with switches := first } source = .ok result)
    (ok' : scope { options with switches := second } source = .ok result') :
    (∀ category, first.on category → second.on category →
      (result.mapping.table category).entries = (result'.mapping.table category).entries) ∧
    (∀ category, first.on category = false → (result.mapping.table category).entries = []) ∧
    (∀ category, second.on category = false → (result'.mapping.table category).entries = []) ∧
    result.warnings = result'.warnings := by
  have fixed (switches : Switches) :
      (({ options with switches } : Options).schemeFor source).Fixed := ⟨asterisk, literal⟩
  have table := table_of_scope (fixed first) ok
  have table' := table_of_scope (fixed second) ok'
  refine ⟨fun category on on' => ?_, fun category off => ?_, fun category off => ?_, ?_⟩
  · rw [table, table', if_pos on, if_pos on']
    rfl
  · rw [table, off]
    rfl
  · rw [table', off]
    rfl
  · rw [(records_of_scope (fixed first) ok).2, (records_of_scope (fixed second) ok').2]
    rfl

/-- A sheet with a type, a class, an id and a fragment of no known kind. -/
def mixedNames : Text := "a.b[id=a] é\x7b\x7d".toList

/-- Without types and without ids it has the same classes, and the same fragment is left alone. -/
theorem tables_agree_mixedNames :
    ∃ result result', scope { switches := { elements := false } } mixedNames = .ok result ∧
      scope { switches := { ids := false } } mixedNames = .ok result' ∧
      (result.mapping.table .classes).entries = (result'.mapping.table .classes).entries ∧
      result.warnings = result'.warnings := by
  have ok : scope { ({} : Options) with switches := { elements := false } } mixedNames =
      .ok ⟨"a.b_1nVSta[id=a_1nVSta] é\x7b\x7d".toList,
        (({} : Mapping).insert .classes "b".toList "b_1nVSta".toList).insert .ids "a".toList
          "a_1nVSta".toList, [⟨"é".toList, "a.b[id=a] é".toList⟩]⟩ := by decide +kernel
  have ok' : scope { ({} : Options) with switches := { ids := false } } mixedNames =
      .ok ⟨".a_el_1nVSta.b_1nVSta[id=a] é\x7b\x7d".toList,
        (({} : Mapping).insert .elements "a".toList "a_el_1nVSta".toList).insert .classes "b".toList
          "b_1nVSta".toList, [⟨"é".toList, "a.b[id=a] é".toList⟩]⟩ := by decide +kernel
  obtain ⟨same, -, -, warnings⟩ := tables_agree rfl ok ok'
  exact ⟨_, _, ok, ok', same .classes rfl rfl, warnings⟩

end Stylesheet
end ScopedCss
