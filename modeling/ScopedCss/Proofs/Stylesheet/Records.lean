import ScopedCss.Proofs.Selector.Lists
import ScopedCss.Proofs.Selector.Resumption
import ScopedCss.Proofs.Stylesheet.Leaves

/-!
# What a pass records

A rule that holds no rules *records* names: the tokens of its selector, the name of its keyframes, or
the families it declares, as far as their categories are scoped.  Which names these are does not
depend on the ledger, and, where `*` has one name, neither does what a name is scoped to
(`Scheme.scopedForm`): a name that is recorded twice is recorded with the same scoped name.

So the mapping of a pass can be read off the leaves of the sheet.  It gives each name that a leaf
records its scoped form, and no other name (`records_of_scope`).
-/
namespace ScopedCss

/-- What a name of a category is scoped to, where `*` has one name. -/
def Scheme.scopedForm (scheme : Scheme) : Category → Text → Text
  | .elements, name =>
    bareName (scheme.scope (if name = ['*'] then scheme.asteriskName.resolve 0
      else scheme.elementName name ++ Token.elementMarker))
  | .classes, name => bareName (scheme.scope (Token.joinWords name))
  | .ids, name => bareName (scheme.scope name)
  | .keyframes, name => scheme.scope name
  | .fontFaces, name => scheme.scope name

/-- The name that a token records, with its category. -/
def Token.record? (switches : Switches) (token : Token) : Option (Category × Text) :=
  (token.category?.filter switches.on).map (·, token.name)

/-- The mapping with the scoped form of a name recorded. -/
def Mapping.record (scheme : Scheme) (mapping : Mapping) (entry : Category × Text) : Mapping :=
  mapping.insert entry.1 entry.2 (scheme.scopedForm entry.1 entry.2)

variable {scheme : Scheme}

/-! ### Tokens -/

namespace Token
variable {token : Token}

/-- A token records its name if its category is scoped. -/
theorem record?_eq_some_iff {switches : Switches} {category : Category} {name : Text} :
    token.record? switches = some (category, name) ↔
      token.category? = some category ∧ switches.on category ∧ token.name = name := by
  rw [record?, Option.map_eq_some_iff]
  constructor
  · rintro ⟨category', kept, same⟩
    obtain ⟨rfl, rfl⟩ := Prod.mk.inj same
    obtain ⟨kind, on⟩ := Option.filter_eq_some_iff.1 kept
    exact ⟨kind, on, rfl⟩
  · rintro ⟨kind, on, rfl⟩
    exact ⟨category, Option.filter_eq_some_iff.2 ⟨kind, on⟩, rfl⟩

/-- A token that is renamed gets the scoped form of the name it records. -/
theorem renaming?_eq_record? (fixed : scheme.Fixed) (asterisks : Nat)
    (letters : ∀ name, token = .element name → name ≠ ['*']) :
    token.renaming? scheme asterisks = (token.record? scheme.switches).map fun entry =>
      ⟨entry.1, entry.2, scheme.scopedForm entry.1 entry.2⟩ := by
  obtain ⟨asterisk, literal⟩ := fixed
  have resolve (n : Nat) : scheme.asteriskName.resolve n = asterisk := by rw [literal]; rfl
  have form_of (category : Category) (kind : token.category? = some category)
      (form : bareName (scheme.scope (token.nameToScope scheme asterisks)) =
        scheme.scopedForm category token.name) :
      token.renaming? scheme asterisks = (token.record? scheme.switches).map fun entry =>
        ⟨entry.1, entry.2, scheme.scopedForm entry.1 entry.2⟩ := by
    rw [renaming?, record?, kind]
    cases on : scheme.switches.on category with
    | true => simp [Option.filter, on, form]
    | false => simp [Option.filter, on]
  cases token with
  | element name =>
    refine form_of .elements rfl ?_
    rw [Scheme.scopedForm, Token.name, if_neg (letters name rfl)]
    rfl
  | universal =>
    refine form_of .elements rfl ?_
    rw [Scheme.scopedForm, Token.name, if_pos rfl, nameToScope, resolve, resolve]
  | ofClass name => exact form_of .classes rfl rfl
  | ofId name => exact form_of .ids rfl rfl
  | attributeValue onId value =>
    cases onId with
    | false => exact form_of .classes rfl rfl
    | true => exact form_of .ids rfl rfl
  | pseudo name => rfl
  | unknown text => rfl

end Token

/-- A noted token records its name, if it has one. -/
theorem Ledger.mapping_note (fixed : scheme.Fixed) (part : Text) (ledger : Ledger) {token : Token}
    (letters : ∀ name, token = .element name → name ≠ ['*']) :
    (ledger.note scheme part token).mapping =
      (token.record? scheme.switches).toList.foldl (Mapping.record scheme) ledger.mapping := by
  by_cases unknown : ∃ text, token = .unknown text
  · obtain ⟨text, rfl⟩ := unknown
    rfl
  · rw [note_of_known scheme part ledger fun text same => unknown ⟨text, same⟩,
      Token.renaming?_eq_record? fixed _ letters]
    cases token.record? scheme.switches with
    | none => rfl
    | some entry => exact mapping_rename _ _ _

namespace Selector

/-- The names that the tokens of a part record. -/
def recordsOf (switches : Switches) (part : Text) : List (Category × Text) :=
  (tokens (NamedAttribute.normalise part)).filterMap (Token.record? switches)

/-- The names of elements are letters and digits. -/
theorem isElementName_of_mem_tokens {part name : Text} (mem : .element name ∈ tokens part) :
    Token.isElementName name := by
  rcases mem_tokens_cases mem with ⟨onId, value, same⟩ | ⟨u, -, -, kind⟩
  · cases same
  · exact isElementName_of_ofText kind

theorem ne_asterisk_of_isElementName {name : Text} (letters : Token.isElementName name) :
    name ≠ ['*'] := by
  rintro rfl
  cases letters

/-- The ledger after a part was noted has what its tokens record. -/
theorem mapping_notePart (fixed : scheme.Fixed) (ledger : Ledger) (part : Text) :
    (notePart scheme ledger part).mapping =
      (recordsOf scheme.switches part).foldl (Mapping.record scheme) ledger.mapping := by
  have run (l : List Token) (known : ∀ token ∈ l, ∀ name, token = .element name → name ≠ ['*'])
      (ledger : Ledger) :
      (l.foldl (Ledger.note scheme (NamedAttribute.normalise part)) ledger).mapping =
        (l.filterMap (Token.record? scheme.switches)).foldl (Mapping.record scheme)
          ledger.mapping := by
    induction l generalizing ledger with
    | nil => rfl
    | cons token l ih =>
      rw [List.foldl_cons, ih fun t mem => known t (List.mem_cons_of_mem token mem),
        Ledger.mapping_note fixed _ _ (known token List.mem_cons_self), List.filterMap_cons]
      cases token.record? scheme.switches <;> rfl
  refine run _ ?_ ledger
  rintro token mem name rfl
  exact ne_asterisk_of_isElementName (isElementName_of_mem_tokens mem)

/-- So it has what the tokens of several parts record. -/
theorem mapping_foldl_notePart (fixed : scheme.Fixed) (parts : List Text) (ledger : Ledger) :
    (parts.foldl (notePart scheme) ledger).mapping =
      (parts.flatMap (recordsOf scheme.switches)).foldl (Mapping.record scheme) ledger.mapping := by
  induction parts generalizing ledger with
  | nil => rfl
  | cons part parts ih =>
    rw [List.foldl_cons, ih, mapping_notePart fixed, List.flatMap_cons, List.foldl_append]

/-- The ledger does not depend on where the tokens of a part are found. -/
theorem fst_foldl_scopeToken (part : Text) (tokens : List Token) (state : Ledger × Cursor) :
    (tokens.foldl (scopeToken scheme part) state).1 =
      tokens.foldl (Ledger.note scheme part) state.1 := by
  induction tokens generalizing state with
  | nil => rfl
  | cons token tokens ih =>
    rw [List.foldl_cons, ih, List.foldl_cons]
    obtain ⟨ledger, cursor⟩ := state
    rw [scopeToken_eq]

/-- After a list the ledger has the notes of its parts, one after the other. -/
theorem ledger_of_scopeFrom {parts : List Text} {ledger after : Ledger} {text text' : Text}
    {offset : Nat} (ok : scopeFrom scheme parts ledger text offset = .ok (after, text')) :
    after = parts.foldl (notePart scheme) ledger := by
  induction parts generalizing ledger text offset with
  | nil =>
    cases ok
    rfl
  | cons part parts ih =>
    rw [scopeFrom] at ok
    split at ok
    · cases ok
    · rw [ih ok, List.foldl_cons, notePart, fst_foldl_scopeToken]

end Selector

/-! ### Declared families -/

/-- The family that a piece of a rule's content declares. -/
def FontFamily.declaredIn? (piece : Text) : Option Text :=
  (Declaration.ofPiece? piece).bind fun declaration =>
    if declaration.property = "font-family".toList then
      some (nameOf (Quoted.unshield declaration.value))
    else none

/-- The families that the content of a rule declares, without those that have no name. -/
def FontFamily.declaredIn (content : Text) : List Text :=
  ((content.splitOn ';').filterMap declaredIn?).filter fun name => !name.isEmpty

/-- The state after a visit of each element is that of a run over the elements. -/
theorem snd_mapM_run {σ α β : Type} (visit : α → StateM σ β) (l : List α) (s : σ) :
    ((l.mapM visit).run s).2 = l.foldl (fun s a => ((visit a).run s).2) s := by
  induction l generalizing s with
  | nil => rfl
  | cons a l ih =>
    rw [List.mapM_cons, List.foldl_cons, ← ih]
    rfl

namespace Stylesheet

/-- The visitor of the declarations in a `@font-face` rule. -/
def declareFamily (scheme : Scheme) (property value : Text) : StateM Ledger (Option Text) :=
  if property = "font-family".toList then do
    let (ledger, value) := FontFamily.declare scheme.scope value (← get)
    set ledger
    return some value
  else return none

/-- A piece leaves the ledger with the family it declares. -/
theorem ledger_editPiece (piece : Text) (ledger : Ledger) :
    ((Declaration.editPiece (declareFamily scheme) piece).run ledger).2 =
      ((FontFamily.declaredIn? piece).toList.filter fun name => !name.isEmpty).foldl
        (fun ledger name => ledger.insert .fontFaces name (scheme.scope name)) ledger := by
  rw [Declaration.editPiece, FontFamily.declaredIn?]
  cases Declaration.ofPiece? piece with
  | none => rfl
  | some declaration =>
    by_cases family : declaration.property = "font-family".toList
    · simp only [declareFamily, family, if_true, Option.bind_some]
      by_cases empty : (FontFamily.nameOf (Quoted.unshield declaration.value)).isEmpty
      · simp [empty, FontFamily.declare]
        rfl
      · simp [empty, FontFamily.declare]
        rfl
    · simp only [declareFamily, family, if_false, Option.bind_some]
      rfl

/-- A `@font-face` rule leaves the ledger with the families it declares. -/
theorem ledger_scopeFontFace (content : Text) (ledger : Ledger) :
    ((scopeFontFace scheme content).run ledger).2 =
      (FontFamily.declaredIn content).foldl
        (fun ledger name => ledger.insert .fontFaces name (scheme.scope name)) ledger := by
  have state : ((scopeFontFace scheme content).run ledger).2 = (StateT.run
      ((content.splitOn ';').mapM (Declaration.editPiece (declareFamily scheme))) ledger).2 := rfl
  rw [state, snd_mapM_run, FontFamily.declaredIn]
  clear state
  induction content.splitOn ';' generalizing ledger with
  | nil => rfl
  | cons piece pieces ih =>
    rw [List.foldl_cons, ih, ledger_editPiece, List.filterMap_cons]
    cases FontFamily.declaredIn? piece with
    | none => rfl
    | some name =>
      rw [Option.toList_some, List.filter_cons, List.filter_cons]
      split <;> rfl

/-! ### Rules -/

/-- The names that a rule without rules in it records. -/
def recordsOf (switches : Switches) (rule : Rule) : List (Category × Text) :=
  if rule.isAtRule then
    if isKeyframes rule && switches.keyframes then
      ((KeyframesSelector.ofText? rule.selector).map fun selector => (.keyframes, selector.name)).toList
    else if isFontFace rule && switches.fontFaces then
      (FontFamily.declaredIn rule.content).map (.fontFaces, ·)
    else []
  else (CommaList.entries rule.selector).flatMap (Selector.recordsOf switches)

/-- What a rule without rules in it is warned of. -/
def warningsOf (rule : Rule) : List Warning :=
  if rule.isAtRule then []
  else (CommaList.entries rule.selector).flatMap Selector.warningsOf

/-- What the scoping of rules leaves in the ledger: the mapping with the names they record, and the
warnings. -/
structure Leaves (scheme : Scheme) (rules : List Rule) (before after : Ledger) : Prop where
  mapping : after.mapping = (rules.flatMap (recordsOf scheme.switches)).foldl
    (Mapping.record scheme) before.mapping
  warnings : after.warnings = before.warnings ++ rules.flatMap warningsOf

theorem mapping_insertFamilies (names : List Text) (ledger : Ledger) :
    names.foldl (fun ledger name => ledger.insert .fontFaces name (scheme.scope name)) ledger =
      { ledger with
        mapping := (names.map (Category.fontFaces, ·)).foldl (Mapping.record scheme) ledger.mapping } := by
  induction names generalizing ledger with
  | nil => rfl
  | cons name names ih =>
    rw [List.foldl_cons, ih]
    rfl

theorem leaves_scopeList (fixed : scheme.Fixed) {rule : Rule} (style : rule.isAtRule = false)
    {ledger after : Ledger} {text : Text}
    (ok : Selector.scopeList scheme rule.selector ledger = .ok (after, text)) :
    Leaves scheme [rule] ledger after := by
  have noted := Selector.ledger_of_scopeFrom ok
  constructor
  · rw [noted, Selector.mapping_foldl_notePart fixed, List.flatMap_singleton, recordsOf, style]
    rfl
  · rw [noted, Selector.warnings_foldl_notePart, List.flatMap_singleton, warningsOf, style]
    rfl

/-- A rule that is scoped leaves what it records and is warned of. -/
theorem leaves_scopeLedger (fixed : scheme.Fixed) {rule : Rule} {ledger after : Ledger}
    (ok : scopeLedger scheme ledger rule = .ok after) : Leaves scheme [rule] ledger after := by
  rw [scopeLedger] at ok
  unfold scopeRule at ok
  cases isAt : rule.isAtRule with
  | false =>
    simp only [isAt, Bool.false_eq_true, ↓reduceIte] at ok
    cases list : Selector.scopeList scheme rule.selector ledger with
    | error e =>
      rw [list] at ok
      cases ok
    | ok result =>
      obtain ⟨next, text⟩ := result
      rw [list] at ok
      cases ok
      exact leaves_scopeList fixed isAt list
  | true =>
    have quiet : [rule].flatMap warningsOf = [] := by
      rw [List.flatMap_singleton, warningsOf, isAt, if_pos rfl]
    have records : [rule].flatMap (recordsOf scheme.switches) = recordsOf scheme.switches rule :=
      List.flatMap_singleton _ _
    rw [recordsOf, isAt, if_pos rfl] at records
    simp only [isAt, ↓reduceIte] at ok
    split at ok
    next keyframes =>
      rw [if_pos keyframes] at records
      split at ok
      next selector found =>
        cases ok
        exact ⟨by rw [records, found]; rfl, by rw [quiet, List.append_nil]; rfl⟩
      next none =>
        cases ok
        exact ⟨by rw [records, none]; rfl, by rw [quiet, List.append_nil]⟩
    next other =>
      rw [if_neg other] at records
      split at ok
      next fontFace =>
        obtain rfl : _ = after := Except.ok.inj ok
        rw [if_pos fontFace] at records
        show Leaves scheme [rule] ledger ((scopeFontFace scheme rule.content).run ledger).2
        rw [ledger_scopeFontFace, mapping_insertFamilies]
        exact ⟨by rw [records], by rw [quiet, List.append_nil]⟩
      next other' =>
        cases ok
        rw [if_neg other'] at records
        exact ⟨by rw [records]; rfl, by rw [quiet, List.append_nil]⟩

/-- So do rules one after the other. -/
theorem leaves_foldlM (fixed : scheme.Fixed) {rules : List Rule} {ledger after : Ledger}
    (ok : rules.foldlM (scopeLedger scheme) ledger = .ok after) :
    Leaves scheme rules ledger after := by
  induction rules generalizing ledger with
  | nil =>
    cases ok
    exact ⟨rfl, (List.append_nil _).symm⟩
  | cons rule rules ih =>
    rw [List.foldlM_cons] at ok
    cases first : scopeLedger scheme ledger rule with
    | error e =>
      rw [first] at ok
      cases ok
    | ok next =>
      rw [first] at ok
      have here := leaves_scopeLedger fixed first
      have later := ih ok
      constructor
      · rw [later.mapping, here.mapping, List.flatMap_singleton, List.flatMap_cons,
          List.foldl_append]
      · rw [later.warnings, here.warnings, List.flatMap_singleton, List.flatMap_cons,
          List.append_assoc]

/-! ### The mapping of a pass -/

/-- A mapping with names recorded gives these their scoped forms, and other names what they had. -/
theorem find?_foldl_record (entries : List (Category × Text)) (mapping : Mapping)
    (category : Category) (name : Text) :
    ((entries.foldl (Mapping.record scheme) mapping).table category).find? name =
      if (category, name) ∈ entries then some (scheme.scopedForm category name)
      else (mapping.table category).find? name := by
  induction entries generalizing mapping with
  | nil => rfl
  | cons entry entries ih =>
    obtain ⟨category', name'⟩ := entry
    rw [List.foldl_cons, ih, Mapping.record, Mapping.table_insert]
    by_cases later : (category, name) ∈ entries
    · rw [if_pos later, if_pos (List.mem_cons_of_mem _ later)]
    rw [if_neg later]
    by_cases table : category = category'
    · subst table
      rw [if_pos rfl, NameTable.find?_insert]
      by_cases same : name = name'
      · rw [if_pos same, if_pos (by simp [same]), same]
      · rw [if_neg same, if_neg (by simp [same, later])]
    · rw [if_neg table, if_neg (by simp [table, later])]

/-- An entry of a table is what looking up its name finds. -/
theorem mem_entries_iff (table : NameTable) (name scopedName : Text) :
    (name, scopedName) ∈ table.entries ↔ table.find? name = some scopedName := by
  have general (entries : List (Text × Text)) (once : (entries.map Prod.fst).Nodup) :
      (name, scopedName) ∈ entries ↔ entries.lookup name = some scopedName := by
    induction entries with
    | nil => simp
    | cons entry entries ih =>
      obtain ⟨name', scopedName'⟩ := entry
      rw [List.map_cons, List.nodup_cons] at once
      obtain ⟨absent, once⟩ := once
      rw [Entries.lookup_cons_eq, List.mem_cons, ih once]
      by_cases same : name = name'
      · subst same
        have other : ¬ entries.lookup name = some scopedName := fun found =>
          absent (List.mem_map.2 ⟨_, (ih once).2 found, rfl⟩)
        simp [other, eq_comm]
      · simp [same]
  exact general table.entries table.nodup

variable {options : Options} {source : Text} {result : Result}

/-- The ledger behind a pass is what its leaves leave. -/
theorem exists_ledger_of_scope (ok : scope options source = .ok result) :
    ∃ ledger, (leaves (walked options source)).foldlM
        (scopeLedger (options.schemeFor source)) {} = .ok ledger ∧
      result.mapping = ledger.mapping ∧ result.warnings = ledger.warnings := by
  rw [scope_eq_map] at ok
  have run := map_snd_scopeRules (options.schemeFor source) (walked options source) {}
  cases walk : (scopeRules (options.schemeFor source) (walked options source)).run {} with
  | error e =>
    rw [walk] at ok
    cases ok
  | ok state =>
    rw [walk] at ok run
    cases ok
    exact ⟨state.2, run.symm, rfl, rfl⟩

/-- **What a pass records.**  Where `*` has one name, the mapping of a pass gives the names that the
leaves of the sheet record their scoped forms, and there are no others in it; its warnings are those
of the leaves. -/
theorem records_of_scope (fixed : (options.schemeFor source).Fixed)
    (ok : scope options source = .ok result) :
    (∀ category name scopedName, (name, scopedName) ∈ (result.mapping.table category).entries ↔
      (∃ rule ∈ leaves (walked options source), (category, name) ∈ recordsOf options.switches rule) ∧
        scopedName = (options.schemeFor source).scopedForm category name) ∧
    result.warnings = (leaves (walked options source)).flatMap warningsOf := by
  obtain ⟨ledger, run, mapping, warnings⟩ := exists_ledger_of_scope ok
  have done := leaves_foldlM fixed run
  constructor
  · intro category name scopedName
    have blank : ((({} : Ledger).mapping.table category).find? name) = none := by
      cases category <;> rfl
    have some_iff : (category, name) ∈ (leaves (walked options source)).flatMap
        (recordsOf (options.schemeFor source).switches) ↔
          ∃ rule ∈ leaves (walked options source),
            (category, name) ∈ recordsOf options.switches rule := List.mem_flatMap
    rw [mem_entries_iff, mapping, done.mapping, find?_foldl_record, blank, ← some_iff]
    split
    next recorded => simp [recorded, eq_comm]
    next other => simp [other]
  · rw [warnings, done.warnings]
    rfl

end Stylesheet
end ScopedCss
