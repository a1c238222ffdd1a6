import ScopedCss.Animation
import ScopedCss.Declaration
import ScopedCss.FontFamily
import ScopedCss.Keyframes
import ScopedCss.Rule.Walk
import ScopedCss.Selector.Scope

/-!
# Scoping a style sheet

A style sheet is scoped in two walks.  The first renames selectors, keyframes and declared font
families and records them; the second renames the animations and font families that refer to what
was recorded, wherever it was declared.  Both walks go into grouping rules.

Comments are set aside before the walks and put back after them, and blocks that are left open are
closed at the end.  The scoping function is made from the text as it was given, before any stage.
-/
namespace ScopedCss

/-- A step of a pass: it works on the ledger and may fail. -/
abbrev Pass := StateT Ledger (Except Fault)

namespace Stylesheet

/-! ### Declarations of names -/

/-- Scopes the families that the content of a `@font-face` rule declares. -/
def scopeFontFace (scheme : Scheme) (content : Text) : StateM Ledger Text :=
  Declaration.editAll (fun property value =>
    if property = "font-family".toList then do
      let (ledger, value) := FontFamily.declare scheme.scope value (← get)
      set ledger
      return some value
    else return none) content

/-- Whether a rule is an at-rule of keyframes. -/
def isKeyframes (rule : Rule) : Bool :=
  rule.atName?.any fun name => "keyframes".toList.isSuffixOf name

/-- Whether a rule is a `@font-face` rule. -/
def isFontFace (rule : Rule) : Bool := rule.atName? = some "@font-face".toList

/-- Scopes a rule that holds no rules. -/
def scopeRule (scheme : Scheme) (rule : Rule) : Pass Rule := fun ledger =>
  if rule.isAtRule then
    if isKeyframes rule && scheme.switches.keyframes then
      match KeyframesSelector.ofText? rule.selector with
      | some selector =>
        let (ledger, selector) := selector.rename scheme.scope ledger
        .ok ({ rule with selector }, ledger)
      | none => .ok (rule, ledger)
    else if isFontFace rule && scheme.switches.fontFaces then
      let (content, ledger) := (scopeFontFace scheme rule.content).run ledger
      .ok ({ rule with content }, ledger)
    else .ok (rule, ledger)
  else do
    let (ledger, selector) ← Selector.scopeList scheme rule.selector ledger
    return ({ rule with selector }, ledger)

/-- Scopes the rules of a text, those inside grouping rules included. -/
def scopeRules (scheme : Scheme) (t : Text) : Pass Text := do
  let rules ← (rulesOf t).attach.mapM fun ⟨rule, _⟩ =>
    if rule.isGrouping then do
      let content ← scopeRules scheme rule.content
      return { rule with content }
    else scopeRule scheme rule
  return (Outline.ofText t).withRules rules
termination_by weight t
decreasing_by exact weight_content_lt ‹_›

/-- Scoping the rules of a text is a walk that goes into grouping rules. -/
theorem scopeRules_eq_walk (scheme : Scheme) (t : Text) :
    scopeRules scheme t = walk (fun rule =>
      if rule.isGrouping then do
        let content ← scopeRules scheme rule.content
        return { rule with content }
      else scopeRule scheme rule) t := by
  have attached (visit : Rule → Pass Rule) :
      ((rulesOf t).attach.mapM fun rule => visit rule.1) = (rulesOf t).mapM visit := by
    rw [List.mapM_subtype fun _ _ => rfl, List.unattach_attach]
  rw [scopeRules, walk, ← attached]

/-! ### References to names -/

/-- The value of a declaration with the names in it renamed, if it refers to any. -/
def renameValue (switches : Switches) (mapping : Mapping) (property value : Text) : Option Text :=
  if switches.keyframes && "animation".toList.isPrefixOf property then
    Animation.rename mapping.keyframes value
  else if switches.fontFaces && property = "font-family".toList then
    FontFamily.rename mapping.fontFaces value
  else none

/-- Renames the references in a rule that holds no rules.  At-rules refer to nothing. -/
def renameRule (switches : Switches) (mapping : Mapping) (rule : Rule) : Rule :=
  if rule.isAtRule then rule
  else
    { rule with
      content := Id.run <| Declaration.editAll
        (fun property value => pure (renameValue switches mapping property value)) rule.content }

/-- Renames the references in the rules of a text, those inside grouping rules included. -/
def renameRules (switches : Switches) (mapping : Mapping) (t : Text) : Text :=
  (Outline.ofText t).withRules <| (rulesOf t).attach.map fun ⟨rule, _⟩ =>
    if rule.isGrouping then { rule with content := renameRules switches mapping rule.content }
    else renameRule switches mapping rule
termination_by weight t
decreasing_by exact weight_content_lt ‹_›

/-- Renaming the references in the rules of a text is a walk that goes into grouping rules. -/
theorem renameRules_eq_walk (switches : Switches) (mapping : Mapping) (t : Text) :
    renameRules switches mapping t = Id.run (walk (fun rule => pure <|
      if rule.isGrouping then { rule with content := renameRules switches mapping rule.content }
      else renameRule switches mapping rule) t) := by
  rw [renameRules, walk]
  simp [List.map_subtype]

/-- Renames the references in a text, if there is anything to refer to. -/
def renameReferences (switches : Switches) (mapping : Mapping) (t : Text) : Text :=
  if mapping.keyframes.isEmpty && mapping.fontFaces.isEmpty then t
  else renameRules switches mapping t

/-! ### The whole pass -/

/-- What a pass makes of a style sheet. -/
structure Result where
  css : Text
  mapping : Mapping
  warnings : List Warning
deriving DecidableEq

/-- Scopes a style sheet in which comments are set aside. -/
def scopeText (scheme : Scheme) (t : Text) : Pass Text := fun ledger => do
  let (t, ledger) ← scopeRules scheme t ledger
  return (renameReferences scheme.switches ledger.mapping t, ledger)

/-- Scopes a style sheet when a given number of `*` was named before, and counts on from there. -/
def scopeFrom (options : Options) (asterisks : Nat) (source : Text) :
    Except Fault (Result × Nat) := do
  let extracted := Comment.extract (options.stage source)
  let (t, ledger) ← scopeText (options.schemeFor source) extracted.text { asterisks }
  let css := Block.close (Comment.restore extracted.comments t)
  return (⟨css, ledger.mapping, ledger.warnings⟩, ledger.asterisks)

/-- Scopes a style sheet. -/
def scope (options : Options) (source : Text) : Except Fault Result :=
  (scopeFrom options 0 source).map Prod.fst

/-- Scopes style sheets one after the other.  Each starts with an empty mapping, but the names of
`*` count on. -/
def scopeAll (options : Options) (sources : List Text) : Except Fault (List Result) :=
  (StateT.run (sources.mapM fun source => (fun n => scopeFrom options n source)) 0).map Prod.fst

end Stylesheet
end ScopedCss
