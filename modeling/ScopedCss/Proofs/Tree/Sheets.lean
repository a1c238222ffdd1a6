import ScopedCss.Proofs.Tree.AtRules
import ScopedCss.Proofs.Tree.Contents

/-!
# Style sheets as trees

A well-formed style sheet is a tree: style rules, statements, keyframes, `@font-face` rules, other
at-rules, and grouping rules that hold rules in turn, to any depth.  Written out, each level of the
tree is a row of rules.

A pass over the text does to the tree what one expects of it.  The first walk scopes the selectors,
the names of keyframes and the declared families, and records the last two (`RuleTree.scope_row`); the
second one scopes what refers to them (`RuleTree.rename_row`).  Neither touches anything else
(`scope_sheet`).
-/
namespace ScopedCss

open Quoted Block Stylesheet

/-- A rule without the spaces around it: what stands before its `;` or its block, and the block. -/
structure Shape where
  prelude : Prelude
  block : Option Body

namespace Shape

/-- The rule with spaces around it. -/
def row (shape : Shape) (gap back : Spaces) : Row := ⟨shape.prelude, gap, shape.block, back⟩

end Shape

/-- A level of a style sheet as the content of a block. -/
def Level.body (level : Level) : Body := ⟨level.text, level.balanced_text⟩

/-- A rule that holds no rules. -/
inductive Leaf where
  | style (selector : PlainSelector) (content : Content Value.FitsStyle)
  | statement (prelude : AtPrelude) (plain : prelude.name ∉ KeyframesSelector.atWords)
  | keyframes (prelude : KeyframesPrelude) (body : Body)
  | fontFace (prelude : AtPrelude) (face : prelude.name = "@font-face".toList)
      (content : Content Value.FitsFace)
  | other (prelude : AtPrelude) (plain : prelude.name ∉ KeyframesSelector.atWords)
      (single : prelude.name ∉ Rule.groupingNames) (faceless : prelude.name ≠ "@font-face".toList)
      (body : Body)

/-- A rule of a style sheet with the spaces around it. -/
inductive RuleTree where
  | leaf (leaf : Leaf) (gap back : Spaces)
  | group (prelude : AtPrelude) (grouping : prelude.name ∈ Rule.groupingNames) (gap lead : Spaces)
      (nodes : List RuleTree) (back : Spaces)

/-! ### Writing a tree -/

namespace Leaf

/-- The rule as it is written. -/
def shape : Leaf → Shape
  | style selector content =>
    ⟨selector.prelude, some ⟨content.text, content.balanced_textWith Value.flat_text⟩⟩
  | statement prelude _ => ⟨prelude.prelude, none⟩
  | keyframes prelude body => ⟨prelude.prelude.prelude, some body⟩
  | fontFace prelude _ content =>
    ⟨prelude.prelude, some ⟨content.text, content.balanced_textWith Value.flat_text⟩⟩
  | other prelude _ _ _ body => ⟨prelude.prelude, some body⟩

/-- The rule after the first walk: its selector, its keyframes and its families are scoped. -/
def scopedShape (scheme : PlainScheme) : Leaf → Shape
  | style selector content => ⟨selector.scopedPrelude scheme,
      some ⟨content.text, content.balanced_textWith Value.flat_text⟩⟩
  | keyframes prelude body =>
    ⟨if scheme.switches.keyframes then (prelude.scopedPrelude scheme).prelude
      else prelude.prelude.prelude, some body⟩
  | fontFace prelude _ content => ⟨prelude.prelude,
      some (if scheme.switches.fontFaces then
        ⟨content.textWith (Value.declaredText scheme),
          content.balanced_textWith Value.flat_declaredText⟩
      else ⟨content.text, content.balanced_textWith Value.flat_text⟩)⟩
  | leaf => leaf.shape

/-- The rule after both walks: what refers to declared names is scoped as well. -/
def renamedShape {scheme : PlainScheme} (names : DeclaredNames scheme) : Leaf → Shape
  | style selector content => ⟨selector.scopedPrelude scheme,
      some ⟨content.textWith (Value.renamedText names),
        content.balanced_textWith Value.flat_renamedText⟩⟩
  | leaf => leaf.scopedShape scheme

/-- The names that a rule declares, in the categories that are scoped. -/
def declared (scheme : PlainScheme) : Leaf → DeclaredNames scheme
  | keyframes prelude _ =>
    if on : scheme.switches.keyframes then .ofKeyframes on prelude.name else .none
  | fontFace _ _ content =>
    if on : scheme.switches.fontFaces then .ofPieces on content.pieces else .none
  | _ => .none

/-- Joining the words of a value in the selector does not make the word in every mark. -/
def JoinsFreely : Leaf → Prop
  | style selector _ => selector.JoinsFreely
  | _ => True

end Leaf

namespace RuleTree

mutual

/-- A rule in a row, where the rules without rules in them are written in a given way. -/
def rowWith (write : Leaf → Shape) : RuleTree → Row
  | .leaf l gap back => (write l).row gap back
  | group prelude _ gap lead nodes back =>
    ⟨prelude.prelude, gap, some (Level.body ⟨lead, rowsWith write nodes⟩), back⟩

/-- Rules in rows, where the rules without rules in them are written in a given way. -/
def rowsWith (write : Leaf → Shape) : List RuleTree → List Row
  | [] => []
  | node :: nodes => node.rowWith write :: rowsWith write nodes

end

mutual

/-- The rules without rules in them. -/
def leaves : RuleTree → List Leaf
  | .leaf l _ _ => [l]
  | group _ _ _ _ nodes _ => leavesOf nodes

/-- The rules without rules in them, of several rules. -/
def leavesOf : List RuleTree → List Leaf
  | [] => []
  | node :: nodes => node.leaves ++ leavesOf nodes

end

mutual

/-- The names that a rule declares, and the rules in it. -/
def declared (scheme : PlainScheme) : RuleTree → DeclaredNames scheme
  | .leaf l _ _ => l.declared scheme
  | group _ _ _ _ nodes _ => declaredOf scheme nodes

/-- The names that several rules declare. -/
def declaredOf (scheme : PlainScheme) : List RuleTree → DeclaredNames scheme
  | [] => .none
  | node :: nodes => (node.declared scheme).append (declaredOf scheme nodes)

end

end RuleTree

/-- A well-formed style sheet. -/
structure Sheet where
  lead : Spaces
  nodes : List RuleTree

namespace Sheet

/-- The characters of a style sheet, where the rules without rules in them are written in a given
way. -/
def textWith (sheet : Sheet) (write : Leaf → Shape) : Text :=
  Level.text ⟨sheet.lead, RuleTree.rowsWith write sheet.nodes⟩

/-- The characters of a style sheet. -/
def text (sheet : Sheet) : Text := sheet.textWith Leaf.shape

/-- The characters of a style sheet with every name scoped where it is declared, and where it is
referred to. -/
def scopedText (sheet : Sheet) (scheme : PlainScheme) : Text :=
  sheet.textWith (Leaf.renamedShape (RuleTree.declaredOf scheme sheet.nodes))

/-- Joining the words of a value does not make the word in every mark, in any selector. -/
def JoinsFreely (sheet : Sheet) : Prop := ∀ leaf ∈ RuleTree.leavesOf sheet.nodes, leaf.JoinsFreely

end Sheet

/-! ### Rows that are unshielded again -/

/-- Unshielding leaves a text as it is, and gives it back once it is shielded. -/
structure Settled (t : Text) : Prop where
  unshield_self : unshield t = t
  unshield_shield : unshield (shield t) = t

theorem Settled.of_wordFree {t : Text} (free : WordFree t) : Settled t :=
  ⟨unshield_of_wordFree free, Quoted.unshield_shield free⟩

namespace Row
variable (row : Row)

/-- The prelude and the content of a row stand in its text. -/
theorem part_text : row.prelude.text <:+: row.text ∧ row.content <:+: row.text := by
  refine ⟨⟨[], row.gap.text ++ (row.ending.around row.content ++ row.back.text), rfl⟩, ?_⟩
  unfold text around Row.ending Row.content
  cases row.block with
  | none => exact List.nil_infix
  | some body =>
    exact ⟨row.prelude.text ++ (row.gap.text ++ ['{']), '}' :: row.back.text, by
      simp [Ending.around]⟩

/-- A row that is not shielded stays as it is if its prelude and its content do. -/
theorem unshield_text (prelude : unshield row.prelude.text = row.prelude.text)
    (content : unshield row.content = row.content) : unshield row.text = row.text := by
  have whole : row.withRule ⟨row.prelude.text, row.content⟩ = _ :=
    Level.withRule_eq row fun none => by rw [Row.content, none]
  rw [prelude, content] at whole
  exact whole

/-- A row ends in a character of no mark, so that it is unshielded by itself. -/
theorem unshield_append (t : Text) :
    unshield (row.text ++ t) = unshield row.text ++ unshield t := by
  obtain ⟨front, last, nonempty, plain, split⟩ : ∃ front last, last ≠ [] ∧
      (∀ c ∈ last, Mark.isMarkChar c = false) ∧ row.text = front ++ last := by
    have behind (c : Char) (foreign : Mark.isMarkChar c = false) :
        ∀ d ∈ c :: row.back.text, Mark.isMarkChar d = false := by
      intro d mem
      rcases List.mem_cons.1 mem with rfl | mem
      · exact foreign
      · exact row.back.unmarked d mem
    unfold text around Row.ending Row.content
    cases row.block with
    | none =>
      exact ⟨row.prelude.text ++ row.gap.text, ';' :: row.back.text, by simp, behind ';' rfl, by
        simp [Ending.around]⟩
    | some body =>
      exact ⟨row.prelude.text ++ (row.gap.text ++ '{' :: body.text), '}' :: row.back.text, by simp,
        behind '}' rfl, by simp [Ending.around]⟩
  have alone := unshield_append_plain nonempty plain front []
  rw [List.append_nil, unshield_nil, List.append_nil] at alone
  rw [split, List.append_assoc, unshield_append_plain nonempty plain, alone, List.append_assoc]

end Row

/-- A level that is not shielded stays as it is if its rows do. -/
theorem Level.unshield_text (level : Level) (all : ∀ row ∈ level.rows, unshield row.text = row.text) :
    unshield level.text = level.text := by
  have rows : ∀ rows ⊆ level.rows, unshield (rows.flatMap Row.text) = rows.flatMap Row.text := by
    intro rows
    induction rows with
    | nil => exact fun _ => rfl
    | cons row rows ih =>
      intro inside
      obtain ⟨here, later⟩ := List.cons_subset.1 inside
      rw [List.flatMap_cons, row.unshield_append, all row here, ih later]
  rw [text, level.lead.unshield_append, rows level.rows (List.Subset.refl _)]

/-- Rows with and without blocks alike are written alike. -/
theorem Shape.around_row {shape other : Shape} (alike : shape.block.isSome = other.block.isSome)
    (gap back : Spaces) (selector content : Text) :
    (shape.row gap back).around selector content = (other.row gap back).around selector content := by
  unfold Row.around Row.ending row
  cases block : shape.block <;> cases block' : other.block <;> simp_all

/-- The prelude of keyframes stays as it is around every name of name characters. -/
theorem KeyframesPrelude.unshield_around (p : KeyframesPrelude) {name : Text}
    (letters : ∀ c ∈ name, Plain.isNameChar c) : unshield (p.around name) = p.around name := by
  have clean := (Text.flat_of_plain (p.isPlain_around letters)).2.2
  have whole := unshield_append_of_no_percent clean []
  rwa [unshield_nil, List.append_nil] at whole

/-! ### The first walk -/

/-- What the first walk does to a rule. -/
def scopeVisit (scheme : Scheme) (rule : Rule) : Pass Rule :=
  if rule.isGrouping then do
    let content ← scopeRules scheme rule.content
    return { rule with content }
  else scopeRule scheme rule

theorem scopeRules_eq (scheme : Scheme) (t : Text) :
    scopeRules scheme t = walk (scopeVisit scheme) t := scopeRules_eq_walk scheme t

/-- Strings are shielded on the way into a text, whether they are shielded already or not. -/
theorem walk_shield {m : Type → Type} [Monad m] (visit : Rule → m Rule) (t : Text) :
    walk visit (shield t) = walk visit t := by
  have same : Outline.ofText (shield t) = Outline.ofText t := by
    rw [Outline.ofText, Outline.ofText, shield_shield]
  rw [walk, walk, rulesOf, rulesOf, same]

/-- The content of a rule, empty if it ends in `;`. -/
def Shape.content (shape : Shape) : Text := (shape.row .none .none).content

@[simp] theorem Shape.content_some (prelude : Prelude) (body : Body) :
    (Shape.mk prelude (some body)).content = body.text := rfl

/-- What a walk makes of a rule, unshielded, is the rule in another shape. -/
structure Becomes (shape next : Shape) (rule : Rule) : Prop where
  alike : shape.block.isSome = next.block.isSome
  selector : unshield rule.selector = next.prelude.text
  content : unshield rule.content = next.content
  statement : shape.block = none → rule.content = []

theorem Becomes.withRule {shape next : Shape} {rule : Rule} (h : Becomes shape next rule)
    (gap back : Spaces) : (shape.row gap back).withRule rule = (next.row gap back).text := by
  rw [Level.withRule_eq (shape.row gap back) h.statement, h.selector, h.content,
    Shape.around_row h.alike]
  rfl

namespace Leaf
variable (scheme : PlainScheme)

/-- The rule of a leaf, as a walk sees it. -/
def rule (l : Leaf) : Rule := ⟨shield l.shape.prelude.text, shield l.shape.content⟩

theorem isAtRule_style (selector : PlainSelector) (content : Text) :
    (Rule.mk (shield selector.list.text) content).isAtRule = false := by
  rw [Rule.isAtRule, decide_eq_false_iff_not, (ends_shield selector.flat_text.1.closed).1]
  exact fun at' => (selector.text_ends.2.1 '@' at').2.2 rfl

theorem scopeVisit_style {scheme : Scheme} {rule : Rule} (plain : rule.isAtRule = false)
    {ledger next : Ledger} {selector : Text}
    (done : Selector.scopeList scheme rule.selector ledger = .ok (next, selector)) :
    scopeVisit scheme rule ledger = .ok ({ rule with selector }, next) := by
  have single : rule.isGrouping = false := by
    by_contra grouping
    rw [Bool.not_eq_false] at grouping
    rw [Rule.isAtRule_of_isGrouping grouping] at plain
    cases plain
  rw [scopeVisit, if_neg (by simp [single]), scopeRule, if_neg (by simp [plain]), done]
  rfl

/-- An at-rule that is neither of keyframes nor a `@font-face` rule stays as it is, unless it holds
rules. -/
theorem scopeVisit_other {prelude : AtPrelude} (plain : prelude.name ∉ KeyframesSelector.atWords)
    (single : prelude.name ∉ Rule.groupingNames) (faceless : prelude.name ≠ "@font-face".toList)
    (content : Text) (ledger : Ledger) :
    scopeVisit scheme.toScheme ⟨shield prelude.prelude.text, content⟩ ledger =
      .ok (⟨shield prelude.prelude.text, content⟩, ledger) := by
  have face := prelude.isFontFace_shield content
  rw [decide_eq_false faceless] at face
  rw [scopeVisit, prelude.isGrouping_shield, if_neg (by simp [single]), scopeRule,
    if_pos (prelude.atName?_shield content).1, face, prelude.ofText?_eq_none plain]
  simp

/-- A statement stays as it is. -/
theorem scopeVisit_statement {prelude : AtPrelude}
    (plain : prelude.name ∉ KeyframesSelector.atWords) (ledger : Ledger) :
    scopeVisit scheme.toScheme ⟨shield prelude.prelude.text, []⟩ ledger =
      .ok (⟨shield prelude.prelude.text, []⟩, ledger) := by
  by_cases grouping : prelude.name ∈ Rule.groupingNames
  · have empty : scopeRules scheme.toScheme [] ledger = .ok ([], ledger) := by
      rw [scopeRules_eq]
      rfl
    rw [scopeVisit, prelude.isGrouping_shield, if_pos (by simp [grouping])]
    show (scopeRules scheme.toScheme [] ledger >>= fun p => _) = _
    rw [empty]
    rfl
  · by_cases face : prelude.name = "@font-face".toList
    · have own := prelude.isFontFace_shield []
      rw [decide_eq_true face] at own
      rw [scopeVisit, prelude.isGrouping_shield, if_neg (by simp [grouping]), scopeRule,
        if_pos (prelude.atName?_shield []).1, own, prelude.ofText?_eq_none plain]
      cases scheme.toScheme.switches.fontFaces <;>
        cases isKeyframes ⟨shield prelude.prelude.text, []⟩ && scheme.toScheme.switches.keyframes <;>
          rfl
    · exact scopeVisit_other scheme plain grouping face [] ledger

/-- A rule of keyframes gets a scoped name, which is recorded. -/
theorem scopeVisit_keyframes (prelude : KeyframesPrelude) (content : Text) (ledger : Ledger) :
    scopeVisit scheme.toScheme ⟨shield prelude.prelude.prelude.text, content⟩ ledger =
      .ok (⟨if scheme.switches.keyframes then prelude.around (scheme.scope prelude.name)
          else shield prelude.prelude.prelude.text, content⟩,
        if scheme.switches.keyframes then
          ledger.insert .keyframes prelude.name (scheme.scope prelude.name)
        else ledger) := by
  have name : prelude.prelude.name = prelude.word := prelude.name_prelude _ _
  obtain ⟨single, faceless, known⟩ := prelude.word_cases
  have keyframes : isKeyframes ⟨shield prelude.prelude.prelude.text, content⟩ := by
    rw [isKeyframes, (prelude.prelude.atName?_shield content).2, name]
    exact known
  have face := prelude.prelude.isFontFace_shield content
  rw [name, decide_eq_false faceless] at face
  have bare : shield prelude.prelude.prelude.text = prelude.text :=
    (Text.flat_of_plain (prelude.isPlain_around prelude.letters)).2.1
  rw [scopeVisit, prelude.prelude.isGrouping_shield, name, if_neg (by simp [single]), scopeRule,
    if_pos (prelude.prelude.atName?_shield content).1, keyframes, face]
  cases on : scheme.switches.keyframes with
  | false => simp [PlainScheme.toScheme, on]
  | true =>
    have read : KeyframesSelector.ofText? (shield prelude.prelude.prelude.text) = _ :=
      bare ▸ prelude.ofText?_text
    simp [PlainScheme.toScheme, on, read, KeyframesSelector.rename, KeyframesSelector.renameName,
      KeyframesSelector.spell, KeyframesPrelude.around, PlainScheme.scope]

/-- A `@font-face` rule gets the content that scoping its families makes. -/
theorem scopeVisit_fontFace {prelude : AtPrelude} (face : prelude.name = "@font-face".toList)
    {content new : Text} {ledger next : Ledger}
    (done : scheme.switches.fontFaces →
      (scopeFontFace scheme.toScheme content).run ledger = (new, next)) :
    scopeVisit scheme.toScheme ⟨shield prelude.prelude.text, content⟩ ledger =
      .ok (⟨shield prelude.prelude.text, if scheme.switches.fontFaces then new else content⟩,
        if scheme.switches.fontFaces then next else ledger) := by
  have plain : prelude.name ∉ KeyframesSelector.atWords := by
    rw [face]
    decide
  have single : prelude.name ∉ Rule.groupingNames := by
    rw [face]
    decide
  have own := prelude.isFontFace_shield content
  rw [decide_eq_true face] at own
  have unread : isKeyframes ⟨shield prelude.prelude.text, content⟩ = false := by
    rw [isKeyframes, (prelude.atName?_shield content).2, face]
    decide
  rw [scopeVisit, prelude.isGrouping_shield, if_neg (by simp [single]), scopeRule,
    if_pos (prelude.atName?_shield content).1, own, unread]
  cases on : scheme.switches.fontFaces with
  | false => simp [PlainScheme.toScheme, on]
  | true =>
    have on' : scheme.toScheme.switches.fontFaces = true := on
    simp [on', done on]

/-- **The first walk scopes a rule**: it becomes what the tree says, and the names that it declares
are recorded. -/
theorem scope_leaf {l : Leaf} (free : WordFree l.shape.prelude.text ∧ WordFree l.shape.content)
    (joined : l.JoinsFreely) (ledger : Ledger) :
    ∃ rule next, scopeVisit scheme.toScheme l.rule ledger = .ok (rule, next) ∧
      Becomes l.shape (l.scopedShape scheme) rule ∧
      (l.declared scheme).Added ledger.mapping next.mapping := by
  have prelude := unshield_shield free.1
  have content := unshield_shield free.2
  cases l with
  | style selector own =>
    obtain ⟨next, done, keyframes, families⟩ := selector.scopeList_shield scheme ledger
    refine ⟨_, next, scopeVisit_style (isAtRule_style selector _) done, ⟨rfl, ?_, content, by rintro ⟨⟩⟩,
      .of_tables keyframes families⟩
    exact selector.unshield_scopedText scheme free.1 joined
  | statement own plain =>
    exact ⟨_, ledger, scopeVisit_statement scheme plain ledger, ⟨rfl, prelude, rfl, fun _ => rfl⟩,
      .refl _⟩
  | keyframes own body =>
    refine ⟨_, _, scopeVisit_keyframes scheme own _ ledger, ⟨rfl, ?_, content, by rintro ⟨⟩⟩, ?_⟩
    · rw [scopedShape]
      dsimp only
      split
      next => exact own.unshield_around (scheme.isNameChar_of_mem_scope own.letters)
      next => exact prelude
    · cases on : scheme.switches.keyframes with
      | false => simpa [declared, on] using DeclaredNames.Added.refl ledger.mapping
      | true =>
        constructor
        · intro name
          have found : (ledger.insert .keyframes own.name (scheme.scope own.name)).mapping.keyframes.find?
              name = _ := ledger.mapping.keyframes.find?_insert own.name (scheme.scope own.name) name
          by_cases same : name = own.name
          · simpa [declared, on, DeclaredNames.ofKeyframes, same] using found
          · simpa [declared, on, DeclaredNames.ofKeyframes, same] using found
        · intro name
          simp [declared, on, DeclaredNames.ofKeyframes, Ledger.insert, Mapping.insert]
  | fontFace own face faces =>
    cases on : scheme.switches.fontFaces with
    | false =>
      have off : scheme.switches.fontFaces → (scopeFontFace scheme.toScheme
          (shield faces.text)).run ledger = ([], ledger) := fun on' => absurd on' (by simp [on])
      have done := scopeVisit_fontFace scheme face off
      rw [on] at done
      refine ⟨_, ledger, done, ⟨rfl, prelude, ?_, by rintro ⟨⟩⟩, ?_⟩
      · have same : unshield (shield faces.text) = faces.text := content
        simpa [scopedShape, on] using same
      · simpa [declared, on] using DeclaredNames.Added.refl ledger.mapping
    | true =>
      obtain ⟨text, next, visited, become, added⟩ := scopeFontFace_shield on faces free.2 ledger
      have done := scopeVisit_fontFace scheme face fun _ => visited
      rw [on] at done
      refine ⟨_, next, done, ⟨rfl, prelude, ?_, by rintro ⟨⟩⟩, ?_⟩
      · simpa [scopedShape, on] using become
      · simpa [declared, on] using added
  | other own plain single faceless body =>
    exact ⟨_, ledger, scopeVisit_other scheme plain single faceless _ ledger,
      ⟨rfl, prelude, content, by rintro ⟨⟩⟩, .refl _⟩

/-- The prelude and the content of a scoped rule are settled. -/
theorem settled_scopedShape {l : Leaf}
    (free : WordFree l.shape.prelude.text ∧ WordFree l.shape.content) (joined : l.JoinsFreely) :
    Settled (l.scopedShape scheme).prelude.text ∧ Settled (l.scopedShape scheme).content := by
  have prelude := Settled.of_wordFree free.1
  have content := Settled.of_wordFree free.2
  cases l with
  | style selector own =>
    exact ⟨⟨selector.unshield_scopedText_self scheme free.1 joined,
      selector.unshield_scopedText scheme free.1 joined⟩, content⟩
  | keyframes own body =>
    refine ⟨?_, content⟩
    rw [scopedShape]
    dsimp only
    split
    next =>
      have letters := scheme.isNameChar_of_mem_scope own.letters
      have bare : shield (own.around (scheme.scope own.name)) = own.around (scheme.scope own.name) :=
        (Text.flat_of_plain (own.isPlain_around letters)).2.1
      have whole := own.unshield_around letters
      exact ⟨whole, (congrArg unshield bare).trans whole⟩
    next => exact prelude
  | fontFace own face faces =>
    refine ⟨prelude, ?_⟩
    have declared : Settled (faces.textWith (Value.declaredText scheme)) :=
      .of_wordFree (faces.wordFree_textWith Value.wordFree_declaredText free.2)
    rw [scopedShape]
    cases scheme.switches.fontFaces with
    | false => exact content
    | true => exact declared
  | statement own plain => exact ⟨prelude, content⟩
  | other own plain single faceless body => exact ⟨prelude, content⟩

end Leaf

namespace RuleTree
variable (scheme : PlainScheme)

/-- The parts of a row are free of the word in every mark if the row is. -/
theorem wordFree_parts {shape : Shape} {gap back : Spaces}
    (free : WordFree (shape.row gap back).text) :
    WordFree shape.prelude.text ∧ WordFree shape.content := by
  obtain ⟨prelude, content⟩ := (shape.row gap back).part_text
  exact ⟨free.part prelude, free.part content⟩

/-- The rows of a level are free of the word in every mark if the level is. -/
theorem wordFree_row {lead : Spaces} {rows : List Row} (free : WordFree (Level.text ⟨lead, rows⟩)) :
    ∀ row ∈ rows, WordFree row.text := by
  intro row mem
  have inside : row.text <:+: rows.flatMap Row.text :=
    List.infix_of_mem_flatten (List.mem_map_of_mem mem)
  exact free.part (inside.trans (List.suffix_append _ _).isInfix)

/-- A walk through a level visits a rule, and unshields what it becomes. -/
def visitRow (row : Row) : Pass Text := row.withRule <$> scopeVisit scheme.toScheme row.rule

theorem scopeRules_level (level : Level) (ledger : Ledger) {texts : List Text} {next : Ledger}
    (rows : (level.rows.mapM (visitRow scheme)) ledger = .ok (texts, next)) :
    scopeRules scheme.toScheme (shield level.text) ledger =
      .ok (level.lead.text ++ texts.flatten, next) := by
  rw [scopeRules_eq, walk_shield, Level.walk_text]
  show (level.rows.mapM (visitRow scheme) ledger >>= fun p => _) = _
  rw [rows]
  rfl

mutual

/-- **The first walk scopes a rule and the rules in it**, and what they declare is recorded. -/
theorem scope_row (node : RuleTree) (free : WordFree (node.rowWith Leaf.shape).text)
    (joined : ∀ l ∈ node.leaves, l.JoinsFreely) (ledger : Ledger) :
    ∃ next, visitRow scheme (node.rowWith Leaf.shape) ledger =
        .ok ((node.rowWith (Leaf.scopedShape scheme)).text, next) ∧
      (node.declared scheme).Added ledger.mapping next.mapping ∧
      unshield (node.rowWith (Leaf.scopedShape scheme)).text =
        (node.rowWith (Leaf.scopedShape scheme)).text :=
  match node with
  | .leaf l gap back => by
    have parts := wordFree_parts free
    have joins := joined l (by simp [leaves])
    obtain ⟨rule, next, visited, become, added⟩ := Leaf.scope_leaf scheme parts joins ledger
    obtain ⟨prelude, content⟩ := Leaf.settled_scopedShape scheme parts joins
    refine ⟨next, ?_, added, ((l.scopedShape scheme).row gap back).unshield_text
      prelude.unshield_self content.unshield_self⟩
    show (scopeVisit scheme.toScheme l.rule ledger >>= fun p => _) = _
    rw [visited]
    exact congrArg (fun text => Except.ok (text, next)) (become.withRule gap back)
  | .group prelude grouping gap lead nodes back => by
    have parts := Row.part_text ((group prelude grouping gap lead nodes back).rowWith Leaf.shape)
    obtain ⟨next, rows, added, same⟩ := scope_rows nodes (wordFree_row (free.part parts.2))
      joined ledger
    have content := Level.unshield_text ⟨lead, rowsWith (Leaf.scopedShape scheme) nodes⟩ same
    have own : WordFree prelude.prelude.text := free.part parts.1
    refine ⟨next, ?_, added, Row.unshield_text _ (unshield_of_wordFree own) content⟩
    have inner := scopeRules_level scheme ⟨lead, rowsWith Leaf.shape nodes⟩ ledger rows
    show (scopeVisit scheme.toScheme ⟨shield prelude.prelude.text,
      shield (Level.text ⟨lead, rowsWith Leaf.shape nodes⟩)⟩ ledger >>= fun p => _) = _
    rw [scopeVisit, prelude.isGrouping_shield, if_pos (by simp [grouping])]
    show ((scopeRules scheme.toScheme (shield (Level.text ⟨lead, rowsWith Leaf.shape nodes⟩)) ledger
      >>= fun p => _) >>= fun p => _) = _
    rw [inner]
    refine congrArg (fun text => Except.ok (text, next)) ?_
    refine (Level.withRule_eq _ (by nofun)).trans ?_
    have text : lead.text ++ ((rowsWith (Leaf.scopedShape scheme) nodes).map Row.text).flatten =
        Level.text ⟨lead, rowsWith (Leaf.scopedShape scheme) nodes⟩ := rfl
    show Row.around _ (unshield (shield prelude.prelude.text)) (unshield (lead.text ++
      ((rowsWith (Leaf.scopedShape scheme) nodes).map Row.text).flatten)) = _
    rw [unshield_shield own, text, content]
    rfl

/-- The first walk scopes rules one after the other. -/
theorem scope_rows (nodes : List RuleTree)
    (free : ∀ row ∈ rowsWith Leaf.shape nodes, WordFree row.text)
    (joined : ∀ l ∈ leavesOf nodes, l.JoinsFreely) (ledger : Ledger) :
    ∃ next, (rowsWith Leaf.shape nodes).mapM (visitRow scheme) ledger =
        .ok ((rowsWith (Leaf.scopedShape scheme) nodes).map Row.text, next) ∧
      (declaredOf scheme nodes).Added ledger.mapping next.mapping ∧
      ∀ row ∈ rowsWith (Leaf.scopedShape scheme) nodes, unshield row.text = row.text :=
  match nodes with
  | [] => ⟨ledger, rfl, .refl _, fun _ mem => absurd mem List.not_mem_nil⟩
  | node :: nodes => by
    obtain ⟨between, visited, added, same⟩ := scope_row node (free _ List.mem_cons_self)
      (fun l mem => joined l (List.mem_append_left _ mem)) ledger
    obtain ⟨next, visited', added', same'⟩ := scope_rows nodes
      (fun row mem => free row (List.mem_cons_of_mem _ mem))
      (fun l mem => joined l (List.mem_append_right _ mem)) between
    refine ⟨next, ?_, added.append added', ?_⟩
    · rw [rowsWith, List.mapM_cons]
      show (visitRow scheme (node.rowWith Leaf.shape) ledger >>= fun p => _) = _
      rw [visited]
      show ((rowsWith Leaf.shape nodes).mapM (visitRow scheme) between >>= fun p => _) = _
      rw [visited']
      rfl
    · intro row mem
      rcases List.mem_cons.1 mem with rfl | mem
      · exact same
      · exact same' row mem

end

end RuleTree

end ScopedCss
