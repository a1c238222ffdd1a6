import ScopedCss.Proofs.Text.Comments
import ScopedCss.Proofs.Tree.Sheets

/-!
# A pass over a tree

What the first walk leaves is the text of a tree again: the same rules in other shapes.  The second
walk therefore finds the rules of that tree, and scopes in each style rule what refers to a declared
name (`RuleTree.rename_row`), before or after the rule that declares it.

A whole pass is the two walks and nothing else, for a text without comments and with all its blocks
closed: `scope_sheet`.
-/
namespace ScopedCss

open Quoted Block Stylesheet

/-! ### The second walk -/

/-- What the second walk does to a rule. -/
def renameVisit (switches : Switches) (mapping : Mapping) (rule : Rule) : Rule :=
  if rule.isGrouping then { rule with content := renameRules switches mapping rule.content }
  else renameRule switches mapping rule

/-- The second walk through a level visits its rows. -/
theorem renameRules_level (switches : Switches) (mapping : Mapping) (level : Level) :
    renameRules switches mapping level.text = level.lead.text ++
      (level.rows.map fun row => row.withRule (renameVisit switches mapping row.rule)).flatten := by
  have visited : renameRules switches mapping level.text =
      Id.run (walk (fun rule => pure (renameVisit switches mapping rule)) level.text) :=
    renameRules_eq_walk switches mapping level.text
  rw [visited, Level.walk_text]
  simp

/-- Strings may be shielded before the second walk as well. -/
theorem renameRules_shield (switches : Switches) (mapping : Mapping) (t : Text) :
    renameRules switches mapping (shield t) = renameRules switches mapping t := by
  rw [renameRules_eq_walk, renameRules_eq_walk, walk_shield]

/-- The second walk leaves an at-rule as it is, unless it holds rules. -/
theorem AtPrelude.renameVisit_shield (p : AtPrelude) (switches : Switches) (mapping : Mapping)
    {content : Text} (flat : p.name ∈ Rule.groupingNames → content = []) :
    renameVisit switches mapping ⟨shield p.prelude.text, content⟩ =
      ⟨shield p.prelude.text, content⟩ := by
  by_cases grouping : p.name ∈ Rule.groupingNames
  · have empty : renameRules switches mapping [] = [] := by
      rw [renameRules_eq_walk]
      rfl
    rw [renameVisit, p.isGrouping_shield, if_pos (by simp [grouping]), flat grouping, empty]
  · rw [renameVisit, p.isGrouping_shield, if_neg (by simp [grouping]), renameRule,
      if_pos (p.atName?_shield content).1]

namespace Leaf
variable {scheme : PlainScheme}

/-- The prelude and the content of a rule after both walks are settled. -/
theorem settled_renamedShape (names : DeclaredNames scheme) {l : Leaf}
    (free : WordFree l.shape.prelude.text ∧ WordFree l.shape.content) (joined : l.JoinsFreely) :
    Settled (l.renamedShape names).prelude.text ∧ Settled (l.renamedShape names).content := by
  have before := settled_scopedShape scheme free joined
  cases l with
  | style selector own =>
    exact ⟨before.1, .of_wordFree (own.wordFree_textWith Value.wordFree_renamedText free.2)⟩
  | _ => exact before

variable {names : DeclaredNames scheme}

/-- The rule of a scoped leaf that is no style rule stays as it is. -/
theorem renameVisit_scopedShape (switches : Switches) (mapping : Mapping) {l : Leaf}
    (at' : ∀ selector content, l ≠ style selector content) :
    renameVisit switches mapping
        ⟨shield (l.scopedShape scheme).prelude.text, shield (l.scopedShape scheme).content⟩ =
      ⟨shield (l.scopedShape scheme).prelude.text, shield (l.scopedShape scheme).content⟩ := by
  cases l with
  | style selector content => exact absurd rfl (at' selector content)
  | statement own plain => exact own.renameVisit_shield switches mapping fun _ => rfl
  | keyframes own body =>
    -- Both preludes have the same name, and it is none of a grouping rule.
    have single : own.prelude.name ∉ Rule.groupingNames ∧
        (own.scopedPrelude scheme).name ∉ Rule.groupingNames := by
      constructor
      · exact fun mem => own.word_cases.1 (own.name_prelude _ _ ▸ mem)
      · exact fun mem => own.word_cases.1 (own.name_prelude _ _ ▸ mem)
    unfold scopedShape
    cases scheme.switches.keyframes with
    | true =>
      exact (own.scopedPrelude scheme).renameVisit_shield switches mapping fun mem =>
        absurd mem single.2
    | false => exact own.prelude.renameVisit_shield switches mapping fun mem => absurd mem single.1
  | fontFace own face content =>
    have single : own.name ∉ Rule.groupingNames := by
      rw [face]
      decide
    exact own.renameVisit_shield switches mapping fun mem => absurd mem single
  | other own plain single faceless body =>
    exact own.renameVisit_shield switches mapping fun mem => absurd mem single

/-- **The second walk scopes what a rule refers to**, if the names that are declared are recorded. -/
theorem rename_leaf {mapping : Mapping} (known : names.Known mapping) {l : Leaf}
    (free : WordFree l.shape.prelude.text ∧ WordFree l.shape.content) (joined : l.JoinsFreely) :
    Becomes (l.scopedShape scheme) (l.renamedShape names) (renameVisit scheme.switches mapping
      ⟨shield (l.scopedShape scheme).prelude.text, shield (l.scopedShape scheme).content⟩) := by
  obtain ⟨prelude, content⟩ := settled_scopedShape scheme free joined
  by_cases styled : ∃ selector own, l = style selector own
  · obtain ⟨selector, own, rfl⟩ := styled
    have plain : (Rule.mk (shield (selector.scopedText scheme)) (shield own.text)).isAtRule =
        false := by
      rw [Rule.isAtRule, decide_eq_false_iff_not,
        (ends_shield (selector.flat_scopedText scheme).1.closed).1]
      exact fun at' => ((selector.scopedText_ends scheme).2.1 '@' at').2.2 rfl
    have single : (Rule.mk (shield (selector.scopedText scheme)) (shield own.text)).isGrouping =
        false := by
      by_contra grouping
      rw [Bool.not_eq_false] at grouping
      rw [Rule.isAtRule_of_isGrouping grouping] at plain
      cases plain
    have visited : renameVisit scheme.switches mapping
        ⟨shield (selector.scopedText scheme), shield own.text⟩ =
          ⟨shield (selector.scopedText scheme), Id.run (Declaration.editAll
            (fun property value => pure (renameValue scheme.switches mapping property value))
            (shield own.text))⟩ := by
      rw [renameVisit, if_neg (by simp [single]), renameRule, if_neg (by simp [plain])]
    show Becomes _ _ (renameVisit scheme.switches mapping
      ⟨shield (selector.scopedText scheme), shield own.text⟩)
    rw [visited]
    exact ⟨rfl, prelude.unshield_shield, unshield_renameRule known own free.2, by rintro ⟨⟩⟩
  · have at' : ∀ selector own, l ≠ style selector own := by
      rintro selector own rfl
      exact styled ⟨selector, own, rfl⟩
    have same : l.renamedShape names = l.scopedShape scheme := by
      cases l with
      | style selector own => exact absurd rfl (at' selector own)
      | _ => rfl
    rw [renameVisit_scopedShape _ _ at', same]
    exact ⟨rfl, prelude.unshield_shield, content.unshield_shield, fun none => by
      rw [Shape.content, Row.content]
      simp [Shape.row, none, shield, shieldFrom]⟩

end Leaf

namespace RuleTree
variable {scheme : PlainScheme} {names : DeclaredNames scheme} {mapping : Mapping}

mutual

/-- **The second walk scopes what a rule, and the rules in it, refer to.** -/
theorem rename_row (known : names.Known mapping) (node : RuleTree)
    (free : WordFree (node.rowWith Leaf.shape).text) (joined : ∀ l ∈ node.leaves, l.JoinsFreely) :
    (node.rowWith (Leaf.scopedShape scheme)).withRule (renameVisit scheme.switches mapping
        (node.rowWith (Leaf.scopedShape scheme)).rule) =
      (node.rowWith (Leaf.renamedShape names)).text ∧
    unshield (node.rowWith (Leaf.renamedShape names)).text =
      (node.rowWith (Leaf.renamedShape names)).text :=
  match node with
  | .leaf l gap back => by
    have parts := wordFree_parts free
    have joins := joined l (by simp [leaves])
    obtain ⟨prelude, content⟩ := Leaf.settled_renamedShape names parts joins
    refine ⟨(Leaf.rename_leaf known parts joins).withRule gap back, ?_⟩
    exact ((l.renamedShape names).row gap back).unshield_text prelude.unshield_self
      content.unshield_self
  | .group prelude grouping gap lead nodes back => by
    have parts := Row.part_text ((group prelude grouping gap lead nodes back).rowWith Leaf.shape)
    obtain ⟨rows, same⟩ := rename_rows known nodes (wordFree_row (free.part parts.2)) joined
    have content := Level.unshield_text ⟨lead, rowsWith (Leaf.renamedShape names) nodes⟩ same
    have own : WordFree prelude.prelude.text := free.part parts.1
    refine ⟨?_, Row.unshield_text _ (unshield_of_wordFree own) content⟩
    have inner : renameRules scheme.switches mapping
        (shield (Level.text ⟨lead, rowsWith (Leaf.scopedShape scheme) nodes⟩)) =
        Level.text ⟨lead, rowsWith (Leaf.renamedShape names) nodes⟩ := by
      rw [renameRules_shield, renameRules_level, rows]
      rfl
    have visited : renameVisit scheme.switches mapping ⟨shield prelude.prelude.text,
          shield (Level.text ⟨lead, rowsWith (Leaf.scopedShape scheme) nodes⟩)⟩ =
        ⟨shield prelude.prelude.text, Level.text ⟨lead, rowsWith (Leaf.renamedShape names) nodes⟩⟩ := by
      rw [renameVisit, prelude.isGrouping_shield, if_pos (by simp [grouping]), inner]
    show Row.withRule _ (renameVisit scheme.switches mapping ⟨shield prelude.prelude.text,
      shield (Level.text ⟨lead, rowsWith (Leaf.scopedShape scheme) nodes⟩)⟩) = _
    rw [visited]
    refine (Level.withRule_eq _ (by nofun)).trans ?_
    rw [unshield_shield own, content]
    rfl

/-- The second walk goes through rules one after the other. -/
theorem rename_rows (known : names.Known mapping) (nodes : List RuleTree)
    (free : ∀ row ∈ rowsWith Leaf.shape nodes, WordFree row.text)
    (joined : ∀ l ∈ leavesOf nodes, l.JoinsFreely) :
    ((rowsWith (Leaf.scopedShape scheme) nodes).map fun row =>
        row.withRule (renameVisit scheme.switches mapping row.rule)) =
      (rowsWith (Leaf.renamedShape names) nodes).map Row.text ∧
    ∀ row ∈ rowsWith (Leaf.renamedShape names) nodes, unshield row.text = row.text :=
  match nodes with
  | [] => by simp [rowsWith]
  | node :: nodes => by
    rw [rowsWith] at free
    rw [leavesOf] at joined
    obtain ⟨here, same⟩ := rename_row known node (free _ List.mem_cons_self)
      fun l mem => joined l (List.mem_append_left _ mem)
    obtain ⟨later, same'⟩ := rename_rows known nodes
      (fun row mem => free row (List.mem_cons_of_mem _ mem))
      fun l mem => joined l (List.mem_append_right _ mem)
    rw [rowsWith, rowsWith]
    refine ⟨?_, ?_⟩
    · rw [List.map_cons, List.map_cons, here, later]
    · intro row mem
      rcases List.mem_cons.1 mem with rfl | mem
      · exact same
      · exact same' row mem

end

end RuleTree

/-! ### A pass over a style sheet -/

namespace Comment

/-- With no comments set aside nothing is put back. -/
theorem restore_nil (t : Text) : restore [] t = t := by
  have spelled (segments : List (Segment Unit)) :
      deal [] segments = Mark.commentWord.spellAll segments := by
    induction segments with
    | nil => rfl
    | cons segment segments ih =>
      cases segment with
      | plain c => exact congrArg (c :: ·) ih
      | hit _ => exact congrArg (Mark.comment ++ ·) ih
  rw [restore, spelled]
  exact Mark.commentWord.spellAll_scan t

end Comment

/-- Where no names are declared the second walk has nothing to scope. -/
theorem Leaf.renamedShape_of_none {scheme : PlainScheme} {names : DeclaredNames scheme}
    (keyframes : names.keyframes = []) (families : names.families = []) :
    renamedShape names = scopedShape scheme := by
  have same : Value.renamedText names = Value.text := by
    funext value
    cases value with
    | animation value =>
      exact value.scopedText_of_none fun name => by simp [DeclaredNames.hasKeyframes, keyframes]
    | families list =>
      exact list.scopedText_of_none fun name => by simp [DeclaredNames.hasFamily, families]
    | family own => rfl
    | other text flat => rfl
  funext l
  cases l with
  | style selector content => simp only [renamedShape, scopedShape, same, Content.text]
  | _ => rfl

/-- A table in which nothing is recorded knows no name. -/
theorem PlainScheme.Knows.nil_of_isEmpty {scheme : PlainScheme} {names : List Text}
    {table : NameTable} (knows : scheme.Knows (fun name => name ∈ names) table)
    (empty : table.isEmpty) : names = [] := by
  refine List.eq_nil_iff_forall_not_mem.2 fun name mem => ?_
  have found := knows name
  have entries : table.entries = [] := List.isEmpty_iff.1 empty
  simp [NameTable.find?, entries, mem] at found

/-- The choices of a pass with the default scoper over a text. -/
def PlainScheme.ofSource (switches : Switches) (asterisk : Text)
    (plain : ∀ c ∈ asterisk, Plain.isNameChar c) (source : Text) : PlainScheme where
  switches := switches
  asterisk := asterisk
  asterisk_plain := plain
  suffix := Suffix.ofSource source
  digits _ := Suffix.isAlphanum_of_mem_ofSource
  few := (Suffix.length_ofSource_le source).trans (by decide)

namespace Sheet
variable (sheet : Sheet)

theorem balanced_textWith (write : Leaf → Shape) : Balanced (sheet.textWith write) :=
  Level.balanced_text _

/-- The rows of a sheet are free of the word in every mark if the sheet is. -/
theorem wordFree_row (free : WordFree sheet.text) :
    ∀ row ∈ RuleTree.rowsWith Leaf.shape sheet.nodes, WordFree row.text :=
  RuleTree.wordFree_row free

/-- **The first walk** scopes selectors and declared names, and records the latter. -/
theorem scopeRules_text (scheme : PlainScheme) (free : WordFree sheet.text)
    (joined : sheet.JoinsFreely) :
    ∃ next, scopeRules scheme.toScheme sheet.text {} =
        .ok (sheet.textWith (Leaf.scopedShape scheme), next) ∧
      (RuleTree.declaredOf scheme sheet.nodes).Known next.mapping := by
  obtain ⟨next, rows, added, -⟩ :=
    RuleTree.scope_rows scheme sheet.nodes (sheet.wordFree_row free) joined {}
  refine ⟨next, ?_, added.known⟩
  rw [scopeRules_eq, ← walk_shield, ← scopeRules_eq]
  exact RuleTree.scopeRules_level scheme ⟨sheet.lead, RuleTree.rowsWith Leaf.shape sheet.nodes⟩ {} rows

/-- **The second walk** scopes what refers to the declared names. -/
theorem renameReferences_text {scheme : PlainScheme} {mapping : Mapping}
    (known : (RuleTree.declaredOf scheme sheet.nodes).Known mapping) (free : WordFree sheet.text)
    (joined : sheet.JoinsFreely) :
    renameReferences scheme.switches mapping (sheet.textWith (Leaf.scopedShape scheme)) =
      sheet.scopedText scheme := by
  rw [renameReferences, scopedText]
  split
  next empty =>
    rw [Bool.and_eq_true] at empty
    rw [Leaf.renamedShape_of_none (known.keyframes.nil_of_isEmpty empty.1)
      (known.families.nil_of_isEmpty empty.2)]
  next =>
    obtain ⟨rows, -⟩ := RuleTree.rename_rows known sheet.nodes (sheet.wordFree_row free) joined
    rw [textWith, renameRules_level, rows]
    rfl

/-- **A whole pass scopes the tree.**  For a style sheet without comments in which joining the words
of an attribute value makes no mark, the css is the text of the tree in which every name is scoped
where it is declared, and where it is referred to, and nothing else is changed. -/
theorem scope_sheet (switches : Switches) {asterisk : Text}
    (plain : ∀ c ∈ asterisk, Plain.isNameChar c) (sheet : Sheet) (free : WordFree sheet.text)
    (uncommented : ¬ ['/', '*'] <:+: sheet.text) (joined : sheet.JoinsFreely) :
    (scope { switches, asteriskName := .literal asterisk } sheet.text).map Result.css =
      .ok (sheet.scopedText (.ofSource switches asterisk plain sheet.text)) := by
  obtain ⟨next, first, known⟩ :=
    sheet.scopeRules_text (.ofSource switches asterisk plain sheet.text) free joined
  have renamed := sheet.renameReferences_text known free joined
  have closed : openAtEnd (sheet.scopedText (.ofSource switches asterisk plain sheet.text)) = 0 :=
    openAtEnd_eq_zero (sheet.balanced_textWith _)
  have start : walked { switches, asteriskName := .literal asterisk } sheet.text = sheet.text := by
    show (Comment.extract sheet.text).text = _
    rw [Comment.extract_of_none uncommented]
  have css : (resultOf { switches, asteriskName := .literal asterisk } sheet.text
      (sheet.textWith (Leaf.scopedShape (.ofSource switches asterisk plain sheet.text))) next).css =
      sheet.scopedText (.ofSource switches asterisk plain sheet.text) := by
    show Block.close (Comment.restore (Comment.extract sheet.text).comments
      (renameReferences switches next.mapping _)) = _
    rw [Comment.extract_of_none uncommented, Comment.restore_nil]
    refine (congrArg Block.close renamed).trans ?_
    rw [Block.close, closed]
    exact List.append_nil _
  rw [scope_eq_map, start]
  show ((scopeRules (PlainScheme.ofSource switches asterisk plain sheet.text).toScheme sheet.text {}
    ).map _).map _ = _
  rw [first]
  exact congrArg Except.ok css

/-- A rule that refers to keyframes, which are declared after it, in a grouping rule. -/
def forward : Sheet where
  lead := .none
  nodes := [
    .leaf (.style
      { list := ⟨[.ofClass ⟨"a".toList, by simp, List.all_eq_true.1 (by decide)⟩], by simp⟩
        nonempty := by simp
        first := by simp [Plain.Item.isBlank]
        last := by simp [Plain.Item.isBlank]
        no_percent := by decide
        plain := by simp [Plain.Item.HasPlainValue] }
      { pieces := [.set
          { slot := .ofName ⟨"animation".toList, by simp, List.all_eq_true.1 (by decide)⟩
            value := .animation
              ⟨[⟨[.word "s".toList (by simp) (List.all_eq_true.1 (by decide))], by simp, rfl⟩], by simp⟩
            nonempty := by decide
            first := by rintro c ⟨⟩; rfl
            last := by rintro c ⟨⟩; rfl }]
        nonempty := by simp
        fits := by
          intro assignment mem
          cases List.mem_singleton.1 mem
          show "animation".toList <+: Text.lower "animation".toList
          decide }) .none .none,
    .group ⟨⟨"@media x".toList, by simp, by rintro c ⟨⟩; decide, by rintro c ⟨⟩; rfl,
        (Text.flat_of_plain (List.all_eq_true.1 (by decide))).1⟩, rfl⟩ (by decide) .none .none
      [.leaf (.keyframes ⟨"@keyframes".toList, by decide, .single, by simp [Spaces.single],
        "s".toList, by simp, List.all_eq_true.1 (by decide)⟩ ⟨[], .nil⟩) .none .none] .none]

/-- A reference before the declaration is scoped like one behind it. -/
theorem scope_forward : WordFree forward.text ∧ ¬ ['/', '*'] <:+: forward.text ∧
    forward.JoinsFreely ∧
    (scope { switches := {}, asteriskName := .literal "all".toList } forward.text).map Result.css =
      .ok (forward.scopedText (.ofSource {} "all".toList (List.all_eq_true.1 (by decide)) forward.text)) := by
  have text : forward.text = ".a{animation:s}@media x{@keyframes s{}}".toList := by decide +kernel
  have free : WordFree forward.text := by
    rw [text, WordFree]
    decide +kernel
  have uncommented : ¬ ['/', '*'] <:+: forward.text := by
    rw [text]
    decide +kernel
  have joined : forward.JoinsFreely := by
    intro l mem
    simp only [forward, RuleTree.leavesOf, RuleTree.leaves, List.cons_append, List.nil_append,
      List.append_nil, List.mem_cons, List.not_mem_nil, or_false] at mem
    rcases mem with rfl | rfl
    · simp [Leaf.JoinsFreely, PlainSelector.JoinsFreely, Plain.Item.JoinsFreely]
    · trivial
  exact ⟨free, uncommented, joined,
    scope_sheet {} (List.all_eq_true.1 (by decide)) forward free uncommented joined⟩

/-- A rule whose selector has the words `SEMI IN PLACEHOLDER` between two colons. -/
def colliding : Sheet where
  lead := .none
  nodes := [.leaf (.style
    { list := ⟨[.attr
        { lead := [], name := ⟨"class".toList, by simp, List.all_eq_true.1 (by decide)⟩, gap := []
          comparison := some
            { operator := none, lead := [], quote := some '"'
              value := ":SEMI IN PLACEHOLDER:".toList, back := []
              isOperator := by simp
              lead_spaces := Spaces.none.isSpace
              isQuote := by rintro c ⟨⟩; rfl
              value_chars := List.all_eq_true.1 (by decide)
              back_spaces := Spaces.none.isSpace
              bare := by simp }
          lead_spaces := Spaces.none.isSpace
          gap_spaces := Spaces.none.isSpace }], by simp⟩
      nonempty := by simp
      first := by simp [Plain.Item.isBlank]
      last := by simp [Plain.Item.isBlank]
      no_percent := by decide
      plain := by simp [Plain.Item.HasPlainValue] }
    { pieces := [.blank .none]
      nonempty := by simp
      fits := by simp }) .none .none]

/-- Not every sheet is scoped as a tree: here joining the words of the value makes a mark of the
percent signs of two others, and it is unshielded first. -/
theorem not_scope_colliding : WordFree colliding.text ∧ ¬ ['/', '*'] <:+: colliding.text ∧
    (scope {} colliding.text).map Result.css ≠
      .ok (colliding.scopedText (.ofSource {} "__asterisk".toList
        (List.all_eq_true.1 (by decide)) colliding.text)) := by
  have text : colliding.text = "[class=\":SEMI IN PLACEHOLDER:\"]\x7b\x7d".toList := by decide +kernel
  refine ⟨?_, ?_, ?_⟩
  · rw [text, WordFree]
    decide +kernel
  · rw [text]
    decide +kernel
  · decide +kernel

end Sheet

end ScopedCss
