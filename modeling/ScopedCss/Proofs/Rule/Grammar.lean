import ScopedCss.Proofs.Rule.CommentedRules
import ScopedCss.Proofs.Rule.Rows

/-!
# The grammar of rules

A style sheet is a series of items: spaces and comments, a prelude, a gap, and then `;` or a block, of
which the last may lack its brace.  A walk reads it just so, and visits every item once, in order
(`walk_series`).

What leads up to an item starts with spaces that the frame of a block before it has taken along.  So the
items are not scanned one by one: the scan of a series starts behind some of its spaces, and the frame of
a block reaches over the spaces behind it (`scan_cutText`).
-/
namespace ScopedCss

open Quoted Block ScopedCss.Frame

/-! ### Spaces and comments -/

namespace Frame.Filler
variable {t : Text}

/-- Filler consists of spaces and of characters that marks are written with. -/
theorem isSpace_or_isMarkChar (fill : Filler t) :
    ∀ c ∈ t, Text.isSpace c ∨ Mark.isMarkChar c := by
  induction fill with
  | nil => exact nofun
  | space space _ ih => exact List.forall_mem_cons.2 ⟨.inl space, ih⟩
  | comment _ ih =>
    exact List.forall_mem_append.2 ⟨fun c mem => .inr (Mark.isMarkChar_of_mem_comment mem), ih⟩

theorem not_mem (fill : Filler t) {c : Char} (solid : Text.isSpace c = false)
    (foreign : Mark.isMarkChar c = false) : c ∉ t := by
  intro mem
  rcases fill.isSpace_or_isMarkChar c mem with space | mark
  · rw [solid] at space
    cases space
  · rw [foreign] at mark
    cases mark

theorem unquoted (fill : Filler t) : ∀ c ∈ t, Text.isQuote c = false := by
  intro c mem
  by_contra quote
  rw [Bool.not_eq_false] at quote
  simp only [Text.isQuote, Bool.or_eq_true, beq_iff_eq] at quote
  rcases quote with rfl | rfl <;> exact fill.not_mem rfl rfl mem

theorem clean (fill : Filler t) : '\\' ∉ t := fill.not_mem rfl rfl

theorem shield_eq (fill : Filler t) : shield t = t := shield_of_no_quote fill.unquoted fill.clean

theorem closed (fill : Filler t) : Closed t := closed_of_no_quote fill.unquoted fill.clean

/-- Filler without the spaces at its front is filler. -/
theorem trimStart (fill : Filler t) : Filler (Text.trimStart t) := by
  induction fill with
  | nil => exact .nil
  | @space c t space fill ih =>
    rw [Text.trimStart, List.dropWhile_cons_of_pos space]
    exact ih
  | @comment t fill ih => exact .comment fill

end Frame.Filler

/-! ### Series of items -/

/-- What stands in an item before its `;` or its block. -/
structure Heading where
  /-- Spaces and comments. -/
  lead : Text
  filler : Filler lead
  prelude : Prelude
  gap : Spaces

/-- An item with a rule in its place. -/
def Heading.around (heading : Heading) (ending : Ending) (rule : Rule) : Text :=
  heading.lead ++ (rule.selector ++ (heading.gap.text ++ ending.around rule.content))

/-- Items one after the other. -/
inductive Series where
  | nil
  /-- An item whose block lacks its brace is the last. -/
  | unclosed (heading : Heading) (body : Body)
  /-- An item with a block, or else with a `;`. -/
  | cons (heading : Heading) (block : Option Body) (rest : Series)

namespace Series

/-- How an item ends that is not cut off. -/
def endingOf : Option Body → Ending
  | none => .statement
  | some _ => .block ['}']

/-- What an item has for its content. -/
def contentOf : Option Body → Text
  | none => []
  | some body => body.text

/-- The items as rules: each prelude with the content of its block. -/
def items : Series → List Rule
  | nil => []
  | unclosed heading body => [⟨heading.prelude.text, body.text⟩]
  | cons heading block rest =>
    ⟨heading.prelude.text, contentOf block⟩ :: rest.items

/-- The characters of a series with rules in the places of its items, first for first. -/
def textWith : Series → List Rule → Text
  | unclosed heading _, rule :: _ => heading.around (.block []) rule
  | cons heading block rest, rule :: rules =>
    heading.around (endingOf block) rule ++ rest.textWith rules
  | _, _ => []

/-- The characters of a series. -/
def text (s : Series) : Text := s.textWith s.items

/-- The rules of a series: its items with their strings shielded. -/
def rules (s : Series) : List Rule := s.items.map fun rule => ⟨shield rule.selector, shield rule.content⟩

/-- The contents of the blocks of a series, with their strings shielded. -/
def blocks : Series → List Text
  | nil => []
  | unclosed _ body => [shield body.text]
  | cons _ block rest => (block.map fun body => shield body.text).toList ++ rest.blocks

/-- The rules of a series with marks in place of the contents of their blocks. -/
def cutRules : Series → List Rule
  | nil => []
  | unclosed heading _ => [⟨shield heading.prelude.text, Mark.block⟩]
  | cons heading block rest => ⟨shield heading.prelude.text, (endingOf block).content⟩ :: rest.cutRules

/-- The characters of a series once its blocks are cut out. -/
def cutText (s : Series) : Text := s.textWith s.cutRules

end Series

/-! ### Shielding and cutting -/

namespace Heading
variable (heading : Heading)

/-- Shielding reaches the prelude of an item, and goes on behind the gap. -/
theorem shield_append (t : Text) :
    shield (heading.lead ++ (heading.prelude.text ++ (heading.gap.text ++ t))) =
      heading.lead ++ (shield heading.prelude.text ++ (heading.gap.text ++ shield t)) := by
  rw [Quoted.shield_append heading.filler.closed, Quoted.shield_append heading.prelude.flat.closed,
    Quoted.shield_append heading.gap.flat.closed, heading.filler.shield_eq, heading.gap.shield_eq]

/-- Nothing is cut out before the gap of an item ends. -/
theorem cut_append (t : Text) :
    (cut (heading.lead ++ (shield heading.prelude.text ++ (heading.gap.text ++ t)))).text =
        heading.lead ++ (shield heading.prelude.text ++ (heading.gap.text ++ (cut t).text)) ∧
      (cut (heading.lead ++ (shield heading.prelude.text ++ (heading.gap.text ++ t)))).blocks =
        (cut t).blocks := by
  have lead (t : Text) := cutFrom_append_of_no_brace heading.filler.clean
    (fun c mem same => heading.filler.not_mem (c := '{') rfl rfl (same ▸ mem)) t
  have prelude (t : Text) := cutFrom_append_of_no_brace
    (no_backslash_shield heading.prelude.flat.closed.no_backslash)
    (fun c mem => (no_brace (heading.prelude.flat.plain c mem)).1) t
  have gap (t : Text) := cutFrom_append_of_no_brace (heading.gap.not_mem (c := '\\') rfl)
    (fun c mem same => heading.gap.not_mem (c := '{') rfl (same ▸ mem)) t
  rw [(lead _).1, (lead _).2, (prelude _).1, (prelude _).2, (gap _).1, (gap _).2]
  exact ⟨rfl, rfl⟩

end Heading

namespace Series

/-- The content of a block is cut out, and a `;` stays. -/
theorem cut_ending (block : Option Body) (t : Text) :
    (cut (shield ((endingOf block).around (contentOf block) ++ t))).text =
        (endingOf block).around (endingOf block).content ++ (cut (shield t)).text ∧
      (cut (shield ((endingOf block).around (contentOf block) ++ t))).blocks =
        (block.map fun body => shield body.text).toList ++ (cut (shield t)).blocks := by
  cases block with
  | none =>
    have semicolon := Row.flat_singleton (c := ';') rfl (by decide)
    have shielded : shield (';' :: t) = [';'] ++ shield t := by
      conv => rhs; rw [← semicolon.2]
      exact Quoted.shield_append semicolon.1 t
    have plain := cutFrom_append_of_no_brace (s := [';']) (by decide)
      (fun c mem => by rw [List.mem_singleton.1 mem]; decide) (shield t)
    show (cut (shield (';' :: t))).text = _ ∧ _
    rw [shielded]
    exact plain
  | some body =>
    have shielded : shield ('{' :: (body.text ++ '}' :: t)) =
        '{' :: (shield body.text ++ '}' :: shield t) := by
      have opens : shield ('{' :: (body.text ++ '}' :: t)) = '{' :: shield (body.text ++ '}' :: t) := rfl
      rw [opens, Quoted.shield_append body.balanced.closed]
      rfl
    have block := cut_block body.balanced (shield t)
    rw [← shielded] at block
    simpa [endingOf, contentOf, Ending.around, Ending.content] using block

/-- A block that lacks its brace is cut out up to the end. -/
theorem cut_unclosed (body : Body) :
    (cut (shield ((Ending.block []).around body.text))).text = (Ending.block []).around Mark.block ∧
      (cut (shield ((Ending.block []).around body.text))).blocks = [shield body.text] := by
  have opens : shield ((Ending.block []).around body.text) = '{' :: shield body.text := by
    simp only [Ending.around, List.append_nil]
    rfl
  have inside := cutFrom_append (no_backslash_shield body.balanced.closed.no_backslash)
    body.balanced.even []
  rw [List.append_nil] at inside
  have cuts : cut ('{' :: shield body.text) =
      ⟨[], '{' :: (cutFrom 1 (shield body.text)).text, (cutFrom 1 (shield body.text)).inside ::
        (cutFrom 1 (shield body.text)).blocks⟩ := by
    rw [cut, cutFrom, if_pos rfl]
    exact fun _ _ same => absurd same (by decide)
  rw [opens, cuts, inside]
  simp [cutFrom, Ending.around]

/-- A series once its strings are shielded and its blocks are cut out. -/
theorem cut_shield_text (s : Series) :
    (cut (shield s.text)).text = s.cutText ∧ (cut (shield s.text)).blocks = s.blocks := by
  induction s with
  | nil => exact ⟨rfl, rfl⟩
  | unclosed heading body =>
    have text : text (unclosed heading body) = heading.lead ++ (heading.prelude.text ++
        (heading.gap.text ++ (Ending.block []).around body.text)) := rfl
    rw [text, heading.shield_append, (heading.cut_append _).1, (heading.cut_append _).2,
      (cut_unclosed body).1, (cut_unclosed body).2]
    exact ⟨rfl, rfl⟩
  | cons heading block rest ih =>
    have text : text (cons heading block rest) = heading.lead ++ (heading.prelude.text ++
        (heading.gap.text ++ ((endingOf block).around (contentOf block) ++ rest.text))) := by
      simp [Series.text, items, textWith, Heading.around]
    rw [text, heading.shield_append, (heading.cut_append _).1, (heading.cut_append _).2,
      (cut_ending block rest.text).1, (cut_ending block rest.text).2, ih.1, ih.2]
    exact ⟨by simp [cutText, cutRules, textWith, Heading.around], rfl⟩

end Series

/-! ### Scanning -/

theorem Text.trimStart_append_of_solid {s t : Text}
    (solid : ∀ c ∈ t.head?, Text.isSpace c = false) :
    Text.trimStart (s ++ t) = Text.trimStart s ++ t := by
  have stays : t.dropWhile Text.isSpace = t := by
    cases t with
    | nil => rfl
    | cons c t => exact List.dropWhile_cons_of_neg (by simp [solid c rfl])
  rw [Text.trimStart, Text.trimStart, List.dropWhile_append, stays]
  split
  next empty => rw [List.isEmpty_iff.1 empty, List.nil_append]
  next => rfl

namespace Heading
variable (heading : Heading) {spaces lead t u : Text}

/-- A series starts with the first prelude behind its lead, even if some of the spaces before that are
gone. -/
theorem exists_lead (split : spaces ++ t = heading.lead ++ (shield heading.prelude.text ++ u))
    (taken : spaces = [] ∨ t = Text.trimStart (heading.lead ++ (shield heading.prelude.text ++ u))) :
    ∃ lead, heading.lead = spaces ++ lead ∧ Filler lead ∧
      t = lead ++ (shield heading.prelude.text ++ u) := by
  rcases taken with rfl | rfl
  · exact ⟨heading.lead, rfl, heading.filler, split⟩
  · -- Only spaces of the lead can be gone: the prelude starts with none.
    have solid : ∀ c ∈ (shield heading.prelude.text ++ u).head?, Text.isSpace c = false := by
      rw [List.head?_append_of_ne_nil _ heading.prelude.shield_ne_nil]
      exact fun c mem => (heading.prelude.first_shield c mem).1
    have trimmed := Text.trimStart_append_of_solid (s := heading.lead) solid
    rw [trimmed, ← List.append_assoc] at split
    exact ⟨Text.trimStart heading.lead, (List.append_cancel_right split).symm,
      heading.filler.trimStart, trimmed⟩

/-- The frame of an item is read off what leads up to it, its prelude and its gap. -/
theorem read_append (fill : Filler lead) {e : Char} (structural : isStructural e) {v : Text}
    {ending : Ending} (h : readEnding (e :: v) = some ending) :
    Frame.read (lead ++ (shield heading.prelude.text ++ (heading.gap.text ++ e :: v))) =
      some ⟨lead, shield heading.prelude.text, heading.gap.text, ending⟩ := by
  have nonempty := heading.prelude.shield_ne_nil
  have first : ∀ c ∈ (shield heading.prelude.text).head?, Text.isSpace c = false ∧ c ≠ '%' :=
    fun c mem => ⟨(heading.prelude.first_shield c mem).1, (heading.prelude.first_shield c mem).2.1⟩
  have noSpaces : ∀ c ∈ ([] : Text), Text.isSpace c := nofun
  have alone : splitRun (shield heading.prelude.text ++ heading.gap.text) =
      ([], shield heading.prelude.text, heading.gap.text) :=
    splitRun_append_prelude noSpaces first heading.prelude.last_shield nonempty heading.gap.isSpace
  have ink : Frame.filler ([] ++ (shield heading.prelude.text ++ heading.gap.text)) = [] := by
    refine filler_append noSpaces ?_ (by simp [nonempty])
    show ∀ c ∈ (shield heading.prelude.text ++ heading.gap.text).head?, _
    rw [List.head?_append_of_ne_nil _ nonempty]
    exact first
  have more : Frame.filler (shield heading.prelude.text ++ heading.gap.text) ≠
      shield heading.prelude.text ++ heading.gap.text := by
    rw [List.nil_append] at ink
    rw [ink]
    exact fun empty => nonempty (List.append_eq_nil_iff.1 empty.symm).1
  have cut : splitRun (lead ++ (shield heading.prelude.text ++ heading.gap.text)) =
      (lead, shield heading.prelude.text, heading.gap.text) := by
    rw [splitRun_filler_append fill more, alone, List.append_nil]
  have solid : ∀ c ∈ lead ++ (shield heading.prelude.text ++ heading.gap.text),
      isStructural c = false := by
    refine List.forall_mem_append.2 ⟨fill.solid, List.forall_mem_append.2 ⟨?_, ?_⟩⟩
    · exact heading.prelude.flat.plain
    · exact fun c mem => isStructural_of_isSpace (heading.gap.isSpace c mem)
  have whole : lead ++ (shield heading.prelude.text ++ (heading.gap.text ++ e :: v)) =
      (lead ++ (shield heading.prelude.text ++ heading.gap.text)) ++ e :: v := by simp
  rw [whole, read_run (by simp [nonempty]) solid structural, h, Option.map_some, ofRun, cut]

/-- An item makes one frame, up to where its ending ends. -/
theorem scan_append (fill : Filler lead) {e : Char} (structural : isStructural e) {v : Text}
    {ending : Ending} (h : readEnding (e :: v) = some ending) (rest : Text)
    (ends : e :: v = ending.around ending.content ++ rest) :
    recogniser.scan (lead ++ (shield heading.prelude.text ++ (heading.gap.text ++ e :: v))) =
      .hit ⟨lead, shield heading.prelude.text, heading.gap.text, ending⟩ ::
        recogniser.scan rest := by
  have read := heading.read_append fill structural h
  have spelled : lead ++ (shield heading.prelude.text ++ (heading.gap.text ++ e :: v)) =
      Frame.spell ⟨lead, shield heading.prelude.text, heading.gap.text, ending⟩ ++ rest := by
    simp [ends, Frame.spell, Frame.around]
  rw [spelled] at read ⊢
  exact Recogniser.scan_spell_append read

end Heading

namespace Series

/-- No item starts with a `;` that could be taken for that of the block before it. -/
theorem head_trimStart (s : Series) : (Text.trimStart s.cutText).head? ≠ some ';' := by
  have item (heading : Heading) (u : Text) :
      (Text.trimStart (heading.lead ++ (shield heading.prelude.text ++ u))).head? ≠ some ';' := by
    obtain ⟨lead, -, fill, same⟩ := heading.exists_lead (Text.trimStart_append _) (.inr rfl)
    have solid : ∀ c ∈ lead ++ shield heading.prelude.text, isStructural c = false :=
      List.forall_mem_append.2 ⟨fill.solid, heading.prelude.flat.plain⟩
    intro found
    rw [same, ← List.append_assoc,
      List.head?_append_of_ne_nil _ (by simp [heading.prelude.shield_ne_nil])] at found
    exact absurd (solid ';' (List.mem_of_mem_head? found)) (by decide)
  cases s with
  | nil => exact nofun
  | unclosed heading body => exact item heading _
  | cons heading block rest =>
    simpa [cutText, cutRules, textWith, Heading.around] using item heading
      (heading.gap.text ++ ((endingOf block).around (endingOf block).content ++ rest.cutText))

/-- What is left of a series behind some of its spaces is scanned to segments to which the rules of the
series are dealt, and what fills them makes up the series with these spaces. -/
structure Matches (s : Series) (spaces : Text) (segments : List (Segment Frame)) : Prop where
  deal : Outline.deal segments s.blocks = s.rules
  fill : ∀ rules : List Rule, rules.length = s.items.length →
    spaces ++ Outline.fill segments rules = s.textWith rules

/-- The frame of an item goes in front of what the rest is scanned to.  The ending in the frame reaches
over the spaces that are taken from the rest. -/
theorem Matches.cons {heading : Heading} {block : Option Body} {rest : Series}
    {spaces lead taken : Text} {ending : Ending} {segments : List (Segment Frame)}
    (later : Matches rest taken segments) (leads : heading.lead = spaces ++ lead)
    (deal : Outline.deal
        (.hit ⟨lead, shield heading.prelude.text, heading.gap.text, ending⟩ :: segments)
        (Series.cons heading block rest).blocks = (Series.cons heading block rest).rules)
    (reach : ∀ content u, ending.around content ++ u = (endingOf block).around content ++ (taken ++ u)) :
    Matches (Series.cons heading block rest) spaces
      (.hit ⟨lead, shield heading.prelude.text, heading.gap.text, ending⟩ :: segments) := by
  refine ⟨deal, fun rules size => ?_⟩
  cases rules with
  | nil => cases size
  | cons rule rules =>
    have whole := reach rule.content (Outline.fill segments rules)
    rw [later.fill rules (Nat.succ.inj size)] at whole
    simp only [textWith, Outline.fill, around, Heading.around, leads, List.append_assoc, whole]

/-- **A series is scanned item by item.**  Each block takes the spaces behind it into its frame. -/
theorem scan_cutText (s : Series) {spaces t : Text} (split : spaces ++ t = s.cutText)
    (taken : spaces = [] ∨ t = Text.trimStart s.cutText) :
    Matches s spaces (recogniser.scan t) := by
  induction s generalizing spaces t with
  | nil =>
    obtain ⟨rfl, rfl⟩ := List.append_eq_nil_iff.1 split
    exact ⟨rfl, fun rules _ => rfl⟩
  | unclosed heading body =>
    have text : cutText (unclosed heading body) = heading.lead ++ (shield heading.prelude.text ++
        (heading.gap.text ++ '{' :: Mark.block)) := by
      simp [cutText, cutRules, textWith, Heading.around, Ending.around]
    rw [text] at split taken
    obtain ⟨lead, leads, fill, rfl⟩ := heading.exists_lead split taken
    have ends : readEnding ('{' :: Mark.block) = some (.block []) := rfl
    rw [heading.scan_append fill rfl ends [] rfl]
    refine ⟨rfl, fun rules size => ?_⟩
    obtain ⟨rule, rfl⟩ := List.length_eq_one_iff.1 size
    simp [Outline.fill, around, textWith, Heading.around, leads]
  | cons heading block rest ih =>
    have text : cutText (cons heading block rest) = heading.lead ++ (shield heading.prelude.text ++
        (heading.gap.text ++ ((endingOf block).around (endingOf block).content ++ rest.cutText))) := by
      simp [cutText, cutRules, textWith, Heading.around]
    rw [text] at split taken
    obtain ⟨lead, leads, fill, rfl⟩ := heading.exists_lead split taken
    cases block with
    | none =>
      -- The frame of a statement ends with the `;`, and the rest is scanned with all its spaces.
      have ends : readEnding (';' :: rest.cutText) = some .statement := rfl
      have later := ih (List.nil_append rest.cutText) (.inl rfl)
      have scan := heading.scan_append fill rfl ends rest.cutText rfl
      rw [show (endingOf none).around (endingOf none).content ++ rest.cutText = ';' :: rest.cutText from rfl,
        scan]
      exact later.cons leads (congrArg (List.cons _) later.deal) fun _ _ => rfl
    | some body =>
      -- The frame of a block reaches over the spaces behind its brace, as no `;` follows them.
      have later := ih (Text.trimStart_append rest.cutText) (.inr rfl)
      have closes := (past_of_not_semicolon rest.head_trimStart).1
      have ends : readEnding ('{' :: (Mark.block ++ '}' :: rest.cutText)) =
          some (.block ('}' :: Text.leading rest.cutText)) := by
        rw [← closes]
        rfl
      have whole : '{' :: (Mark.block ++ '}' :: rest.cutText) =
          (Ending.block ('}' :: Text.leading rest.cutText)).around Mark.block ++
            Text.trimStart rest.cutText := by
        simp [Ending.around, Text.trimStart_append]
      have scan := heading.scan_append fill rfl ends (Text.trimStart rest.cutText) whole
      have spelled : (endingOf (some body)).around (endingOf (some body)).content ++ rest.cutText =
          '{' :: (Mark.block ++ '}' :: rest.cutText) := by
        simp [endingOf, Ending.around, Ending.content]
      rw [spelled, scan]
      refine later.cons leads (congrArg (List.cons _) later.deal) fun content u => ?_
      simp [endingOf, Ending.around]

/-- The rules of a series are those of its items, and other rules take their places. -/
theorem outline_text (s : Series) : rulesOf s.text = s.rules ∧
    ∀ rules : List Rule, rules.length = s.items.length →
      (Outline.ofText s.text).withRules rules = unshield (s.textWith rules) := by
  obtain ⟨text, blocks⟩ := s.cut_shield_text
  have outline : Outline.ofText s.text = ⟨recogniser.scan s.cutText, s.blocks⟩ := by
    rw [Outline.ofText, text, blocks]
  have all := s.scan_cutText (List.nil_append s.cutText) (.inl rfl)
  rw [rulesOf, outline]
  exact ⟨all.deal, fun rules size => congrArg unshield (all.fill rules size)⟩

/-- **The grammar of rules.**  A walk through a series of items visits each item once, in order: its
prelude and its content, with their strings shielded.  It puts what comes back in their places, leaves
everything else, and unshields the text. -/
theorem walk_series {m : Type → Type} [Monad m] [LawfulMonad m] (visit : Rule → m Rule) (s : Series) :
    walk visit s.text = (do
      let rules ← s.rules.mapM visit
      return unshield (s.textWith rules)) := by
  obtain ⟨rules, withRules⟩ := s.outline_text
  rw [walk, rules]
  refine mapM_bind_congr fun results size => ?_
  rw [withRules results (size.trans (List.length_map _))]

/-- Whether a text is flat can be computed. -/
theorem flat_of_all {t : Text} (closed : Closed t)
    (all : (shield t).all fun c => !Frame.isStructural c) : Flat t :=
  ⟨closed, by simpa using List.all_eq_true.1 all⟩

/-- A rule behind a comment, with a brace in a string, then a statement, then a rule that is never
closed. -/
def mixedItems : Series :=
  .cons
    { lead := ' ' :: Mark.comment
      filler := .space rfl (.comment .nil)
      prelude :=
        { text := "a[b='\x7d']".toList
          nonempty := by decide
          first := by rintro c ⟨⟩; decide
          last := by rintro c ⟨⟩; rfl
          flat := flat_of_all ⟨by decide, rfl⟩ (by decide) }
      gap := .none }
    (some ⟨"x\x7b\x7d".toList, ⟨⟨by decide, rfl⟩, rfl⟩⟩)
    (.cons
      { lead := ['\n']
        filler := .space rfl .nil
        prelude :=
          { text := "@b".toList
            nonempty := by decide
            first := by rintro c ⟨⟩; decide
            last := by rintro c ⟨⟩; rfl
            flat := flat_of_all ⟨by decide, rfl⟩ (by decide) }
        gap := .single }
      none
      (.unclosed
        { lead := []
          filler := .nil
          prelude :=
            { text := "c".toList
              nonempty := by decide
              first := by rintro c ⟨⟩; decide
              last := by rintro c ⟨⟩; rfl
              flat := flat_of_all ⟨by decide, rfl⟩ (by decide) }
          gap := .none }
        ⟨"y".toList, ⟨⟨by decide, rfl⟩, rfl⟩⟩))

/-- A visitor that notes the rules it is shown, and writes a dot before their selectors. -/
def noteAndDot (rule : Rule) : StateM (List Rule) Rule := do
  modify (· ++ [rule])
  return { rule with selector := '.' :: rule.selector }

theorem walk_series_mixedItems :
    mixedItems.text = " %COMMENT%a[b='\x7d']\x7bx\x7b\x7d\x7d\n@b ;c\x7by".toList ∧
      Id.run ((walk noteAndDot mixedItems.text).run []) =
        (" %COMMENT%.a[b='\x7d']\x7bx\x7b\x7d\x7d\n.@b ;.c\x7by".toList,
          [⟨"a[b='%CLOSE_BRACE_IN_PLACEHOLDER%']".toList, "x\x7b\x7d".toList⟩, ⟨"@b".toList, []⟩,
            ⟨"c".toList, "y".toList⟩]) := by
  refine ⟨by decide, ?_⟩
  rw [walk_series]
  decide +kernel

end Series
end ScopedCss
