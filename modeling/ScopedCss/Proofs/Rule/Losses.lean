import ScopedCss.Proofs.Rule.Frames
import ScopedCss.Proofs.Rule.Layout
import ScopedCss.Proofs.Text.Shielding
import ScopedCss.Rule.Walk

/-!
# What a walk loses

A walk finds the blocks of a text with one scanner and puts them back with another, which deals them
to frames by order alone.  It loses nothing if every block has a frame, and no frame has a block that
is none.

A block has a frame unless it is *bare*: unless nothing stands between it and the `;` or the brace
before it, spaces behind a block apart.  For these belong to the frame of that block.  And a frame
has a block that is none only if the text reads like the opening of a cut block somewhere outside of
blocks, which takes an escaped brace.  So `losesNothing_iff` says exactly when nothing is lost.
-/
namespace ScopedCss

open Quoted Block ScopedCss.Frame

/-! ### Blocks and what stands before them -/

namespace Block

/-- Nothing stands between a block and the structural character before it. -/
def Bare (before : Text) : Prop := ∀ c ∈ before.getLast?, isStructural c

instance (before : Text) : Decidable (Bare before) :=
  decidable_of_iff (before.getLast?.all isStructural) (Option.all_eq_true ..)

namespace Layout

/-- Each block's content with what stands before the block: up to the block before it, without the
brace that closes that one and the spaces behind the brace. -/
def placesFrom (before : Text) : List (Text × Text) → List (Text × Text)
  | [] => []
  | (content, behind) :: blocks =>
    (before, content) :: placesFrom (Text.trimStart behind.tail) blocks

/-- The blocks of a text, each with what stands before it. -/
def places (layout : Layout) : List (Text × Text) := placesFrom layout.front layout.blocks

/-- What stands outside blocks does not read like the opening of a block that was cut out. -/
structure Unspoiled (layout : Layout) : Prop where
  front : ¬ opening <:+: layout.front
  behind : ∀ block ∈ layout.blocks, ¬ opening <:+: block.2

end Layout
end Block

namespace Outline

/-- The rules that have a block, in order, with the contents dealt to them. -/
def dealBlocks : List (Segment Frame) → List Text → List Rule
  | [], _ => []
  | .plain _ :: segments, blocks => dealBlocks segments blocks
  | .hit frame :: segments, blocks =>
    match frame.ending with
    | .statement => dealBlocks segments blocks
    | .block _ => ⟨frame.selector, blocks.headD []⟩ :: dealBlocks segments blocks.tail

/-- The rules of the text that have a block. -/
def blockRules (outline : Outline) : List Rule := dealBlocks outline.segments outline.blocks

/-- They are rules of the text. -/
theorem dealBlocks_sublist (segments : List (Segment Frame)) (blocks : List Text) :
    (dealBlocks segments blocks).Sublist (deal segments blocks) := by
  fun_induction deal segments blocks with
  | case1 => exact .slnil
  | case2 c segments blocks ih => exact ih
  | case3 frame segments blocks statement ih =>
    rw [dealBlocks, statement]
    exact ih.cons _
  | case4 frame segments blocks closing block ih =>
    rw [dealBlocks, block]
    exact ih.cons_cons _

end Outline

/-- A block is handed over with its content and with the selector that directly precedes it. -/
structure HandedOver (rule : Rule) (place : Text × Text) : Prop where
  selector : Precedes rule.selector place.1
  content : rule.content = place.2

/-- What it means that a walk loses nothing: with rules that are left as they are the text stays as
it is, and the rules with a block are handed over one for each block of the text, in order. -/
structure LosesNothing (t : Text) : Prop where
  unchanged : Id.run (walk pure t) = t
  handedOver :
    List.Forall₂ HandedOver (Outline.ofText t).blockRules (layout (shield t)).places

/-! ### Openings outside blocks -/

/-- What starts with a brace does not start in a text without one. -/
theorem infix_of_infix_append {w s t : Text} (clean : '{' ∉ s) (inside : '{' :: w <:+: s ++ t) :
    '{' :: w <:+: t := by
  induction s with
  | nil => exact inside
  | cons c s ih =>
    rcases List.infix_cons_iff.1 inside with front | later
    · exact absurd ((List.cons_prefix_cons.1 front).1 ▸ List.mem_cons_self) clean
    · exact ih (fun mem => clean (List.mem_cons_of_mem c mem)) later

/-- The names of the other marks start with other letters. -/
theorem Mark.not_block_prefix {c : Char} (known : c ∈ chars) (t : Text) :
    ¬ block <+: ofChar c ++ t := by
  rintro ⟨rest, same⟩
  rcases mem_chars.1 known with rfl | rfl | rfl | rfl | rfl <;> cases same

/-- An opening in cells comes from an escaped brace, a percent sign and the word of the mark. -/
theorem opening_spell {cells : List (Char × Bool)} (inside : opening <:+: spell Mark.chars cells) :
    "\x7b%BLOCK".toList <:+: cells.map Prod.fst := by
  induction cells with
  | nil => exact absurd (List.infix_nil.1 inside) (by decide)
  | cons cell cells ih =>
    have later (inside : opening <:+: spell Mark.chars cells) :
        "\x7b%BLOCK".toList <:+: (cell :: cells).map Prod.fst :=
      (ih inside).trans (List.suffix_cons _ _).isInfix
    rcases spell_cons Mark.chars cell cells with ⟨plain, -⟩ | ⟨known, -, -, marked⟩
    · rw [plain] at inside
      rcases List.infix_cons_iff.1 inside with front | inside
      · obtain ⟨brace, front⟩ := List.cons_prefix_cons.1 front
        cases cells with
        | nil => exact absurd (List.prefix_nil.1 front) (by decide)
        | cons next cells =>
          rcases spell_cons Mark.chars next cells with ⟨plain, -⟩ | ⟨known, -, -, marked⟩
          · rw [plain] at front
            obtain ⟨percent, front⟩ := List.cons_prefix_cons.1 front
            have word : "BLOCK".toList <+: spell Mark.chars cells :=
              (List.IsPrefix.trans ⟨['%'], rfl⟩ front)
            have letters := prefix_of_prefix_spell (by decide) word
            rw [List.map_cons, List.map_cons, ← brace, ← percent]
            exact (List.cons_prefix_cons.2 ⟨rfl, List.cons_prefix_cons.2 ⟨rfl, letters⟩⟩).isInfix
          · rw [marked] at front
            exact absurd front (Mark.not_block_prefix known _)
      · exact later inside
    · rw [marked] at inside
      refine later (infix_of_infix_append (fun mem => ?_) inside)
      cases Mark.isMarkChar_of_mem known mem

/-- A text in which no brace stands before the word of the mark is unspoiled. -/
theorem Block.Layout.unspoiled_of_absent {t : Text} (absent : ¬ "\x7b%BLOCK".toList <:+: t) :
    (layout (shield t)).Unspoiled := by
  have whole : ¬ opening <:+: shield t := by
    rw [shield, ← spell_cellsFrom]
    intro inside
    have text := opening_spell inside
    rw [map_fst_cellsFrom] at text
    exact absent text
  have text := text_layout (shield t)
  refine ⟨fun found => whole ?_, fun block mem found => whole ?_⟩
  · rw [← text]
    exact found.trans (List.prefix_append _ _).isInfix
  · -- What stands behind a block is a part of the row of blocks.
    have part : block.2 <:+: Layout.rowWith id (layout (shield t)).blocks := by
      refine List.IsInfix.trans ?_ (List.infix_of_mem_flatten (List.mem_map_of_mem mem))
      exact ⟨'{' :: block.1, [], by simp⟩
    rw [← text]
    exact found.trans (part.trans (List.suffix_append _ _).isInfix)

/-! ### Bare blocks -/

namespace Block

/-- A block that a selector precedes is not bare. -/
theorem not_bare_of_precedes {selector before : Text} (h : Precedes selector before) :
    ¬ Bare before := by
  obtain ⟨front, lead, gap, rfl, -, -, spaces⟩ := h.placed
  intro bare
  have tail : selector ++ gap ≠ [] := by simp [h.nonempty]
  have solid : ∀ c ∈ selector ++ gap, isStructural c = false := fun c mem =>
    (List.mem_append.1 mem).elim (h.solid c) fun mem => isStructural_of_isSpace (spaces c mem)
  have structural := bare ((selector ++ gap).getLast tail) (by
    rw [← List.append_assoc, List.getLast?_append_of_ne_nil _ tail,
      List.getLast?_eq_some_getLast tail]
    rfl)
  rw [solid _ (List.getLast_mem tail)] at structural
  cases structural

/-! ### What closes a block -/

/-- The text behind what closes a block. -/
def past (behind : Text) : Text := behind.drop (closing behind).length

theorem closing_append_past (behind : Text) : closing behind ++ past behind = behind :=
  List.prefix_iff_eq_append.1 (closing_front behind)

/-- What closes a block does not depend on the next one. -/
theorem closing_append_opening (behind : Text) {t : Text} (next : ∀ c ∈ t.head?, c = '{') :
    closing (behind ++ t) = closing behind := by
  have rest (s : Text) : Text.leading (s ++ t) = Text.leading s ∧
      ((Text.trimStart (s ++ t)).head? = some ';' ↔ (Text.trimStart s).head? = some ';') := by
    induction s with
    | nil =>
      cases t with
      | nil => exact ⟨rfl, Iff.rfl⟩
      | cons c t =>
        obtain rfl : c = '{' := next c rfl
        exact ⟨rfl, by simp [Text.trimStart, Text.isSpace]⟩
    | cons c s ih =>
      by_cases space : Text.isSpace c
      · simpa [Text.leading, Text.trimStart, space] using ih
      · simp [Text.leading, Text.trimStart, space]
  have head : (behind ++ t).head? = some '}' ↔ behind.head? = some '}' := by
    cases behind with
    | nil =>
      refine iff_of_false (fun found => ?_) (by simp)
      cases next '}' found
    | cons c behind => rfl
  unfold closing
  simp only [head]
  split
  next closes =>
    obtain ⟨s, rfl⟩ := List.head?_eq_some_iff.1 closes
    simp only [List.length_singleton, List.cons_append, List.drop_succ_cons, List.drop_zero,
      (rest s).1, (rest s).2]
  next => simp only [List.length_nil, List.drop_zero, (rest behind).1, (rest behind).2]

/-- Past what closes a block is what stands behind it, apart from a brace, spaces and a `;`. -/
theorem past_cases {behind : Text} (known : behind = [] ∨ behind.head? = some '}') :
    past behind = Text.trimStart behind.tail ∨ Text.trimStart behind.tail = ';' :: past behind := by
  rcases known with rfl | brace
  · exact .inl rfl
  · obtain ⟨t, rfl⟩ := List.head?_eq_some_iff.1 brace
    have closed : closing ('}' :: t) = '}' :: (Text.leading t ++
        if (Text.trimStart t).head? = some ';' then [';'] else []) := by simp [closing]
    have split := closing_append_past ('}' :: t)
    rw [closed, List.cons_append, List.cons_inj_right, List.append_assoc] at split
    have rest := List.append_cancel_left (split.trans (Text.trimStart_append t).symm)
    rw [List.tail_cons, ← rest]
    split_ifs
    · exact .inr rfl
    · exact .inl rfl

/-- A `;` before the text changes nothing about the selector behind it. -/
theorem precedes_cons {selector before : Text} (h : Precedes selector before) :
    Precedes selector (';' :: before) := by
  obtain ⟨nonempty, solid, front, lead, gap, rfl, ends, filler, spaces⟩ := h
  refine ⟨nonempty, solid, ';' :: front, lead, gap, rfl, ?_, filler, spaces⟩
  intro c mem
  cases front with
  | nil =>
    cases mem
    rfl
  | cons d front => exact ends c (by rwa [List.getLast?_cons_cons] at mem)

theorem bare_cons {before : Text} (h : Bare before) : Bare (';' :: before) := by
  intro c mem
  cases before with
  | nil =>
    cases mem
    rfl
  | cons d before => exact h c (by rwa [List.getLast?_cons_cons] at mem)

end Block

/-! ### Scanning a text whose blocks are cut out -/

/-- The opening of a block does not begin before the brace of another. -/
theorem Frame.not_opening_prefix {s : Text} (nonempty : s ≠ []) (absent : ¬ opening <:+: s)
    (t : Text) : ¬ opening <+: s ++ '{' :: t := by
  rintro ⟨rest, split⟩
  rcases List.append_eq_append_iff.1 split with ⟨more, text, -⟩ | ⟨more, text, brace⟩
  · exact absent ⟨[], more, by rw [text, List.nil_append]⟩
  · cases more with
    | nil =>
      rw [List.append_nil] at text
      exact absent (text ▸ List.infix_rfl)
    | cons c more =>
      obtain ⟨d, s, rfl⟩ := List.exists_cons_of_ne_nil nonempty
      cases brace
      have inside : '{' ∈ Mark.block := by
        rw [opening, List.cons_append, List.cons.injEq] at text
        rw [text.2]
        simp
      exact absurd inside (by decide)

/-- A run before a cut block makes a frame with it, and the scan goes on past what closes the
block. -/
theorem Frame.scan_block {front run behind next : Text}
    (ends : ∀ c ∈ front.getLast?, isStructural c) (solid : ∀ c ∈ run, isStructural c = false)
    (nonempty : run ≠ []) (absent : ¬ opening <:+: front ++ run) (head : ∀ c ∈ next.head?, c = '{') :
    recogniser.scan (front ++ run ++ '{' :: (Mark.block ++ (behind ++ next))) =
      recogniser.scan front ++
        .hit (ofRun run (.block (closing behind))) :: recogniser.scan (past behind ++ next) := by
  have text : (ofRun run (.block (closing behind))).spell ++ (past behind ++ next) =
      run ++ '{' :: (Mark.block ++ (behind ++ next)) := by
    conv => rhs; rw [← closing_append_past behind]
    rw [Frame.spell, ofRun_around]
    simp [ofRun, Ending.around, Ending.content]
  have read : recogniser.read ((ofRun run (.block (closing behind))).spell ++ (past behind ++ next)) =
      some (ofRun run (.block (closing behind))) := by
    rw [text, ← closing_append_opening behind head]
    exact read_run nonempty solid rfl _
  have later := Recogniser.scan_spell_append read
  rw [← later, show recogniser.spell = Frame.spell from rfl, text, List.append_assoc]
  refine scan_append_of_structural ends fun u inside some => ?_
  rw [← List.append_assoc]
  refine not_opening_prefix (by simp [some]) (fun found => absent ?_) _
  obtain ⟨before, rfl⟩ := inside
  rw [List.append_assoc]
  exact found.trans (List.suffix_append before _).isInfix

namespace Outline

/-- Frames without a block take no content. -/
theorem rebuild_append {segments : List (Segment Frame)}
    (flat : ∀ frame, .hit frame ∈ segments → frame.ending = .statement)
    (rest : List (Segment Frame)) (blocks : List Text) :
    fill (segments ++ rest) (deal (segments ++ rest) blocks) =
      Frame.recogniser.spellAll segments ++ fill rest (deal rest blocks) ∧
    dealBlocks (segments ++ rest) blocks = dealBlocks rest blocks := by
  induction segments with
  | nil => exact ⟨rfl, rfl⟩
  | cons segment segments ih =>
    obtain ⟨text, rules⟩ := ih fun frame mem => flat frame (List.mem_cons_of_mem segment mem)
    cases segment with
    | plain c => exact ⟨congrArg (c :: ·) text, rules⟩
    | hit frame =>
      have ending := flat frame List.mem_cons_self
      rw [List.cons_append, deal, dealBlocks, ending]
      refine ⟨?_, rules⟩
      have spelled : Frame.recogniser.spellAll (.hit frame :: segments) =
          frame.around frame.selector [] ++ Frame.recogniser.spellAll segments := by
        simp [Recogniser.spellAll, Recogniser.spellSegment, Frame.recogniser, Frame.spell, ending,
          Ending.content]
      rw [spelled, List.append_assoc, ← text]
      rfl

end Outline

/-- What stands before the first block may be taken without a `;` at its front. -/
theorem Block.forall_placesFrom {before : Text} (blocks : List (Text × Text)) {rest : Text}
    (same : rest = before ∨ before = ';' :: rest) :
    ((∀ place ∈ Layout.placesFrom before blocks, ¬ Bare place.1) →
      ∀ place ∈ Layout.placesFrom rest blocks, ¬ Bare place.1) ∧
    ∀ rules, List.Forall₂ HandedOver rules (Layout.placesFrom rest blocks) →
      List.Forall₂ HandedOver rules (Layout.placesFrom before blocks) := by
  rcases same with rfl | rfl
  · exact ⟨id, fun _ => id⟩
  · cases blocks with
    | nil => exact ⟨fun _ => nofun, fun _ => id⟩
    | cons block blocks =>
      refine ⟨fun all place mem => ?_, fun rules handed => ?_⟩
      · rcases List.mem_cons.1 mem with rfl | mem
        · exact fun bare => all _ List.mem_cons_self (bare_cons bare)
        · exact all place (List.mem_cons_of_mem _ mem)
      · cases handed with
        | cons first later => exact .cons ⟨precedes_cons first.selector, first.content⟩ later

/-- **A walk puts a text together again** from its frames and contents, if every block has a frame,
and it hands each block over with what precedes it. -/
theorem rebuild_layout {before : Text} {blocks : List (Text × Text)}
    (absent : ¬ opening <:+: before) (absent' : ∀ block ∈ blocks, ¬ opening <:+: block.2)
    (known : ∀ block ∈ blocks, block.2 = [] ∨ block.2.head? = some '}')
    (framed : ∀ place ∈ Layout.placesFrom before blocks, ¬ Bare place.1)
    {segments : List (Segment Frame)} (scanned : segments = Frame.recogniser.scan
      (before ++ Layout.rowWith (fun _ => Mark.block) blocks)) :
    Outline.fill segments (Outline.deal segments (blocks.map Prod.fst)) =
      before ++ Layout.rowWith id blocks ∧
    List.Forall₂ HandedOver (Outline.dealBlocks segments (blocks.map Prod.fst))
      (Layout.placesFrom before blocks) := by
  induction blocks generalizing before segments with
  | nil =>
    have flat : ∀ frame, .hit frame ∈ recogniser.scan before → frame.ending = .statement :=
      fun frame mem => ending_of_mem_scan absent mem
    obtain ⟨text, rules⟩ := Outline.rebuild_append flat [] []
    have whole : segments = recogniser.scan before ++ [] := by
      rw [scanned, List.append_nil]
      exact congrArg recogniser.scan (List.append_nil before)
    rw [whole]
    refine ⟨text.trans ?_, ?_⟩
    · rw [recogniser.spellAll_scan]
      rfl
    · exact rules ▸ .nil
  | cons block blocks ih =>
    obtain ⟨content, behind⟩ := block
    obtain ⟨front, run, rfl, ends, solid⟩ := exists_last_run before
    -- The run is not empty, since the block is not bare.
    have nonempty : run ≠ [] := by
      rintro rfl
      rw [List.append_nil] at framed
      exact framed _ List.mem_cons_self ends
    have absentFront : ¬ opening <:+: front := fun found =>
      absent (found.trans (List.prefix_append front run).isInfix)
    have absentPast : ¬ opening <:+: past behind := fun found =>
      absent' _ List.mem_cons_self (found.trans (List.drop_suffix _ behind).isInfix)
    have same : past behind = Text.trimStart behind.tail ∨
        Text.trimStart behind.tail = ';' :: past behind := past_cases (known _ List.mem_cons_self)
    obtain ⟨bare, handed⟩ := forall_placesFrom blocks same
    obtain ⟨text, rules⟩ := ih absentPast (fun block mem => absent' block (List.mem_cons_of_mem _ mem))
      (fun block mem => known block (List.mem_cons_of_mem _ mem))
      (bare fun place mem => framed place (List.mem_cons_of_mem _ mem)) rfl
    obtain ⟨text', rules'⟩ := Outline.rebuild_append
      (fun frame mem => ending_of_mem_scan absentFront mem)
      (.hit (ofRun run (.block (closing behind))) ::
        recogniser.scan (past behind ++ Layout.rowWith (fun _ => Mark.block) blocks))
      (content :: blocks.map Prod.fst)
    rw [scanned, Layout.rowWith_cons, scan_block ends solid nonempty absent (Layout.head_rowWith _ blocks), List.map_cons, text',
      rules', recogniser.spellAll_scan]
    refine ⟨?_, .cons ⟨precedes_ofRun ends solid nonempty (.block (closing behind)), rfl⟩
      (handed _ rules)⟩
    show front ++ ((ofRun run (.block (closing behind))).around
      (ofRun run (.block (closing behind))).selector content ++ Outline.fill _ (Outline.deal _ _)) = _
    rw [ofRun_around, List.tail_cons, text]
    conv => rhs; rw [← closing_append_past behind]
    simp [Ending.around]

/-- Blocks that are handed over are not bare. -/
theorem not_bare_of_handedOver {rules : List Rule} {places : List (Text × Text)}
    (handed : List.Forall₂ HandedOver rules places) : ∀ place ∈ places, ¬ Bare place.1 := by
  induction handed with
  | nil => nofun
  | cons first _ ih =>
    intro place mem
    rcases List.mem_cons.1 mem with rfl | mem
    · exact not_bare_of_precedes first.selector
    · exact ih place mem

/-- A walk that leaves every rule as it is fills the frames with their own rules. -/
theorem walk_pure (t : Text) : Id.run (walk pure t) = (Outline.ofText t).withRules (rulesOf t) := by
  have visited : (rulesOf t).mapM (pure : Rule → Id Rule) = pure (rulesOf t) := by
    induction rulesOf t with
    | nil => rfl
    | cons rule rules ih => rw [List.mapM_cons, ih]; rfl
  rw [walk, visited, pure_bind]
  exact Id.run_pure _

/-- A text is put together again from its frames and rules if nothing of it is lost. -/
theorem fill_rulesOf {t : Text} (unspoiled : (layout (shield t)).Unspoiled)
    (framed : ∀ place ∈ (layout (shield t)).places, ¬ Bare place.1) :
    Outline.fill (Outline.ofText t).segments (rulesOf t) = shield t := by
  obtain ⟨text, -⟩ := rebuild_layout unspoiled.front unspoiled.behind
    (head_layoutFrom 0 (shield t)).2 framed rfl
  rw [rulesOf, Outline.ofText, cut_eq]
  exact text.trans (text_layout (shield t))

/-- **When a walk loses nothing.**  If nothing outside blocks reads like the opening of a cut block, a
walk loses nothing exactly if no block is bare. -/
theorem losesNothing_iff {t : Text} (free : WordFree t) (unspoiled : (layout (shield t)).Unspoiled) :
    LosesNothing t ↔ ∀ place ∈ (layout (shield t)).places, ¬ Bare place.1 := by
  refine ⟨fun nothing => not_bare_of_handedOver nothing.handedOver, fun framed => ?_⟩
  refine ⟨?_, ?_⟩
  · rw [walk_pure, Outline.withRules, fill_rulesOf unspoiled framed, unshield_shield free]
  · obtain ⟨-, rules⟩ := rebuild_layout unspoiled.front unspoiled.behind
      (head_layoutFrom 0 (shield t)).2 framed rfl
    rw [Outline.blockRules, Outline.ofText, cut_eq]
    exact rules

/-- Nested blocks, braces in strings and blocks that run to the end are no loss. -/
theorem losesNothing_nested :
    WordFree "@charset \"\x7b\"; @media x \x7ba\x7bb\x7d\x7d c\x7bd".toList ∧
    (layout (shield "@charset \"\x7b\"; @media x \x7ba\x7bb\x7d\x7d c\x7bd".toList)).Unspoiled ∧
    LosesNothing "@charset \"\x7b\"; @media x \x7ba\x7bb\x7d\x7d c\x7bd".toList := by
  have free : WordFree "@charset \"\x7b\"; @media x \x7ba\x7bb\x7d\x7d c\x7bd".toList := by
    unfold WordFree
    decide +kernel
  have unspoiled := Block.Layout.unspoiled_of_absent
    (t := "@charset \"\x7b\"; @media x \x7ba\x7bb\x7d\x7d c\x7bd".toList) (by decide +kernel)
  refine ⟨free, unspoiled, (losesNothing_iff free unspoiled).2 ?_⟩
  decide +kernel

/-- A walk can lose something: here the first block is bare, and its content goes to the rule behind
it, whose own content is lost. -/
theorem not_losesNothing : ¬ Mark.block <:+: "\x7bx\x7da\x7by\x7d".toList ∧
    WordFree "\x7bx\x7da\x7by\x7d".toList ∧ ¬ LosesNothing "\x7bx\x7da\x7by\x7d".toList := by
  refine ⟨by decide, by unfold WordFree; decide, fun nothing => ?_⟩
  have lost : Id.run (walk pure "\x7bx\x7da\x7by\x7d".toList) = "\x7b%BLOCK%\x7da\x7bx\x7d".toList := by
    decide +kernel
  exact absurd (lost.symm.trans nothing.unchanged) (by decide)

end ScopedCss
