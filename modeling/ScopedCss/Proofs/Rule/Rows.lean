import ScopedCss.Proofs.Plain.Attributes
import ScopedCss.Proofs.Rule.Balance

/-!
# Rows of rules

A level of a style sheet is a row of rules, each a prelude, then `;` or a block, with spaces between.
Here the level is put together from *rows* that are well formed.  Its outline is what one expects:
the rules of the level are those of its rows, with their strings shielded (`rulesOf_text`), and what
is put in their places is unshielded row by row.

So a walk through a level visits its rows one after the other, and touches nothing but their preludes
and contents (`walk_text`).
-/
namespace ScopedCss

open Quoted Block

/-- Spaces between the pieces of a style sheet. -/
structure Spaces where
  text : Text
  isSpace : ∀ c ∈ text, Text.isSpace c

/-- No spaces. -/
def Spaces.none : Spaces := ⟨[], by simp⟩

/-- One space. -/
def Spaces.single : Spaces := ⟨[' '], by simp [Text.isSpace]⟩

/-- The content of a block. -/
structure Body where
  text : Text
  balanced : Balanced text

/-- The prelude of a rule: what stands before its `;` or its block. -/
structure Prelude where
  text : Text
  nonempty : text ≠ []
  /-- A prelude starts with no space, and not like a mark. -/
  first : ∀ c ∈ text.head?, Text.isSpace c = false ∧ c ≠ '%'
  last : ∀ c ∈ text.getLast?, Text.isSpace c = false
  flat : Flat text

/-- A rule in its place on a level. -/
structure Row where
  prelude : Prelude
  gap : Spaces
  /-- The content of the block, unless the rule ends in `;`. -/
  block : Option Body
  /-- The spaces behind the rule. -/
  back : Spaces

namespace Row
variable (row : Row)

/-- How the rule ends. -/
def ending : Ending :=
  match row.block with
  | none => .statement
  | some _ => .block ['}']

/-- The content of the rule. -/
def content : Text :=
  match row.block with
  | none => []
  | some body => body.text

/-- The characters of a row around a selector and a content. -/
def around (selector content : Text) : Text :=
  selector ++ (row.gap.text ++ (row.ending.around content ++ row.back.text))

/-- The characters of a row. -/
def text : Text := row.around row.prelude.text row.content

/-- The rule of a row, as a walk sees it. -/
def rule : Rule := ⟨shield row.prelude.text, shield row.content⟩

/-- The characters of a row with another rule in it, unshielded. -/
def withRule (rule : Rule) : Text := unshield (row.around rule.selector rule.content)

end Row

/-- A level of a style sheet: spaces, and rows of rules. -/
structure Level where
  lead : Spaces
  rows : List Row

namespace Level

/-- The characters of a level. -/
def text (level : Level) : Text := level.lead.text ++ level.rows.flatMap Row.text

end Level

/-! ### Spaces -/

theorem Frame.isStructural_iff {c : Char} :
    Frame.isStructural c ↔ c = ';' ∨ c = '{' ∨ c = '}' := by
  simp [Frame.isStructural, or_assoc]

theorem Text.isQuote_of_isSpace {c : Char} (space : Text.isSpace c) : Text.isQuote c = false := by
  by_contra quote
  rw [Bool.not_eq_false] at quote
  rw [Plain.Comparison.isSpace_of_isQuote quote] at space
  cases space

theorem Mark.isMarkChar_of_isSpace {c : Char} (space : Text.isSpace c) : isMarkChar c = false := by
  by_contra mark
  rw [Bool.not_eq_false] at mark
  rw [isSpace_of_isMarkChar mark] at space
  cases space

namespace Spaces
variable (s : Spaces)

theorem not_mem {c : Char} (solid : Text.isSpace c = false) : c ∉ s.text := by
  intro mem
  rw [s.isSpace c mem] at solid
  cases solid

theorem shield_eq : shield s.text = s.text :=
  shield_of_no_quote (fun c mem => Text.isQuote_of_isSpace (s.isSpace c mem)) (s.not_mem rfl)

theorem flat : Flat s.text :=
  flat_of_no_quote (fun c mem => Text.isQuote_of_isSpace (s.isSpace c mem)) (s.not_mem rfl)
    fun c mem => by
      by_contra structural
      rw [Bool.not_eq_false, Frame.isStructural_iff] at structural
      rcases structural with rfl | rfl | rfl <;> exact s.not_mem rfl mem

theorem unmarked : ∀ c ∈ s.text, Mark.isMarkChar c = false :=
  fun c mem => Mark.isMarkChar_of_isSpace (s.isSpace c mem)

theorem unshield_append (t : Text) : unshield (s.text ++ t) = s.text ++ unshield t :=
  unshield_append_of_no_percent (s.not_mem rfl) t

end Spaces

/-! ### Preludes -/

namespace Prelude
variable (p : Prelude)

/-- A shielded prelude starts and ends as the prelude does. -/
theorem exists_shield : ∃ c t, p.text = c :: t ∧ shield p.text = c :: shieldFrom
    (if Text.isQuote c then some c else none) t := by
  obtain ⟨c, t, split⟩ := List.exists_cons_of_ne_nil p.nonempty
  have clean : c ≠ '\\' := by
    rintro rfl
    exact p.flat.closed.no_backslash (split ▸ List.mem_cons_self)
  exact ⟨c, t, split, by rw [split, shield, shieldFrom_outside clean]⟩

theorem shield_ne_nil : shield p.text ≠ [] := by
  obtain ⟨c, t, -, shielded⟩ := p.exists_shield
  simp [shielded]

theorem first_shield :
    ∀ c ∈ (shield p.text).head?, Text.isSpace c = false ∧ c ≠ '%' ∧ Frame.isStructural c = false := by
  intro c mem
  have outside := p.flat.plain c (List.mem_of_mem_head? mem)
  rw [(ends_shield p.flat.closed).1] at mem
  exact ⟨(p.first c mem).1, (p.first c mem).2, outside⟩

theorem last_shield : ∀ c ∈ (shield p.text).getLast?, Text.isSpace c = false := by
  rw [(ends_shield p.flat.closed).2]
  exact p.last

end Prelude

/-! ### Frames -/

namespace Frame

theorem commentWord_not_read {c : Char} (other : c ≠ '%') (t : Text) :
    Mark.commentWord.read (c :: t) = none := by
  refine Recogniser.read_word_eq_none _ fun front => ?_
  exact other (List.cons_prefix_cons.1 front).1.symm

/-- The filler before a prelude is the spaces before it. -/
theorem filler_append {lead p : Text} (spaces : ∀ c ∈ lead, Text.isSpace c)
    (first : ∀ c ∈ p.head?, Text.isSpace c = false ∧ c ≠ '%') (nonempty : p ≠ []) :
    filler (lead ++ p) = lead := by
  obtain ⟨c, t, rfl⟩ := List.exists_cons_of_ne_nil nonempty
  obtain ⟨solid, other⟩ := first c rfl
  have plain : ∀ d ∈ lead, ∀ t, Mark.commentWord.read (d :: t) = none := by
    intro d mem t
    refine commentWord_not_read ?_ t
    rintro rfl
    cases spaces '%' mem
  have spell : ∀ s : Text, Mark.commentWord.spellAll (s.map Segment.plain) = s := by
    intro s
    rw [Recogniser.spellAll, List.flatMap_map]
    exact List.flatMap_singleton' s
  rw [filler, Recogniser.scan_append_of_plain plain,
    Recogniser.scan_of_not_read (commentWord_not_read other t), List.takeWhile_append_of_pos]
  · rw [List.takeWhile_cons, if_neg (by simp [isFiller, solid]), List.append_nil, spell]
  · intro segment mem
    obtain ⟨d, there, rfl⟩ := List.mem_map.1 mem
    exact spaces d there

/-- A run is cut around the prelude in it. -/
theorem splitRun_append_prelude {lead p gap : Text} (spaces : ∀ c ∈ lead, Text.isSpace c)
    (first : ∀ c ∈ p.head?, Text.isSpace c = false ∧ c ≠ '%')
    (last : ∀ c ∈ p.getLast?, Text.isSpace c = false) (nonempty : p ≠ [])
    (spaces' : ∀ c ∈ gap, Text.isSpace c) : splitRun (lead ++ (p ++ gap)) = (lead, p, gap) := by
  have front : filler (lead ++ (p ++ gap)) = lead := by
    refine filler_append spaces ?_ (by simp [nonempty])
    rw [List.head?_append_of_ne_nil _ nonempty]
    exact first
  obtain ⟨trimEnd, trailing⟩ := Text.trimEnd_of_spaces spaces' last
  rw [splitRun]
  simp only [front, List.drop_left]
  rw [if_neg (by simp [nonempty]), trimEnd, trailing]

/-- What closes a block is the brace and the spaces behind it. -/
theorem closing_append {back t : Text} (spaces : ∀ c ∈ back, Text.isSpace c)
    (solid : ∀ c ∈ t.head?, Text.isSpace c = false ∧ c ≠ ';') : closing ('}' :: (back ++ t)) = '}' :: back := by
  obtain ⟨leading, trimStart⟩ := Text.trimStart_of_spaces spaces fun c mem => (solid c mem).1
  have other : (Text.trimStart (back ++ t)).head? ≠ some ';' := by
    rw [trimStart]
    exact fun mem => (solid ';' mem).2 rfl
  rw [closing]
  simp [leading, other]

/-- The frame of a rule whose run is followed by an ending. -/
theorem read_append (lead gap : Spaces) (p : Prelude) {e : Char} (structural : isStructural e)
    {u : Text} {ending : Ending} (h : readEnding (e :: u) = some ending) :
    read (lead.text ++ (shield p.text ++ (gap.text ++ e :: u))) =
      some ⟨lead.text, shield p.text, gap.text, ending⟩ := by
  have plain : ∀ c ∈ lead.text ++ (shield p.text ++ gap.text), !isStructural c := by
    have spaces (s : Spaces) : ∀ c ∈ s.text, isStructural c = false := by
      intro c mem
      exact s.flat.plain c (s.shield_eq.symm ▸ mem)
    intro c mem
    rw [Bool.not_eq_true']
    rcases List.mem_append.1 mem with mem | mem
    · exact spaces lead c mem
    · rcases List.mem_append.1 mem with mem | mem
      · exact p.flat.plain c mem
      · exact spaces gap c mem
  have first : ∀ c ∈ (shield p.text).head?, Text.isSpace c = false ∧ c ≠ '%' := fun c mem =>
    ⟨(p.first_shield c mem).1, (p.first_shield c mem).2.1⟩
  have cut := splitRun_append_prelude lead.isSpace first p.last_shield p.shield_ne_nil gap.isSpace
  have nonempty : lead.text ++ (shield p.text ++ gap.text) ≠ [] := by simp [p.shield_ne_nil]
  have whole : lead.text ++ (shield p.text ++ (gap.text ++ e :: u)) =
      (lead.text ++ (shield p.text ++ gap.text)) ++ e :: u := by simp
  rw [whole, read, List.takeWhile_append_of_pos plain, List.dropWhile_append_of_pos plain,
    List.takeWhile_cons, List.dropWhile_cons, if_neg (by simp [structural]),
    if_neg (by simp [structural]), List.append_nil]
  obtain ⟨c, run, split⟩ := List.exists_cons_of_ne_nil nonempty
  rw [split] at cut ⊢
  simp [h, cut]

/-- Spaces at the end of a text make no frame. -/
theorem scan_spaces {s : Text} (spaces : ∀ c ∈ s, Text.isSpace c) :
    recogniser.scan s = s.map .plain := by
  induction s with
  | nil => rfl
  | cons c s ih =>
    have plain : ∀ d ∈ c :: s, !isStructural d := by
      intro d mem
      have flat := (⟨c :: s, spaces⟩ : Spaces).flat.plain d
      rw [(⟨c :: s, spaces⟩ : Spaces).shield_eq] at flat
      simp [flat mem]
    have none : read (c :: s) = none := by
      have after : (c :: s).dropWhile (fun c => !isStructural c) = [] :=
        List.dropWhile_eq_nil_iff.2 plain
      unfold read
      rw [after]
      split <;> rfl
    rw [Recogniser.scan_of_not_read none, ih fun d mem => spaces d (List.mem_cons_of_mem c mem)]
    rfl

end Frame

/-! ### The outline of a level -/

namespace Row
variable (row : Row)

/-- The characters of a row once blocks are cut out. -/
def cutText : Text := row.around (shield row.prelude.text) row.ending.content

/-- The frame of a row behind spaces that no other frame took along. -/
def frame (lead : Spaces) : Frame :=
  ⟨lead.text, shield row.prelude.text, row.gap.text,
    match row.ending with
    | .statement => .statement
    | .block closing => .block (closing ++ row.back.text)⟩

/-- The spaces behind the frame of a row: those behind a block belong to its frame. -/
def behind : Spaces :=
  match row.ending with
  | .statement => row.back
  | .block _ => .none

theorem scan_cutText (lead : Spaces) {t : Text}
    (solid : ∀ c ∈ t.head?, Text.isSpace c = false ∧ c ≠ ';') :
    Frame.recogniser.scan (lead.text ++ (row.cutText ++ t)) =
      .hit (row.frame lead) :: Frame.recogniser.scan (row.behind.text ++ t) := by
  have text : lead.text ++ (row.cutText ++ t) = (row.frame lead).spell ++ (row.behind.text ++ t) := by
    unfold cutText frame behind around Row.ending Frame.spell Frame.around
    cases row.block <;> simp [Ending.around, Ending.content, Spaces.none]
  have read : Frame.read (lead.text ++ (row.cutText ++ t)) = some (row.frame lead) := by
    unfold cutText frame around Row.ending
    cases row.block with
    | none =>
      have ends : Frame.readEnding (';' :: (row.back.text ++ t)) = some .statement := rfl
      have whole := Frame.read_append lead row.gap row.prelude rfl ends
      simpa [Ending.around, Ending.content] using whole
    | some body =>
      have ends : Frame.readEnding ('{' :: (Mark.block ++ '}' :: (row.back.text ++ t))) =
          some (.block ('}' :: row.back.text)) := by
        rw [← Frame.closing_append row.back.isSpace solid]
        rfl
      have whole := Frame.read_append lead row.gap row.prelude rfl ends
      simpa [Ending.around, Ending.content] using whole
  rw [text] at read ⊢
  exact Recogniser.scan_spell_append read

/-- The characters of a row with its strings shielded. -/
def shieldText : Text := row.around (shield row.prelude.text) (shield row.content)

theorem flat_singleton {c : Char} (plain : Text.isQuote c = false) (clean : c ≠ '\\') :
    Closed [c] ∧ shield [c] = [c] := by
  have plain' : ∀ d ∈ [c], Text.isQuote d = false := fun d mem => List.mem_singleton.1 mem ▸ plain
  have clean' : '\\' ∉ [c] := fun mem => clean (List.mem_singleton.1 mem).symm
  exact ⟨closed_of_no_quote plain' clean', shield_of_no_quote plain' clean'⟩

/-- A row is balanced, and shielded piece by piece. -/
theorem balanced_text : Balanced row.text ∧ shield row.text = row.shieldText := by
  have ending : Balanced (row.ending.around row.content) ∧
      shield (row.ending.around row.content) = row.ending.around (shield row.content) := by
    unfold Row.ending Row.content
    cases row.block with
    | none => exact ⟨⟨(flat_singleton rfl (by decide)).1, rfl⟩, rfl⟩
    | some body =>
      refine ⟨body.balanced.block, ?_⟩
      have opens := shield_append (flat_singleton (c := '{') rfl (by decide)).1 (body.text ++ ['}'])
      rw [shield_append body.balanced.closed] at opens
      exact opens
  have closed := row.prelude.flat.closed
  have gap := row.gap.flat.closed
  refine ⟨(Balanced.of_flat row.prelude.flat).append ((Balanced.of_flat row.gap.flat).append
    (ending.1.append (Balanced.of_flat row.back.flat))), ?_⟩
  rw [text, shieldText, around, around, shield_append closed, shield_append gap,
    shield_append ending.1.closed, ending.2, row.gap.shield_eq, row.back.shield_eq]

theorem cut_shieldText (t : Text) :
    (cut (row.shieldText ++ t)).text = row.cutText ++ (cut t).text ∧
      (cut (row.shieldText ++ t)).blocks =
        (row.block.map fun body => shield body.text).toList ++ (cut t).blocks := by
  have spaces (s : Spaces) (t : Text) := cutFrom_append_of_no_brace (s := s.text) (s.not_mem rfl)
    (fun c mem => by rintro rfl; exact s.not_mem rfl mem) t
  have prelude (t : Text) := cutFrom_append_of_no_brace
    (no_backslash_shield row.prelude.flat.closed.no_backslash)
    (fun c mem => by rintro rfl; cases row.prelude.flat.plain '{' mem) t
  have ending (t : Text) : (cut (row.ending.around (shield row.content) ++ t)).text =
      row.ending.around row.ending.content ++ (cut t).text ∧
      (cut (row.ending.around (shield row.content) ++ t)).blocks =
        (row.block.map fun body => shield body.text).toList ++ (cut t).blocks := by
    unfold Row.ending Row.content
    cases row.block with
    | none =>
      exact cutFrom_append_of_no_brace (s := [';']) (by decide)
        (fun c mem => by rw [List.mem_singleton.1 mem]; decide) t
    | some body =>
      have block := cut_block body.balanced t
      simpa [Ending.around, Ending.content] using block
  simp only [shieldText, cutText, around, List.append_assoc]
  rw [(prelude _).1, (prelude _).2, (spaces row.gap _).1, (spaces row.gap _).2, (ending _).1,
    (ending _).2, (spaces row.back _).1, (spaces row.back _).2]
  exact ⟨rfl, rfl⟩

end Row

namespace Level

/-- The frames of rows, with spaces before them. -/
def frames : Spaces → List Row → List (Segment Frame)
  | lead, [] => lead.text.map .plain
  | lead, row :: rows => .hit (row.frame lead) :: frames row.behind rows

theorem scan_frames (lead : Spaces) (rows : List Row) :
    Frame.recogniser.scan (lead.text ++ rows.flatMap Row.cutText) = frames lead rows := by
  induction rows generalizing lead with
  | nil =>
    rw [List.flatMap_nil, List.append_nil]
    exact Frame.scan_spaces lead.isSpace
  | cons row rows ih =>
    have solid : ∀ c ∈ (rows.flatMap Row.cutText).head?, Text.isSpace c = false ∧ c ≠ ';' := by
      intro c mem
      cases rows with
      | nil => cases mem
      | cons next rows =>
        obtain ⟨d, t, -, shielded⟩ := next.prelude.exists_shield
        have first := next.prelude.first_shield d (by rw [shielded]; rfl)
        rw [List.flatMap_cons, Row.cutText, Row.around, shielded] at mem
        cases mem
        refine ⟨first.1, ?_⟩
        rintro rfl
        cases first.2.2
    rw [List.flatMap_cons, row.scan_cutText lead solid, ih]
    rfl

theorem balanced_rows (rows : List Row) :
    Balanced (rows.flatMap Row.text) ∧
      shield (rows.flatMap Row.text) = rows.flatMap Row.shieldText := by
  induction rows with
  | nil => exact ⟨.nil, rfl⟩
  | cons row rows ih =>
    refine ⟨row.balanced_text.1.append ih.1, ?_⟩
    rw [List.flatMap_cons, List.flatMap_cons, shield_append row.balanced_text.1.closed,
      row.balanced_text.2, ih.2]

/-- A level is balanced. -/
theorem balanced_text (level : Level) : Balanced level.text :=
  (Balanced.of_flat level.lead.flat).append (balanced_rows level.rows).1

theorem cut_rows (rows : List Row) :
    (cut (rows.flatMap Row.shieldText)).text = rows.flatMap Row.cutText ∧
      (cut (rows.flatMap Row.shieldText)).blocks =
        rows.flatMap fun row => (row.block.map fun body => shield body.text).toList := by
  induction rows with
  | nil => exact ⟨rfl, rfl⟩
  | cons row rows ih =>
    rw [List.flatMap_cons, (row.cut_shieldText _).1, (row.cut_shieldText _).2, ih.1, ih.2]
    exact ⟨rfl, rfl⟩

/-- The outline of a level is its frames, and the contents of its blocks. -/
theorem outline_text (level : Level) :
    Outline.ofText level.text = ⟨frames level.lead level.rows,
      level.rows.flatMap fun row => (row.block.map fun body => shield body.text).toList⟩ := by
  have spaces := cutFrom_append_of_no_brace (s := level.lead.text) (level.lead.not_mem rfl)
    (fun c mem => by rintro rfl; exact level.lead.not_mem rfl mem)
    (level.rows.flatMap Row.shieldText)
  rw [Outline.ofText, text, shield_append level.lead.flat.closed, level.lead.shield_eq,
    (balanced_rows level.rows).2, spaces.1, spaces.2, (cut_rows level.rows).1,
    (cut_rows level.rows).2, scan_frames]

theorem deal_frames (lead : Spaces) (rows : List Row) :
    Outline.deal (frames lead rows)
      (rows.flatMap fun row => (row.block.map fun body => shield body.text).toList) =
      rows.map Row.rule := by
  induction rows generalizing lead with
  | nil =>
    rw [frames]
    induction lead.text with
    | nil => rfl
    | cons c t ih => exact ih
  | cons row rows ih =>
    rw [frames, List.flatMap_cons, List.map_cons, ← ih row.behind, Row.rule, Row.content]
    unfold Row.frame Row.ending
    cases row.block <;> rfl

/-- **The rules of a level** are those of its rows, with their strings shielded. -/
theorem rulesOf_text (level : Level) : rulesOf level.text = level.rows.map Row.rule := by
  rw [rulesOf, outline_text]
  exact deal_frames level.lead level.rows

/-! ### Other rules in a level -/

theorem frame_around_append (row : Row) (lead : Spaces) (selector content : Text) :
    (row.frame lead).around selector content ++ row.behind.text =
      lead.text ++ row.around selector content := by
  unfold Row.frame Row.behind Row.around Row.ending Frame.around
  cases row.block <;> simp [Ending.around, Spaces.none]

/-- What is in a frame is unshielded by itself, as a frame ends in a character of no mark. -/
theorem unshield_around_append (row : Row) (lead : Spaces) (selector content t : Text) :
    unshield ((row.frame lead).around selector content ++ t) =
      unshield ((row.frame lead).around selector content) ++ unshield t := by
  obtain ⟨front, last, nonempty, plain, split⟩ : ∃ front last, last ≠ [] ∧
      (∀ c ∈ last, Mark.isMarkChar c = false) ∧
      (row.frame lead).around selector content = front ++ last := by
    unfold Row.frame Row.ending Frame.around
    cases row.block with
    | none =>
      refine ⟨lead.text ++ selector ++ row.gap.text ++ content, [';'], by simp, ?_, by
        simp [Ending.around]⟩
      exact fun c mem => List.mem_singleton.1 mem ▸ rfl
    | some body =>
      refine ⟨lead.text ++ selector ++ row.gap.text ++ '{' :: content, '}' :: row.back.text,
        by simp, ?_, by simp [Ending.around]⟩
      intro c mem
      rcases List.mem_cons.1 mem with rfl | mem
      · rfl
      · exact row.back.unmarked c mem
  have alone := unshield_append_plain nonempty plain front []
  rw [List.append_nil] at alone
  rw [split, List.append_assoc, unshield_append_plain nonempty plain, alone,
    unshield_nil, List.append_nil, List.append_assoc]

theorem unshield_spaces (s : Spaces) : unshield s.text = s.text := by
  have whole := s.unshield_append []
  rwa [List.append_nil, unshield_nil, List.append_nil] at whole

/-- The frame of a row with a rule in it makes up the row, with the spaces around it. -/
theorem unshield_around (row : Row) (lead : Spaces) (rule : Rule) :
    unshield ((row.frame lead).around rule.selector rule.content) ++ row.behind.text =
      lead.text ++ row.withRule rule := by
  have own := unshield_around_append row lead rule.selector rule.content row.behind.text
  rw [frame_around_append, lead.unshield_append, unshield_spaces] at own
  exact own.symm

/-- In a row the selector and the content of a rule are unshielded by themselves. -/
theorem withRule_eq (row : Row) {rule : Rule} (statement : row.block = .none → rule.content = []) :
    row.withRule rule = row.around (unshield rule.selector) (unshield rule.content) := by
  have gap {last : Text} (plain : ∀ c ∈ last, Mark.isMarkChar c = false) :
      ∀ c ∈ row.gap.text ++ last, Mark.isMarkChar c = false := by
    intro c mem
    exact (List.mem_append.1 mem).elim (row.gap.unmarked c) (plain c)
  have semicolon : ∀ c ∈ [';'], Mark.isMarkChar c = false := by
    intro c mem
    exact List.mem_singleton.1 mem ▸ rfl
  have opening : ∀ c ∈ ['{'], Mark.isMarkChar c = false := by
    intro c mem
    exact List.mem_singleton.1 mem ▸ rfl
  unfold Row.withRule Row.around Row.ending
  cases block : row.block with
  | none =>
    have before := unshield_append_plain (by simp) (gap semicolon) rule.selector row.back.text
    simpa [Ending.around, statement block, unshield_spaces] using before
  | some body =>
    have before := unshield_append_plain (by simp) (gap opening) rule.selector
      (rule.content ++ '}' :: row.back.text)
    rw [unshield_append_cons rfl, unshield_spaces] at before
    simpa [Ending.around] using before

variable {m : Type → Type} [Monad m] [LawfulMonad m]

theorem mapM_fill (visit : Rule → m Rule) (lead : Spaces) (rows : List Row) :
    (do
      let rules ← (rows.map Row.rule).mapM visit
      return unshield (Outline.fill (frames lead rows) rules)) =
    (do
      let texts ← rows.mapM fun row => row.withRule <$> visit row.rule
      return lead.text ++ texts.flatten) := by
  induction rows generalizing lead with
  | nil =>
    have plain : Outline.fill (frames lead []) [] = lead.text := by
      rw [frames]
      induction lead.text with
      | nil => rfl
      | cons c t ih => exact congrArg (c :: ·) ih
    simp [plain, unshield_spaces]
  | cons row rows ih =>
    simp only [List.map_cons, List.mapM_cons, bind_assoc, pure_bind, bind_map_left]
    refine bind_congr fun rule => ?_
    -- What the rules behind this one come to, with this one in its frame before them.
    have later := congrArg (fun run =>
      (unshield ((row.frame lead).around rule.selector rule.content) ++ ·) <$> run) (ih row.behind)
    simp only [map_bind, map_pure] at later
    have first (texts : List Text) :
        unshield ((row.frame lead).around rule.selector rule.content) ++
          (row.behind.text ++ texts.flatten) =
        lead.text ++ (row.withRule rule :: texts).flatten := by
      rw [← List.append_assoc, unshield_around, List.append_assoc, List.flatten_cons]
    simp only [first, ← unshield_around_append] at later
    exact later

/-- **A walk through a level** visits its rows, and leaves everything but their preludes and
contents. -/
theorem walk_text (visit : Rule → m Rule) (level : Level) :
    walk visit level.text = (do
      let texts ← level.rows.mapM fun row => row.withRule <$> visit row.rule
      return level.lead.text ++ texts.flatten) := by
  rw [← mapM_fill, walk, rulesOf_text, outline_text]
  rfl

end Level

end ScopedCss
