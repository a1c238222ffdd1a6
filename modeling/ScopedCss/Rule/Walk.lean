import ScopedCss.Block
import ScopedCss.Quoted
import ScopedCss.Rule.Basic
import ScopedCss.Rule.Frame

/-!
# Walking through the rules of a text

A text is taken apart into the frames of its outermost rules and the contents of its blocks. `walk`
hands each rule to a visitor, in order, and puts what comes back into the frame of the rule;
whatever stands between the frames stays.

The contents are dealt to the frames that have a block by order alone.  Strings stay shielded while
the visitor sees a rule, and are unshielded when the text is put together.

The content of a rule has fewer braces left to open than the text (`weight_content_lt`), so that a
visitor may walk through contents in turn.
-/
namespace ScopedCss

/-- A text taken apart at its outermost rules. -/
structure Outline where
  /-- The frames of the rules and the characters between them. -/
  segments : List (Segment Frame)
  /-- The contents of the blocks, in order. -/
  blocks : List Text

namespace Outline

/-- A text taken apart at its outermost rules, with its strings shielded. -/
def ofText (t : Text) : Outline :=
  let cut := Block.cut (Quoted.shield t)
  ⟨Frame.recogniser.scan cut.text, cut.blocks⟩

/-- The rules that frames make with contents dealt to those that have a block, first to first. -/
def deal : List (Segment Frame) → List Text → List Rule
  | [], _ => []
  | .plain _ :: segments, blocks => deal segments blocks
  | .hit frame :: segments, blocks =>
    match frame.ending with
    | .statement => ⟨frame.selector, []⟩ :: deal segments blocks
    | .block _ => ⟨frame.selector, blocks.headD []⟩ :: deal segments blocks.tail

/-- The text of segments whose frames are filled with rules, first with first. -/
def fill : List (Segment Frame) → List Rule → Text
  | [], _ => []
  | .plain c :: segments, rules => c :: fill segments rules
  | .hit frame :: segments, rule :: rules =>
    frame.around rule.selector rule.content ++ fill segments rules
  | .hit _ :: segments, [] => fill segments []

/-- The rules of the text, in order. -/
def rules (outline : Outline) : List Rule := deal outline.segments outline.blocks

/-- The text with other rules in its frames. -/
def withRules (outline : Outline) (rules : List Rule) : Text :=
  Quoted.unshield (fill outline.segments rules)

end Outline

/-- The outermost rules of a text, in order. -/
def rulesOf (t : Text) : List Rule := (Outline.ofText t).rules

/-- The text with its outermost rules replaced by what a visitor makes of them, in order. -/
def walk {m : Type → Type} [Monad m] (visit : Rule → m Rule) (t : Text) : m Text := do
  let rules ← (rulesOf t).mapM visit
  return (Outline.ofText t).withRules rules

/-! ### Contents are smaller -/

/-- The number of braces that a text opens, strings included, and one more unless it is empty. -/
def weight (t : Text) : Nat := t.count '{' + if t.isEmpty then 0 else 1

theorem count_ofChar_le (c : Char) : (Mark.ofChar c).count '{' ≤ [c].count '{' := by
  unfold Mark.ofChar
  by_cases h : (Mark.structural.lookup c) = none
  · simp [h]
  · have : c ∈ [',', ';', '{', '}', ':'] := by
      simp only [Mark.structural, List.lookup_eq_none_iff, List.mem_cons] at h
      grind
    simp only [List.mem_cons, List.not_mem_nil, or_false] at this
    rcases this with rfl | rfl | rfl | rfl | rfl <;> decide

theorem count_shieldFrom_le (quote : Option Char) (t : Text) :
    (Quoted.shieldFrom quote t).count '{' ≤ t.count '{' := by
  fun_induction Quoted.shieldFrom quote t with
  | case1 => simp
  | case2 quote c t ih => simp only [List.count_cons]; omega
  | case3 quote t _ ih => simp only [List.count_cons]; omega
  | case4 quote c t _ h ih =>
    have := count_ofChar_le c
    simp only [List.count_append, List.count_cons, List.count_nil] at *
    omega
  | case5 c t _ ih => simp only [List.count_cons]; omega

theorem count_cutFrom_le (depth : Nat) (t : Text) :
    (Block.cutFrom depth t).inside.count '{' ≤ t.count '{' ∧
      ∀ block ∈ (Block.cutFrom depth t).blocks, block.count '{' + 1 ≤ t.count '{' := by
  fun_induction Block.cutFrom depth t with
  | case1 => simp
  | case2 => simp
  | case3 c t cut ih => simp only [List.count_cons]; grind
  | case4 depth c t cut ih => simp only [List.count_cons]; grind
  | case5 t cut _ ih => simp only [List.count_cons]; grind
  | case6 c t _ h cut ih => simp only [List.count_cons]; grind
  | case7 depth c t _ h cut ih => simp only [List.count_cons]; grind
  | case8 depth c t _ h cut ih => simp only [List.count_cons]; grind

theorem content_of_mem_deal {rule : Rule} {segments : List (Segment Frame)} {blocks : List Text}
    (h : rule ∈ Outline.deal segments blocks) : rule.content = [] ∨ rule.content ∈ blocks := by
  fun_induction Outline.deal segments blocks with
  | case1 => cases h
  | case2 _ _ _ ih => exact ih h
  | case3 frame segments blocks _ ih =>
    rcases List.mem_cons.1 h with rfl | later
    · exact Or.inl rfl
    · exact ih later
  | case4 frame segments blocks _ _ ih =>
    rcases List.mem_cons.1 h with rfl | later
    · cases blocks <;> simp
    · exact (ih later).imp_right List.mem_of_mem_tail

/-- A rule's content weighs less than the text that holds the rule. -/
theorem weight_content_lt {rule : Rule} {t : Text} (h : rule ∈ rulesOf t) :
    weight rule.content < weight t := by
  have nonempty : t ≠ [] := by
    rintro rfl
    cases h
  have base : weight t = t.count '{' + 1 := by simp [weight, nonempty]
  have bound : weight rule.content ≤ rule.content.count '{' + 1 := by
    unfold weight
    split <;> omega
  rcases content_of_mem_deal h with none | inside
  · rw [none, base]
    exact Nat.succ_pos _
  · have := (count_cutFrom_le 0 (Quoted.shield t)).2 _ inside
    have := count_shieldFrom_le none t
    rw [Quoted.shield] at *
    omega

end ScopedCss
