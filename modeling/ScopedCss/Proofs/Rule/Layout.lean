import ScopedCss.Block
import ScopedCss.Rule.Frame

/-!
# Texts laid out around their blocks

A text is what stands before its first outermost block, and then for each block its content and what
stands behind it, up to the next one.  Cutting the blocks out leaves everything but the contents, in
place of each of which a mark stands (`cut_eq`).
-/
namespace ScopedCss.Block

/-- A text laid out around its outermost blocks. -/
structure Layout where
  /-- What stands before the first block. -/
  front : Text
  /-- The content of each block, and what stands behind it: the brace that closes it, unless it is
  never closed, and the text up to the next block. -/
  blocks : List (Text × Text)

namespace Layout

/-- Blocks in a row, each with something in place of its content. -/
def rowWith (fill : Text → Text) (blocks : List (Text × Text)) : Text :=
  blocks.flatMap fun (content, behind) => '{' :: (fill content ++ behind)

/-- The characters of a text that is laid out. -/
def text (layout : Layout) : Text := layout.front ++ rowWith id layout.blocks

/-- The characters of the text with a mark in place of the content of each block. -/
def marked (layout : Layout) : Text := layout.front ++ rowWith (fun _ => Mark.block) layout.blocks

/-- The contents of the blocks, in order. -/
def contents (layout : Layout) : List Text := layout.blocks.map Prod.fst

/-- The layout with a character before it. -/
def cons (c : Char) (layout : Layout) : Layout := ⟨c :: layout.front, layout.blocks⟩

@[simp] theorem rowWith_cons (fill : Text → Text) (content behind : Text)
    (blocks : List (Text × Text)) : rowWith fill ((content, behind) :: blocks) =
      '{' :: (fill content ++ (behind ++ rowWith fill blocks)) := by
  simp [rowWith]

/-- A row of blocks is empty, or starts with the brace that opens its first one. -/
theorem head_rowWith (fill : Text → Text) (blocks : List (Text × Text)) :
    ∀ c ∈ (rowWith fill blocks).head?, c = '{' := by
  cases blocks with
  | nil => nofun
  | cons block blocks =>
    rintro c ⟨⟩
    rfl

end Layout

/-- A text at the front of which the given number of blocks is open: the content, up to its end, of
the block that is open there, and the layout behind it. -/
def layoutFrom : Nat → Text → Text × Layout
  | _, [] => ([], ⟨[], []⟩)
  | 0, '\\' :: c :: t => ([], ((layoutFrom 0 t).2.cons c).cons '\\')
  | depth + 1, '\\' :: c :: t =>
    let laid := layoutFrom (depth + 1) t
    ('\\' :: c :: laid.1, laid.2)
  | 0, c :: t =>
    if c = '{' then
      let laid := layoutFrom 1 t
      ([], ⟨[], (laid.1, laid.2.front) :: laid.2.blocks⟩)
    else ([], (layoutFrom 0 t).2.cons c)
  | depth + 1, c :: t =>
    if c = '}' ∧ depth = 0 then ([], (layoutFrom 0 t).2.cons '}')
    else
      let laid := layoutFrom (if c = '{' then depth + 2 else if c = '}' then depth else depth + 1) t
      (c :: laid.1, laid.2)

/-- A shielded text laid out around its outermost blocks. -/
def layout (t : Text) : Layout := (layoutFrom 0 t).2

/-- Outside blocks there is no content that goes on. -/
theorem layoutFrom_zero (t : Text) : (layoutFrom 0 t).1 = [] := by
  cases t with
  | nil => rfl
  | cons c t =>
    unfold layoutFrom
    split <;> first | rfl | contradiction | split <;> rfl

@[simp] theorem Layout.text_cons (c : Char) (layout : Layout) :
    (layout.cons c).text = c :: layout.text := rfl

@[simp] theorem Layout.marked_cons (c : Char) (layout : Layout) :
    (layout.cons c).marked = c :: layout.marked := rfl

/-- A layout loses nothing of the text. -/
theorem text_layoutFrom (depth : Nat) (t : Text) :
    (layoutFrom depth t).1 ++ (layoutFrom depth t).2.text = t := by
  fun_induction layoutFrom depth t with
  | case1 => rfl
  | case2 c t ih =>
    rw [layoutFrom_zero] at ih
    exact congrArg ('\\' :: c :: ·) ih
  | case3 depth c t laid ih => exact congrArg ('\\' :: c :: ·) ih
  | case4 t laid _ ih =>
    rw [Layout.text, Layout.rowWith_cons]
    exact congrArg ('{' :: ·) ih
  | case5 c t _ _ ih =>
    rw [layoutFrom_zero] at ih
    exact congrArg (c :: ·) ih
  | case6 depth c t _ closes ih =>
    rw [layoutFrom_zero] at ih
    rw [closes.1]
    exact congrArg ('}' :: ·) ih
  | case7 depth c t _ _ laid ih => exact congrArg (c :: ·) ih

theorem text_layout (t : Text) : (layout t).text = t := by
  have whole := text_layoutFrom 0 t
  rwa [layoutFrom_zero, List.nil_append] at whole

/-- A block is open until a brace closes the outermost one. -/
theorem depth_pos {depth : Nat} {c : Char} (other : ¬ (c = '}' ∧ depth = 0)) :
    0 < if c = '{' then depth + 2 else if c = '}' then depth else depth + 1 := by
  by_cases opens : c = '{'
  · simp [opens]
  · by_cases closes : c = '}'
    · simpa [closes] using Nat.pos_of_ne_zero fun zero => other ⟨closes, zero⟩
    · simp [opens, closes]

/-- Cutting the blocks out of a text leaves the rest of its layout. -/
theorem cutFrom_eq (depth : Nat) (t : Text) :
    cutFrom depth t = ⟨(layoutFrom depth t).1,
      (if depth = 0 then [] else Mark.block) ++ (layoutFrom depth t).2.marked,
      (layoutFrom depth t).2.contents⟩ := by
  fun_induction layoutFrom depth t with
  | case1 depth => cases depth <;> simp [cutFrom, Layout.marked, Layout.rowWith, Layout.contents]
  | case2 c t ih => simp [cutFrom, ih, Layout.cons, Layout.contents, Layout.marked]
  | case3 depth c t laid ih => simp [cutFrom, ih, laid]
  | case4 t laid clean ih => simp [cutFrom, ih, laid, Layout.contents, Layout.marked]
  | case5 c t clean other ih => simp [cutFrom, ih, other, Layout.cons, Layout.contents, Layout.marked]
  | case6 depth c t clean closes ih =>
    simp [cutFrom, ih, closes, Layout.cons, Layout.contents, Layout.marked]
  | case7 depth c t clean other laid ih =>
    rw [cutFrom, if_neg other, ih]
    · simp [Nat.ne_of_gt (depth_pos other), laid]
    · exact clean

theorem cut_eq (t : Text) : cut t = ⟨[], (layout t).marked, (layout t).contents⟩ := by
  rw [cut, cutFrom_eq, layoutFrom_zero]
  rfl

/-- Behind a block stands the brace that closes it, or nothing at all. -/
theorem head_layoutFrom (depth : Nat) (t : Text) :
    (0 < depth → (layoutFrom depth t).2.front = [] ∨
      (layoutFrom depth t).2.front.head? = some '}') ∧
    ∀ block ∈ (layoutFrom depth t).2.blocks, block.2 = [] ∨ block.2.head? = some '}' := by
  fun_induction layoutFrom depth t with
  | case1 => exact ⟨fun _ => .inl rfl, by simp⟩
  | case2 c t ih => exact ⟨nofun, ih.2⟩
  | case3 depth c t laid ih => exact ih
  | case4 t laid _ ih =>
    refine ⟨nofun, fun block mem => ?_⟩
    rcases List.mem_cons.1 mem with rfl | mem
    · exact ih.1 Nat.one_pos
    · exact ih.2 block mem
  | case5 c t _ _ ih => exact ⟨nofun, ih.2⟩
  | case6 depth c t _ _ ih => exact ⟨fun _ => .inr rfl, ih.2⟩
  | case7 depth c t _ other laid ih =>
    exact ⟨fun _ => ih.1 (depth_pos other), ih.2⟩

end ScopedCss.Block
