import ScopedCss.Mark

/-!
# Blocks

A block is what stands between `{` and the `}` that closes it. `cut` takes the outermost blocks out
of a text and leaves a mark in place of each content, so that the text between the blocks can be
read without them; `close` appends the braces that a text leaves open.

`cut` works on a text whose strings are shielded, `close` on a text as it was written.  To both a
backslash protects the character after it.
-/
namespace ScopedCss.Block

/-- A text cut at its outermost blocks. -/
structure Cut where
  /-- The content, up to its end, of the block that is open where the text starts. -/
  inside : Text
  /-- The rest of the text, a mark in place of the content of each block. -/
  text : Text
  /-- The contents of the blocks that open in the text, in order. -/
  blocks : List Text
deriving DecidableEq

/-- Cuts a text at the front of which the given number of blocks is open. -/
def cutFrom : Nat → Text → Cut
  | 0, [] => ⟨[], [], []⟩
  | _ + 1, [] => ⟨[], Mark.block, []⟩
  | 0, '\\' :: c :: t =>
    let cut := cutFrom 0 t
    ⟨[], '\\' :: c :: cut.text, cut.blocks⟩
  | depth + 1, '\\' :: c :: t =>
    let cut := cutFrom (depth + 1) t
    ⟨'\\' :: c :: cut.inside, cut.text, cut.blocks⟩
  | 0, c :: t =>
    if c = '{' then
      let cut := cutFrom 1 t
      ⟨[], '{' :: cut.text, cut.inside :: cut.blocks⟩
    else
      let cut := cutFrom 0 t
      ⟨[], c :: cut.text, cut.blocks⟩
  | depth + 1, c :: t =>
    if c = '}' ∧ depth = 0 then
      let cut := cutFrom 0 t
      ⟨[], Mark.block ++ '}' :: cut.text, cut.blocks⟩
    else
      let cut := cutFrom (if c = '{' then depth + 2 else if c = '}' then depth else depth + 1) t
      ⟨c :: cut.inside, cut.text, cut.blocks⟩

/-- A shielded text cut at its outermost blocks.  A block that is never closed runs to the end. -/
def cut (t : Text) : Cut := cutFrom 0 t

/-- The number of blocks open at the end of a text, given the quote of the string and the number of
blocks open at its front.  Braces inside strings do not count, and a `}` without a `{` closes
nothing. -/
def openFrom : Option Char → Nat → Text → Nat
  | _, depth, [] => depth
  | quote, depth, '\\' :: _ :: t => openFrom quote depth t
  | some quote, depth, c :: t => openFrom (if c = quote then none else some quote) depth t
  | none, depth, c :: t =>
    openFrom (if Text.isQuote c then some c else none)
      (if c = '{' then depth + 1 else if c = '}' then depth - 1 else depth) t

/-- The number of blocks that a text leaves open. -/
def openAtEnd (t : Text) : Nat := openFrom none 0 t

/-- The text with a `}` appended for every block it leaves open. -/
def close (t : Text) : Text := t ++ List.replicate (openAtEnd t) '}'

end ScopedCss.Block
