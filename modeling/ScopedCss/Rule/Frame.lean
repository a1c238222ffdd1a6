import ScopedCss.Mark
import ScopedCss.Text.Search

/-!
# Frames of rules

Once blocks are cut out, a rule is a run of characters other than `;`, `{` and `}`, followed by `;`
or by a brace and the mark of a block.  Its *frame* is how the run and the ending are laid out: what
leads up to the selector, the selector, the gap behind it, and the ending.

Spaces and comments lead up to the selector, and the selector does not end in a space.  A run of
nothing but spaces and comments still has a selector: its last space, or its last comment.
-/
namespace ScopedCss

/-- How a rule ends. -/
inductive Ending where
  /-- With a semicolon. -/
  | statement
  /-- With a block; what follows its content is the closing brace, unless the block is never closed,
  spaces and a semicolon, each if it is there. -/
  | block (closing : Text)
deriving DecidableEq

/-- The characters of an ending around a content. -/
def Ending.around (content : Text) : Ending → Text
  | .statement => content ++ [';']
  | .block closing => '{' :: content ++ closing

/-- The content of a rule in a text whose blocks are cut out: the mark of a block, if it has one. -/
def Ending.content : Ending → Text
  | .statement => []
  | .block _ => Mark.block

/-- The layout of a rule. -/
structure Frame where
  /-- The spaces and comments before the selector. -/
  lead : Text
  selector : Text
  /-- The spaces behind the selector. -/
  gap : Text
  ending : Ending
deriving DecidableEq

namespace Frame

/-- A structural character ends the run that a rule starts with. -/
def isStructural (c : Char) : Bool := c == ';' || c == '{' || c == '}'

/-- Whether a segment is a space or the mark of a comment. -/
def isFiller : Segment Unit → Bool
  | .hit _ => true
  | .plain c => Text.isSpace c

/-- The spaces and marks of comments at the front of a text. -/
def filler (t : Text) : Text :=
  Mark.commentWord.spellAll ((Mark.commentWord.scan t).takeWhile isFiller)

/-- A run cut into what leads up to the selector, the selector and the gap behind it. -/
def splitRun (run : Text) : Text × Text × Text :=
  let lead := filler run
  let rest := run.drop lead.length
  if rest.isEmpty then
    -- Only filler: its last piece has to be the selector.
    let last := if run.getLast?.any Text.isSpace then 1 else Mark.comment.length
    (run.take (run.length - last), run.drop (run.length - last), [])
  else
    (lead, Text.trimEnd rest, Text.trailing rest)

/-- What follows the content of a block: a closing brace, spaces and a semicolon, each if it is
there. -/
def closing (t : Text) : Text :=
  let brace := if t.head? = some '}' then ['}'] else []
  let rest := t.drop brace.length
  let semicolon := if (Text.trimStart rest).head? = some ';' then [';'] else []
  brace ++ Text.leading rest ++ semicolon

/-- The ending of a rule at the front of a text. -/
def readEnding : Text → Option Ending
  | ';' :: _ => some .statement
  | '{' :: t => (Mark.block.isPrefixOf? t).map fun rest => .block (closing rest)
  | _ => none

/-- The frame of a rule at the front of a text. -/
def read (t : Text) : Option Frame :=
  match t.takeWhile fun c => !isStructural c with
  | [] => none
  | c :: run =>
    (readEnding (t.dropWhile fun c => !isStructural c)).map fun ending =>
      let (lead, selector, gap) := splitRun (c :: run)
      { lead, selector, gap, ending }

/-- The characters of a frame around a selector and a content. -/
def around (frame : Frame) (selector content : Text) : Text :=
  frame.lead ++ selector ++ frame.gap ++ frame.ending.around content

/-- The characters of a frame in a text whose blocks are cut out. -/
def spell (frame : Frame) : Text := frame.around frame.selector frame.ending.content

theorem filler_front (t : Text) : filler t <+: t := by
  refine ⟨Mark.commentWord.spellAll ((Mark.commentWord.scan t).dropWhile isFiller), ?_⟩
  have whole := Mark.commentWord.spellAll_scan t
  rw [← List.takeWhile_append_dropWhile (p := isFiller) (l := Mark.commentWord.scan t)] at whole
  rw [Recogniser.spellAll, List.flatMap_append] at whole
  exact whole

/-- The three parts make up the run. -/
theorem splitRun_append (run : Text) :
    (splitRun run).1 ++ (splitRun run).2.1 ++ (splitRun run).2.2 = run := by
  unfold splitRun
  simp only
  split
  next => simp
  next =>
    rw [List.append_assoc, Text.trimEnd_append]
    exact List.prefix_iff_eq_append.1 (filler_front run)

theorem closing_front (t : Text) : closing t <+: t := by
  have semicolon (rest : Text) :
      (if (Text.trimStart rest).head? = some ';' then [';'] else []) <+: Text.trimStart rest := by
    split
    next found =>
      obtain ⟨after, split⟩ := List.head?_eq_some_iff.1 found
      exact split ▸ ⟨after, rfl⟩
    next => exact ⟨_, rfl⟩
  have spaced (rest : Text) :
      Text.leading rest ++ (if (Text.trimStart rest).head? = some ';' then [';'] else []) <+: rest := by
    obtain ⟨after, split⟩ := semicolon rest
    refine ⟨after, ?_⟩
    rw [List.append_assoc, split, Text.trimStart_append]
  unfold closing
  simp only [List.append_assoc]
  split
  next found =>
    obtain ⟨rest, rfl⟩ := List.head?_eq_some_iff.1 found
    exact List.cons_prefix_cons.2 ⟨rfl, by simpa using spaced rest⟩
  next => simpa using spaced t

theorem readEnding_front {t : Text} {ending : Ending} (h : readEnding t = some ending) :
    ending.around ending.content <+: t := by
  unfold readEnding at h
  split at h
  next t => cases h; exact ⟨t, rfl⟩
  next t =>
    obtain ⟨rest, found, rfl⟩ := Option.map_eq_some_iff.1 h
    obtain ⟨after, split⟩ := closing_front rest
    refine ⟨after, ?_⟩
    rw [Text.append_of_isPrefixOf? found]
    simp [Ending.around, Ending.content, split]
  next => cases h

/-- Recognises the frames of rules. -/
def recogniser : Recogniser Frame where
  read := read
  spell := spell
  spell_front {t frame} h := by
    unfold read at h
    split at h
    next => cases h
    next c run here =>
      obtain ⟨ending, found, rfl⟩ := Option.map_eq_some_iff.1 h
      obtain ⟨after, split⟩ := readEnding_front found
      refine ⟨after, ?_⟩
      have whole : t.takeWhile (fun c => !isStructural c) ++ t.dropWhile (fun c => !isStructural c) = t :=
        List.takeWhile_append_dropWhile
      rw [here, ← split, ← splitRun_append (c :: run)] at whole
      simpa [spell, around] using whole
  spell_ne_nil {t frame} h := by
    unfold read at h
    split at h
    next => cases h
    next c run here =>
      obtain ⟨ending, found, rfl⟩ := Option.map_eq_some_iff.1 h
      cases ending <;> simp [spell, around, Ending.around]

end Frame
end ScopedCss
