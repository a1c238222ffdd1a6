import ScopedCss.CommaList
import ScopedCss.NameTable
import ScopedCss.Text.Scan

/-!
# Names of keyframes in animations

An animation value lists layers separated by commas.  In each layer the first word or quoted string
outside parentheses that is the recorded name of keyframes is renamed; everything else stays.
-/
namespace ScopedCss

/-- What may name keyframes: a run of name characters, or a quoted string. -/
inductive AnimationWord where
  | bare (name : Text)
  /-- A string.  If it is not closed it runs to the end of the layer. -/
  | quoted (quote : Char) (name : Text) (closed : Bool)
deriving DecidableEq

namespace AnimationWord

/-- The name, without quotes. -/
def name : AnimationWord → Text
  | bare name => name
  | quoted _ name _ => name

/-- The same word with another name. -/
def withName (new : Text) : AnimationWord → AnimationWord
  | bare _ => bare new
  | quoted quote _ closed => quoted quote new closed

/-- The characters of the word. -/
def spell : AnimationWord → Text
  | bare name => name
  | quoted quote name closed => quote :: name ++ if closed then [quote] else []

/-- Reads the word at the front of a text. -/
def read : Text → Option AnimationWord
  | [] => none
  | c :: t =>
    if Text.isQuote c then some (quoted c (t.takeWhile (· != c)) (c ∈ t))
    else if Text.isNameChar c then some (bare (c :: t.takeWhile Text.isNameChar))
    else none

theorem quoted_front (c : Char) (t : Text) :
    t.takeWhile (· != c) ++ (if c ∈ t then [c] else []) <+: t := by
  induction t with
  | nil => exact ⟨[], rfl⟩
  | cons d t ih =>
    by_cases same : d = c
    · subst same
      exact ⟨t, by simp⟩
    · obtain ⟨rest, split⟩ := ih
      have other : c ≠ d := fun h => same h.symm
      exact ⟨rest, by simpa [same, other] using split⟩

/-- Recognises words and strings. -/
def recogniser : Recogniser AnimationWord where
  read := read
  spell := spell
  spell_front {t word} h := by
    unfold read at h
    split at h
    next => cases h
    next c t =>
      split at h
      next =>
        cases h
        exact List.cons_prefix_cons.2 ⟨rfl, by simpa using quoted_front c t⟩
      next =>
        split at h
        next =>
          cases h
          exact List.cons_prefix_cons.2
            ⟨rfl, ⟨t.dropWhile Text.isNameChar, List.takeWhile_append_dropWhile⟩⟩
        next => cases h
  spell_ne_nil {t word} h := by
    unfold read at h
    split at h
    next => cases h
    next c t =>
      split at h
      next => cases h; simp [spell]
      next =>
        split at h
        next => cases h; simp [spell]
        next => cases h

end AnimationWord

namespace Animation

/-- The segments of a layer with the first recorded name outside parentheses renamed, where a given
number of parentheses is open at the front.  Nothing if there is no such name. -/
def renameFrom (keyframes : NameTable) : Nat → List (Segment AnimationWord) → Option Text
  | _, [] => none
  | depth, .plain c :: segments =>
    let depth := if c = '(' then depth + 1 else if c = ')' then depth - 1 else depth
    (renameFrom keyframes depth segments).map (c :: ·)
  | depth, .hit word :: segments =>
    match if depth = 0 then keyframes.find? word.name else none with
    | some new => some ((word.withName new).spell ++ AnimationWord.recogniser.spellAll segments)
    | none => (renameFrom keyframes depth segments).map (word.spell ++ ·)

/-- A layer with the first recorded name outside parentheses renamed. -/
def renameLayer (keyframes : NameTable) (layer : Text) : Option Text :=
  renameFrom keyframes 0 (AnimationWord.recogniser.scan layer)

/-- An animation with the names in its layers renamed, if there are any. -/
def rename (keyframes : NameTable) (value : Text) : Option Text :=
  CommaList.mapSome (renameLayer keyframes) value

end Animation
end ScopedCss
