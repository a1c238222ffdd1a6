import ScopedCss.Mark
import ScopedCss.Text.Search

/-!
# Comments

A comment runs from `/*` to the next `*/`; a `/*` that no `*/` follows opens none.  Comments are
either dropped (`strip`) or set aside behind marks (`extract`) and put back later (`restore`): the
first mark then stands for the first comment, and so on.
-/
namespace ScopedCss.Comment

/-- The comment at the front of a text. -/
def read : Text → Option Text
  | '/' :: '*' :: t =>
    (Text.breakAt? ['*', '/'] t).map fun (inside, _) => '/' :: '*' :: inside ++ ['*', '/']
  | _ => none

/-- Recognises comments, each as its whole text. -/
def recogniser : Recogniser Text where
  read := read
  spell := id
  spell_front h := by
    unfold read at h
    split at h
    next t =>
      obtain ⟨⟨inside, after⟩, found, rfl⟩ := Option.map_eq_some_iff.1 h
      rw [Text.eq_of_breakAt? found]
      exact ⟨after, by simp⟩
    next => cases h
  spell_ne_nil h := by
    unfold read at h
    split at h
    next t =>
      obtain ⟨_, _, rfl⟩ := Option.map_eq_some_iff.1 h
      simp
    next => cases h

/-- The text without its comments. -/
def strip (t : Text) : Text := recogniser.substitute (fun _ => []) t

/-- A text whose comments are set aside: marks stand for them, in order. -/
structure Extracted where
  text : Text
  comments : List Text

/-- The text with its comments set aside. -/
def extract (t : Text) : Extracted where
  text := recogniser.substitute (fun _ => Mark.comment) t
  comments := (recogniser.scan t).filterMap Segment.hit?

/-- Segments spelled out with comments dealt to the marks in order. -/
def deal : List Text → List (Segment Unit) → Text
  | _, [] => []
  | comments, .plain c :: segments => c :: deal comments segments
  | comment :: comments, .hit _ :: segments => comment ++ deal comments segments
  | [], .hit _ :: segments => Mark.comment ++ deal [] segments

/-- The text with the comments put back at the marks, first at first.  Marks beyond the last comment
stay. -/
def restore (comments : List Text) (t : Text) : Text :=
  deal comments (Mark.commentWord.scan t)

end ScopedCss.Comment
