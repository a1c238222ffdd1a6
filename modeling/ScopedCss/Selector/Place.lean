import ScopedCss.Mark
import ScopedCss.Selector.Attribute

/-!
# Where a token stands

A token is found again in the selector list by its text, or by the attribute selector that holds its
value.  The text of a token counts only where it is a whole name outside brackets, strings, comments
and escapes: no name character follows it, and if it starts with a name character itself, neither a
name character nor `.`, `#` or `:` stands before it.
-/
namespace ScopedCss

/-- A place in a text. -/
structure Place where
  before : Text
  /-- What stands at the place. -/
  old : Text
  /-- What belongs to the place but is kept: the rest of an attribute selector. -/
  closing : Text
  after : Text
deriving DecidableEq

namespace Place

/-- Reads what no name starts in: a character behind a backslash, or the mark of a comment. -/
def readHidden : Text → Option Text
  | '\\' :: c :: _ => some ['\\', c]
  | t => if Mark.comment.isPrefixOf t then some Mark.comment else none

/-- Recognises what no name starts in. -/
def hidden : Recogniser Text where
  read := readHidden
  spell := id
  spell_front h := by
    unfold readHidden at h
    split at h
    next c t => cases h; exact ⟨t, rfl⟩
    next =>
      split at h
      next front => cases h; exact List.isPrefixOf_iff_prefix.1 front
      next => cases h
  spell_ne_nil h := by
    unfold readHidden at h
    split at h
    next => cases h; simp
    next =>
      split at h
      next => cases h; decide
      next => cases h

/-- Whether a name that starts after a given character is a name of its own. -/
def startsName (name : Text) (previous : Option Char) : Bool :=
  !name.head?.any Text.isNameChar ||
    !previous.any fun c => c == '.' || c == '#' || c == ':' || Text.isNameChar c

/-- Whether a name that is followed by the given segments ends where they start. -/
def endsName : List (Segment Text) → Bool
  | .plain c :: _ => !Text.isNameChar c
  | _ => true

/-- What stands before and after the first place of a name in segments, where the quote of an open
string, the number of open brackets and the character before them are given. -/
def findName (name : Text) :
    Option Char → Nat → Option Char → List (Segment Text) →
      Option (List (Segment Text) × List (Segment Text))
  | _, _, _, [] => none
  | quote, depth, _, .hit h :: s => step (.hit h) (findName name quote depth h.getLast? s)
  | some quote, depth, _, .plain c :: s =>
    step (.plain c) (findName name (if c = quote then none else some quote) depth (some c) s)
  | none, depth, previous, .plain c :: s =>
    if Text.isQuote c then step (.plain c) (findName name (some c) depth (some c) s)
    else if c = '[' then step (.plain c) (findName name none (depth + 1) (some c) s)
    else if c = ']' then step (.plain c) (findName name none (depth - 1) (some c) s)
    else
      match (name.map Segment.plain).isPrefixOf? (.plain c :: s) with
      | some after =>
        if depth = 0 ∧ endsName after ∧ startsName name previous then some ([], after)
        else step (.plain c) (findName name none depth (some c) s)
      | none => step (.plain c) (findName name none depth (some c) s)
where
  /-- A place found further on, seen from one segment earlier. -/
  step (segment : Segment Text) (found : Option (List (Segment Text) × List (Segment Text))) :
      Option (List (Segment Text) × List (Segment Text)) :=
    found.map fun (before, after) => (segment :: before, after)

/-- The first place of a name in a text that follows a given character. -/
def ofName? (name : Text) (previous : Option Char) (t : Text) : Option Place :=
  (findName name none 0 previous (hidden.scan t)).map fun (before, after) =>
    { before := hidden.spellAll before, old := name, closing := [], after := hidden.spellAll after }

/-- Whether a segment is an attribute selector on ids, or else on classes, with a given value. -/
def isNamed (onId : Bool) (value : Text) : Segment NamedAttribute → Bool
  | .hit a => a.onId == onId && a.value == value
  | .plain _ => false

/-- The place of the value in the first attribute selector on ids, or else on classes, that has a
given value. -/
def ofValue? (onId : Bool) (value : Text) (t : Text) : Option Place :=
  let r := NamedAttribute.recogniser
  match (r.scan t).span fun segment => !isNamed onId value segment with
  | (before, .hit a :: after) =>
    some { before := r.spellAll before ++ a.opening, old := value, closing := a.closing,
           after := r.spellAll after }
  | _ => none

/-- The first place of a token in a text that follows a given character. -/
def ofToken? (token : Token) (previous : Option Char) (t : Text) : Option Place :=
  match token with
  | .attributeValue onId value => ofValue? onId value t
  | token => ofName? token.text previous t

end Place
end ScopedCss
