import ScopedCss.Selector.Attribute
import ScopedCss.Selector.Fragment

/-!
# The tokens of a selector

A selector is cut at its attribute selectors on classes and ids.  Each of these gives the token of
its value, and each piece of text between them gives the tokens of its fragments.  A selector that
starts with a digit, such as the `50%` of a keyframe, has no tokens.
-/
namespace ScopedCss.Selector

/-- Whether a selector starts, after spaces, with an ASCII digit. -/
def startsWithDigit (selector : Text) : Bool :=
  (Text.trimStart selector).head?.any Char.isDigit

/-- The tokens of a selector, in order. -/
def tokens (selector : Text) : List Token :=
  if startsWithDigit selector then []
  else
    let (first, rest) := Segment.runs (NamedAttribute.recogniser.scan selector)
    Fragment.tokens first ++
      rest.flatMap fun (named, after) => named.token?.toList ++ Fragment.tokens after

end ScopedCss.Selector
