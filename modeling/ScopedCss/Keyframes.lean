import ScopedCss.Ledger
import ScopedCss.Text.Search

/-!
# Keyframes

The selector of a `@keyframes` rule is the at-word, with or without a vendor, then spaces, then a
name that may be quoted.  Quotes and spaces around the name are kept when it is renamed.

A quote counts only with something to quote: in `@keyframes "` the name is the quote.  If nothing
but spaces follows the at-word, the last of several spaces is the name.
-/
namespace ScopedCss

/-- The selector of a `@keyframes` rule, cut around its name. -/
structure KeyframesSelector where
  /-- The at-word and the spaces behind it. -/
  start : Text
  openingQuote : Text
  name : Text
  closingQuote : Text
  /-- The spaces at the end. -/
  back : Text
deriving DecidableEq

namespace KeyframesSelector

/-- The at-words that start keyframes. -/
def atWords : List Text :=
  ["@keyframes", "@-webkit-keyframes", "@-moz-keyframes", "@-o-keyframes"].map String.toList

/-- The characters of the selector. -/
def spell (selector : KeyframesSelector) : Text :=
  selector.start ++ selector.openingQuote ++ selector.name ++ selector.closingQuote ++ selector.back

/-- Cuts what follows an opening quote, or the spaces if there is none, around the name. -/
def splitName (t : Text) : Text × Text × Text :=
  match Text.trimEnd t with
  | [] => (t.take 1, [], t.drop 1)
  | body =>
    if 2 ≤ body.length ∧ body.getLast?.any Text.isQuote then
      (body.dropLast, body.drop (body.length - 1), Text.trailing t)
    else (body, [], Text.trailing t)

/-- Reads a selector of keyframes. -/
def ofText? (t : Text) : Option KeyframesSelector :=
  atWords.findSome? fun word =>
    (word.isPrefixOf? t).bind fun rest =>
      let spaces := Text.leading rest
      match Text.trimStart rest with
      | [] =>
        if 2 ≤ spaces.length then
          some { start := word ++ spaces.dropLast, openingQuote := [],
                 name := spaces.drop (spaces.length - 1), closingQuote := [], back := [] }
        else none
      | c :: inside =>
        if spaces.isEmpty then none
        else
          let quoted : Bool := Text.isQuote c && !inside.isEmpty
          let (name, closingQuote, back) := splitName (if quoted then inside else c :: inside)
          some { start := word ++ spaces, openingQuote := if quoted then [c] else [], name,
                 closingQuote, back }

/-- The name of keyframes scoped and recorded. -/
def renameName (scope : Text → Text) (name : Text) (ledger : Ledger) : Ledger × Text :=
  (ledger.insert .keyframes name (scope name), scope name)

/-- The selector of keyframes with its name scoped and recorded. -/
def rename (scope : Text → Text) (selector : KeyframesSelector) (ledger : Ledger) : Ledger × Text :=
  let (ledger, name) := renameName scope selector.name ledger
  (ledger, { selector with name := name }.spell)

end KeyframesSelector
end ScopedCss
