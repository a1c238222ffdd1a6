import ScopedCss.Text.Basic

/-!
# Rules

A rule is a selector with the content of its block.  A rule that ends in `;` has no block, and its
content is empty.  A selector that starts with `@` makes an at-rule, whose name says what its
content is: the content of a *grouping* at-rule is a style sheet again.
-/
namespace ScopedCss

/-- A selector with the content of its block. -/
structure Rule where
  selector : Text
  content : Text
deriving DecidableEq, Inhabited

namespace Rule

/-- The names of the at-rules that hold rules. -/
def groupingNames : List Text :=
  ["@media", "@supports", "@document", "@layer", "@container", "@scope", "@starting-style"].map
    String.toList

/-- Whether the rule is an at-rule. -/
def isAtRule (rule : Rule) : Bool := rule.selector.head? = some '@'

/-- Ends the name of an at-rule. -/
def endsAtName (c : Char) : Bool := Text.isSpace c || c == '(' || Text.isQuote c

/-- The name of an at-rule, with its `@`. -/
def atName? (rule : Rule) : Option Text :=
  if rule.isAtRule then some (rule.selector.takeWhile fun c => !endsAtName c) else none

/-- Whether the rule is an at-rule that holds rules. -/
def isGrouping (rule : Rule) : Bool := rule.atName?.any fun name => name ∈ groupingNames

/-- A grouping rule is an at-rule. -/
theorem isAtRule_of_isGrouping {rule : Rule} (h : rule.isGrouping) : rule.isAtRule := by
  by_cases isAt : rule.isAtRule
  · exact isAt
  · simp [isGrouping, atName?, isAt] at h

end Rule
end ScopedCss
