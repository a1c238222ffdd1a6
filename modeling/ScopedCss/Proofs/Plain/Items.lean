import Mathlib.Data.List.Chain
import ScopedCss.Selector.Attribute
import ScopedCss.Selector.Fragment
import ScopedCss.Selector.Renaming

/-!
# Plain selector lists

A plain selector list is what style sheets mostly hold: types and `*` at the start of compounds,
classes, ids, pseudo-classes and pseudo-elements, attribute selectors, functions that take selectors,
combinators, commas and the marks of comments.  Here such a list is not a text but a row of *items*,
each with the proofs that it is well formed, and `text` spells it.

What scoping should make of a list is then a matter of its items.  An item of a category that is
scoped has a `record?`, its name and its scoped name; its scoped form stands in its place, and every
other item stays, except that a class attribute compared by `=` is compared by `~=` afterwards.

Spaces between items are those within ASCII: other spaces count as name characters in selectors.
-/
namespace ScopedCss.Plain

/-- The spaces that separate the items of a list. -/
def blanks : List Char := [' ', '\t', '\n', '\x0b', '\x0c', '\r']

/-- ASCII letters and digits, `_` and `-`. -/
def isNameChar (c : Char) : Bool := c.isAlphanum || c == '_' || c == '-'

/-- The name of a class, an id, a pseudo-class, an attribute. -/
structure Name where
  text : Text
  nonempty : text ≠ []
  plain : ∀ c ∈ text, isNameChar c

/-- A character that may stand in the value of an attribute. -/
def isValueChar (c : Char) : Bool :=
  !Text.isQuote c && !(['[', ']', '(', ')', ',', '\\'].contains c)

/-- What an attribute is compared with: an operator, and a value, bare or in quotes. -/
structure Comparison where
  /-- The character before `=`, if the operator has one. -/
  operator : Option Char
  lead : Text
  quote : Option Char
  value : Text
  back : Text
  isOperator : ∀ c ∈ operator, c ∈ ['*', '^', '$', '~', '|']
  lead_spaces : ∀ c ∈ lead, Text.isSpace c
  isQuote : ∀ c ∈ quote, Text.isQuote c
  value_chars : ∀ c ∈ value, isValueChar c
  back_spaces : ∀ c ∈ back, Text.isSpace c
  /-- The spaces around a bare value do not belong to it, and those of an empty one stand before
  it. -/
  bare : quote = none → (∀ c ∈ value.head?, Text.isSpace c = false) ∧
    (∀ c ∈ value.getLast?, Text.isSpace c = false) ∧ (value = [] → back = [])

/-- An attribute selector, with the spaces around its name. -/
structure Attribute where
  lead : Text
  name : Name
  gap : Text
  comparison : Option Comparison
  lead_spaces : ∀ c ∈ lead, Text.isSpace c
  gap_spaces : ∀ c ∈ gap, Text.isSpace c

/-- An item of a plain selector list. -/
inductive Item where
  | type (name : Text) (letters : Token.isElementName name)
  | universal
  | ofClass (name : Name)
  | ofId (name : Name)
  /-- A pseudo-class or, with two colons, a pseudo-element. -/
  | pseudo (element : Bool) (name : Name)
  /-- A function that takes selectors, through its opening parenthesis. -/
  | function (name : Name) (selectors : Fragment.takesPlainArgument name.text = false)
  | close
  | attr (a : Attribute)
  | space (c : Char) (blank : c ∈ blanks)
  | combinator (c : Char) (known : c ∈ ['>', '+', '~'])
  | comma
  | comment

/-! ### Spelling -/

namespace Comparison
variable (c : Comparison)

/-- The characters of an operator. -/
def operatorText : Text := c.operator.toList ++ ['=']

/-- The character of `~=` is one of an operator. -/
theorem isOperator_getD : ∀ d ∈ some (c.operator.getD '~'), d ∈ ['*', '^', '$', '~', '|'] := by
  intro d mem
  cases Option.some.inj mem
  cases h : c.operator with
  | none => decide
  | some e => exact c.isOperator e h

/-- The characters from the operator on, up to the closing bracket. -/
def text : Text :=
  c.operatorText ++ (c.lead ++ (c.quote.toList ++ (c.value ++ (c.quote.toList ++ c.back))))

end Comparison

namespace Attribute
variable (a : Attribute)

/-- The characters behind the name. -/
def tail : Text := a.gap ++ ((a.comparison.elim [] Comparison.text) ++ [']'])

/-- The characters of an attribute selector. -/
def text : Text := '[' :: (a.lead ++ (a.name.text ++ a.tail))

/-- The attribute selector as it is read, if it compares classes or ids with a value. -/
def named? : Option NamedAttribute :=
  match a.comparison with
  | none => none
  | some c =>
    if a.name.text = "class".toList ∨ a.name.text = "id".toList then
      some { onId := a.name.text = "id".toList
             opening := '[' :: (a.lead ++ (a.name.text ++ (a.gap ++
               (c.operatorText ++ (c.lead ++ c.quote.toList)))))
             value := c.value
             closing := c.quote.toList ++ (c.back ++ [']']) }
    else none

/-- The attribute selector with `~=` in place of `=` if it compares classes. -/
def normal : Attribute :=
  if a.name.text = "class".toList then
    { a with comparison := a.comparison.map fun c =>
        { c with operator := some (c.operator.getD '~'), isOperator := c.isOperator_getD } }
  else a

end Attribute

namespace Item

/-- The characters of an item. -/
def text : Item → Text
  | type name _ => name
  | universal => ['*']
  | ofClass name => classSelector name.text
  | ofId name => idSelector name.text
  | pseudo element name => ':' :: ((if element then [':'] else []) ++ name.text)
  | function name _ => ':' :: (name.text ++ ['('])
  | close => [')']
  | attr a => a.text
  | space c _ => [c]
  | combinator c _ => [c]
  | comma => [',']
  | comment => Mark.comment

/-- The item with `~=` in place of `=` if it compares classes. -/
def normal : Item → Item
  | attr a => attr a.normal
  | item => item

/-- Whether an item stands at the start of a compound only. -/
def startsCompound : Item → Bool
  | type _ _ => true
  | universal => true
  | _ => false

/-- Whether a compound can start behind an item. -/
def endsCompound : Item → Bool
  | function _ _ => true
  | space _ _ => true
  | combinator _ _ => true
  | comma => true
  | comment => true
  | _ => false

/-- What is recorded of an item in a category that is scoped: the category, the name and its scoped
form. -/
def record? (scheme : Scheme) : Item → Option (Category × Text × Text)
  | type name _ =>
    if scheme.switches.elements then
      some (.elements, name,
        bareName (scheme.scope (scheme.elementName name ++ Token.elementMarker)))
    else none
  | universal =>
    if scheme.switches.elements then
      some (.elements, ['*'], bareName (scheme.scope (scheme.asteriskName.resolve 0)))
    else none
  | ofClass name =>
    if scheme.switches.classes then
      some (.classes, name.text, bareName (scheme.scope name.text))
    else none
  | ofId name =>
    if scheme.switches.ids then some (.ids, name.text, bareName (scheme.scope name.text)) else none
  | attr a =>
    match a.named? with
    | none => none
    | some named =>
      if named.value = [] then none
      else if named.onId then
        if scheme.switches.ids then
          some (.ids, named.value, bareName (scheme.scope named.value))
        else none
      else
        if scheme.switches.classes then
          some (.classes, named.value, bareName (scheme.scope (Token.joinWords named.value)))
        else none
  | _ => none

/-- The characters of an item with a scoped name.  Types and `*` become classes. -/
def textWith (scopedName : Text) : Item → Text
  | ofId _ => idSelector scopedName
  | attr a =>
    match a.named? with
    | none => a.text
    | some named => named.opening ++ scopedName ++ named.closing
  | _ => classSelector scopedName

/-- What becomes of an item. -/
def scopedText (scheme : Scheme) (item : Item) : Text :=
  match item.record? scheme with
  | none => item.normal.text
  | some (_, _, scopedName) => item.normal.textWith scopedName

end Item

/-- The characters of items in a row. -/
def render (items : List Item) : Text := items.flatMap Item.text

end Plain

/-- A plain selector list: items of which types and `*` only stand where a compound starts. -/
structure PlainList where
  items : List Plain.Item
  compounds : items.IsChain fun item next => next.startsCompound → item.endsCompound

/-- The characters of a plain selector list. -/
def PlainList.text (list : PlainList) : Text := Plain.render list.items

end ScopedCss
