import ScopedCss.Ledger
import ScopedCss.Options
import ScopedCss.Selector.Token

/-!
# What a token is renamed to

The category of a token decides whether it is scoped, the scheme decides how.  Types and `*` turn
into classes; the name of a type gets a marker before it is scoped, so that `div` and `.div` never
share a class.
-/
namespace ScopedCss

/-- What a token is renamed to, and what is recorded of it. -/
structure Renaming where
  category : Category
  name : Text
  scopedName : Text
deriving DecidableEq

namespace Token

/-- Appended to the name of an element type before it is scoped. -/
def elementMarker : Text := "_el".toList

/-- The words of a name with `_` between neighbours: `cell center` is scoped as `cell_center`. -/
def joinWords (name : Text) : Text := Text.joinWith ['_'] (Text.words name)

/-- The category of a token's name.  Pseudo-classes and unknown fragments name nothing. -/
def category? : Token → Option Category
  | element _ => some .elements
  | universal => some .elements
  | ofClass _ => some .classes
  | ofId _ => some .ids
  | attributeValue onId _ => some (if onId then .ids else .classes)
  | pseudo _ => none
  | unknown _ => none

/-- Tokens name elements, classes and ids. -/
theorem known_of_category? {token : Token} {category : Category}
    (kind : token.category? = some category) :
    category = .elements ∨ category = .classes ∨ category = .ids := by
  cases token with
  | attributeValue onId value => cases onId <;> cases kind <;> simp
  | pseudo name => cases kind
  | unknown text => cases kind
  | _ => cases kind; simp

/-- The name under which a token is recorded. -/
def name : Token → Text
  | element name => name
  | ofClass name => name
  | ofId name => name
  | attributeValue _ value => value
  | universal => ['*']
  | pseudo name => name
  | unknown text => text

/-- The name that is scoped for a token, after the given number of `*`. -/
def nameToScope (scheme : Scheme) (asterisks : Nat) : Token → Text
  | element name => scheme.elementName name ++ elementMarker
  | universal => scheme.asteriskName.resolve asterisks
  | ofClass name => joinWords name
  | attributeValue false value => joinWords value
  | token => token.name

/-- What a token is renamed to, if its category is scoped. -/
def renaming? (scheme : Scheme) (asterisks : Nat) (token : Token) : Option Renaming :=
  match token.category? with
  | some category =>
    if scheme.switches.on category then
      some ⟨category, token.name, bareName (scheme.scope (token.nameToScope scheme asterisks))⟩
    else none
  | none => none

/-- The text that takes the place of a token that gets a scoped name. -/
def replacement (scopedName : Text) : Token → Text
  | ofId _ => idSelector scopedName
  | attributeValue _ _ => scopedName
  | _ => classSelector scopedName

end Token

/-- The ledger after a token was renamed. -/
def Ledger.rename (ledger : Ledger) (token : Token) (r : Renaming) : Ledger :=
  let ledger := ledger.insert r.category r.name r.scopedName
  if token = .universal then { ledger with asterisks := ledger.asterisks + 1 } else ledger

end ScopedCss
