import ScopedCss.Text.Basic

/-!
# Tokens of a selector

A token is a fragment of a selector that may need a scoped name.  Each has a text, and its text says
which kind of token it is (`ofText`), so that nothing is lost between the two (`text_ofText`).

The value of a `[class=…]` or `[id=…]` attribute becomes a token as well.  Its text starts with a
marker, `[.` or `[#`, which no other token starts with.
-/
namespace ScopedCss

/-- A fragment of a selector that may need a scoped name. -/
inductive Token where
  /-- The name of an element type. -/
  | element (name : Text)
  /-- A class, without its full stop. -/
  | ofClass (name : Text)
  /-- An id, without its hash sign. -/
  | ofId (name : Text)
  /-- The value of an attribute that holds ids or classes. -/
  | attributeValue (onId : Bool) (value : Text)
  /-- The universal selector `*`. -/
  | universal
  /-- A pseudo-class or pseudo-element, with its colons. -/
  | pseudo (name : Text)
  /-- A fragment that is none of these. -/
  | unknown (text : Text)
deriving DecidableEq

/-- A name without the `.` or `#` it may start with. -/
def bareName : Text → Text
  | '.' :: name => name
  | '#' :: name => name
  | name => name

/-- The selector of a class. -/
def classSelector (name : Text) : Text := '.' :: name

/-- The selector of an id. -/
def idSelector (name : Text) : Text := '#' :: name

namespace Token

/-- The name of an element type is a letter followed by letters and digits, all within ASCII. -/
def isElementName : Text → Bool
  | [] => false
  | c :: t => c.isAlpha && t.all Char.isAlphanum

/-- The token with a given text. -/
def ofText : Text → Token
  | ['*'] => universal
  | '.' :: name => ofClass name
  | '#' :: name => ofId name
  | ':' :: name => pseudo (':' :: name)
  | '[' :: '.' :: value => attributeValue false value
  | '[' :: '#' :: value => attributeValue true value
  | t => if isElementName t then element t else unknown t

/-- The text of a token. -/
def text : Token → Text
  | element name => name
  | ofClass name => classSelector name
  | ofId name => idSelector name
  | attributeValue onId value => '[' :: (if onId then '#' else '.') :: value
  | universal => ['*']
  | pseudo name => name
  | unknown t => t

/-- Whether the token is the value of an attribute that holds ids. -/
def isIdAttribute : Token → Bool
  | attributeValue onId _ => onId
  | _ => false

/-- The text of a token is the text it was made of. -/
theorem text_ofText (t : Text) : (ofText t).text = t := by
  unfold ofText
  split <;> try rfl
  split <;> rfl

end Token
end ScopedCss
