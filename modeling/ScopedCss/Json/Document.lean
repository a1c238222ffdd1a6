import ScopedCss.Json.Lexeme

/-!
# JSON documents as they are written

A document is the tree of a JSON text whose strings and numbers are not decoded yet.  It is built
from the lexemes one by one with a stack of the arrays and objects that are still open, so that
documents may nest to any depth.
-/
namespace ScopedCss.Json

/-- A JSON text as a tree. -/
inductive Document where
  | null
  | bool (b : Bool)
  | number (literal : NumberLiteral)
  | string (parts : List StringPart)
  | array (items : List Document)
  | object (members : List (List StringPart × Document))

namespace Document

/-- An array or object that is still open; what it holds so far stands in reverse order. -/
inductive Container where
  | array (items : List Document)
  | object (members : List (List StringPart × Document))
  /-- An object in which the value of a key is still missing. -/
  | member (members : List (List StringPart × Document)) (key : List StringPart)

/-- What may follow the lexemes read so far. -/
inductive Mode where
  | value
  /-- A value or the end of the array. -/
  | firstItem
  /-- A key or the end of the object. -/
  | firstKey
  | key
  | colon
  /-- A comma or the end of the innermost array or object. -/
  | next
  /-- Nothing: the document is complete. -/
  | done (document : Document)

/-- A document of which some lexemes are read. -/
structure Builder where
  /-- The arrays and objects that are open, the innermost first. -/
  stack : List Container
  mode : Mode

namespace Builder

/-- Puts a complete document into the innermost open container. -/
def complete (document : Document) : List Container → Option Builder
  | [] => some ⟨[], .done document⟩
  | .array items :: stack => some ⟨.array (document :: items) :: stack, .next⟩
  | .member members key :: stack => some ⟨.object ((key, document) :: members) :: stack, .next⟩
  | .object _ :: _ => none

/-- Reads a lexeme with which a value starts. -/
def startValue (stack : List Container) : Token → Option Builder
  | .null => complete .null stack
  | .bool b => complete (.bool b) stack
  | .number literal => complete (.number literal) stack
  | .string parts => complete (.string parts) stack
  | .openArray => some ⟨.array [] :: stack, .firstItem⟩
  | .openObject => some ⟨.object [] :: stack, .firstKey⟩
  | _ => none

/-- Reads a lexeme behind a value or at the front of an array or object that it closes. -/
def closeContainer : List Container → Token → Option Builder
  | .array items :: stack, .closeArray => complete (.array items.reverse) stack
  | .object members :: stack, .closeObject => complete (.object members.reverse) stack
  | _, _ => none

/-- Reads a key. -/
def startMember : List Container → Token → Option Builder
  | .object members :: stack, .string key => some ⟨.member members key :: stack, .colon⟩
  | _, _ => none

/-- Reads a comma. -/
def separate : List Container → Token → Option Builder
  | .array items :: stack, .comma => some ⟨.array items :: stack, .value⟩
  | .object members :: stack, .comma => some ⟨.object members :: stack, .key⟩
  | _, _ => none

/-- Reads a lexeme. -/
def step (builder : Builder) (token : Token) : Option Builder :=
  match builder.mode with
  | .value => startValue builder.stack token
  | .firstItem => (closeContainer builder.stack token).or (startValue builder.stack token)
  | .firstKey => (closeContainer builder.stack token).or (startMember builder.stack token)
  | .key => startMember builder.stack token
  | .colon => if token = .colon then some ⟨builder.stack, .value⟩ else none
  | .next => (closeContainer builder.stack token).or (separate builder.stack token)
  | .done _ => none

end Builder

/-- The document that lexemes make. -/
def ofTokens? (tokens : List Token) : Option Document :=
  match tokens.foldlM Builder.step ⟨[], .value⟩ with
  | some ⟨_, .done document⟩ => some document
  | _ => none

/-- The document that a text holds. -/
def ofText? (t : Text) : Option Document := (tokensOf? t).bind ofTokens?

end Document
end ScopedCss.Json
