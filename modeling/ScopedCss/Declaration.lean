import ScopedCss.Quoted

/-!
# Declarations

The content of a rule is a list of pieces separated by `;`.  A piece with a `:` is a declaration of
the property before it, with the value behind it, unless one of them is blank.  `editAll` lets a
visitor replace values; the spaces around a value and everything else stay.
-/
namespace ScopedCss

/-- A declaration, cut around its value. -/
structure Declaration where
  /-- The name of the property in lower case. -/
  property : Text
  /-- The characters before the value: the property, the colon and spaces. -/
  front : Text
  value : Text
  /-- The spaces behind the value. -/
  back : Text
deriving DecidableEq

namespace Declaration

/-- The declaration in a piece of a rule's content. -/
def ofPiece? (piece : Text) : Option Declaration :=
  match piece.dropWhile (· != ':') with
  | ':' :: raw =>
    let name := piece.takeWhile (· != ':')
    let property := Text.lower (Text.trim name)
    let value := Text.trim raw
    if property.isEmpty || value.isEmpty then none
    else
      some { property, front := name ++ ':' :: Text.leading raw, value, back := Text.trailing raw }
  | _ => none

/-- A piece of a rule's content, with what a visitor answers for a declaration in place of its
value.  The visitor sees the value with its strings unshielded. -/
def editPiece {m : Type → Type} [Monad m] (visit : Text → Text → m (Option Text)) (piece : Text) :
    m Text :=
  match ofPiece? piece with
  | none => return piece
  | some declaration => do
    match ← visit declaration.property (Quoted.unshield declaration.value) with
    | none => return piece
    | some value => return declaration.front ++ value ++ declaration.back

/-- The content of a rule with what a visitor answers for its declarations, in order, in place of
their values. -/
def editAll {m : Type → Type} [Monad m] (visit : Text → Text → m (Option Text))
    (content : Text) : m Text := do
  return Text.joinWith [';'] (← (content.splitOn ';').mapM (editPiece visit))

end Declaration
end ScopedCss
