import ScopedCss.CommaList
import ScopedCss.Ledger
import ScopedCss.Text.Search

/-!
# Font families

A `@font-face` rule declares a family, and lists of families refer to it.  The name of a family is
its text without quotes and without the spaces around it; a new name takes its first place in the
text, so that quotes stay.
-/
namespace ScopedCss.FontFamily

/-- The name of a family. -/
def nameOf (value : Text) : Text := Text.trim (Text.unquoted value)

/-- A declared family scoped and recorded.  A family without a name stays as it is. -/
def declare (scope : Text → Text) (value : Text) (ledger : Ledger) : Ledger × Text :=
  let name := nameOf value
  if name.isEmpty then (ledger, value)
  else (ledger.insert .fontFaces name (scope name), Text.replaceFirst name (scope name) value)

/-- A reference to a family with its new name, if the family is recorded. -/
def renameEntry (fontFaces : NameTable) (family : Text) : Option Text :=
  (fontFaces.find? (nameOf family)).map fun new => Text.replaceFirst (nameOf family) new family

/-- A list of families with the recorded ones renamed, if there are any. -/
def rename (fontFaces : NameTable) (value : Text) : Option Text :=
  CommaList.mapSome (renameEntry fontFaces) value

end ScopedCss.FontFamily
