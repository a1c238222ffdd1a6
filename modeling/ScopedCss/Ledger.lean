import ScopedCss.NameTable

/-!
# The ledger of a pass

While a style sheet is scoped, the ledger holds what has been found out about it so far: the names
recorded in each category, the fragments that could not be scoped, and how many `*` were named.
-/
namespace ScopedCss

/-- A fragment of a selector that is of no known kind and stays as it is. -/
structure Warning where
  token : Text
  /-- The selector in which it stands. -/
  selector : Text
deriving DecidableEq

/-- The text of a warning. -/
def Warning.message (warning : Warning) : Text :=
  "unrecognized selector fragment \x60".toList ++ warning.token ++ "\x60 in \x60".toList ++
    warning.selector ++ "\x60 left unscoped".toList

/-- What a pass has found out so far. -/
structure Ledger where
  mapping : Mapping := {}
  warnings : List Warning := []
  /-- The number of `*` that were given a name. -/
  asterisks : Nat := 0
deriving DecidableEq, Inhabited

/-- The ledger with one more warning. -/
def Ledger.warn (ledger : Ledger) (warning : Warning) : Ledger :=
  { ledger with warnings := ledger.warnings ++ [warning] }

/-- The ledger with a name recorded in a category. -/
def Ledger.insert (ledger : Ledger) (category : Category) (name scopedName : Text) : Ledger :=
  { ledger with mapping := ledger.mapping.insert category name scopedName }

end ScopedCss
