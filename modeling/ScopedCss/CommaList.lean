import ScopedCss.Text.Basic

/-!
# Lists separated by commas

Selector lists, animations and font families are separated by commas, but a comma inside parentheses
separates nothing.  `split` cuts a text exactly at the commas before which equally many parentheses
have opened and closed.
-/
namespace ScopedCss.CommaList

/-- The number of open parentheses after one more character.  It falls below zero when more are
closed than were opened. -/
def level (n : Int) (c : Char) : Int :=
  if c = '(' then n + 1 else if c = ')' then n - 1 else n

/-- The piece that a text starts with and the pieces after it, where the given number of parentheses
is open at the front. -/
def splitFrom : Int → Text → Text × List Text
  | _, [] => ([], [])
  | n, c :: t =>
    let (first, rest) := splitFrom (level n c) t
    if c = ',' ∧ n = 0 then ([], first :: rest) else (c :: first, rest)

/-- The pieces of a text between its separating commas.  There is always one more piece than
commas. -/
def split (t : Text) : List Text :=
  let (first, rest) := splitFrom 0 t
  first :: rest

/-- The pieces with a comma between neighbours. -/
def join (pieces : List Text) : Text := Text.joinWith [','] pieces

/-- The entries of a list: its pieces without the spaces around them, blank ones left out. -/
def entries (t : Text) : List Text :=
  ((split t).map Text.trim).filter fun entry => !entry.isEmpty

/-- The list with those pieces replaced for which there is a replacement, if there are any. -/
def mapSome (replacement : Text → Option Text) (t : Text) : Option Text :=
  let pieces := split t
  if pieces.any fun piece => (replacement piece).isSome then
    some (join (pieces.map fun piece => (replacement piece).getD piece))
  else none

end ScopedCss.CommaList
