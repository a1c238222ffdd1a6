import ScopedCss.Mark

/-!
# Structural characters inside strings

Inside a quoted string `;`, `,`, `:`, `{` and `}` are text and not structure. `shield` puts marks in
their place, so that what follows need not know about strings; `unshield` puts the characters back.

A backslash outside or inside a string protects the character after it: neither is marked, and a
protected quote neither opens nor closes a string.  A string that is never closed runs to the end.
-/
namespace ScopedCss.Quoted

/-- Shields a text that starts outside strings, or inside the string that a quote opened. -/
def shieldFrom : Option Char → Text → Text
  | _, [] => []
  | quote, '\\' :: c :: t => '\\' :: c :: shieldFrom quote t
  | some quote, c :: t =>
    if c = quote then c :: shieldFrom none t
    else Mark.ofChar c ++ shieldFrom (some quote) t
  | none, c :: t =>
    c :: shieldFrom (if Text.isQuote c then some c else none) t

/-- The text with marks in place of the structural characters inside its strings. -/
def shield (t : Text) : Text := shieldFrom none t

/-- The text with each mark of a structural character replaced by the character, one kind of mark
after the other and wherever it stands. -/
def unshield (t : Text) : Text :=
  Mark.structural.foldl (fun t (c, mark) => Text.replaceAll mark [c] t) t

end ScopedCss.Quoted
