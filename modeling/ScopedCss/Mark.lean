import ScopedCss.Text.Scan

/-!
# Marks

While a style sheet is worked on, marks stand for text that must not be read as structure: one for
each comment, one for the content of each block, and one for each structural character inside a
quoted string.
-/
namespace ScopedCss.Mark

/-- Stands for a comment. -/
def comment : Text := "%COMMENT%".toList

/-- Stands for the content of a block. -/
def block : Text := "%BLOCK%".toList

/-- The structural characters that are marked inside strings, each with its mark. -/
def structural : List (Char × Text) :=
  [(',', "%COMMA_IN_PLACEHOLDER%".toList),
   (';', "%SEMI_IN_PLACEHOLDER%".toList),
   ('{', "%OPEN_BRACE_IN_PLACEHOLDER%".toList),
   ('}', "%CLOSE_BRACE_IN_PLACEHOLDER%".toList),
   (':', "%COLON_IN_PLACEHOLDER%".toList)]

/-- A character as it is written inside a string: its mark if it is structural. -/
def ofChar (c : Char) : Text :=
  (structural.lookup c).getD [c]

/-- Recognises the mark of a comment. -/
def commentWord : Recogniser Unit := .word comment (by decide)

end ScopedCss.Mark
