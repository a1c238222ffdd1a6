/-!
# Texts and their spaces

A style sheet, a selector, a name: everything the library works on is a `Text`, the list of its
characters.  Strings appear only where a program reads or prints.

This module fixes the two character classes that most rules are written with, *space* and *name
character*, and the operations that only depend on them: trimming and cutting into words.  A trimmed
end and what was trimmed off always make up the text again (`trimStart_append`, `trimEnd_append`).
-/
namespace ScopedCss

/-- A text is its characters in order. -/
abbrev Text := List Char

namespace Text

/-- Deciding whether a text stands in a list of texts refers to this instance. -/
instance : LawfulBEq Text := inferInstance

/-- A space is a character with the White_Space property. -/
def isSpace (c : Char) : Bool :=
  let n := c.toNat
  (9 ≤ n && n ≤ 13) || n == 0x20 || n == 0x85 || n == 0xA0 || n == 0x1680 ||
    (0x2000 ≤ n && n ≤ 0x200A) || n == 0x2028 || n == 0x2029 || n == 0x202F || n == 0x205F ||
    n == 0x3000

/-- A name character may continue a name in a selector or a value: ASCII letters, digits, `_` and
`-`, and every character outside ASCII. -/
def isNameChar (c : Char) : Bool :=
  c.isAlphanum || c == '_' || c == '-' || 0x80 ≤ c.toNat

/-- A quote opens a string and closes the strings it opened. -/
def isQuote (c : Char) : Bool :=
  c == '"' || c == '\''

/-- The spaces at the front. -/
def leading (t : Text) : Text := t.takeWhile isSpace

/-- The text without the spaces at its front. -/
def trimStart (t : Text) : Text := t.dropWhile isSpace

/-- The spaces at the end. -/
def trailing (t : Text) : Text := (t.reverse.takeWhile isSpace).reverse

/-- The text without the spaces at its end. -/
def trimEnd (t : Text) : Text := (t.reverse.dropWhile isSpace).reverse

/-- The text without the spaces at either end. -/
def trim (t : Text) : Text := trimEnd (trimStart t)

/-- The words of a text are its maximal runs of characters that are no spaces. -/
def words (t : Text) : List Text :=
  (t.splitOnP isSpace).filter fun w => !w.isEmpty

/-- The text in ASCII lower case. -/
def lower (t : Text) : Text := t.map Char.toLower

/-- The text without its quotes. -/
def unquoted (t : Text) : Text := t.filter fun c => !isQuote c

/-- Whether a text equals another or comes before it in the order of characters. -/
def atMost : Text → Text → Bool
  | [], _ => true
  | _ :: _, [] => false
  | c :: s, d :: t => c.toNat < d.toNat || (c == d && atMost s t)

/-- The pieces one after the other, with the separator between neighbours. -/
def joinWith (separator : Text) (pieces : List Text) : Text :=
  separator.intercalate pieces

theorem joinWith_cons_cons (c : Char) (piece next : Text) (pieces : List Text) :
    joinWith [c] (piece :: next :: pieces) = piece ++ c :: joinWith [c] (next :: pieces) :=
  (List.intercalate_cons_of_ne_nil (by simp)).trans (List.append_assoc _ _ _)

theorem trimStart_append (t : Text) : leading t ++ trimStart t = t :=
  List.takeWhile_append_dropWhile

theorem trimEnd_append (t : Text) : trimEnd t ++ trailing t = t := by
  rw [trimEnd, trailing, ← List.reverse_append, List.takeWhile_append_dropWhile,
    List.reverse_reverse]

theorem isUpper_iff {c : Char} : c.isUpper ↔ 65 ≤ c.toNat ∧ c.toNat ≤ 90 :=
  decide_eq_true_iff.trans (and_congr UInt32.le_iff_toNat_le UInt32.le_iff_toNat_le)

theorem isLower_iff {c : Char} : c.isLower ↔ 97 ≤ c.toNat ∧ c.toNat ≤ 122 :=
  Bool.and_eq_true_iff.trans (and_congr (decide_eq_true_iff.trans UInt32.le_iff_toNat_le)
    (decide_eq_true_iff.trans UInt32.le_iff_toNat_le))

theorem isAlpha_iff {c : Char} :
    c.isAlpha ↔ (65 ≤ c.toNat ∧ c.toNat ≤ 90) ∨ (97 ≤ c.toNat ∧ c.toNat ≤ 122) :=
  Bool.or_eq_true_iff.trans (or_congr isUpper_iff isLower_iff)

theorem isAlphanum_iff {c : Char} :
    c.isAlphanum ↔ ((65 ≤ c.toNat ∧ c.toNat ≤ 90) ∨ (97 ≤ c.toNat ∧ c.toNat ≤ 122)) ∨
      (48 ≤ c.toNat ∧ c.toNat ≤ 57) :=
  Bool.or_eq_true_iff.trans (or_congr isAlpha_iff Char.isDigit_iff_toNat)

theorem isQuote_of_isNameChar {c : Char} (letter : isNameChar c) : isQuote c = false := by
  cases quote : isQuote c with
  | false => rfl
  | true =>
    simp only [isQuote, Bool.or_eq_true, beq_iff_eq] at quote
    rcases quote with rfl | rfl <;> cases letter

/-- Core's ASCII blanks are spaces. -/
theorem isSpace_of_isWhitespace {c : Char} (h : c.isWhitespace) : isSpace c := by
  simp only [Char.isWhitespace, Bool.or_eq_true, decide_eq_true_eq] at h
  rcases h with ((rfl | rfl) | rfl) | rfl <;> rfl

end Text
end ScopedCss
