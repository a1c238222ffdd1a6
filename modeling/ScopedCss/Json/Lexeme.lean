import ScopedCss.Text.Scan

/-!
# Lexemes of JSON

A JSON text consists of lexemes with spaces between them.  Strings and numbers keep their written
form here, so that they are only decoded where they matter: a string may pair surrogates wrongly,
and a number may lie out of range, without making the text ill-formed.
-/
namespace ScopedCss.Json

/-- A part of a string: a character, or a UTF-16 unit given by its number. -/
inductive StringPart where
  | char (c : Char)
  | unit (n : Nat)
deriving DecidableEq

/-- A number as it is written: its sign, the digits before and after the point, and the sign and
digits of its exponent. -/
structure NumberLiteral where
  negative : Bool
  integer : List Nat
  fraction : List Nat
  exponent : Option (Bool × List Nat)
deriving DecidableEq

/-- A lexeme. -/
inductive Token where
  | openArray
  | closeArray
  | openObject
  | closeObject
  | colon
  | comma
  | null
  | bool (b : Bool)
  | number (literal : NumberLiteral)
  | string (parts : List StringPart)
deriving DecidableEq

/-- A lexeme with its characters. -/
structure Lexeme where
  token : Token
  spelling : Text
deriving DecidableEq

/-- A space between lexemes. -/
def isBlank (c : Char) : Bool := c == ' ' || c == '\t' || c == '\n' || c == '\r'

/-! ### Strings -/

/-- The number that a hexadecimal digit stands for. -/
def hexDigit? (c : Char) : Option Nat :=
  if c.isDigit then some (c.toNat - '0'.toNat)
  else if 'a' ≤ c ∧ c ≤ 'f' then some (c.toNat - 'a'.toNat + 10)
  else if 'A' ≤ c ∧ c ≤ 'F' then some (c.toNat - 'A'.toNat + 10)
  else none

/-- The number that four hexadecimal digits stand for. -/
def hexUnit? (a b c d : Char) : Option Nat := do
  return ((← hexDigit? a) * 16 + (← hexDigit? b)) * 256 + (← hexDigit? c) * 16 + (← hexDigit? d)

/-- The characters that may follow a backslash, with what they stand for. -/
def escapes : List (Char × Char) :=
  [('"', '"'), ('\\', '\\'), ('/', '/'), ('b', '\x08'), ('f', '\x0c'), ('n', '\n'), ('r', '\r'),
   ('t', '\t')]

/-- Reads a string behind its opening quote: its parts, and its characters through the closing
quote. -/
def readString : Text → Option (List StringPart × Text)
  | [] => none
  | '"' :: _ => some ([], ['"'])
  | '\\' :: 'u' :: a :: b :: c :: d :: t =>
    (hexUnit? a b c d).bind fun n =>
      (readString t).map fun (parts, spelling) =>
        (.unit n :: parts, '\\' :: 'u' :: a :: b :: c :: d :: spelling)
  | '\\' :: c :: t =>
    (escapes.lookup c).bind fun e =>
      (readString t).map fun (parts, spelling) => (.char e :: parts, '\\' :: c :: spelling)
  | c :: t =>
    if c = '\\' ∨ c.toNat < 0x20 then none
    else (readString t).map fun (parts, spelling) => (.char c :: parts, c :: spelling)

/-! ### Numbers -/

/-- The digits of a run of digits. -/
def digitsOf (run : Text) : List Nat := run.map fun c => c.toNat - '0'.toNat

/-- The whole part of a number: `0`, or digits of which the first is not `0`. -/
def readInteger : Text → Text
  | '0' :: _ => ['0']
  | t => t.takeWhile Char.isDigit

/-- The point and the digits after it, if a point with a digit is there. -/
def readFraction : Text → Text
  | '.' :: t =>
    let run := t.takeWhile Char.isDigit
    if run.isEmpty then [] else '.' :: run
  | _ => []

/-- The sign of a number. -/
def readSign (t : Text) : Text := if t.head? = some '-' then ['-'] else []

/-- The sign of an exponent. -/
def readExponentSign (t : Text) : Text := (t.takeWhile fun c => c == '+' || c == '-').take 1

/-- The mark, the sign and the digits of an exponent, if a mark and a digit are there. -/
def readExponent : Text → Text
  | [] => []
  | mark :: t =>
    let sign := readExponentSign t
    let run := (t.drop sign.length).takeWhile Char.isDigit
    if (mark = 'e' ∨ mark = 'E') ∧ run ≠ [] then mark :: sign ++ run else []

/-- The sign and the digits of an exponent as it is written. -/
def exponentOf : Text → Option (Bool × List Nat)
  | [] => none
  | _ :: '-' :: run => some (true, digitsOf run)
  | _ :: '+' :: run => some (false, digitsOf run)
  | _ :: run => some (false, digitsOf run)

/-- Reads a number. -/
def readNumber (t : Text) : Option Lexeme :=
  let sign := readSign t
  let afterSign := t.drop sign.length
  let integer := readInteger afterSign
  let afterInteger := afterSign.drop integer.length
  let fraction := readFraction afterInteger
  let exponent := readExponent (afterInteger.drop fraction.length)
  if integer ≠ [] then
    some
      { token := .number
          { negative := !sign.isEmpty, integer := digitsOf integer,
            fraction := digitsOf (fraction.drop 1), exponent := exponentOf exponent },
        spelling := sign ++ integer ++ fraction ++ exponent }
  else none

/-! ### All lexemes -/

/-- The lexemes that are written in one way only. -/
def fixed : List Lexeme :=
  [⟨.openArray, ['[']⟩, ⟨.closeArray, [']']⟩, ⟨.openObject, ['{']⟩, ⟨.closeObject, ['}']⟩,
   ⟨.colon, [':']⟩, ⟨.comma, [',']⟩, ⟨.null, "null".toList⟩, ⟨.bool true, "true".toList⟩,
   ⟨.bool false, "false".toList⟩]

/-- Reads a lexeme. -/
def readLexeme (t : Text) : Option Lexeme :=
  match fixed.find? fun lexeme => lexeme.spelling.isPrefixOf t with
  | some lexeme => some lexeme
  | none =>
    match t with
    | '"' :: rest =>
      (readString rest).map fun (parts, spelling) => ⟨.string parts, '"' :: spelling⟩
    | t => readNumber t

theorem readString_front {t spelling : Text} {parts : List StringPart}
    (h : readString t = some (parts, spelling)) : spelling <+: t := by
  fun_induction readString t generalizing parts spelling with
  | case1 => cases h
  | case2 t => cases h; exact ⟨t, rfl⟩
  | case3 a b c d t ih =>
    simp only [Option.bind_eq_some_iff, Option.map_eq_some_iff] at h
    obtain ⟨n, _, ⟨ps, s⟩, found, same⟩ := h
    cases same
    obtain ⟨after, split⟩ := ih found
    exact ⟨after, by simp [split]⟩
  | case4 c t _ ih =>
    simp only [Option.bind_eq_some_iff, Option.map_eq_some_iff] at h
    obtain ⟨e, _, ⟨ps, s⟩, found, same⟩ := h
    cases same
    obtain ⟨after, split⟩ := ih found
    exact ⟨after, by simp [split]⟩
  | case5 => cases h
  | case6 c t _ _ _ _ ih =>
    simp only [Option.map_eq_some_iff] at h
    obtain ⟨⟨ps, s⟩, found, same⟩ := h
    cases same
    obtain ⟨after, split⟩ := ih found
    exact ⟨after, by simp [split]⟩

theorem append_of_front {s t : Text} (h : s <+: t) : s ++ t.drop s.length = t := by
  obtain ⟨rest, rfl⟩ := h
  simp

theorem readInteger_front (t : Text) : readInteger t <+: t := by
  unfold readInteger
  split
  next t => exact ⟨t, rfl⟩
  next => exact ⟨t.dropWhile Char.isDigit, List.takeWhile_append_dropWhile⟩

theorem readFraction_front (t : Text) : readFraction t <+: t := by
  unfold readFraction
  split
  next t =>
    simp only
    split
    next => exact ⟨_, rfl⟩
    next =>
      exact List.cons_prefix_cons.2
        ⟨rfl, ⟨t.dropWhile Char.isDigit, List.takeWhile_append_dropWhile⟩⟩
  next => exact ⟨_, rfl⟩

theorem readSign_front (t : Text) : readSign t <+: t := by
  unfold readSign
  split
  next found =>
    obtain ⟨rest, rfl⟩ := List.head?_eq_some_iff.1 found
    exact ⟨rest, rfl⟩
  next => exact ⟨t, rfl⟩

theorem readExponent_front (t : Text) : readExponent t <+: t := by
  unfold readExponent
  split
  next => exact ⟨[], rfl⟩
  next mark t =>
    simp only
    split
    next =>
      have signed : readExponentSign t <+: t :=
        (List.take_prefix ..).trans ⟨_, List.takeWhile_append_dropWhile⟩
      refine ⟨(t.drop (readExponentSign t).length).dropWhile Char.isDigit, ?_⟩
      rw [List.cons_append, List.cons_append, List.append_assoc, List.takeWhile_append_dropWhile,
        append_of_front signed]
    next => exact ⟨_, rfl⟩

theorem readNumber_front {t : Text} {lexeme : Lexeme} (h : readNumber t = some lexeme) :
    lexeme.spelling <+: t ∧ lexeme.spelling ≠ [] := by
  unfold readNumber at h
  simp only at h
  split at h
  next nonempty =>
    cases h
    refine ⟨?_, by simp [nonempty]⟩
    have sign := append_of_front (readSign_front t)
    generalize readSign t = s at *
    have integer := append_of_front (readInteger_front (t.drop s.length))
    generalize readInteger (t.drop s.length) = i at *
    have fraction := append_of_front (readFraction_front ((t.drop s.length).drop i.length))
    generalize readFraction ((t.drop s.length).drop i.length) = f at *
    obtain ⟨after, exponent⟩ := readExponent_front (((t.drop s.length).drop i.length).drop f.length)
    rw [← integer, ← fraction, ← exponent] at sign
    exact ⟨after, by simpa using sign⟩
  next => cases h

/-- Recognises lexemes. -/
def lexemes : Recogniser Lexeme where
  read := readLexeme
  spell := Lexeme.spelling
  spell_front {t lexeme} h := by
    unfold readLexeme at h
    split at h
    next found =>
      cases h
      exact List.isPrefixOf_iff_prefix.1 (by simpa using List.find?_some found)
    next =>
      split at h
      next rest =>
        obtain ⟨⟨parts, spelling⟩, found, rfl⟩ := Option.map_eq_some_iff.1 h
        exact List.cons_prefix_cons.2 ⟨rfl, readString_front found⟩
      next => exact (readNumber_front h).1
  spell_ne_nil {t lexeme} h := by
    unfold readLexeme at h
    split at h
    next found =>
      cases h
      have := List.mem_of_find?_eq_some found
      intro empty
      simp [fixed] at this
      rcases this with rfl | rfl | rfl | rfl | rfl | rfl | rfl | rfl | rfl <;> cases empty
    next =>
      split at h
      next rest =>
        obtain ⟨⟨parts, spelling⟩, found, rfl⟩ := Option.map_eq_some_iff.1 h
        simp
      next => exact (readNumber_front h).2

/-- The lexemes of a text, if nothing else stands in it but blanks. -/
def tokensOf? (t : Text) : Option (List Token) :=
  (lexemes.scan t).foldr (fun segment rest =>
    match segment with
    | .hit lexeme => rest.map (lexeme.token :: ·)
    | .plain c => if isBlank c then rest else none) (some [])

end ScopedCss.Json
