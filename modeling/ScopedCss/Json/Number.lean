import ScopedCss.Decimal.Shortest
import ScopedCss.Json.Lexeme

/-!
# JSON numbers

A number without a point and an exponent is an integer if it fits 64 bits: unsigned, or signed if a
minus stands before it.  Every other number, minus zero among them, is a floating-point number.  It
is made from as many of its digits as fit 64 bits; digits before the point that do not fit count as
zeros, and digits after it that do not fit are dropped.
-/
namespace ScopedCss.Json

/-- A JSON number. -/
inductive Number where
  | integer (n : Int)
  | float (x : Float)

namespace Number

/-- The largest number of 64 bits. -/
def maxSignificand : Nat := 0xFFFFFFFFFFFFFFFF

/-- Takes digits into a significand as long as it fits, and answers it with the digits left. -/
def absorb : Nat → List Nat → Nat × List Nat
  | significand, [] => (significand, [])
  | significand, digit :: digits =>
    if significand * 10 + digit ≤ maxSignificand then absorb (significand * 10 + digit) digits
    else (significand, digit :: digits)

/-- The floating-point number nearest to a power of ten. -/
def powerOfTen (n : Nat) : Float := Float.ofScientific 1 false n

/-- A floating-point number divided by a power of ten, in steps that the range of powers allows. -/
def divideByPower (x : Float) (n : Nat) : Float :=
  if n ≤ 308 then x / powerOfTen n
  else if x == 0 then x
  else divideByPower (x / powerOfTen 308) (n - 308)
termination_by n

/-- The significand times a power of ten, unless that is out of range. -/
def scale (significand : Nat) (exponent : Int) : Option Float :=
  let x := significand.toUInt64.toFloat
  if exponent < 0 then some (divideByPower x (-exponent).toNat)
  else if 308 < exponent then if x == 0 then some x else none
  else
    let scaled := x * powerOfTen exponent.toNat
    if scaled.isInf then none else some scaled

/-- The largest exponent that is read as it is written. -/
def maxExponent : Nat := 0x7FFFFFFF

/-- The number that a literal with a point, an exponent or too many digits stands for. -/
def floatOf (literal : NumberLiteral) : Option Float :=
  let (significand, left) := absorb 0 literal.integer
  let (significand, dropped) := absorb significand literal.fraction
  let places : Int := left.length - (literal.fraction.length - dropped.length : Nat)
  let magnitude : Option Float :=
    match literal.exponent with
    | none => scale significand places
    | some (negative, digits) =>
      let exponent := digits.foldl (fun n digit => n * 10 + digit) 0
      if exponent ≤ maxExponent then
        scale significand (if negative then places - exponent else places + exponent)
      else if significand ≠ 0 ∧ !negative then none
      else some 0
  magnitude.map fun x => if literal.negative then -x else x

/-- The number that a literal stands for, unless it is out of range. -/
def ofLiteral? (literal : NumberLiteral) : Option Number :=
  let (significand, left) := absorb 0 literal.integer
  let plain : Bool := left.isEmpty && literal.fraction.isEmpty && literal.exponent.isNone
  if plain && !literal.negative then some (integer significand)
  else if plain && significand ≠ 0 && significand ≤ 0x8000000000000000 then some (integer (-significand))
  else (floatOf literal).map float

/-! ### Writing -/

/-- A natural number in decimal digits. -/
def digitsOfNat (n : Nat) : Text := Nat.toDigits 10 n

/-- The digits of a decimal and its exponent, as they are written: in positions if the point falls
within or near the digits, and with a signed exponent otherwise. -/
def layout (digits : Text) (exponent : Int) : Text :=
  let point := digits.length + exponent
  if 0 ≤ exponent ∧ point ≤ 16 then
    digits ++ List.replicate exponent.toNat '0' ++ ".0".toList
  else if 0 < point ∧ point ≤ 16 then
    digits.take point.toNat ++ '.' :: digits.drop point.toNat
  else if -5 < point ∧ point ≤ 0 then
    "0.".toList ++ List.replicate (-point).toNat '0' ++ digits
  else
    let tail := digits.drop 1
    let power := point - 1
    -- An exponent always has a sign, and no more digits than it needs.
    digits.take 1 ++ (if tail.isEmpty then [] else '.' :: tail) ++
      ['e', if power < 0 then '-' else '+'] ++ digitsOfNat power.natAbs

/-- The text of a finite floating-point number: the fewest digits that read back, and `.0` behind a
whole number. -/
def floatText (x : Float) : Text :=
  let bits := x.toBits.toNat
  let sign := if bits < 0x8000000000000000 then [] else ['-']
  let exponent := bits / 0x10000000000000 % 0x800
  let fraction := bits % 0x10000000000000
  if exponent = 0 ∧ fraction = 0 then sign ++ "0.0".toList
  else
    let shortest := (Decimal.Binary.ofFields fraction exponent).shortest
    sign ++ layout (digitsOfNat shortest.digits) shortest.exponent

/-- The text of a number. -/
def text : Number → Text
  | integer n => (if n < 0 then ['-'] else []) ++ digitsOfNat n.natAbs
  | float x => floatText x

end Number
end ScopedCss.Json
