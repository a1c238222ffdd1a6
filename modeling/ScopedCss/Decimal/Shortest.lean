import ScopedCss.Text.Basic

/-!
# The shortest decimal of a floating-point number

A finite binary number stands for all reals that round to it.  Its shortest decimal is the multiple
of the largest power of ten among those reals; of two such multiples it is the one nearer to the
number, and of two equally near ones the even one.
-/
namespace ScopedCss

/-- The number `digits * 10 ^ exponent`. -/
structure Decimal where
  digits : Nat
  exponent : Int
deriving DecidableEq

namespace Decimal

/-- A positive binary number `mantissa * 2 ^ exponent`, and whether the next smaller number is only
half as far away as the next larger one. -/
structure Binary where
  mantissa : Nat
  exponent : Int
  narrow : Bool
deriving DecidableEq

/-- The positive finite number with the given fraction and exponent fields. -/
def Binary.ofFields (fraction exponent : Nat) : Binary :=
  if exponent = 0 then ⟨fraction, -1074, false⟩
  else ⟨fraction + Nat.pow 2 52, exponent - 1075, fraction = 0 && 1 < exponent⟩

namespace Binary

/-- `n * 2 ^ (exponent - 2) / 10 ^ k` as a quotient of naturals. -/
def quotient (b : Binary) (k : Int) (n : Nat) : Nat × Nat :=
  let e := b.exponent - 2
  (n * Nat.pow 2 e.toNat * Nat.pow 10 (-k).toNat, Nat.pow 2 (-e).toNat * Nat.pow 10 k.toNat)

/-- Whether `c * 10 ^ k` rounds to the number: it lies between the points halfway to its neighbours,
which belong to the number only if its mantissa is even. -/
def covers (b : Binary) (k : Int) (c : Nat) : Bool :=
  let (low, unit) := b.quotient k (4 * b.mantissa - if b.narrow then 1 else 2)
  let (high, _) := b.quotient k (4 * b.mantissa + 2)
  if b.mantissa % 2 = 0 then low ≤ c * unit && c * unit ≤ high
  else low < c * unit && c * unit < high

/-- The multiple of `10 ^ k` that rounds to the number and is nearest to it. -/
def multiple? (b : Binary) (k : Int) : Option Nat :=
  let (value, unit) := b.quotient k (4 * b.mantissa)
  let c := value / unit
  let below := value - c * unit
  let above := (c + 1) * unit - value
  match b.covers k c, b.covers k (c + 1) with
  | true, true => some (if below < above || (below = above && c % 2 = 0) then c else c + 1)
  | true, false => some c
  | false, true => some (c + 1)
  | false, false => none

/-- The shortest decimal among the multiples of `10 ^ k` and the given number of smaller powers. -/
def shortestFrom (b : Binary) (k : Int) : Nat → Decimal
  | 0 => ⟨0, 0⟩
  | powers + 1 =>
    match b.multiple? k with
    | some c => if c = 0 then shortestFrom b (k - 1) powers else ⟨c, k⟩
    | none => shortestFrom b (k - 1) powers

/-- The shortest decimal of the number.  No finite number reaches `10 ^ 309`, and each has a
multiple of a power above `10 ^ (-343)`. -/
def shortest (b : Binary) : Decimal := b.shortestFrom 309 652

end Binary
end Decimal
end ScopedCss
