import ScopedCss.Text.Basic

/-!
# Numbers in base 62

The digits are `0` to `9`, `a` to `z`, `A` to `Z` in rising order.  A number is written with its
most significant digit first and without superfluous zeros, so that different numbers have different
spellings.
-/
namespace ScopedCss.Base62

/-- The digits in rising order. -/
def alphabet : Text :=
  "0123456789abcdefghijklmnopqrstuvwxyzABCDEFGHIJKLMNOPQRSTUVWXYZ".toList

/-- The digit of a number below 62. -/
def digit (n : Nat) : Char := alphabet.getD n '0'

/-- The base-62 digits of a number. -/
def encode (n : Nat) : Text :=
  if n < 62 then [digit n] else encode (n / 62) ++ [digit (n % 62)]
termination_by n

example : [0, 9, 10, 36, 61, 62, 2 ^ 32 - 1].map encode =
    ["0", "9", "a", "A", "Z", "10", "4GFfc3"].map String.toList := by decide +kernel

end ScopedCss.Base62
