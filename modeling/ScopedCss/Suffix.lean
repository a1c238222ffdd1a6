import ScopedCss.Base62

/-!
# The suffix of a style sheet

Scoped names end in a short suffix that depends on nothing but the text of the style sheet, so equal
sheets get equal names.  The suffix is a 32-bit hash of the text's UTF-16 form, written in base 62.
-/
namespace ScopedCss.Suffix

/-- The UTF-16 units of a character: one in the basic plane, a surrogate pair above it. -/
def units (c : Char) : List Nat :=
  let n := c.toNat
  if n < 0x10000 then [n]
  else [0xD800 + (n - 0x10000) / 0x400, 0xDC00 + (n - 0x10000) % 0x400]

/-- One unit enters the hash: multiply by 33, then exclusive or, modulo 2 ^ 32. -/
def step (unit : Nat) (hash : UInt32) : UInt32 :=
  hash * 33 ^^^ UInt32.ofNat unit

/-- The hash of a text takes in its units from the last to the first. -/
def hash (source : Text) : UInt32 :=
  (source.flatMap units).foldr step 5381

/-- The suffix of a style sheet. -/
def ofSource (source : Text) : Text :=
  Base62.encode (hash source).toNat

/-- A name with a suffix set off by `_`. -/
def attach (suffix name : Text) : Text := name ++ '_' :: suffix

/-- A name scoped for a style sheet: the name, `_`, and the sheet's suffix. -/
def scope (source name : Text) : Text := attach (ofSource source) name

end ScopedCss.Suffix
