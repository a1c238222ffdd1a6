import ScopedCss.Proofs.Selector.Resumption

/-!
# Texts as bytes

A scan may look at the bytes of a text's UTF-8 form instead of its characters.  ASCII characters are
single bytes, and the bytes of every other character are no ASCII characters, so a byte tells what its
character is as far as ASCII goes (`byte_eq_iff`), and whether it is a name character
(`isNameByte_of_mem`).  What such a scan takes out of the text it takes between two offsets, which must
not lie inside a character (`slice?`).
-/
namespace ScopedCss

/-! ### Bytes of a character -/

namespace Text

/-- A character of ASCII. -/
def isAscii (c : Char) : Bool := c.toNat < 0x80

/-- What a byte must be to belong to a name: an ASCII letter or digit, `_`, `-`, or no ASCII. -/
def isNameByte (byte : UInt8) : Bool :=
  (0x30 ≤ byte && byte ≤ 0x39) || (0x41 ≤ byte && byte ≤ 0x5A) || (0x61 ≤ byte && byte ≤ 0x7A) ||
    byte == 0x5F || byte == 0x2D || 0x80 ≤ byte

theorem utf8EncodeChar_of_isAscii {c : Char} (ascii : isAscii c) :
    String.utf8EncodeChar c = [c.toUInt8] := by
  have small : c.val.toNat ≤ 127 := Nat.le_of_lt_succ (of_decide_eq_true ascii)
  rw [String.utf8EncodeChar, if_pos small]
  rfl

/-- The bytes of a character outside ASCII are no ASCII characters. -/
theorem le_of_mem_utf8EncodeChar {c : Char} (foreign : isAscii c = false) {byte : UInt8}
    (mem : byte ∈ String.utf8EncodeChar c) : 0x80 ≤ byte.toNat := by
  have large : ¬ c.val.toNat ≤ 127 := fun small => of_decide_eq_false foreign (Nat.lt_succ_of_le small)
  rw [String.utf8EncodeChar, if_neg large] at mem
  -- A byte that starts a character or goes on with it is its bits on top of a number from 0x80 on.
  have onTop (n base : Nat) (low : 0x80 ≤ base) (fits : n + base < 256) :
      0x80 ≤ (UInt8.ofNat (n + base)).toNat := by
    rw [UInt8.toNat_ofNat', Nat.mod_eq_of_lt fits]
    omega
  split at mem
  · simp only [List.mem_cons, List.not_mem_nil, or_false] at mem
    rcases mem with rfl | rfl <;> exact onTop _ _ (by omega) (by omega)
  · split at mem
    · simp only [List.mem_cons, List.not_mem_nil, or_false] at mem
      rcases mem with rfl | rfl | rfl <;> exact onTop _ _ (by omega) (by omega)
    · simp only [List.mem_cons, List.not_mem_nil, or_false] at mem
      rcases mem with rfl | rfl | rfl | rfl <;> exact onTop _ _ (by omega) (by omega)

theorem toNat_toUInt8 {c : Char} (ascii : isAscii c) : c.toUInt8.toNat = c.toNat := by
  have small : c.toNat < 0x80 := of_decide_eq_true ascii
  show (UInt8.ofNat c.toNat).toNat = c.toNat
  rw [UInt8.toNat_ofNat', Nat.mod_eq_of_lt (by omega)]

/-- The byte of an ASCII character belongs to this character alone. -/
theorem byte_eq_iff {c d : Char} (ascii : isAscii d) {byte : UInt8}
    (mem : byte ∈ String.utf8EncodeChar c) : byte = d.toUInt8 ↔ c = d := by
  have small : d.toNat < 0x80 := of_decide_eq_true ascii
  cases own : isAscii c with
  | true =>
    rw [utf8EncodeChar_of_isAscii own, List.mem_singleton] at mem
    subst mem
    refine ⟨fun same => Char.toNat_inj.1 ?_, fun same => same ▸ rfl⟩
    rw [← toNat_toUInt8 own, ← toNat_toUInt8 ascii, same]
  | false =>
    refine ⟨fun same => ?_, fun same => ?_⟩
    · have large := le_of_mem_utf8EncodeChar own mem
      rw [same, toNat_toUInt8 ascii] at large
      omega
    · rw [same, ascii] at own
      cases own

/-- The bytes of a character belong to a name if the character does. -/
theorem isNameByte_of_mem {c : Char} {byte : UInt8} (mem : byte ∈ String.utf8EncodeChar c) :
    isNameByte byte = isNameChar c := by
  cases ascii : isAscii c with
  | true =>
    rw [utf8EncodeChar_of_isAscii ascii, List.mem_singleton] at mem
    subst mem
    have all : ∀ n < 0x80, isNameByte (UInt8.ofNat n) = isNameChar (Char.ofNat n) := by decide +kernel
    have own := all c.toNat (of_decide_eq_true ascii)
    rwa [Char.ofNat_toNat] at own
  | false =>
    have large : 0x80 ≤ c.toNat := Nat.le_of_not_lt (of_decide_eq_false ascii)
    have high : (0x80 : UInt8) ≤ byte := UInt8.le_iff_toNat_le.2 (le_of_mem_utf8EncodeChar ascii mem)
    simp [isNameByte, isNameChar, large, high]

theorem isAscii_of_not_isNameChar {c : Char} (h : isNameChar c = false) : isAscii c := by
  simp only [isNameChar, Bool.or_eq_false_iff, decide_eq_false_iff_not] at h
  exact decide_eq_true (by omega)

theorem utf8EncodeChar_ne_nil (c : Char) : String.utf8EncodeChar c ≠ [] := by
  intro none
  have size := String.length_utf8EncodeChar c
  rw [none] at size
  exact Nat.ne_of_lt c.utf8Size_pos size

/-! ### Bytes of a text -/

/-- The bytes of a text in UTF-8. -/
def utf8 (t : Text) : List UInt8 := t.flatMap String.utf8EncodeChar

@[simp] theorem utf8_nil : utf8 [] = [] := rfl

@[simp] theorem utf8_cons (c : Char) (t : Text) :
    utf8 (c :: t) = String.utf8EncodeChar c ++ utf8 t := rfl

@[simp] theorem utf8_append (s t : Text) : utf8 (s ++ t) = utf8 s ++ utf8 t := List.flatMap_append

@[simp] theorem length_utf8 (t : Text) : (utf8 t).length = t.bytes := by
  induction t with
  | nil => rfl
  | cons c t ih => rw [utf8_cons, List.length_append, String.length_utf8EncodeChar, ih, bytes_cons]

/-- From the offset behind a front on the bytes are those of the rest. -/
theorem drop_utf8 (s t : Text) : (utf8 (s ++ t)).drop s.bytes = utf8 t := by
  rw [utf8_append, ← length_utf8, List.drop_left]

/-- A run of bytes that belong to a name is the bytes of a run of name characters. -/
theorem takeWhile_utf8 (t : Text) :
    (utf8 t).takeWhile isNameByte = utf8 (t.takeWhile isNameChar) := by
  induction t with
  | nil => rfl
  | cons c t ih =>
    rw [utf8_cons]
    cases name : isNameChar c with
    | true =>
      rw [List.takeWhile_cons_of_pos name, utf8_cons, List.takeWhile_append_of_pos, ih]
      exact fun byte mem => (isNameByte_of_mem mem).trans name
    | false =>
      rw [List.takeWhile_cons_of_neg (by simp [name])]
      obtain ⟨byte, more, whole⟩ := List.exists_cons_of_ne_nil (utf8EncodeChar_ne_nil c)
      have own : isNameByte byte = false :=
        (isNameByte_of_mem (c := c) (whole ▸ List.mem_cons_self)).trans name
      rw [whole, List.cons_append, List.takeWhile_cons_of_neg (by simp [own])]
      rfl

/-- A text starts with another if its bytes do. -/
theorem utf8_prefix_iff {s t : Text} : utf8 s <+: utf8 t ↔ s <+: t := by
  constructor
  · rintro ⟨bytes, whole⟩
    refine List.isPrefix_of_utf8Encode_append_eq_utf8Encode bytes.toByteArray ?_
    rw [List.utf8Encode, List.utf8Encode, ← List.toByteArray_append]
    exact congrArg List.toByteArray whole
  · rintro ⟨after, rfl⟩
    exact ⟨utf8 after, (utf8_append s after).symm⟩

/-- The byte of a character that stands at a given distance behind a front. -/
theorem getElem?_utf8 (s : Text) {c : Char} (t : Text) {k : Nat}
    (inside : k < (String.utf8EncodeChar c).length) :
    (utf8 (s ++ c :: t))[s.bytes + k]? = some (String.utf8EncodeChar c)[k] := by
  rw [utf8_append, ← length_utf8, List.getElem?_append_right (Nat.le_add_right _ _),
    Nat.add_sub_cancel_left, utf8_cons, List.getElem?_append_left inside,
    List.getElem?_eq_getElem inside]

/-- Whether a name starts is seen from its first byte. -/
theorem any_head?_utf8 (t : Text) : (utf8 t).head?.any isNameByte = t.head?.any isNameChar := by
  cases t with
  | nil => rfl
  | cons c t =>
    obtain ⟨byte, more, whole⟩ := List.exists_cons_of_ne_nil (utf8EncodeChar_ne_nil c)
    rw [utf8_cons, whole]
    exact isNameByte_of_mem (c := c) (whole ▸ List.mem_cons_self)

/-! ### Slices -/

/-- The text between two offsets.  There is none if one of them lies inside a character or behind the
end, or if the second comes before the first. -/
def slice? (t : Text) (start stop : Nat) : Option Text := do
  let (_, tail) ← splitAtByte? t start
  if start ≤ stop then
    let (middle, _) ← splitAtByte? tail (stop - start)
    return middle
  else none

/-- What stands between a front and an end is a slice. -/
theorem slice?_append (s t u : Text) :
    slice? (s ++ (t ++ u)) s.bytes (s.bytes + t.bytes) = some t := by
  have first : splitAtByte? (s ++ (t ++ u)) s.bytes = some (s, t ++ u) :=
    splitAtByte?_eq_some_iff.2 ⟨rfl, rfl⟩
  have second : splitAtByte? (t ++ u) t.bytes = some (t, u) := splitAtByte?_eq_some_iff.2 ⟨rfl, rfl⟩
  rw [slice?, first]
  simp [second]

theorem slice?_front (s t : Text) : slice? (s ++ t) 0 s.bytes = some s := by
  have whole := slice?_append [] s t
  simpa using whole

theorem slice?_end (s t : Text) : slice? (s ++ t) s.bytes (s ++ t).bytes = some t := by
  have whole := slice?_append s t []
  simpa using whole

end Text
end ScopedCss
