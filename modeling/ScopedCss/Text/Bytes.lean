import ScopedCss.Text.Basic

/-!
# Positions counted in bytes

Places in a selector list are remembered as offsets into its UTF-8 form, while texts are lists of
characters.  `bytes` is the length of that form, and `splitAtByte?` cuts a text at such an offset.
It answers nothing for an offset inside a character or beyond the end; otherwise the two parts make
up the text and the first has exactly that many bytes (`splitAtByte?_eq_some_iff`).
-/
namespace ScopedCss.Text

/-- The number of bytes of a text in UTF-8. -/
def bytes (t : Text) : Nat := t.foldr (fun c n => c.utf8Size + n) 0

/-- The text cut at a byte offset, if the offset stands between two characters or at an end. -/
def splitAtByte? : Text → Nat → Option (Text × Text)
  | t, 0 => some ([], t)
  | [], _ + 1 => none
  | c :: t, n + 1 =>
    if c.utf8Size ≤ n + 1 then
      (splitAtByte? t (n + 1 - c.utf8Size)).map fun (before, after) => (c :: before, after)
    else none

@[simp] theorem bytes_nil : bytes [] = 0 := rfl

@[simp] theorem bytes_cons (c : Char) (t : Text) : bytes (c :: t) = c.utf8Size + bytes t := rfl

@[simp] theorem bytes_append (s t : Text) : bytes (s ++ t) = bytes s + bytes t := by
  induction s with
  | nil => simp
  | cons c s ih => rw [List.cons_append, bytes_cons, bytes_cons, ih, Nat.add_assoc]

/-- The offsets at which a text can be cut are the sizes of its initial pieces. -/
theorem splitAtByte?_eq_some_iff {t before after : Text} {n : Nat} :
    splitAtByte? t n = some (before, after) ↔ t = before ++ after ∧ bytes before = n := by
  induction t generalizing before n with
  | nil =>
    cases n with
    | zero => cases before <;> simp [splitAtByte?, eq_comm]
    | succ n => cases before <;> simp [splitAtByte?]
  | cons c t ih =>
    cases n with
    | zero =>
      have := c.utf8Size_pos
      cases before with
      | nil => simp [splitAtByte?, eq_comm]
      | cons d before => have := d.utf8Size_pos; simp [splitAtByte?]; grind
    | succ n =>
      by_cases fits : c.utf8Size ≤ n + 1
      · cases before with
        | nil => simp [splitAtByte?, fits]
        | cons d before =>
          simp only [splitAtByte?, fits, ↓reduceIte, Option.map_eq_some_iff, Prod.mk.injEq,
            List.cons_append, List.cons.injEq, bytes_cons, Prod.exists]
          constructor
          · rintro ⟨b, a, h, ⟨rfl, rfl⟩, rfl⟩
            obtain ⟨rfl, size⟩ := ih.1 h
            exact ⟨⟨rfl, rfl⟩, by omega⟩
          · rintro ⟨⟨rfl, rfl⟩, size⟩
            exact ⟨before, after, ih.2 ⟨rfl, by omega⟩, ⟨rfl, rfl⟩, rfl⟩
      · cases before with
        | nil => simp [splitAtByte?, fits]
        | cons d before =>
          simp only [splitAtByte?, fits, ↓reduceIte, List.cons_append, List.cons.injEq, bytes_cons,
            reduceCtorEq, false_iff, not_and, and_imp]
          rintro rfl _
          omega

end ScopedCss.Text
