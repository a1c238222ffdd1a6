import Mathlib.Algebra.Group.Nat.Defs
import ScopedCss.Proofs.Text.Shielding
import ScopedCss.Suffix

/-!
# Texts without the word in every mark

A text can be cut at any character that does not stand in the word, and is free of the word exactly
if both sides are (`wordFree_append_cons`).  A suffix at the end of a text brings no such word with
it: it consists of digits, and of no more than six (`length_ofSource_le`).
-/
namespace ScopedCss

/-! ### Suffixes -/

namespace Base62

theorem isAlphanum_digit (n : Nat) : (digit n).isAlphanum := by
  have all : alphabet.all Char.isAlphanum := by decide
  rw [digit, List.getD_eq_getElem?_getD]
  cases found : alphabet[n]? with
  | none => rfl
  | some c => exact List.all_eq_true.1 all c (List.mem_of_getElem? found)

theorem isAlphanum_of_mem_encode {n : Nat} {c : Char} (mem : c ∈ encode n) : c.isAlphanum := by
  fun_induction encode n with
  | case1 n small =>
    rw [List.mem_singleton.1 mem]
    exact isAlphanum_digit n
  | case2 n large ih =>
    rcases List.mem_append.1 mem with front | last
    · exact ih front
    · rw [List.mem_singleton.1 last]
      exact isAlphanum_digit _

/-- A number has as many digits as it takes powers of the base to exceed it. -/
theorem length_encode_le {n : Nat} (k : Nat) (small : n < 62 ^ (k + 1)) : (encode n).length ≤ k + 1 := by
  induction k generalizing n with
  | zero =>
    rw [encode, if_pos (by simpa using small)]
    rfl
  | succ k ih =>
    rw [encode]
    split
    · simp
    · have quotient : n / 62 < 62 ^ (k + 1) := by
        rw [Nat.div_lt_iff_lt_mul (by decide), ← Nat.pow_succ]
        exact small
      rw [List.length_append, List.length_singleton]
      exact Nat.succ_le_succ (ih quotient)

end Base62

namespace Suffix

theorem isAlphanum_of_mem_ofSource {source : Text} {c : Char} (mem : c ∈ ofSource source) :
    c.isAlphanum :=
  Base62.isAlphanum_of_mem_encode mem

/-- A suffix has no more than six digits. -/
theorem length_ofSource_le (source : Text) : (ofSource source).length ≤ 6 := by
  refine Base62.length_encode_le 5 ?_
  exact (hash source).toNat_lt.trans (by decide)

end Suffix

/-! ### The word -/

namespace Quoted

theorem infix_append_cases {w s t : Text} (inside : w <:+: s ++ t) :
    w <:+: s ∨ w <:+: t ∨ ∃ front back, w = front ++ back ∧ back ≠ [] ∧ front <:+ s ∧ back <+: t := by
  obtain ⟨before, after, split⟩ := inside
  rw [List.append_assoc] at split
  rcases List.append_eq_append_iff.1 split with ⟨u, rfl, reach⟩ | ⟨u, rfl, rest⟩
  · rcases List.append_eq_append_iff.1 reach with ⟨v, rfl, rfl⟩ | ⟨v, rfl, rfl⟩
    · exact .inl ⟨before, v, by simp⟩
    · by_cases empty : v = []
      · subst empty
        exact .inl ⟨before, [], by simp⟩
      · exact .inr (.inr ⟨u, v, rfl, empty, ⟨before, rfl⟩, ⟨after, rfl⟩⟩)
  · exact .inr (.inl ⟨u, after, by rw [rest, List.append_assoc]⟩)

theorem wordFree_nil : WordFree [] := by
  intro inside
  cases List.infix_nil.1 inside

/-- A text can be cut at a character that does not stand in the word. -/
theorem wordFree_append_cons {c : Char} (foreign : c ∉ Mark.word) {s t : Text} :
    WordFree (s ++ c :: t) ↔ WordFree s ∧ WordFree t := by
  constructor
  · intro free
    refine ⟨free.part (List.prefix_append s _).isInfix, free.part ?_⟩
    exact ((List.suffix_cons c t).trans (List.suffix_append s _)).isInfix
  · rintro ⟨left, right⟩ inside
    have starts : ∀ w, w ≠ [] → w <+: c :: t → c ∈ w := by
      intro w nonempty front
      cases w with
      | nil => exact absurd rfl nonempty
      | cons d w => exact (List.cons_prefix_cons.1 front).1 ▸ List.mem_cons_self
    rcases infix_append_cases inside with before | there | ⟨front, back, split, nonempty, -, after⟩
    · exact left before
    · rcases List.infix_cons_iff.1 there with here | later
      · exact foreign (starts _ (by decide) here)
      · exact right later
    · exact foreign (split ▸ List.mem_append_right front (starts back nonempty after))

/-- Pieces with a character between them that does not stand in the word are free of it if each piece
is. -/
theorem wordFree_joinWith {c : Char} (foreign : c ∉ Mark.word) {pieces : List Text} :
    WordFree (Text.joinWith [c] pieces) ↔ ∀ piece ∈ pieces, WordFree piece := by
  induction pieces with
  | nil => exact iff_of_true wordFree_nil (by simp)
  | cons piece pieces ih =>
    cases pieces with
    | nil => simp [Text.joinWith]
    | cons next pieces =>
      rw [Text.joinWith_cons_cons, wordFree_append_cons foreign, ih]
      exact List.forall_mem_cons.symm

/-- No end of the word that starts with `_` goes on with ten letters and digits or fewer. -/
theorem not_suffix_word {digits : Text} (alphanum : ∀ c ∈ digits, c.isAlphanum)
    (few : digits.length ≤ 10) : ¬ '_' :: digits <:+ Mark.word := by
  have ends : Mark.word.tails.all (fun t =>
      t.head? != some '_' || !t.tail.all Char.isAlphanum || 11 ≤ t.tail.length) := by decide
  intro suffix
  have here := List.all_eq_true.1 ends _ ((List.mem_tails _ _).2 suffix)
  rw [List.head?_cons, List.tail_cons, List.all_eq_true.2 alphanum] at here
  have many : 11 ≤ digits.length := by simpa using here
  omega

/-- A suffix at the end of a text does not complete the word. -/
theorem wordFree_attach {s digits : Text} (free : WordFree s) (alphanum : ∀ c ∈ digits, c.isAlphanum)
    (few : digits.length ≤ 10) : WordFree (Suffix.attach digits s) := by
  have own : ∀ t, t ≠ [] → t <+: '_' :: digits → ¬ t <:+ Mark.word := by
    intro t nonempty front
    cases t with
    | nil => exact absurd rfl nonempty
    | cons c t =>
      obtain ⟨rfl, inside⟩ := List.cons_prefix_cons.1 front
      refine not_suffix_word (fun c mem => alphanum c (inside.subset mem)) ?_
      exact inside.length_le.trans few
  intro inside
  rcases infix_append_cases inside with before | after | ⟨front, back, split, nonempty, -, start⟩
  · exact free before
  · rcases List.infix_cons_iff.1 after with here | later
    · exact own Mark.word (by decide) here List.suffix_rfl
    · have underscore : '_' ∈ digits := later.subset (by decide)
      exact absurd (alphanum '_' underscore) (by decide)
  · exact own back nonempty start ⟨front, split.symm⟩

/-- A suffix does not complete the word in front of a character that does not stand in it. -/
theorem wordFree_attach_append {s t digits : Text} (free : WordFree (s ++ t))
    (ends : ∀ c ∈ t.head?, c ∉ Mark.word) (alphanum : ∀ c ∈ digits, c.isAlphanum)
    (few : digits.length ≤ 10) : WordFree (Suffix.attach digits s ++ t) := by
  cases t with
  | nil =>
    rw [List.append_nil] at free ⊢
    exact wordFree_attach free alphanum few
  | cons c t =>
    have foreign := ends c rfl
    rw [wordFree_append_cons foreign] at free ⊢
    exact ⟨wordFree_attach free.1 alphanum few, free.2⟩

end Quoted
end ScopedCss
