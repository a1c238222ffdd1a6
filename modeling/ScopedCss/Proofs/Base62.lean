import Mathlib.Data.List.Basic
import Mathlib.Data.List.GetD
import Mathlib.Data.List.Induction
import Mathlib.Data.Nat.Digits.Defs
import ScopedCss.Base62

/-!
# Reading numbers in base 62

A spelling has a value, digit by digit (`value`).  Writing a number and reading what was written gives the
number again (`value_encode`), so no two numbers are written alike (`encode_injective`).

What is written has no superfluous zero in front (`canonical_encode`).  Digits without one are what is
written for their value (`encode_value`): a number has no other spelling of this form.
-/
namespace ScopedCss.Base62

/-- The number that a digit stands for. -/
def place (c : Char) : Nat := alphabet.idxOf c

/-- The number that digits stand for, the most significant of them first. -/
def value (digits : Text) : Nat := Nat.ofDigits 62 (digits.reverse.map place)

/-- Digits, of which the first is a zero only if it is the only one. -/
structure Canonical (digits : Text) : Prop where
  nonempty : digits ≠ []
  known : ∀ c ∈ digits, c ∈ alphabet
  lead : digits.head? = some '0' → digits = ['0']

/-! ### Digits -/

theorem length_alphabet : alphabet.length = 62 := by decide +kernel

theorem digit_zero : digit 0 = '0' := by decide +kernel

theorem place_digit {n : Nat} (small : n < 62) : place (digit n) = n := by
  have all : ∀ n < 62, place (digit n) = n := by decide +kernel
  exact all n small

theorem place_lt {c : Char} (known : c ∈ alphabet) : place c < 62 :=
  length_alphabet ▸ List.idxOf_lt_length_of_mem known

theorem digit_place {c : Char} (known : c ∈ alphabet) : digit (place c) = c := by
  have inside : alphabet.idxOf c < alphabet.length := List.idxOf_lt_length_of_mem known
  rw [digit, place, List.getD_eq_getElem _ _ inside]
  exact List.getElem_idxOf inside

theorem digit_mem_alphabet {n : Nat} (small : n < 62) : digit n ∈ alphabet := by
  have inside : n < alphabet.length := length_alphabet ▸ small
  rw [digit, List.getD_eq_getElem _ _ inside]
  exact List.getElem_mem inside

theorem value_concat (digits : Text) (c : Char) : value (digits ++ [c]) = place c + 62 * value digits := by
  rw [value, List.reverse_append, List.reverse_singleton, List.singleton_append, List.map_cons,
    Nat.ofDigits_cons]
  rfl

/-! ### Writing and reading -/

/-- **What is written for a number reads as the number.** -/
theorem value_encode (n : Nat) : value (encode n) = n := by
  fun_induction encode n with
  | case1 n small =>
    have last := value_concat [] (digit n)
    rwa [place_digit small] at last
  | case2 n large ih =>
    rw [value_concat, ih, place_digit (Nat.mod_lt n (by decide)), Nat.mod_add_div]

theorem encode_injective : Function.Injective encode := Function.LeftInverse.injective value_encode

theorem encode_ne_nil (n : Nat) : encode n ≠ [] := by
  rw [encode]
  split <;> simp

/-- Only zero is written with a zero in front. -/
theorem eq_zero_of_head_encode {n : Nat} (zero : (encode n).head? = some '0') : n = 0 := by
  fun_induction encode n with
  | case1 n small =>
    have same : digit n = '0' := by simpa using zero
    rw [← place_digit small, same, ← digit_zero, place_digit (by decide)]
  | case2 n large ih =>
    rw [List.head?_append_of_ne_nil _ (encode_ne_nil _)] at zero
    have quotient := ih zero
    omega

/-- What is written for a number has no superfluous zero. -/
theorem canonical_encode (n : Nat) : Canonical (encode n) where
  nonempty := encode_ne_nil n
  known := by
    intro c mem
    fun_induction encode n with
    | case1 n small =>
      rw [List.mem_singleton.1 mem]
      exact digit_mem_alphabet small
    | case2 n large ih =>
      rcases List.mem_append.1 mem with front | last
      · exact ih front
      · rw [List.mem_singleton.1 last]
        exact digit_mem_alphabet (Nat.mod_lt n (by decide))
  lead := by
    intro zero
    rw [eq_zero_of_head_encode zero, encode, if_pos (by decide), digit_zero]

/-! ### Reading and writing -/

/-- The last digit of a number with more than one. -/
theorem encode_concat {n p : Nat} (pos : 0 < n) (small : p < 62) :
    encode (p + 62 * n) = encode n ++ [digit p] := by
  have quotient : (p + 62 * n) / 62 = n := by omega
  have remainder : (p + 62 * n) % 62 = p := by omega
  rw [encode, if_neg (by omega), quotient, remainder]

/-- Digits without a zero in front do not stand for zero. -/
theorem value_pos {digits : Text} (nonempty : digits ≠ []) (known : ∀ c ∈ digits, c ∈ alphabet)
    (lead : digits.head? ≠ some '0') : 0 < value digits := by
  induction digits using List.reverseRecOn with
  | nil => exact absurd rfl nonempty
  | append_singleton digits c ih =>
    have last : c ∈ alphabet := known c (by simp)
    rw [value_concat]
    by_cases alone : digits = []
    · subst alone
      by_contra zero
      have first : place c = 0 := by omega
      have same : c = '0' := by rw [← digit_place last, first, digit_zero]
      exact lead (congrArg some same)
    · rw [List.head?_append_of_ne_nil _ alone] at lead
      have front := ih alone (fun d mem => known d (List.mem_append_left _ mem)) lead
      omega

/-- **Digits without a superfluous zero are what is written for their value.** -/
theorem encode_value {digits : Text} (canonical : Canonical digits) : encode (value digits) = digits := by
  induction digits using List.reverseRecOn with
  | nil => exact absurd rfl canonical.nonempty
  | append_singleton digits c ih =>
    have last : c ∈ alphabet := canonical.known c (by simp)
    rw [value_concat]
    by_cases alone : digits = []
    · subst alone
      have single : place c + 62 * value [] = place c := rfl
      rw [single, encode, if_pos (place_lt last), digit_place last]
      rfl
    · have known : ∀ d ∈ digits, d ∈ alphabet := fun d mem =>
        canonical.known d (List.mem_append_left _ mem)
      -- With a digit behind it a zero in front would be superfluous.
      have lead : digits.head? ≠ some '0' := by
        intro zero
        have single := canonical.lead (by rwa [List.head?_append_of_ne_nil _ alone])
        have size : digits.length + 1 = 1 := by simpa using congrArg List.length single
        exact alone (List.length_eq_zero_iff.1 (by omega))
      rw [encode_concat (value_pos alone known lead) (place_lt last), digit_place last,
        ih ⟨alone, known, fun zero => absurd zero lead⟩]

end ScopedCss.Base62
