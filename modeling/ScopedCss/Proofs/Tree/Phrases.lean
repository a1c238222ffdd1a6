import ScopedCss.Proofs.Plain.Attributes
import ScopedCss.Proofs.Rule.Balance
import ScopedCss.Proofs.Text.WordFree

/-!
# Phrases

A phrase is a text with at most one string in it.  Items of selectors, words of animations and names
of font families are phrases, before they are scoped and after, and what shielding and unshielding
makes of a phrase only concerns its string.
-/
namespace ScopedCss

open Quoted

/-- Whether a character belongs to no string and no mark, and is not structural either. -/
def Text.isPlain (c : Char) : Bool :=
  !isQuote c && !(['\\', '%', ';', '{', '}'].contains c)

/-- A text with at most one string in it. -/
structure Phrase where
  front : Text
  quote : Option Char
  value : Text
  back : Text
  front_plain : ∀ c ∈ front, Text.isPlain c
  isQuote : ∀ q ∈ quote, Text.isQuote q
  value_unquoted : ∀ c ∈ value, Text.isQuote c = false ∧ c ≠ '\\'
  /-- What is not in a string has no structural character. -/
  value_plain : quote = none → ∀ c ∈ value, Text.isPlain c
  back_plain : ∀ c ∈ back, Text.isPlain c

namespace Text

theorem isPlain_iff {c : Char} :
    isPlain c ↔ isQuote c = false ∧ c ≠ '\\' ∧ c ≠ '%' ∧ c ≠ ';' ∧ c ≠ '{' ∧ c ≠ '}' := by
  simp [isPlain]

/-- A text of plain characters is flat, has nothing to shield and no `%`. -/
theorem flat_of_plain {t : Text} (plain : ∀ c ∈ t, isPlain c) :
    Flat t ∧ shield t = t ∧ '%' ∉ t := by
  have unquoted : ∀ c ∈ t, isQuote c = false := fun c mem => (isPlain_iff.1 (plain c mem)).1
  have clean : '\\' ∉ t := fun mem => (isPlain_iff.1 (plain '\\' mem)).2.1 rfl
  have same := shield_of_no_quote unquoted clean
  refine ⟨flat_of_no_quote unquoted clean ?_, same, ?_⟩
  · intro c mem
    obtain ⟨-, -, -, semicolon, opening, closing⟩ := isPlain_iff.1 (plain c mem)
    simp [Frame.isStructural, semicolon, opening, closing]
  · exact fun mem => (isPlain_iff.1 (plain '%' mem)).2.2.1 rfl

end Text

theorem Plain.isPlain_of_isNameChar {c : Char} (letter : isNameChar c) : Text.isPlain c := by
  have other (d : Char) (foreign : isNameChar d = false) : c ≠ d := ne_of_isNameChar letter foreign
  have unquoted : Text.isQuote c = false := by
    simp [Text.isQuote, other '"' rfl, other '\'' rfl]
  exact Text.isPlain_iff.2 ⟨unquoted, other '\\' rfl, other '%' rfl, other ';' rfl, other '{' rfl,
    other '}' rfl⟩

namespace Phrase
variable (p : Phrase)

/-- The characters of a phrase. -/
def text : Text := p.front ++ (p.quote.toList ++ (p.value ++ (p.quote.toList ++ p.back)))

/-- The value with its structural characters marked, if it is a string. -/
def shieldValue : Text :=
  match p.quote with
  | none => p.value
  | some _ => p.value.flatMap Mark.ofChar

/-- The characters of a phrase with its string shielded. -/
def shieldText : Text :=
  p.front ++ (p.quote.toList ++ (p.shieldValue ++ (p.quote.toList ++ p.back)))

theorem quote_not_mem {q : Char} (quoted : p.quote = some q) : q ∉ p.value := by
  intro mem
  have isQuote := p.isQuote q quoted
  rw [(p.value_unquoted q mem).1] at isQuote
  cases isQuote

/-- A phrase is flat, and its value is all there is to shield in it. -/
theorem flat_text : Flat p.text ∧ shield p.text = p.shieldText := by
  obtain ⟨front, front', -⟩ := Text.flat_of_plain p.front_plain
  obtain ⟨back, back', -⟩ := Text.flat_of_plain p.back_plain
  have clean : '\\' ∉ p.value := fun mem => (p.value_unquoted '\\' mem).2 rfl
  have middle : Flat (p.quote.toList ++ (p.value ++ p.quote.toList)) ∧
      shield (p.quote.toList ++ (p.value ++ p.quote.toList)) =
        p.quote.toList ++ (p.shieldValue ++ p.quote.toList) := by
    unfold shieldValue
    cases quoted : p.quote with
    | none =>
      obtain ⟨flat, same, -⟩ := Text.flat_of_plain (p.value_plain quoted)
      simpa using And.intro flat same
    | some q =>
      have isQuote := p.isQuote q quoted
      have inside := p.quote_not_mem quoted
      have same := shield_quoted isQuote inside clean
      exact ⟨flat_quoted isQuote inside clean, same⟩
  have split : p.text = p.front ++ ((p.quote.toList ++ (p.value ++ p.quote.toList)) ++ p.back) := by
    simp [text]
  rw [split]
  refine ⟨front.append (middle.1.append back), ?_⟩
  rw [shield_append front.closed, shield_append middle.1.closed, middle.2, front', back']
  simp [shieldText]

/-- Unshielding gives back the phrase. -/
theorem unshield_shieldText_append (free : WordFree p.value) (t : Text) :
    unshield (p.shieldText ++ t) = p.text ++ unshield t := by
  obtain ⟨-, -, front⟩ := Text.flat_of_plain p.front_plain
  obtain ⟨-, -, back⟩ := Text.flat_of_plain p.back_plain
  have split : p.shieldText ++ t = p.front ++
      (p.quote.toList ++ (p.shieldValue ++ (p.quote.toList ++ (p.back ++ t)))) := by
    simp [shieldText]
  rw [split, unshield_append_of_no_percent front]
  unfold text shieldValue
  cases quoted : p.quote with
  | none =>
    obtain ⟨-, -, value⟩ := Text.flat_of_plain (p.value_plain quoted)
    simp [unshield_append_of_no_percent value, unshield_append_of_no_percent back]
  | some q =>
    have plain : Mark.isMarkChar q = false := isMarkChar_of_isQuote (p.isQuote q quoted)
    have inside := unshield_append_cons plain (p.value.flatMap Mark.ofChar) (p.back ++ t)
    have before := unshield_append_cons plain [] (p.value.flatMap Mark.ofChar ++ q :: (p.back ++ t))
    rw [unshield_flatMap_ofChar free, unshield_append_of_no_percent back] at inside
    rw [inside] at before
    simpa using before

/-- A phrase that is not shielded stays as it is when it is unshielded. -/
theorem unshield_text_append (free : WordFree p.value) (t : Text) :
    unshield (p.text ++ t) = p.text ++ unshield t := by
  obtain ⟨-, -, front⟩ := Text.flat_of_plain p.front_plain
  obtain ⟨-, -, back⟩ := Text.flat_of_plain p.back_plain
  have split : p.text ++ t = p.front ++
      (p.quote.toList ++ (p.value ++ (p.quote.toList ++ (p.back ++ t)))) := by
    simp [text]
  rw [split, unshield_append_of_no_percent front]
  unfold text
  cases quoted : p.quote with
  | none =>
    obtain ⟨-, -, value⟩ := Text.flat_of_plain (p.value_plain quoted)
    simp [unshield_append_of_no_percent value, unshield_append_of_no_percent back]
  | some q =>
    have plain : Mark.isMarkChar q = false := isMarkChar_of_isQuote (p.isQuote q quoted)
    have inside := unshield_append_cons plain p.value (p.back ++ t)
    have before := unshield_append_cons plain [] (p.value ++ q :: (p.back ++ t))
    rw [unshield_of_wordFree free, unshield_append_of_no_percent back] at inside
    rw [inside] at before
    simpa using before

/-! ### Phrases in a row -/

/-- Phrases in a row are flat, and shielded one by one. -/
theorem flat_flatMap {α : Type} {f g : α → Text} {l : List α}
    (phrase : ∀ a ∈ l, ∃ p : Phrase, p.text = f a ∧ p.shieldText = g a) :
    Flat (l.flatMap f) ∧ shield (l.flatMap f) = l.flatMap g := by
  induction l with
  | nil => exact ⟨.nil, rfl⟩
  | cons a l ih =>
    obtain ⟨p, text, shieldText⟩ := phrase a List.mem_cons_self
    obtain ⟨flat, same⟩ := ih fun b mem => phrase b (List.mem_cons_of_mem a mem)
    obtain ⟨first, first'⟩ := p.flat_text
    rw [text] at first first'
    rw [List.flatMap_cons, List.flatMap_cons, shield_append first.closed, first', shieldText, same]
    exact ⟨first.append flat, rfl⟩

/-- Unshielding gives back phrases in a row. -/
theorem unshield_flatMap {α : Type} {f g : α → Text} {l : List α}
    (phrase : ∀ a ∈ l, ∃ p : Phrase, p.text = f a ∧ p.shieldText = g a ∧ WordFree p.value) :
    unshield (l.flatMap g) = l.flatMap f := by
  induction l with
  | nil => rfl
  | cons a l ih =>
    obtain ⟨p, text, shieldText, free⟩ := phrase a List.mem_cons_self
    have same := ih fun b mem => phrase b (List.mem_cons_of_mem a mem)
    rw [List.flatMap_cons, List.flatMap_cons, ← shieldText, p.unshield_shieldText_append free, text,
      same]

/-- Phrases in a row that are not shielded stay as they are. -/
theorem unshield_flatMap_text {α : Type} {f : α → Text} {l : List α}
    (phrase : ∀ a ∈ l, ∃ p : Phrase, p.text = f a ∧ WordFree p.value) :
    unshield (l.flatMap f) = l.flatMap f := by
  induction l with
  | nil => rfl
  | cons a l ih =>
    obtain ⟨p, text, free⟩ := phrase a List.mem_cons_self
    have same := ih fun b mem => phrase b (List.mem_cons_of_mem a mem)
    rw [List.flatMap_cons, ← text, p.unshield_text_append free, same]

end Phrase

end ScopedCss
