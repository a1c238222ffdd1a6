import ScopedCss.Proofs.Plain.Items
import ScopedCss.Proofs.Selector.Pieces

/-!
# Reading the attribute selectors of a plain list

An attribute selector of a plain list is read for what it is, whatever follows it: as a comparison of
classes or ids if it is one (`read_text`), and as nothing otherwise.  In the same way its spelling is
normalised exactly if it compares the whole class attribute (`normalise_text`).
-/
namespace ScopedCss

namespace Text
variable {s t : Text}

/-- Spaces in front of something else are all the spaces in front. -/
theorem trimStart_of_spaces (spaces : ∀ c ∈ s, isSpace c) (solid : ∀ c ∈ t.head?, isSpace c = false) :
    leading (s ++ t) = s ∧ trimStart (s ++ t) = t := by
  rw [leading_append_of_spaces spaces, trimStart_append_of_spaces spaces]
  cases t with
  | nil => simp [leading, trimStart]
  | cons c t =>
    have here := solid c rfl
    rw [leading_cons_of_not_space here, trimStart_cons_of_not_space here]
    simp

/-- Spaces behind something else are all the spaces behind. -/
theorem trimEnd_of_spaces (spaces : ∀ c ∈ t, isSpace c)
    (solid : ∀ c ∈ s.getLast?, isSpace c = false) :
    trimEnd (s ++ t) = s ∧ trailing (s ++ t) = t := by
  have spaces' : ∀ c ∈ t.reverse, isSpace c := fun c mem => spaces c (List.mem_reverse.1 mem)
  have solid' : ∀ c ∈ s.reverse.head?, isSpace c = false := by
    rwa [List.head?_reverse]
  obtain ⟨lead, trim⟩ := trimStart_of_spaces spaces' solid'
  rw [trimEnd, trailing, List.reverse_append]
  rw [leading] at lead
  rw [trimStart] at trim
  rw [lead, trim, List.reverse_reverse, List.reverse_reverse]
  exact ⟨rfl, rfl⟩

end Text

namespace Plain

/-! ### Name characters -/

theorem ne_of_isNameChar {c d : Char} (h : isNameChar c) (other : isNameChar d = false) : c ≠ d := by
  rintro rfl
  rw [h] at other
  cases other

theorem isNameChar_text {c : Char} (h : isNameChar c) : Text.isNameChar c := by
  rw [isNameChar] at h
  rw [Text.isNameChar, h]
  rfl

theorem toNat_of_isNameChar {c : Char} (h : isNameChar c) : 45 ≤ c.toNat ∧ c.toNat ≤ 122 := by
  simp only [isNameChar, Bool.or_eq_true, Text.isAlphanum_iff, beq_iff_eq] at h
  rcases h with (bounds | rfl) | rfl
  · omega
  · decide
  · decide

theorem isSpace_of_isNameChar {c : Char} (h : isNameChar c) : Text.isSpace c = false := by
  obtain ⟨low, high⟩ := toNat_of_isNameChar h
  simp only [Text.isSpace, Bool.or_eq_false_iff, Bool.and_eq_false_imp, decide_eq_true_eq,
    decide_eq_false_iff_not, beq_eq_false_iff_ne]
  omega

theorem Name.head (name : Name) : ∃ c t, name.text = c :: t ∧ isNameChar c := by
  cases h : name.text with
  | nil => exact absurd h name.nonempty
  | cons c t => exact ⟨c, t, rfl, name.plain c (by rw [h]; exact List.mem_cons_self)⟩

/-! ### Operators and values -/

namespace Comparison
variable (c : Comparison)

theorem operatorText_head : ∃ d t, c.operatorText = d :: t ∧ (d = '=' ↔ c.operator = none) ∧
    d ∈ ['=', '*', '^', '$', '~', '|'] := by
  cases h : c.operator with
  | none => exact ⟨'=', [], by rw [operatorText, h]; rfl, by simp, by decide⟩
  | some d =>
    have known := c.isOperator d h
    refine ⟨d, ['='], by rw [operatorText, h]; rfl, ?_, List.mem_cons_of_mem _ known⟩
    simp only [reduceCtorEq, iff_false]
    rintro rfl
    revert known
    decide

theorem readOperator_text (t : Text) :
    NamedAttribute.readOperator (c.operatorText ++ t) = some (c.operatorText, t) := by
  cases h : c.operator with
  | none =>
    rw [operatorText, h]
    rfl
  | some d =>
    have known := c.isOperator d h
    rw [operatorText, h]
    simp only [List.mem_cons, List.not_mem_nil, or_false] at known
    rcases known with rfl | rfl | rfl | rfl | rfl <;> rfl

theorem isValueChar_of_mem {d : Char} (mem : d ∈ c.value) : NamedAttribute.isValueChar d := by
  have known := c.value_chars d mem
  have bracket : d ≠ ']' := by
    rintro rfl
    cases known
  simp only [isValueChar, Bool.and_eq_true] at known
  simp [NamedAttribute.isValueChar, bracket, known.1]

theorem isValueChar_of_isSpace {d : Char} (space : Text.isSpace d) : NamedAttribute.isValueChar d := by
  have bracket : d ≠ ']' := by
    rintro rfl
    cases space
  have quote : Text.isQuote d = false := by
    rw [← Bool.not_eq_true]
    intro quote
    simp only [Text.isQuote, Bool.or_eq_true, beq_iff_eq] at quote
    rcases quote with rfl | rfl <;> cases space
  simp [NamedAttribute.isValueChar, bracket, quote]

theorem isSpace_of_isQuote {q : Char} (h : Text.isQuote q) : Text.isSpace q = false := by
  simp only [Text.isQuote, Bool.or_eq_true, beq_iff_eq] at h
  rcases h with rfl | rfl <;> rfl

/-- The characters from the value on, where the text behind the bracket is given. -/
def ending (t : Text) : Text := c.value ++ (c.quote.toList ++ (c.back ++ (']' :: t)))

theorem splitQuote_ending (t : Text) :
    NamedAttribute.splitQuote (c.quote.toList ++ c.ending t) = (c.quote.toList, c.ending t) := by
  cases h : c.quote with
  | none =>
    obtain ⟨-, -, empty⟩ := c.bare h
    cases v : c.value with
    | nil =>
      rw [ending, v, h, empty v]
      rfl
    | cons d v' =>
      have plain := c.isValueChar_of_mem (d := d) (by rw [v]; exact List.mem_cons_self)
      simp only [NamedAttribute.isValueChar, Bool.and_eq_true, Bool.not_eq_true'] at plain
      rw [ending, v]
      simp [NamedAttribute.splitQuote, plain.1]
  | some q =>
    have quote := c.isQuote q h
    simp [NamedAttribute.splitQuote, quote]

theorem ending_solid (t : Text) :
    ∀ d ∈ (c.quote.toList ++ c.ending t).head?, Text.isSpace d = false := by
  intro d first
  cases h : c.quote with
  | none =>
    obtain ⟨front, -, empty⟩ := c.bare h
    rw [h] at first
    cases v : c.value with
    | nil =>
      rw [ending, v, h, empty v] at first
      cases first
      rfl
    | cons e v' =>
      rw [ending, v] at first
      cases first
      exact front d (by rw [v]; rfl)
  | some q =>
    rw [h] at first
    cases first
    exact isSpace_of_isQuote (c.isQuote d h)

/-- A value is read with the quote and the spaces behind it, up to the bracket. -/
theorem readValue_ending (t : Text) :
    NamedAttribute.readValue (c.ending t) =
      some (c.value, c.quote.toList ++ (c.back ++ [']'])) := by
  have value : ∀ d ∈ c.value, NamedAttribute.isValueChar d := fun d mem => c.isValueChar_of_mem mem
  cases h : c.quote with
  | none =>
    obtain ⟨-, back, empty⟩ := c.bare h
    have run : ∀ d ∈ c.value ++ c.back, NamedAttribute.isValueChar d := by
      intro d mem
      rcases List.mem_append.1 mem with mem | mem
      · exact value d mem
      · exact isValueChar_of_isSpace (c.back_spaces d mem)
    have whole : c.ending t = c.value ++ c.back ++ ']' :: t := by simp [ending, h]
    obtain ⟨trim, trail⟩ := Text.trimEnd_of_spaces c.back_spaces back
    have take : (']' :: t).takeWhile NamedAttribute.isValueChar = [] := rfl
    have drop : (']' :: t).dropWhile NamedAttribute.isValueChar = ']' :: t := rfl
    rw [whole, NamedAttribute.readValue, List.takeWhile_append_of_pos run,
      List.dropWhile_append_of_pos run, take, drop, List.append_nil]
    simp only [trim, trail]
    rfl
  | some q =>
    have quote := c.isQuote q h
    have stops : NamedAttribute.isValueChar q = false := by
      simp [NamedAttribute.isValueChar, quote]
    have bracket : q ≠ ']' := by
      rintro rfl
      cases quote
    have whole : c.ending t = c.value ++ q :: (c.back ++ ']' :: t) := by simp [ending, h]
    obtain ⟨lead, trim⟩ := Text.trimStart_of_spaces (t := ']' :: t) c.back_spaces
      (by intro d first; cases first; rfl)
    rw [whole, NamedAttribute.readValue, List.takeWhile_append_of_pos value,
      List.dropWhile_append_of_pos value]
    simp only [List.takeWhile_cons, List.dropWhile_cons, stops, Bool.false_eq_true, ↓reduceIte,
      List.append_nil, trim, lead]
    simp

end Comparison

theorem class_letters : ∀ c ∈ "class".toList, isNameChar c :=
  List.all_eq_true.1 (by decide : "class".toList.all isNameChar = true)

theorem id_letters : ∀ c ∈ "id".toList, isNameChar c :=
  List.all_eq_true.1 (by decide : "id".toList.all isNameChar = true)

/-- An operator starts with a character of its own. -/
theorem readOperator_of_other {d : Char} (other : d ∉ ['=', '*', '^', '$', '~', '|']) (t : Text) :
    NamedAttribute.readOperator (d :: t) = none := by
  rw [List.mem_cons, not_or] at other
  unfold NamedAttribute.readOperator
  split
  next same => exact absurd (List.cons.inj same).1 other.1
  next same =>
    rw [← (List.cons.inj same).1]
    exact if_neg other.2
  next => rfl

theorem readOperator_bracket (t : Text) : NamedAttribute.readOperator (']' :: t) = none :=
  readOperator_of_other (by decide) t

theorem readOperator_of_isNameChar {d : Char} (letter : isNameChar d) (t : Text) :
    NamedAttribute.readOperator (d :: t) = none := by
  refine readOperator_of_other ?_ t
  intro mem
  simp only [List.mem_cons, List.not_mem_nil, or_false] at mem
  rcases mem with rfl | rfl | rfl | rfl | rfl | rfl <;> cases letter

namespace Attribute
variable (a : Attribute)

/-! ### Names of attributes -/

/-- What follows the name and the spaces behind it, where the text behind the bracket is given. -/
def behind (t : Text) : Text := a.comparison.elim [] Comparison.text ++ ']' :: t

theorem text_append (t : Text) :
    a.text ++ t = '[' :: (a.lead ++ (a.name.text ++ (a.gap ++ a.behind t))) := by
  simp [text, tail, behind]

theorem behind_head (t : Text) : ∃ d u, a.behind t = d :: u ∧
    d ∈ [']', '=', '*', '^', '$', '~', '|'] ∧
    (d = '=' ↔ ∃ c, a.comparison = some c ∧ c.operator = none) := by
  cases h : a.comparison with
  | none => exact ⟨']', t, by rw [behind, h]; rfl, by decide, by simp⟩
  | some c =>
    obtain ⟨d, u, operator, equal, known⟩ := c.operatorText_head
    refine ⟨d, _, by rw [behind, h, Option.elim_some, Comparison.text, operator]; rfl,
      List.mem_cons_of_mem _ known, equal.trans ?_⟩
    simp

theorem behind_solid (t : Text) : ∀ d ∈ (a.behind t).head?, Text.isSpace d = false := by
  obtain ⟨d, u, head, known, -⟩ := a.behind_head t
  rw [head]
  intro e first
  cases first
  simp only [List.mem_cons, List.not_mem_nil, or_false] at known
  rcases known with rfl | rfl | rfl | rfl | rfl | rfl | rfl <;> rfl

/-- Behind the name nothing follows that could belong to it. -/
theorem gap_foreign {w : Text} (word : ∀ c ∈ w, isNameChar c) (t : Text) :
    ∀ d ∈ (a.gap ++ a.behind t).head?, d ∉ w := by
  intro d first mem
  have letter := word d mem
  cases h : a.gap with
  | nil =>
    obtain ⟨e, u, head, known, -⟩ := a.behind_head t
    rw [h, List.nil_append, head] at first
    cases first
    simp only [List.mem_cons, List.not_mem_nil, or_false] at known
    rcases known with rfl | rfl | rfl | rfl | rfl | rfl | rfl <;> cases letter
  | cons e u =>
    rw [h] at first
    cases first
    have space := a.gap_spaces d (by rw [h]; exact List.mem_cons_self)
    rw [isSpace_of_isNameChar letter] at space
    cases space

theorem trimStart_name (t : Text) :
    Text.leading (a.lead ++ (a.name.text ++ t)) = a.lead ∧
      Text.trimStart (a.lead ++ (a.name.text ++ t)) = a.name.text ++ t := by
  obtain ⟨c, u, head, letter⟩ := a.name.head
  refine Text.trimStart_of_spaces a.lead_spaces ?_
  rw [head]
  intro d first
  cases first
  exact isSpace_of_isNameChar letter

/-- If a word stands in front of the name, either the name is the word, or a name character follows
the word. -/
theorem rest_cases {w r : Text} (h : w.isPrefixOf? a.name.text = some r) :
    (r = [] ∧ a.name.text = w) ∨
      ∃ d u, r = d :: u ∧ isNameChar d ∧ a.name.text ≠ w := by
  have whole := Text.append_of_isPrefixOf? h
  cases r with
  | nil => exact .inl ⟨rfl, by simpa using whole⟩
  | cons d u =>
    refine .inr ⟨d, u, rfl, a.name.plain d (by rw [whole]; simp), ?_⟩
    intro same
    rw [same] at whole
    simp at whole

/-! ### Normalising -/

theorem trimStart_gap (t : Text) :
    Text.leading (a.gap ++ a.behind t) = a.gap ∧
      Text.trimStart (a.gap ++ a.behind t) = a.behind t :=
  Text.trimStart_of_spaces a.gap_spaces (a.behind_solid t)

theorem trimStart_of_isNameChar {d : Char} (h : isNameChar d) (t : Text) :
    Text.trimStart (d :: t) = d :: t :=
  Text.trimStart_cons_of_not_space (isSpace_of_isNameChar h) t

/-- Whether the attribute selector compares the whole class attribute. -/
def IsExact : Prop := a.name.text = "class".toList ∧ ∃ c, a.comparison = some c ∧ c.operator = none

theorem readExactClass_of_isExact (whole : a.IsExact) (t : Text) :
    NamedAttribute.readExactClass (a.text ++ t) = some (a.lead ++ "class".toList ++ a.gap) := by
  obtain ⟨named, whole⟩ := whole
  obtain ⟨lead, trim⟩ := a.trimStart_name (a.gap ++ a.behind t)
  obtain ⟨lead', trim'⟩ := a.trimStart_gap t
  obtain ⟨d, u, head, -, equals⟩ := a.behind_head t
  have found : "class".toList.isPrefixOf? (a.name.text ++ (a.gap ++ a.behind t)) =
      some (a.gap ++ a.behind t) :=
    List.isPrefixOf?_eq_some_iff_append_eq.2 (by rw [named])
  rw [text_append, NamedAttribute.readExactClass]
  simp only [lead, trim, found, lead', trim']
  rw [head, equals.2 whole]
  rfl

theorem readExactClass_of_not_isExact (inexact : ¬ a.IsExact) (t : Text) :
    NamedAttribute.readExactClass (a.text ++ t) = none := by
  obtain ⟨lead, trim⟩ := a.trimStart_name (a.gap ++ a.behind t)
  obtain ⟨lead', trim'⟩ := a.trimStart_gap t
  rw [text_append, NamedAttribute.readExactClass]
  simp only [trim]
  rw [Text.isPrefixOf?_append (a.gap_foreign class_letters t)]
  cases found : "class".toList.isPrefixOf? a.name.text with
  | none => rfl
  | some r =>
    rcases a.rest_cases found with ⟨rfl, named⟩ | ⟨d, u, rfl, letter, -⟩
    · obtain ⟨d, u, head, -, equals⟩ := a.behind_head t
      have other : d ≠ '=' := fun same => inexact ⟨named, equals.1 same⟩
      simp only [Option.map_some, List.nil_append, trim']
      rw [head]
      split
      next same => exact absurd (List.cons.inj same).1 other
      next => rfl
    · have other : d ≠ '=' := ne_of_isNameChar letter rfl
      simp only [Option.map_some, List.cons_append, trimStart_of_isNameChar letter]
      split
      next same => exact absurd (List.cons.inj same).1 other
      next => rfl

theorem normal_of_isExact {c : Comparison} (named : a.name.text = "class".toList)
    (compared : a.comparison = some c) (whole : c.operator = none) (t : Text) :
    a.normal.text ++ t = '[' :: (a.lead ++ "class".toList ++ a.gap) ++ ['~', '='] ++
      (c.lead ++ (c.quote.toList ++ c.ending t)) := by
  rw [normal, if_pos named]
  simp [text, tail, compared, Comparison.text, Comparison.operatorText, whole, named,
    Comparison.ending]

theorem normal_of_not_isExact (inexact : ¬ a.IsExact) : a.normal.text = a.text := by
  unfold normal
  split
  next named =>
    cases compared : a.comparison with
    | none => simp [text, tail, compared]
    | some c =>
      cases h : c.operator with
      | none => exact absurd ⟨named, c, compared, h⟩ inexact
      | some d => simp [text, tail, compared, Comparison.text, Comparison.operatorText, h]
  next => rfl

/-- The characters between the brackets. -/
def inside : Text := a.lead ++ (a.name.text ++ (a.gap ++ a.comparison.elim [] Comparison.text))

theorem text_eq : a.text = '[' :: (a.inside ++ [']']) := by
  simp [text, tail, inside]

/-- Characters that do not stand between the brackets. -/
def outer : List Char := ['[', ']', '(', ')', ',', '\\']

theorem not_outer_of_isSpace {c : Char} (space : Text.isSpace c) : c ∉ outer := by
  intro mem
  simp only [outer, List.mem_cons, List.not_mem_nil, or_false] at mem
  rcases mem with rfl | rfl | rfl | rfl | rfl | rfl <;> cases space

theorem not_outer_of_isNameChar {c : Char} (letter : isNameChar c) : c ∉ outer := by
  intro mem
  simp only [outer, List.mem_cons, List.not_mem_nil, or_false] at mem
  rcases mem with rfl | rfl | rfl | rfl | rfl | rfl <;> cases letter

theorem not_outer_of_isQuote {c : Char} (quote : Text.isQuote c) : c ∉ outer := by
  intro mem
  simp only [outer, List.mem_cons, List.not_mem_nil, or_false] at mem
  rcases mem with rfl | rfl | rfl | rfl | rfl | rfl <;> cases quote

theorem not_outer_of_mem_operatorText {d : Char} {c : Comparison} (mem : d ∈ c.operatorText) :
    d ∉ outer := by
  have known : d ∈ ['=', '*', '^', '$', '~', '|'] := by
    rcases List.mem_append.1 mem with mem | mem
    · exact List.mem_cons_of_mem _ (c.isOperator d (by simpa using mem))
    · rw [List.mem_singleton.1 mem]
      exact List.mem_cons_self
  simp only [List.mem_cons, List.not_mem_nil, or_false] at known
  rcases known with rfl | rfl | rfl | rfl | rfl | rfl <;> decide

theorem not_outer_of_mem_value {d : Char} {c : Comparison} (mem : d ∈ c.value) : d ∉ outer := by
  have known := c.value_chars d mem
  simp only [isValueChar, Bool.and_eq_true, Bool.not_eq_true'] at known
  rw [outer, ← List.contains_iff_mem, known.2]
  exact Bool.false_ne_true

/-- Between the brackets of an attribute selector there is no bracket, comma, parenthesis or
backslash. -/
theorem not_outer_of_mem_inside {d : Char} (mem : d ∈ a.inside) : d ∉ outer := by
  simp only [inside, List.mem_append] at mem
  rcases mem with mem | mem | mem | mem
  · exact not_outer_of_isSpace (a.lead_spaces d mem)
  · exact not_outer_of_isNameChar (a.name.plain d mem)
  · exact not_outer_of_isSpace (a.gap_spaces d mem)
  · cases compared : a.comparison with
    | none =>
      rw [compared] at mem
      cases mem
    | some c =>
      rw [compared] at mem
      simp only [Option.elim_some, Comparison.text, List.mem_append, Option.mem_toList] at mem
      rcases mem with mem | mem | mem | mem | mem | mem
      · exact not_outer_of_mem_operatorText mem
      · exact not_outer_of_isSpace (c.lead_spaces d mem)
      · exact not_outer_of_isQuote (c.isQuote d mem)
      · exact not_outer_of_mem_value mem
      · exact not_outer_of_isQuote (c.isQuote d mem)
      · exact not_outer_of_isSpace (c.back_spaces d mem)

theorem no_bracket_in_ending {c : Comparison} (compared : a.comparison = some c) :
    '[' ∉ c.lead ++ (c.quote.toList ++ c.ending []) := by
  intro mem
  have inner : '[' ∈ a.inside ++ [']'] := by
    simp only [Comparison.ending, List.mem_append, List.mem_cons, List.not_mem_nil] at mem
    simp only [inside, compared, Option.elim_some, Comparison.text, List.mem_append, List.mem_cons,
      List.not_mem_nil]
    rcases mem with mem | mem | mem | mem | mem | mem | mem
    · simp [mem]
    · simp [mem]
    · simp [mem]
    · simp [mem]
    · simp [mem]
    · cases mem
    · cases mem
  rcases List.mem_append.1 inner with mem | mem
  · exact a.not_outer_of_mem_inside mem (by decide)
  · cases List.mem_singleton.1 mem

/-- The class attribute compared as a whole is compared word by word afterwards, and the text behind
the selector is normalised by itself. -/
theorem normalise_text (t : Text) :
    NamedAttribute.normalise (a.text ++ t) = a.normal.text ++ NamedAttribute.normalise t := by
  by_cases whole : a.IsExact
  · have read := a.readExactClass_of_isExact whole t
    obtain ⟨named, c, compared, whole⟩ := whole
    have spelled : a.text ++ t = NamedAttribute.exactClass.spell
        (a.lead ++ "class".toList ++ a.gap) ++ (c.lead ++ (c.quote.toList ++ c.ending t)) := by
      simp [text, tail, compared, Comparison.text, Comparison.operatorText, whole, named,
        Comparison.ending, NamedAttribute.exactClass]
    have rest : c.lead ++ (c.quote.toList ++ c.ending t) =
        c.lead ++ (c.quote.toList ++ c.ending []) ++ t := by simp [Comparison.ending]
    rw [spelled] at read ⊢
    have step : NamedAttribute.normalise (NamedAttribute.exactClass.spell
        (a.lead ++ "class".toList ++ a.gap) ++ (c.lead ++ (c.quote.toList ++ c.ending t))) =
          '[' :: (a.lead ++ "class".toList ++ a.gap) ++ ['~', '='] ++
            NamedAttribute.normalise (c.lead ++ (c.quote.toList ++ c.ending t)) :=
      Recogniser.substitute_spell_append read
    rw [step, rest, NamedAttribute.normalise_append_of_no_bracket (a.no_bracket_in_ending compared)]
    have normal := a.normal_of_isExact named compared whole (NamedAttribute.normalise t)
    rw [normal]
    simp [Comparison.ending]
  · have unread := a.readExactClass_of_not_isExact whole t
    have plain : '[' ∉ a.inside ++ [']'] := by
      intro mem
      rcases List.mem_append.1 mem with mem | mem
      · exact a.not_outer_of_mem_inside mem (by decide)
      · cases List.mem_singleton.1 mem
    rw [a.normal_of_not_isExact whole]
    rw [text_eq, List.cons_append] at unread ⊢
    have step : NamedAttribute.normalise ('[' :: (a.inside ++ [']'] ++ t)) =
        '[' :: NamedAttribute.normalise (a.inside ++ [']'] ++ t) :=
      Recogniser.substitute_of_not_read unread
    rw [step, NamedAttribute.normalise_append_of_no_bracket plain, List.cons_append]

/-! ### Reading -/

theorem readName_name (t : Text) :
    NamedAttribute.readName (a.name.text ++ (a.gap ++ a.behind t)) =
      (NamedAttribute.readName a.name.text).map fun (onId, name, rest) =>
        (onId, name, rest ++ (a.gap ++ a.behind t)) := by
  unfold NamedAttribute.readName
  rw [Text.isPrefixOf?_append (a.gap_foreign class_letters t),
    Text.isPrefixOf?_append (a.gap_foreign id_letters t)]
  cases "class".toList.isPrefixOf? a.name.text with
  | some r => rfl
  | none => cases "id".toList.isPrefixOf? a.name.text <;> rfl

theorem isPrefixOf?_self {w : Text} (named : a.name.text = w) :
    w.isPrefixOf? a.name.text = some [] :=
  List.isPrefixOf?_eq_some_iff_append_eq.2 (by rw [named, List.append_nil])

/-- The name of an attribute is read as one of classes or ids with nothing left. -/
theorem readName_of_named (named : a.name.text = "class".toList ∨ a.name.text = "id".toList) :
    NamedAttribute.readName a.name.text =
      some (decide (a.name.text = "id".toList), a.name.text, []) := by
  unfold NamedAttribute.readName
  rcases named with named | named
  · rw [a.isPrefixOf?_self named, named]
    rfl
  · have other : "class".toList.isPrefixOf? a.name.text = none := by
      rw [named]
      rfl
    rw [other, a.isPrefixOf?_self named, named]
    rfl

/-- Behind the front of another name something is left that no operator can start with. -/
theorem rest_of_readName (unnamed : ¬ (a.name.text = "class".toList ∨ a.name.text = "id".toList))
    {onId : Bool} {name rest : Text}
    (h : NamedAttribute.readName a.name.text = some (onId, name, rest)) :
    ∃ d u, rest = d :: u ∧ isNameChar d := by
  unfold NamedAttribute.readName at h
  split at h
  next r found =>
    cases h
    rcases a.rest_cases found with ⟨-, named⟩ | ⟨d, u, left, letter, -⟩
    · exact absurd (.inl named) unnamed
    · exact ⟨d, u, left, letter⟩
  next =>
    obtain ⟨r, found, same⟩ := Option.map_eq_some_iff.1 h
    cases same
    rcases a.rest_cases found with ⟨-, named⟩ | ⟨d, u, left, letter, -⟩
    · exact absurd (.inr named) unnamed
    · exact ⟨d, u, left, letter⟩

/-- **An attribute selector is read for what it is**, whatever follows it. -/
theorem read_text (t : Text) : NamedAttribute.read (a.text ++ t) = a.named? := by
  obtain ⟨lead, trim⟩ := a.trimStart_name (a.gap ++ a.behind t)
  obtain ⟨lead', trim'⟩ := a.trimStart_gap t
  rw [text_append, NamedAttribute.read]
  simp only [lead, trim, readName_name]
  by_cases named : a.name.text = "class".toList ∨ a.name.text = "id".toList
  · rw [a.readName_of_named named, Option.map_some, List.nil_append]
    simp only [Option.bind_eq_bind, Option.bind_some, lead', trim']
    cases compared : a.comparison with
    | none =>
      rw [behind, named?, compared, Option.elim_none, List.nil_append, readOperator_bracket]
      rfl
    | some c =>
      have behind' : a.behind t = c.operatorText ++ (c.lead ++ (c.quote.toList ++ c.ending t)) := by
        simp [behind, compared, Comparison.text, Comparison.ending]
      obtain ⟨lead₂, trim₂⟩ := Text.trimStart_of_spaces c.lead_spaces (c.ending_solid t)
      rw [behind', c.readOperator_text]
      simp only [Option.bind_some, lead₂, trim₂, c.splitQuote_ending, c.readValue_ending]
      rw [named?, compared]
      simp only [if_pos named]
      simp
  · have unnamed : a.named? = none := by
      unfold named?
      split
      · rfl
      · exact if_neg named
    rw [unnamed]
    cases read : NamedAttribute.readName a.name.text with
    | none => rfl
    | some found =>
      obtain ⟨onId, name, rest⟩ := found
      obtain ⟨d, u, rfl, letter⟩ := a.rest_of_readName named read
      simp only [Option.map_some, Option.bind_eq_bind, Option.bind_some, List.cons_append,
        trimStart_of_isNameChar letter, readOperator_of_isNameChar letter, Option.bind_none]

/-- The reading of an attribute selector is spelled like it. -/
theorem spell_of_named {named : NamedAttribute} (h : a.named? = some named) : named.spell = a.text := by
  unfold named? at h
  split at h
  next => cases h
  next c compared =>
    split at h
    next =>
      cases h
      simp [NamedAttribute.spell, text, tail, compared, Comparison.text]
    next => cases h

end Attribute
end Plain
end ScopedCss
