import ScopedCss.Proofs.Plain.Lists
import ScopedCss.Proofs.Rule.Rows
import ScopedCss.Proofs.Tree.Names
import ScopedCss.Proofs.Tree.Phrases

/-!
# Plain selectors in style sheets

A pass scopes the selector list of a rule while its strings are shielded.  For a plain list this is
the same as shielding the scoped list (`flat_scopedText`), because in an attribute value marks and
scoped names do not get into each other's way, and unshielding gives the scoped list back
(`unshield_scopedText`), unless joining the words of a value makes the word in every mark.
-/
namespace ScopedCss

open Quoted

namespace Plain

/-! ### Attributes with their values shielded -/

theorem isValueChar_of_isMarkChar {c : Char} (mark : Mark.isMarkChar c) : isValueChar c := by
  have other (d : Char) (plain : Mark.isMarkChar d = false) : c ≠ d := ne_of_isMarkChar mark plain
  have unquoted : Text.isQuote c = false := by
    simp [Text.isQuote, other '"' rfl, other '\'' rfl]
  simp [isValueChar, unquoted, other '[' rfl, other ']' rfl, other '(' rfl, other ')' rfl,
    other ',' rfl, other '\\' rfl]

namespace Comparison
variable (c : Comparison)

/-- The value with its structural characters marked, if it is a string. -/
def shieldValue : Text :=
  match c.quote with
  | none => c.value
  | some _ => c.value.flatMap Mark.ofChar

/-- The comparison with its value shielded. -/
def shielded : Comparison :=
  { c with
    value := c.shieldValue
    value_chars := by
      intro d mem
      unfold shieldValue at mem
      split at mem
      next => exact c.value_chars d mem
      next =>
        obtain ⟨e, there, mem⟩ := List.mem_flatMap.1 mem
        by_cases known : e ∈ Mark.chars
        · exact isValueChar_of_isMarkChar (Mark.isMarkChar_of_mem known mem)
        · rw [Mark.ofChar_of_not_mem known] at mem
          exact List.mem_singleton.1 mem ▸ c.value_chars e there
    bare := by
      intro unquoted
      rw [shieldValue, unquoted]
      exact c.bare unquoted }

variable {c} {d : Char}

theorem isPlain_of_mem_value (percent : d ≠ '%') (solid : Frame.isStructural d = false)
    (mem : d ∈ c.value) : Text.isPlain d := by
  have other (e : Char) (known : Frame.isStructural e) : d ≠ e := by
    rintro rfl
    rw [known] at solid
    cases solid
  obtain ⟨quote, clean⟩ := unquoted_of_mem_value mem
  exact Text.isPlain_iff.2 ⟨quote, clean, percent, other ';' rfl, other '{' rfl, other '}' rfl⟩

end Comparison

namespace Attribute
variable (a : Attribute)

/-- The attribute selector with its value shielded. -/
def shielded : Attribute := { a with comparison := a.comparison.map Comparison.shielded }

/-- The characters up to the value. -/
def front (c : Comparison) : Text :=
  '[' :: (a.lead ++ (a.name.text ++ (a.gap ++ (c.operatorText ++ c.lead))))

/-- The characters of the attribute selector with a comparison, around another value. -/
def around (c : Comparison) (value : Text) : Text :=
  a.front c ++ (c.quote.toList ++ (value ++ (c.quote.toList ++ (c.back ++ [']']))))

theorem text_eq_around {c : Comparison} (compared : a.comparison = some c) :
    a.text = a.around c c.value := by
  simp [text, tail, around, front, compared, Comparison.text]

/-- The comparison with `~=` in place of `=` if it is one of classes. -/
def normalComparison (c : Comparison) : Comparison :=
  if a.name.text = "class".toList then
    { c with operator := some (c.operator.getD '~'), isOperator := c.isOperator_getD }
  else c

theorem normal_eq {c : Comparison} (compared : a.comparison = some c) :
    a.normal = { a with comparison := some (a.normalComparison c) } := by
  unfold normal normalComparison
  split
  next => rw [compared]; rfl
  next => rw [← compared]

/-- Whether a scheme scopes what the attribute names. -/
def isScoped (scheme : PlainScheme) : Bool :=
  (a.name.text = "id".toList && scheme.switches.ids) ||
    (a.name.text = "class".toList && scheme.switches.classes)

theorem named_of_isScoped {scheme : PlainScheme} (inScope : a.isScoped scheme) :
    a.name.text = "class".toList ∨ a.name.text = "id".toList := by
  unfold isScoped at inScope
  simp only [Bool.or_eq_true, Bool.and_eq_true, decide_eq_true_eq] at inScope
  exact inScope.elim (fun h => .inr h.1) fun h => .inl h.1

/-- The value that a comparison gets. -/
def newValue (scheme : PlainScheme) (c : Comparison) : Text :=
  if a.isScoped scheme ∧ c.value ≠ [] then scheme.ofValue (a.name.text = "id".toList) c.value
  else c.value

/-- What is recorded of an attribute selector. -/
theorem record_of_comparison (scheme : PlainScheme) {c : Comparison}
    (compared : a.comparison = some c) :
    (Item.attr a).record? scheme.toScheme =
      if a.isScoped scheme ∧ c.value ≠ [] then
        some (if a.name.text = "id".toList then .ids else .classes, c.value,
          scheme.ofValue (a.name.text = "id".toList) c.value)
      else none := by
  rw [Item.record?, named?, compared]
  unfold isScoped
  by_cases onId : a.name.text = "id".toList
  · by_cases empty : c.value = []
    · simp [onId, empty]
    · cases on : scheme.switches.ids <;>
        simp [onId, empty, on, PlainScheme.toScheme, PlainScheme.ofValue, PlainScheme.scope]
  · by_cases onClass : a.name.text = "class".toList
    · by_cases empty : c.value = []
      · simp [onClass, empty]
      · cases on : scheme.switches.classes <;>
          simp [onClass, empty, on, PlainScheme.toScheme, PlainScheme.ofValue, PlainScheme.scope]
    · have unscoped : ¬ (((decide (a.name.text = "id".toList) && scheme.switches.ids) ||
          (decide (a.name.text = "class".toList) && scheme.switches.classes)) = true ∧
            c.value ≠ []) := by
        simp only [onId, onClass, decide_false, Bool.false_and, Bool.or_self, Bool.false_eq_true,
          false_and, not_false_eq_true]
      simp only [if_neg (not_or.2 ⟨onClass, onId⟩), if_neg unscoped]

theorem textWith_normal {c : Comparison} (compared : a.comparison = some c) (scopedName : Text)
    (named : a.name.text = "class".toList ∨ a.name.text = "id".toList) :
    (Item.attr a).normal.textWith scopedName = a.around (a.normalComparison c) scopedName := by
  rw [Item.normal, a.normal_eq compared, Item.textWith, named?]
  simp only [if_pos named]
  simp [around, front, normalComparison, apply_ite Comparison.lead, apply_ite Comparison.quote,
    apply_ite Comparison.back]

theorem scopedText_of_comparison (scheme : PlainScheme) {c : Comparison}
    (compared : a.comparison = some c) :
    (Item.attr a).scopedText scheme.toScheme =
      a.around (a.normalComparison c) (a.newValue scheme c) := by
  have normal : (Item.attr a).normal.text = a.around (a.normalComparison c) c.value := by
    have value : (a.normalComparison c).value = c.value := by
      unfold normalComparison
      split <;> rfl
    rw [Item.normal, Item.text, text_eq_around _ (congrArg comparison (a.normal_eq compared)), value,
      a.normal_eq compared]
    rfl
  rw [Item.scopedText, record_of_comparison a scheme compared, newValue]
  by_cases inScope : a.isScoped scheme ∧ c.value ≠ []
  · rw [if_pos inScope, if_pos inScope]
    exact a.textWith_normal compared _ (a.named_of_isScoped inScope.1)
  · rw [if_neg inScope, if_neg inScope]
    exact normal

/-- An attribute selector without a comparison is not scoped. -/
theorem scopedText_of_none (scheme : Scheme) (alone : a.comparison = none) :
    (Item.attr a).scopedText scheme = a.text := by
  have same : a.normal.text = a.text := by
    unfold normal
    split
    next =>
      rw [alone]
      show Attribute.text { a with comparison := none } = _
      rw [← alone]
    next => rfl
  have record : (Item.attr a).record? scheme = none := by
    rw [Item.record?, named?, alone]
  rw [Item.scopedText, record]
  exact same

/-- The value of an attribute may be shielded before it is scoped or afterwards. -/
theorem newValue_shielded (scheme : PlainScheme) (c : Comparison) :
    a.shielded.newValue scheme c.shielded =
      match c.quote with
      | none => a.newValue scheme c
      | some _ => (a.newValue scheme c).flatMap Mark.ofChar := by
  have value : c.shielded.value = c.shieldValue := rfl
  unfold newValue
  rw [value, Comparison.shieldValue]
  cases c.quote with
  | none => rfl
  | some quote =>
    have empty : c.value.flatMap Mark.ofChar ≠ [] ↔ c.value ≠ [] := by
      cases c.value with
      | nil => simp
      | cons d t => simp [Mark.ofChar_ne_nil]
    have name : a.shielded.name = a.name := rfl
    have same : a.shielded.isScoped scheme = a.isScoped scheme := rfl
    rw [name, same]
    by_cases inScope : a.isScoped scheme ∧ c.value ≠ []
    · simp only [empty, if_pos inScope, scheme.ofValue_flatMap_ofChar]
    · simp only [empty, if_neg inScope]

theorem quote_normalComparison (c : Comparison) : (a.normalComparison c).quote = c.quote := by
  unfold normalComparison
  split <;> rfl

/-- What stands around a value is the same when the value is shielded. -/
theorem around_shielded (c : Comparison) (value : Text) :
    a.shielded.around c.shielded value = a.around c value ∧
      a.shielded.around (a.shielded.normalComparison c.shielded) value =
        a.around (a.normalComparison c) value := by
  refine ⟨rfl, ?_⟩
  unfold normalComparison
  have name : a.shielded.name = a.name := rfl
  rw [name]
  split <;> rfl

/-! ### Attributes as phrases -/

theorem isPlain_of_isSpace {d : Char} (space : Text.isSpace d) : Text.isPlain d := by
  have other (e : Char) (solid : Text.isSpace e = false) : d ≠ e := by
    rintro rfl
    rw [space] at solid
    cases solid
  exact Text.isPlain_iff.2 ⟨Text.isQuote_of_isSpace space, other '\\' rfl, other '%' rfl,
    other ';' rfl, other '{' rfl, other '}' rfl⟩

theorem isPlain_of_mem_operatorText {c : Comparison} {d : Char} (mem : d ∈ c.operatorText) :
    Text.isPlain d := by
  have known : d ∈ ['=', '*', '^', '$', '~', '|'] := by
    rcases List.mem_append.1 mem with mem | mem
    · exact List.mem_cons_of_mem _ (c.isOperator d (by simpa using mem))
    · rw [List.mem_singleton.1 mem]
      exact List.mem_cons_self
  simp only [List.mem_cons, List.not_mem_nil, or_false] at known
  rcases known with rfl | rfl | rfl | rfl | rfl | rfl <;> rfl

theorem value_infix {c : Comparison} (compared : a.comparison = some c) : c.value <:+: a.text := by
  rw [a.text_eq_around compared, around]
  exact ⟨a.front c ++ c.quote.toList, c.quote.toList ++ (c.back ++ [']']), by simp⟩

theorem mem_newValue (scheme : PlainScheme) (c : Comparison) {d : Char} (mem : d ∈ a.newValue scheme c) :
    d ∈ c.value ∨ isNameChar d := by
  unfold newValue at mem
  split at mem
  next => exact scheme.mem_ofValue mem
  next => exact .inl mem

/-- The word in every mark is not in the new value, if it is neither in the old one nor in its joined
words. -/
theorem wordFree_newValue (scheme : PlainScheme) {c : Comparison} (free : WordFree c.value)
    (joined : a.name.text = "class".toList → WordFree (Token.joinWords c.value)) :
    WordFree (a.newValue scheme c) := by
  unfold newValue
  split
  next inScope =>
    refine scheme.wordFree_ofValue free fun notId => joined ?_
    exact (a.named_of_isScoped inScope.1).resolve_right (of_decide_eq_false notId)
  next => exact free

/-- An attribute selector around a value is a phrase. -/
def phrase (c : Comparison) (value : Text)
    (unquoted : ∀ d ∈ value, Text.isQuote d = false ∧ d ≠ '\\')
    (plain : c.quote = none → ∀ d ∈ value, Text.isPlain d) : Phrase where
  front := a.front c
  quote := c.quote
  value := value
  back := c.back ++ [']']
  front_plain := by
    intro d mem
    simp only [front, List.mem_cons, List.mem_append] at mem
    rcases mem with rfl | mem | mem | mem | mem | mem
    · rfl
    · exact isPlain_of_isSpace (a.lead_spaces d mem)
    · exact isPlain_of_isNameChar (a.name.plain d mem)
    · exact isPlain_of_isSpace (a.gap_spaces d mem)
    · exact isPlain_of_mem_operatorText mem
    · exact isPlain_of_isSpace (c.lead_spaces d mem)
  isQuote := c.isQuote
  value_unquoted := unquoted
  value_plain := plain
  back_plain := by
    intro d mem
    rcases List.mem_append.1 mem with mem | mem
    · exact isPlain_of_isSpace (c.back_spaces d mem)
    · exact List.mem_singleton.1 mem ▸ rfl

/-- An attribute selector without a comparison is a phrase without a string. -/
def nakedPhrase : Phrase where
  front := '[' :: (a.lead ++ (a.name.text ++ (a.gap ++ [']'])))
  quote := none
  value := []
  back := []
  front_plain := by
    intro d mem
    simp only [List.mem_cons, List.mem_append, List.not_mem_nil, or_false] at mem
    rcases mem with rfl | mem | mem | mem | rfl
    · rfl
    · exact isPlain_of_isSpace (a.lead_spaces d mem)
    · exact isPlain_of_isNameChar (a.name.plain d mem)
    · exact isPlain_of_isSpace (a.gap_spaces d mem)
    · rfl
  isQuote := by simp
  value_unquoted := by simp
  value_plain := by simp
  back_plain := by simp

end Attribute

/-! ### Items as phrases -/

namespace Item

/-- The item with its string shielded, if it is an attribute selector with one. -/
def shielded : Item → Item
  | attr a => attr a.shielded
  | item => item

/-- A bare value of an attribute holds no structural character. -/
def HasPlainValue : Item → Prop
  | attr a => ∀ c ∈ a.comparison, c.quote = none →
      ∀ d ∈ c.value, Frame.isStructural d = false
  | _ => True

/-- Joining the words of a class attribute's value does not make the word in every mark. -/
def JoinsFreely : Item → Prop
  | attr a => a.name.text = "class".toList →
      ∀ c ∈ a.comparison, WordFree (Token.joinWords c.value)
  | _ => True

/-- A phrase without a string. -/
theorem exists_phrase_of_plain {t : Text} (plain : ∀ c ∈ t, Text.isPlain c) (given : Prop) :
    ∃ p : Phrase, p.text = t ∧ p.shieldText = t ∧ (given → WordFree p.value) :=
  ⟨⟨t, none, [], [], plain, by simp, by simp, by simp, by simp⟩, by simp [Phrase.text],
    by simp [Phrase.shieldText, Phrase.shieldValue], fun _ => wordFree_nil⟩

theorem isPlain_of_mem_text {item : Item} (other : ∀ a, item ≠ .attr a) (clean : '%' ∉ item.text)
    {c : Char} (mem : c ∈ item.text) : Text.isPlain c := by
  by_cases basic : item.isBasic
  · have signs : punctuation.all Text.isPlain := by decide
    rcases mem_text basic mem with letter | sign
    · exact isPlain_of_isNameChar letter
    · exact List.all_eq_true.1 signs c (mem_punctuation sign)
  · cases item with
    | attr a => exact absurd rfl (other a)
    | comment => exact absurd (show '%' ∈ Mark.comment by decide) clean
    | _ => exact absurd rfl basic

theorem bareName_scope (scheme : PlainScheme) {name : Text} (letters : ∀ c ∈ name, isNameChar c) :
    bareName (scheme.scope name) = scheme.scope name := by
  have plain := scheme.isNameChar_of_mem_scope letters
  unfold bareName
  split
  next split =>
    cases plain '.' (split ▸ List.mem_cons_self)
  next split =>
    cases plain '#' (split ▸ List.mem_cons_self)
  next => rfl

/-- An item other than an attribute selector stays, or becomes a class or an id with a scoped
name. -/
theorem scopedText_cases (scheme : PlainScheme) {item : Item} (other : ∀ a, item ≠ .attr a) :
    item.scopedText scheme.toScheme = item.text ∨
      ∃ sign name, (sign = '.' ∨ sign = '#') ∧ (∀ c ∈ name, isNameChar c) ∧
        item.scopedText scheme.toScheme = sign :: scheme.scope name := by
  cases item with
  | type name letters =>
    have marked : ∀ c ∈ name ++ Token.elementMarker, isNameChar c := by
      have marker : Token.elementMarker.all isNameChar := by decide
      intro c mem
      rcases List.mem_append.1 mem with mem | mem
      · simp [isNameChar, Selector.alphanum_of_isElementName letters c mem]
      · exact List.all_eq_true.1 marker c mem
    cases on : scheme.switches.elements with
    | false => exact .inl (by simp [scopedText, record?, PlainScheme.toScheme, on, normal])
    | true =>
      refine .inr ⟨'.', _, .inl rfl, marked, ?_⟩
      rw [← bareName_scope scheme marked]
      simp [scopedText, record?, PlainScheme.toScheme, on, textWith, normal, classSelector,
        PlainScheme.scope]
  | universal =>
    cases on : scheme.switches.elements with
    | false => exact .inl (by simp [scopedText, record?, PlainScheme.toScheme, on, normal])
    | true =>
      refine .inr ⟨'.', _, .inl rfl, scheme.asterisk_plain, ?_⟩
      rw [← bareName_scope scheme scheme.asterisk_plain]
      simp [scopedText, record?, PlainScheme.toScheme, on, textWith, normal, classSelector,
        PlainScheme.scope, AsteriskName.resolve]
  | ofClass name =>
    cases on : scheme.switches.classes with
    | false => exact .inl (by simp [scopedText, record?, PlainScheme.toScheme, on, normal])
    | true =>
      refine .inr ⟨'.', _, .inl rfl, name.plain, ?_⟩
      rw [← bareName_scope scheme name.plain]
      simp [scopedText, record?, PlainScheme.toScheme, on, textWith, normal, classSelector,
        PlainScheme.scope]
  | ofId name =>
    cases on : scheme.switches.ids with
    | false => exact .inl (by simp [scopedText, record?, PlainScheme.toScheme, on, normal])
    | true =>
      refine .inr ⟨'#', _, .inr rfl, name.plain, ?_⟩
      rw [← bareName_scope scheme name.plain]
      simp [scopedText, record?, PlainScheme.toScheme, on, textWith, normal, idSelector,
        PlainScheme.scope]
  | attr a => exact absurd rfl (other a)
  | _ => exact .inl rfl

theorem isPlain_of_mem_scopedText (scheme : PlainScheme) {item : Item} (other : ∀ a, item ≠ .attr a)
    (clean : '%' ∉ item.text) : ∀ c ∈ item.scopedText scheme.toScheme, Text.isPlain c := by
  rcases scopedText_cases scheme other with same | ⟨sign, name, known, letters, become⟩
  · exact same ▸ fun c mem => isPlain_of_mem_text other clean mem
  · rw [become]
    intro c mem
    rcases List.mem_cons.1 mem with rfl | mem
    · rcases known with rfl | rfl <;> rfl
    · exact isPlain_of_isNameChar (scheme.isNameChar_of_mem_scope letters c mem)

/-- An attribute selector without a comparison is a phrase, and is not scoped. -/
theorem exists_phrase_of_none (scheme : PlainScheme) {a : Attribute} (alone : a.comparison = none) :
    (∃ p : Phrase, p.text = a.text ∧ p.shieldText = a.shielded.text ∧
      (WordFree a.text → WordFree p.value)) ∧
    ∃ p : Phrase, p.text = (attr a).scopedText scheme.toScheme ∧
      p.shieldText = (attr a.shielded).scopedText scheme.toScheme ∧
      (WordFree a.text ∧ (attr a).JoinsFreely → WordFree p.value) := by
  have alone' : a.shielded.comparison = none := by simp [Attribute.shielded, alone]
  have same : a.shielded.text = a.text := by
    simp [Attribute.text, Attribute.tail, Attribute.shielded, alone]
  have text : a.nakedPhrase.text = a.text := by
    simp [Phrase.text, Attribute.nakedPhrase, Attribute.text, Attribute.tail, alone]
  have shieldText : a.nakedPhrase.shieldText = a.text := by
    rw [← text]
    rfl
  rw [a.scopedText_of_none _ alone, a.shielded.scopedText_of_none _ alone', same]
  exact ⟨⟨a.nakedPhrase, text, shieldText, fun _ => wordFree_nil⟩,
    ⟨a.nakedPhrase, text, shieldText, fun _ => wordFree_nil⟩⟩

/-- An attribute selector with a comparison is a phrase around its value, before it is scoped and
after. -/
theorem exists_phrase_of_comparison (scheme : PlainScheme) {a : Attribute} {c : Comparison}
    (compared : a.comparison = some c) (clean : '%' ∉ a.text) (plain : (attr a).HasPlainValue) :
    (∃ p : Phrase, p.text = a.text ∧ p.shieldText = a.shielded.text ∧
      (WordFree a.text → WordFree p.value)) ∧
    ∃ p : Phrase, p.text = (attr a).scopedText scheme.toScheme ∧
      p.shieldText = (attr a.shielded).scopedText scheme.toScheme ∧
      (WordFree a.text ∧ (attr a).JoinsFreely → WordFree p.value) := by
  have inside := a.value_infix compared
  have bare (unquoted : c.quote = none) : ∀ d ∈ c.value, Text.isPlain d := fun d mem =>
    Comparison.isPlain_of_mem_value (fun same => clean (inside.subset (same ▸ mem)))
      (plain c compared unquoted d mem) mem
  have unquoted : ∀ d ∈ a.newValue scheme c, Text.isQuote d = false ∧ d ≠ '\\' := by
    intro d mem
    rcases a.mem_newValue scheme c mem with old | letter
    · exact Comparison.unquoted_of_mem_value old
    · have plain := Text.isPlain_iff.1 (isPlain_of_isNameChar letter)
      exact ⟨plain.1, plain.2.1⟩
  have bare' (unquoted : (a.normalComparison c).quote = none) :
      ∀ d ∈ a.newValue scheme c, Text.isPlain d := by
    intro d mem
    rw [a.quote_normalComparison] at unquoted
    rcases a.mem_newValue scheme c mem with old | letter
    · exact bare unquoted d old
    · exact isPlain_of_isNameChar letter
  have shielded : a.shielded.comparison = some c.shielded := by simp [Attribute.shielded, compared]
  refine ⟨⟨a.phrase c c.value (fun _ => Comparison.unquoted_of_mem_value) bare,
      (a.text_eq_around compared).symm, ?_, fun free => free.part inside⟩,
    ⟨a.phrase (a.normalComparison c) (a.newValue scheme c) unquoted bare', ?_, ?_, fun free =>
      a.wordFree_newValue scheme (free.1.part inside) fun named => free.2 named c compared⟩⟩
  · rw [a.shielded.text_eq_around shielded]
    rfl
  · rw [a.scopedText_of_comparison scheme compared]
    rfl
  · rw [a.shielded.scopedText_of_comparison scheme shielded, (a.around_shielded c _).2,
      a.newValue_shielded, ← a.quote_normalComparison]
    rfl

/-- **Every item of a plain list is a phrase**, before it is scoped and after. -/
theorem exists_phrase (scheme : PlainScheme) (item : Item) (clean : '%' ∉ item.text)
    (plain : item.HasPlainValue) :
    (∃ p : Phrase, p.text = item.text ∧ p.shieldText = item.shielded.text ∧
      (WordFree item.text → WordFree p.value)) ∧
    ∃ p : Phrase, p.text = item.scopedText scheme.toScheme ∧
      p.shieldText = item.shielded.scopedText scheme.toScheme ∧
      (WordFree item.text ∧ item.JoinsFreely → WordFree p.value) := by
  by_cases named : ∃ a, item = .attr a
  · obtain ⟨a, rfl⟩ := named
    cases compared : a.comparison with
    | none => exact exists_phrase_of_none scheme compared
    | some c => exact exists_phrase_of_comparison scheme compared clean plain
  · have other : ∀ a, item ≠ .attr a := fun a same => named ⟨a, same⟩
    have same : item.shielded = item := by
      cases item with
      | attr a => exact absurd rfl (other a)
      | _ => rfl
    rw [same]
    exact ⟨exists_phrase_of_plain (fun c mem => isPlain_of_mem_text other clean mem) _,
      exists_phrase_of_plain (isPlain_of_mem_scopedText scheme other clean) _⟩

/-- What is recorded of items are no keyframes and no font families. -/
theorem category_of_record {scheme : Scheme} {item : Item} {category : Category} {name new : Text}
    (record : item.record? scheme = some (category, name, new)) :
    category = .elements ∨ category = .classes ∨ category = .ids := by
  rw [record_eq] at record
  obtain ⟨r, found, same⟩ := Option.map_eq_some_iff.1 record
  obtain ⟨token, -, renamed⟩ := Option.bind_eq_some_iff.1 found
  cases same
  unfold Token.renaming? at renamed
  split at renamed
  next category own =>
    split at renamed
    · cases renamed
      exact Token.known_of_category? own
    · cases renamed
  next => cases renamed

theorem tables_of_records {scheme : Scheme} (items : List Item) (mapping : Mapping) :
    let after := (items.filterMap (Item.record? scheme)).foldl
      (fun mapping (category, name, scopedName) => mapping.insert category name scopedName) mapping
    after.keyframes = mapping.keyframes ∧ after.fontFaces = mapping.fontFaces := by
  induction items generalizing mapping with
  | nil => exact ⟨rfl, rfl⟩
  | cons item items ih =>
    cases record : item.record? scheme with
    | none =>
      rw [List.filterMap_cons_none record]
      exact ih mapping
    | some entry =>
      obtain ⟨category, name, scopedName⟩ := entry
      rw [List.filterMap_cons_some record, List.foldl_cons]
      obtain ⟨keyframes, fontFaces⟩ := ih (mapping.insert category name scopedName)
      rcases category_of_record record with rfl | rfl | rfl <;> exact ⟨keyframes, fontFaces⟩

/-! ### The ends of items -/

theorem head_ne_at (item : Item) : ∀ c ∈ item.text.head?, c ≠ '@' := by
  rintro c mem rfl
  by_cases basic : item.isBasic
  · rcases mem_text basic (List.mem_of_mem_head? mem) with letter | sign
    · cases letter
    · exact absurd (mem_punctuation sign) (by decide)
  · cases item with
    | attr a => cases mem
    | comment => cases mem
    | _ => exact absurd rfl basic

/-- An item has the kind of ends that a prelude has, unless it is a space. -/
theorem text_ends {item : Item} (clean : '%' ∉ item.text) (solid : item.isBlank = false) :
    item.text ≠ [] ∧
      (∀ c ∈ item.text.head?, Text.isSpace c = false ∧ c ≠ '%' ∧ c ≠ '@') ∧
      ∀ c ∈ item.text.getLast?, Text.isSpace c = false := by
  obtain ⟨first, last⟩ := solid_ends solid
  refine ⟨text_ne_nil item, fun c mem => ⟨first c mem, ?_, head_ne_at item c mem⟩, last⟩
  rintro rfl
  exact clean (List.mem_of_mem_head? mem)

/-- A scoped item has the kind of ends that a prelude has, unless it is a space. -/
theorem scopedText_ends (scheme : PlainScheme) {item : Item} (clean : '%' ∉ item.text)
    (solid : item.isBlank = false) :
    item.scopedText scheme.toScheme ≠ [] ∧
      (∀ c ∈ (item.scopedText scheme.toScheme).head?, Text.isSpace c = false ∧ c ≠ '%' ∧ c ≠ '@') ∧
      ∀ c ∈ (item.scopedText scheme.toScheme).getLast?, Text.isSpace c = false := by
  by_cases named : ∃ a, item = .attr a
  · obtain ⟨a, rfl⟩ := named
    have shape : ∃ inside, (attr a).scopedText scheme.toScheme = '[' :: (inside ++ [']']) := by
      cases compared : a.comparison with
      | none => exact ⟨a.inside, by rw [a.scopedText_of_none _ compared, a.text_eq]⟩
      | some c =>
        rw [a.scopedText_of_comparison scheme compared, Attribute.around, Attribute.front]
        refine ⟨a.lead ++ (a.name.text ++ (a.gap ++ ((a.normalComparison c).operatorText ++
          ((a.normalComparison c).lead ++ ((a.normalComparison c).quote.toList ++
            (a.newValue scheme c ++ ((a.normalComparison c).quote.toList ++
              (a.normalComparison c).back))))))), by simp⟩
    obtain ⟨inside, shape⟩ := shape
    rw [shape]
    refine ⟨by simp, ?_, ?_⟩
    · rintro c ⟨⟩
      decide
    · rw [← List.cons_append, List.getLast?_concat]
      rintro c ⟨⟩
      rfl
  · have other : ∀ a, item ≠ .attr a := fun a same => named ⟨a, same⟩
    rcases scopedText_cases scheme other with same | ⟨sign, name, known, letters, become⟩
    · rw [same]
      exact text_ends clean solid
    · rw [become]
      refine ⟨by simp, ?_, ?_⟩
      · rintro c ⟨⟩
        rcases known with rfl | rfl <;> decide
      · intro c mem
        rw [List.getLast?_cons_of_ne_nil (scheme.scope_ne_nil name)] at mem
        exact isSpace_of_isNameChar (scheme.getLast_scope name c mem)

end Item

/-- Items in a row have the ends of their first and their last item. -/
theorem flatMap_ends {f : Item → Text} {items : List Item} {P Q : Char → Prop} (nonempty : items ≠ [])
    (first : ∀ item ∈ items.head?, f item ≠ [] ∧ ∀ c ∈ (f item).head?, P c)
    (last : ∀ item ∈ items.getLast?, f item ≠ [] ∧ ∀ c ∈ (f item).getLast?, Q c) :
    items.flatMap f ≠ [] ∧ (∀ c ∈ (items.flatMap f).head?, P c) ∧
      ∀ c ∈ (items.flatMap f).getLast?, Q c := by
  have front : items.flatMap f ≠ [] ∧ ∀ c ∈ (items.flatMap f).head?, P c := by
    cases items with
    | nil => exact absurd rfl nonempty
    | cons item items =>
      obtain ⟨some, here⟩ := first item rfl
      rw [List.flatMap_cons, List.head?_append_of_ne_nil _ some]
      exact ⟨by simp [some], here⟩
  refine ⟨front.1, front.2, ?_⟩
  rcases List.eq_nil_or_concat items with rfl | ⟨items, item, rfl⟩
  · exact absurd rfl nonempty
  · rw [List.concat_eq_append] at last ⊢
    obtain ⟨some, here⟩ := last item (by rw [List.getLast?_concat]; rfl)
    rw [List.flatMap_append, List.flatMap_singleton, List.getLast?_append_of_ne_nil _ some]
    exact here

end Plain

/-! ### Selectors of rules -/

/-- A plain selector list that stands before a block: it has no spaces around it, no `%`, and no
structural character outside strings. -/
structure PlainSelector where
  list : PlainList
  nonempty : list.items ≠ []
  first : ∀ item ∈ list.items.head?, item.isBlank = false
  last : ∀ item ∈ list.items.getLast?, item.isBlank = false
  no_percent : '%' ∉ list.text
  plain : ∀ item ∈ list.items, item.HasPlainValue

namespace PlainSelector
variable (selector : PlainSelector) (scheme : PlainScheme)

/-- The selector with every item scoped. -/
def scopedText : Text := selector.list.items.flatMap (Plain.Item.scopedText scheme.toScheme)

/-- The list with its strings shielded. -/
def shielded : PlainList where
  items := selector.list.items.map Plain.Item.shielded
  compounds := by
    rw [List.isChain_map]
    have starts (item : Plain.Item) : item.shielded.startsCompound = item.startsCompound := by
      cases item <;> rfl
    have ends (item : Plain.Item) : item.shielded.endsCompound = item.endsCompound := by
      cases item <;> rfl
    simpa only [starts, ends] using selector.list.compounds

/-- Joining the words of a value does not make the word in every mark. -/
def JoinsFreely : Prop := ∀ item ∈ selector.list.items, item.JoinsFreely

theorem no_percent_item {item : Plain.Item} (mem : item ∈ selector.list.items) :
    '%' ∉ item.text := fun inside =>
  selector.no_percent (List.mem_flatMap.2 ⟨item, mem, inside⟩)

/-- The list is flat, and shielded item by item. -/
theorem flat_text : Flat selector.list.text ∧ shield selector.list.text = selector.shielded.text := by
  have whole := Phrase.flat_flatMap (l := selector.list.items) (f := Plain.Item.text)
    (g := fun item => item.shielded.text) fun item mem => by
      obtain ⟨⟨p, text, shieldText, -⟩, -⟩ := item.exists_phrase default
        (selector.no_percent_item mem) (selector.plain item mem)
      exact ⟨p, text, shieldText⟩
  refine ⟨whole.1, whole.2.trans ?_⟩
  rw [PlainList.text, Plain.render, shielded, List.flatMap_map]

/-- The scoped list is flat, and shielding it is scoping the shielded list. -/
theorem flat_scopedText : Flat (selector.scopedText scheme) ∧
    shield (selector.scopedText scheme) =
      selector.shielded.items.flatMap (Plain.Item.scopedText scheme.toScheme) := by
  have whole := Phrase.flat_flatMap (l := selector.list.items)
    (f := Plain.Item.scopedText scheme.toScheme)
    (g := fun item => item.shielded.scopedText scheme.toScheme) fun item mem => by
      obtain ⟨-, p, text, shieldText, -⟩ := item.exists_phrase scheme
        (selector.no_percent_item mem) (selector.plain item mem)
      exact ⟨p, text, shieldText⟩
  refine ⟨whole.1, whole.2.trans ?_⟩
  rw [shielded, List.flatMap_map]

/-- **Unshielding gives the scoped list back**, if joining words does not make the word in every
mark. -/
theorem unshield_scopedText (free : WordFree selector.list.text) (joined : selector.JoinsFreely) :
    unshield (shield (selector.scopedText scheme)) = selector.scopedText scheme := by
  rw [(selector.flat_scopedText scheme).2, shielded, List.flatMap_map]
  refine Phrase.unshield_flatMap fun item mem => ?_
  obtain ⟨-, p, text, shieldText, inside⟩ := item.exists_phrase scheme
    (selector.no_percent_item mem) (selector.plain item mem)
  have part : item.text <:+: selector.list.text :=
    List.infix_of_mem_flatten (List.mem_map_of_mem mem)
  exact ⟨p, text, shieldText, inside ⟨free.part part, joined item mem⟩⟩

/-- The scoped list stays as it is when it is unshielded again. -/
theorem unshield_scopedText_self (free : WordFree selector.list.text)
    (joined : selector.JoinsFreely) :
    unshield (selector.scopedText scheme) = selector.scopedText scheme := by
  refine Phrase.unshield_flatMap_text fun item mem => ?_
  obtain ⟨-, p, text, -, inside⟩ := item.exists_phrase scheme
    (selector.no_percent_item mem) (selector.plain item mem)
  have part : item.text <:+: selector.list.text :=
    List.infix_of_mem_flatten (List.mem_map_of_mem mem)
  exact ⟨p, text, inside ⟨free.part part, joined item mem⟩⟩

theorem text_ends : selector.list.text ≠ [] ∧
    (∀ c ∈ selector.list.text.head?, Text.isSpace c = false ∧ c ≠ '%' ∧ c ≠ '@') ∧
    ∀ c ∈ selector.list.text.getLast?, Text.isSpace c = false := by
  refine Plain.flatMap_ends selector.nonempty (fun item mem => ?_) fun item mem => ?_
  · obtain ⟨some, first, -⟩ := Plain.Item.text_ends
      (selector.no_percent_item (List.mem_of_mem_head? mem)) (selector.first item mem)
    exact ⟨some, first⟩
  · obtain ⟨some, -, last⟩ := Plain.Item.text_ends
      (selector.no_percent_item (List.mem_of_mem_getLast? mem)) (selector.last item mem)
    exact ⟨some, last⟩

theorem scopedText_ends : selector.scopedText scheme ≠ [] ∧
    (∀ c ∈ (selector.scopedText scheme).head?, Text.isSpace c = false ∧ c ≠ '%' ∧ c ≠ '@') ∧
    ∀ c ∈ (selector.scopedText scheme).getLast?, Text.isSpace c = false := by
  refine Plain.flatMap_ends selector.nonempty (fun item mem => ?_) fun item mem => ?_
  · obtain ⟨some, first, -⟩ := Plain.Item.scopedText_ends scheme
      (selector.no_percent_item (List.mem_of_mem_head? mem)) (selector.first item mem)
    exact ⟨some, first⟩
  · obtain ⟨some, -, last⟩ := Plain.Item.scopedText_ends scheme
      (selector.no_percent_item (List.mem_of_mem_getLast? mem)) (selector.last item mem)
    exact ⟨some, last⟩

/-- The selector as the prelude of a rule. -/
def prelude : Prelude where
  text := selector.list.text
  nonempty := selector.text_ends.1
  first c mem := ⟨(selector.text_ends.2.1 c mem).1, (selector.text_ends.2.1 c mem).2.1⟩
  last := selector.text_ends.2.2
  flat := selector.flat_text.1

/-- The scoped selector as the prelude of a rule. -/
def scopedPrelude : Prelude where
  text := selector.scopedText scheme
  nonempty := (selector.scopedText_ends scheme).1
  first c mem := ⟨((selector.scopedText_ends scheme).2.1 c mem).1,
    ((selector.scopedText_ends scheme).2.1 c mem).2.1⟩
  last := (selector.scopedText_ends scheme).2.2
  flat := (selector.flat_scopedText scheme).1

/-- **Scoping a selector while its strings are shielded** is shielding the scoped selector.  Nothing
is recorded of keyframes and font families, and nothing is warned of. -/
theorem scopeList_shield (ledger : Ledger) :
    ∃ next, Selector.scopeList scheme.toScheme (shield selector.list.text) ledger =
        .ok (next, shield (selector.scopedText scheme)) ∧
      next.mapping.keyframes = ledger.mapping.keyframes ∧
      next.mapping.fontFaces = ledger.mapping.fontFaces := by
  obtain ⟨next, done, -, mapping⟩ := scopeList_plain scheme.switches scheme.asterisk id
    (Suffix.attach scheme.suffix) selector.shielded ledger
  refine ⟨next, ?_, ?_⟩
  · rw [selector.flat_text.2, (selector.flat_scopedText scheme).2]
    exact done
  · rw [mapping]
    exact Plain.Item.tables_of_records _ ledger.mapping

end PlainSelector

end ScopedCss
