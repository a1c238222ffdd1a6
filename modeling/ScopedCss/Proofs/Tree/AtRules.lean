import ScopedCss.Keyframes
import ScopedCss.Proofs.Rule.Rows
import ScopedCss.Proofs.Tree.Names
import ScopedCss.Proofs.Tree.Selectors
import ScopedCss.Stylesheet

/-!
# Preludes of at-rules

What a pass does with an at-rule depends on the name that its prelude starts with.  The name has no
string in it, so that it is the same while strings are shielded (`atName?_shield`).  Keyframes whose
name is written without quotes are read as what they are (`ofText?_text`), and an at-rule of another
name is never read as keyframes (`ofText?_eq_none`).
-/
namespace ScopedCss

open Quoted Stylesheet

/-- The prelude of an at-rule. -/
structure AtPrelude where
  prelude : Prelude
  isAt : prelude.text.head? = some '@'

namespace AtPrelude

/-- The name of an at-rule, with its `@`. -/
def name (p : AtPrelude) : Text := p.prelude.text.takeWhile fun c => !Rule.endsAtName c

end AtPrelude

/-- The prelude of keyframes whose name is written without quotes. -/
structure KeyframesPrelude where
  word : Text
  known : word ∈ KeyframesSelector.atWords
  /-- The spaces before the name. -/
  spaces : Spaces
  spaced : spaces.text ≠ []
  name : Text
  nonempty : name ≠ []
  letters : ∀ c ∈ name, Plain.isNameChar c

namespace KeyframesPrelude

/-- The characters of the prelude around a name. -/
def around (p : KeyframesPrelude) (name : Text) : Text := p.word ++ (p.spaces.text ++ name)

/-- The characters of the prelude. -/
def text (p : KeyframesPrelude) : Text := p.around p.name

end KeyframesPrelude

/-! ### Names of at-rules -/

namespace Quoted

/-- Shielding changes nothing before the first quote. -/
theorem takeWhile_shield {p : Char → Bool} (quotes : ∀ c, Text.isQuote c → p c = false) {t : Text}
    (clean : '\\' ∉ t) : (shield t).takeWhile p = t.takeWhile p := by
  induction t with
  | nil => rfl
  | cons c t ih =>
    have here : c ≠ '\\' := fun same => clean (same ▸ List.mem_cons_self)
    rw [shield, shieldFrom_outside here]
    cases goes : p c with
    | false => simp [goes]
    | true =>
      -- A character that is taken opens no string, and the text behind it is shielded alone.
      have plain : Text.isQuote c = false := by
        by_contra quote
        rw [Bool.not_eq_false] at quote
        rw [quotes c quote] at goes
        cases goes
      have later := ih fun mem => clean (List.mem_cons_of_mem c mem)
      rw [plain, List.takeWhile_cons_of_pos goes, List.takeWhile_cons_of_pos goes]
      exact congrArg (c :: ·) later

end Quoted

theorem Rule.endsAtName_of_isSpace {c : Char} (space : Text.isSpace c) : endsAtName c := by
  simp [endsAtName, space]

namespace AtPrelude
variable (p : AtPrelude)

/-- A rule with the prelude is an at-rule, and its name is that of the prelude. -/
theorem atName?_shield (content : Text) :
    (Rule.mk (shield p.prelude.text) content).isAtRule ∧
      (Rule.mk (shield p.prelude.text) content).atName? = some p.name := by
  have at' : (Rule.mk (shield p.prelude.text) content).isAtRule := by
    rw [Rule.isAtRule, decide_eq_true_eq, (ends_shield p.prelude.flat.closed).1]
    exact p.isAt
  refine ⟨at', ?_⟩
  have quotes : ∀ c, Text.isQuote c → (!Rule.endsAtName c) = false := by
    intro c quote
    simp [Rule.endsAtName, quote]
  rw [Rule.atName?, if_pos at', takeWhile_shield quotes p.prelude.flat.closed.no_backslash]
  rfl

/-- Whether a rule with the prelude holds rules. -/
theorem isGrouping_shield (content : Text) :
    (Rule.mk (shield p.prelude.text) content).isGrouping = decide (p.name ∈ Rule.groupingNames) := by
  rw [Rule.isGrouping, (p.atName?_shield content).2]
  rfl

/-- Whether a rule with the prelude is a `@font-face` rule. -/
theorem isFontFace_shield (content : Text) :
    isFontFace (Rule.mk (shield p.prelude.text) content) = decide (p.name = "@font-face".toList) := by
  rw [isFontFace, (p.atName?_shield content).2]
  exact decide_eq_decide.2 Option.some_inj

end AtPrelude

/-! ### Keyframes -/

namespace KeyframesSelector

/-- Reads what stands behind a word of keyframes. -/
def readBehind (word rest : Text) : Option KeyframesSelector :=
  let spaces := Text.leading rest
  match Text.trimStart rest with
  | [] =>
    if 2 ≤ spaces.length then
      some { start := word ++ spaces.dropLast, openingQuote := [],
             name := spaces.drop (spaces.length - 1), closingQuote := [], back := [] }
    else none
  | c :: inside =>
    if spaces.isEmpty then none
    else
      let quoted : Bool := Text.isQuote c && !inside.isEmpty
      let (name, closingQuote, back) := splitName (if quoted then inside else c :: inside)
      some { start := word ++ spaces, openingQuote := if quoted then [c] else [], name,
             closingQuote, back }

theorem ofText?_eq (t : Text) :
    ofText? t = atWords.findSome? fun word => (word.isPrefixOf? t).bind (readBehind word) := rfl

/-- No word of keyframes starts with another one, so that a text is read behind the one word that it
starts with. -/
theorem ofText?_of_prefix {t word rest : Text} (known : word ∈ atWords)
    (front : word.isPrefixOf? t = some rest) : ofText? t = readBehind word rest := by
  have apart : ∀ other ∈ atWords, other ≠ word → other.isPrefixOf? t = none := by
    have free : ∀ a ∈ atWords, ∀ b ∈ atWords, a <+: b → a = b := by decide
    intro other known' different
    cases starts : other.isPrefixOf? t with
    | none => rfl
    | some rest' =>
      have one : word <+: t := ⟨rest, List.isPrefixOf?_eq_some_iff_append_eq.1 front⟩
      have two : other <+: t := ⟨rest', List.isPrefixOf?_eq_some_iff_append_eq.1 starts⟩
      rcases List.prefix_or_prefix_of_prefix one two with short | short
      · exact absurd (free word known other known' short).symm different
      · exact absurd (free other known' word known short) different
  have one : ∀ words ⊆ atWords, word ∈ words →
      words.findSome? (fun word => (word.isPrefixOf? t).bind (readBehind word)) =
        readBehind word rest ∨ readBehind word rest = none := by
    intro words
    induction words with
    | nil => exact fun _ mem => absurd mem List.not_mem_nil
    | cons first words ih =>
      intro all mem
      by_cases same : first = word
      · cases read : readBehind word rest with
        | none => exact .inr rfl
        | some selector =>
          refine .inl ?_
          rw [List.findSome?_cons, same, front, Option.bind_some, read]
      · have none := apart first (all List.mem_cons_self) same
        have later := ih (fun w inside => all (List.mem_cons_of_mem first inside))
          ((List.mem_cons.1 mem).resolve_left fun h => same h.symm)
        rw [List.findSome?_cons, none]
        exact later
  rw [ofText?_eq]
  rcases one atWords (fun _ mem => mem) known with found | none
  · exact found
  · rw [none, List.findSome?_eq_none_iff]
    intro other known'
    by_cases same : other = word
    · rw [same, front, Option.bind_some, none]
    · rw [apart other known' same]
      rfl

theorem endsAtName_of_mem_atWords {word : Text} (known : word ∈ atWords) :
    ∀ c ∈ word, (!Rule.endsAtName c) = true := by
  have all : atWords.all (fun word => word.all fun c => !Rule.endsAtName c) := by decide
  exact fun c mem => List.all_eq_true.1 (List.all_eq_true.1 all word known) c mem

/-- What is read as keyframes starts with a word of keyframes, and a space behind it. -/
theorem exists_of_ofText? {t : Text} {selector : KeyframesSelector} (h : ofText? t = some selector) :
    ∃ word ∈ atWords, ∃ c rest, t = word ++ c :: rest ∧ Text.isSpace c := by
  obtain ⟨word, known, found⟩ := List.exists_of_findSome?_eq_some h
  obtain ⟨rest, front, read⟩ := Option.bind_eq_some_iff.1 found
  have split := Text.append_of_isPrefixOf? front
  have spaced : Text.leading rest ≠ [] := by
    intro none
    simp only [none] at read
    split at read <;> cases read
  obtain ⟨c, more, leading⟩ := List.exists_cons_of_ne_nil spaced
  refine ⟨word, known, c, more ++ Text.trimStart rest, ?_, ?_⟩
  · rw [split, ← List.cons_append, ← leading, Text.trimStart_append]
  · have inside : c ∈ Text.leading rest := leading ▸ List.mem_cons_self
    exact List.all_eq_true.1 List.all_takeWhile c inside

end KeyframesSelector

/-- An at-rule of another name is no rule of keyframes. -/
theorem AtPrelude.ofText?_eq_none {p : AtPrelude} (other : p.name ∉ KeyframesSelector.atWords) :
    KeyframesSelector.ofText? (shield p.prelude.text) = none := by
  rw [Option.eq_none_iff_forall_not_mem]
  intro selector read
  obtain ⟨word, known, c, rest, split, space⟩ := KeyframesSelector.exists_of_ofText? read
  have name := (p.atName?_shield []).2
  rw [Rule.atName?, if_pos (p.atName?_shield []).1, split, List.takeWhile_append_of_pos
    (KeyframesSelector.endsAtName_of_mem_atWords known), List.takeWhile_cons_of_neg
    (by simp [Rule.endsAtName_of_isSpace space]), List.append_nil] at name
  exact other (Option.some.inj name ▸ known)

namespace KeyframesPrelude
variable (p : KeyframesPrelude)

theorem no_percent_word : ∀ c ∈ p.word, Text.isPlain c ∧ Text.isSpace c = false := by
  have all : KeyframesSelector.atWords.all
      (fun word => word.all fun c => Text.isPlain c && !Text.isSpace c) := by decide
  intro c mem
  simpa using List.all_eq_true.1 (List.all_eq_true.1 all p.word p.known) c mem

/-- The prelude around a name of name characters consists of plain characters. -/
theorem isPlain_around {name : Text} (letters : ∀ c ∈ name, Plain.isNameChar c) :
    ∀ c ∈ p.around name, Text.isPlain c := by
  intro c mem
  rcases List.mem_append.1 mem with mem | mem
  · exact (p.no_percent_word c mem).1
  · rcases List.mem_append.1 mem with mem | mem
    · exact Plain.Attribute.isPlain_of_isSpace (p.spaces.isSpace c mem)
    · exact Plain.isPlain_of_isNameChar (letters c mem)

/-- The prelude around a name, as the prelude of a rule. -/
def preludeAround (name : Text) (nonempty : name ≠ []) (letters : ∀ c ∈ name, Plain.isNameChar c) :
    AtPrelude where
  prelude := {
    text := p.around name
    nonempty := by simp [around, nonempty]
    first := by
      intro c mem
      obtain ⟨d, rest, word⟩ : ∃ d rest, p.word = d :: rest := by
        have all : KeyframesSelector.atWords.all (fun word => !word.isEmpty) := by decide
        exact List.exists_cons_of_ne_nil (by simpa using List.all_eq_true.1 all p.word p.known)
      have here : c ∈ p.word := by
        rw [around, word] at mem
        cases mem
        exact word ▸ List.mem_cons_self
      exact ⟨(p.no_percent_word c here).2, (Text.isPlain_iff.1 (p.no_percent_word c here).1).2.2.1⟩
    last := by
      intro c mem
      rw [around, ← List.append_assoc, List.getLast?_append_of_ne_nil _ nonempty] at mem
      exact Plain.isSpace_of_isNameChar (letters c (List.mem_of_mem_getLast? mem))
    flat := (Text.flat_of_plain (p.isPlain_around letters)).1 }
  isAt := by
    have all : KeyframesSelector.atWords.all (fun word => word.head? == some '@') := by decide
    have head : p.word.head? = some '@' := by
      simpa using List.all_eq_true.1 all p.word p.known
    obtain ⟨rest, word⟩ := List.head?_eq_some_iff.1 head
    simp [around, word]

/-- The prelude of the rule. -/
def prelude : AtPrelude := p.preludeAround p.name p.nonempty p.letters

/-- The prelude of the rule with its name scoped. -/
def scopedPrelude (scheme : PlainScheme) : AtPrelude :=
  p.preludeAround (scheme.scope p.name) (scheme.scope_ne_nil p.name)
    (scheme.isNameChar_of_mem_scope p.letters)

theorem name_prelude {name : Text} (nonempty : name ≠ [])
    (letters : ∀ c ∈ name, Plain.isNameChar c) :
    (p.preludeAround name nonempty letters).name = p.word := by
  obtain ⟨c, rest, spaces⟩ := List.exists_cons_of_ne_nil p.spaced
  have space := p.spaces.isSpace c (spaces ▸ List.mem_cons_self)
  have text : (p.preludeAround name nonempty letters).prelude.text =
      p.word ++ c :: (rest ++ name) := by
    simp [preludeAround, around, spaces]
  rw [AtPrelude.name, text, List.takeWhile_append_of_pos
    (KeyframesSelector.endsAtName_of_mem_atWords p.known), List.takeWhile_cons_of_neg
    (by simp [Rule.endsAtName_of_isSpace space]), List.append_nil]

/-- A rule of keyframes neither holds rules nor is a `@font-face` rule. -/
theorem word_cases : p.word ∉ Rule.groupingNames ∧ p.word ≠ "@font-face".toList ∧
    "keyframes".toList.isSuffixOf p.word := by
  have all : KeyframesSelector.atWords.all (fun word => word ∉ Rule.groupingNames &&
      word != "@font-face".toList && "keyframes".toList.isSuffixOf word) := by decide
  simpa [and_assoc] using List.all_eq_true.1 all p.word p.known

/-- **Keyframes are read as what they are.** -/
theorem ofText?_text :
    KeyframesSelector.ofText? p.text =
      some ⟨p.word ++ p.spaces.text, [], p.name, [], []⟩ := by
  obtain ⟨c, rest, name⟩ := List.exists_cons_of_ne_nil p.nonempty
  have letter := p.letters c (name ▸ List.mem_cons_self)
  have solid := Plain.isSpace_of_isNameChar letter
  have unquoted : Text.isQuote c = false := (Text.isPlain_iff.1 (Plain.isPlain_of_isNameChar letter)).1
  have first : ∀ d ∈ p.name.head?, Text.isSpace d = false := by
    rintro d mem
    rw [name] at mem
    cases mem
    exact solid
  have last : ∀ d ∈ p.name.getLast?, Text.isSpace d = false := fun d mem =>
    Plain.isSpace_of_isNameChar (p.letters d (List.mem_of_mem_getLast? mem))
  obtain ⟨leading, trimStart⟩ := Text.trimStart_of_spaces p.spaces.isSpace first
  have whole := Text.trimEnd_of_spaces (s := p.name) (t := []) (by simp) last
  rw [List.append_nil] at whole
  have cut : KeyframesSelector.splitName p.name = (p.name, [], []) := by
    have bare : ¬ (2 ≤ p.name.length ∧ p.name.getLast?.any Text.isQuote = true) := by
      rintro ⟨-, quote⟩
      cases ends : p.name.getLast? with
      | none => simp [ends] at quote
      | some d =>
        have plain := Plain.isPlain_of_isNameChar (p.letters d (List.mem_of_mem_getLast? ends))
        rw [ends, Option.any_some, (Text.isPlain_iff.1 plain).1] at quote
        cases quote
    rw [KeyframesSelector.splitName, whole.1, whole.2]
    split
    next none => exact absurd none p.nonempty
    next => rw [if_neg bare]
  have own : KeyframesSelector.readBehind p.word (p.spaces.text ++ p.name) =
      some ⟨p.word ++ p.spaces.text, [], p.name, [], []⟩ := by
    rw [KeyframesSelector.readBehind, leading, trimStart, name]
    simp only [unquoted, Bool.false_and, Bool.false_eq_true, if_false]
    rw [← name, cut, if_neg (by simp [p.spaced])]
  have front : p.word.isPrefixOf? p.text = some (p.spaces.text ++ p.name) :=
    List.isPrefixOf?_eq_some_iff_append_eq.2 rfl
  rw [KeyframesSelector.ofText?_of_prefix p.known front, own]

end KeyframesPrelude

end ScopedCss
