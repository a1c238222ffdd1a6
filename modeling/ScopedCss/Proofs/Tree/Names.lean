import ScopedCss.Proofs.Plain.Items
import ScopedCss.Proofs.Text.WordFree
import ScopedCss.Selector.Renaming

/-!
# Scoped names and marks

A pass with the default scoper attaches `_` and a suffix of digits to a name.  Marks and this get on
with each other: a name may be marked first and scoped then, or the other way around, also if it is
made of the words of an attribute value (`ofValue_flatMap_ofChar`).
-/
namespace ScopedCss

open Quoted

/-- The choices of a pass with the default scoper and no changes to the names of elements, in which
`*` has a fixed name. -/
structure PlainScheme where
  switches : Switches
  asterisk : Text
  asterisk_plain : ∀ c ∈ asterisk, Plain.isNameChar c
  /-- The suffix of the style sheet. -/
  suffix : Text
  digits : ∀ c ∈ suffix, c.isAlphanum
  few : suffix.length ≤ 10

namespace PlainScheme

instance : Inhabited PlainScheme := ⟨⟨{}, [], by simp, [], by simp, by simp⟩⟩

/-- The choices, as a pass has them. -/
def toScheme (scheme : PlainScheme) : Scheme :=
  ⟨scheme.switches, .literal scheme.asterisk, id, Suffix.attach scheme.suffix⟩

/-- The scoped form of a name. -/
def scope (scheme : PlainScheme) (name : Text) : Text := Suffix.attach scheme.suffix name

variable (scheme : PlainScheme)

theorem mem_scope {name : Text} {c : Char} :
    c ∈ scheme.scope name ↔ c ∈ name ∨ c = '_' ∨ c ∈ scheme.suffix := by
  simp [scope, Suffix.attach]

theorem isNameChar_of_mem_scope {name : Text} (plain : ∀ c ∈ name, Plain.isNameChar c) :
    ∀ c ∈ scheme.scope name, Plain.isNameChar c := by
  intro c mem
  rcases scheme.mem_scope.1 mem with mem | rfl | mem
  · exact plain c mem
  · rfl
  · simp [Plain.isNameChar, scheme.digits c mem]

theorem scope_ne_nil (name : Text) : scheme.scope name ≠ [] := by simp [scope, Suffix.attach]

/-- A scoped name ends in a digit of the suffix, or in the `_` before it. -/
theorem getLast_scope (name : Text) :
    ∀ c ∈ (scheme.scope name).getLast?, Plain.isNameChar c := by
  intro c mem
  have tail : c ∈ ('_' :: scheme.suffix).getLast? := by
    rwa [scope, Suffix.attach, List.getLast?_append_of_ne_nil _ (by simp)] at mem
  rcases List.mem_cons.1 (List.mem_of_mem_getLast? tail) with rfl | mem
  · rfl
  · simp [Plain.isNameChar, scheme.digits c mem]

/-- A table has the scoped forms of the declared names, and no others. -/
def Knows (declared : Text → Bool) (table : NameTable) : Prop :=
  ∀ name, table.find? name = if declared name then some (scheme.scope name) else none

theorem wordFree_scope {name : Text} (free : WordFree name) : WordFree (scheme.scope name) :=
  wordFree_attach free scheme.digits scheme.few

end PlainScheme

/-! ### Marks in words -/

namespace Mark

theorem isSpace_ofChar {c : Char} (solid : Text.isSpace c = false) :
    ∀ d ∈ ofChar c, Text.isSpace d = false := by
  intro d mem
  by_cases known : c ∈ chars
  · exact isSpace_of_isMarkChar (isMarkChar_of_mem known mem)
  · rw [ofChar_of_not_mem known] at mem
    exact List.mem_singleton.1 mem ▸ solid

theorem ofChar_of_isSpace {c : Char} (space : Text.isSpace c) : ofChar c = [c] := by
  refine ofChar_of_not_mem fun known => ?_
  rcases mem_chars.1 known with rfl | rfl | rfl | rfl | rfl <;> cases space

theorem ofChar_of_isNameChar {c : Char} (letter : Plain.isNameChar c) : ofChar c = [c] := by
  refine ofChar_of_not_mem fun known => ?_
  rcases mem_chars.1 known with rfl | rfl | rfl | rfl | rfl <;> cases letter

theorem isNameChar_of_mem_word {c : Char} (mem : c ∈ word) : Text.isNameChar c := by
  have all : word.all Text.isNameChar := by decide
  exact List.all_eq_true.1 all c mem

theorem isSpace_of_mem_word {c : Char} (mem : c ∈ word) : Text.isSpace c = false := by
  have all : word.all (fun c => !Text.isSpace c) := by decide
  simpa using List.all_eq_true.1 all c mem

theorem flatMap_ofChar_of_isNameChar {t : Text} (letters : ∀ c ∈ t, Plain.isNameChar c) :
    t.flatMap ofChar = t := by
  induction t with
  | nil => rfl
  | cons c t ih =>
    rw [List.flatMap_cons, ofChar_of_isNameChar (letters c List.mem_cons_self),
      ih fun d mem => letters d (List.mem_cons_of_mem c mem)]
    rfl

end Mark

namespace Text

theorem splitOnP_append_of_solid {s : Text} (solid : ∀ c ∈ s, isSpace c = false) (t : Text) :
    (s ++ t).splitOnP isSpace = (t.splitOnP isSpace).modifyHead (s ++ ·) := by
  induction s with
  | nil =>
    rw [List.nil_append]
    exact (congrFun List.modifyHead_id (t.splitOnP isSpace)).symm
  | cons c s ih =>
    rw [List.cons_append, List.splitOnP_cons_eq_if_modifyHead, solid c List.mem_cons_self,
      ih fun d mem => solid d (List.mem_cons_of_mem c mem), List.modifyHead_modifyHead]
    rfl

theorem splitOnP_flatMap_ofChar (t : Text) :
    (t.flatMap Mark.ofChar).splitOnP isSpace =
      (t.splitOnP isSpace).map (List.flatMap Mark.ofChar) := by
  induction t with
  | nil => rfl
  | cons c t ih =>
    rw [List.flatMap_cons, List.splitOnP_cons_eq_if_modifyHead]
    by_cases space : isSpace c
    · rw [Mark.ofChar_of_isSpace space, List.singleton_append, List.splitOnP_cons_eq_if_modifyHead,
        if_pos space, if_pos space, ih]
      rfl
    · rw [Bool.not_eq_true] at space
      rw [splitOnP_append_of_solid (Mark.isSpace_ofChar space), ih, space]
      cases t.splitOnP isSpace with
      | nil => rfl
      | cons first rest => simp

/-- Marks belong to the words in which they stand. -/
theorem words_flatMap_ofChar (t : Text) :
    words (t.flatMap Mark.ofChar) = (words t).map (List.flatMap Mark.ofChar) := by
  rw [words, words, splitOnP_flatMap_ofChar, List.filter_map]
  refine congrArg (List.map _) (List.filter_congr fun w _ => ?_)
  cases w with
  | nil => rfl
  | cons c w => simp [Mark.ofChar_ne_nil]

end Text

theorem flatMap_joinWith {f : Char → Text} {c : Char} (plain : f c = [c]) (pieces : List Text) :
    (Text.joinWith [c] pieces).flatMap f = Text.joinWith [c] (pieces.map (List.flatMap f)) := by
  induction pieces with
  | nil => rfl
  | cons piece pieces ih =>
    cases pieces with
    | nil => simp [Text.joinWith]
    | cons next pieces =>
      rw [Text.joinWith_cons_cons, List.map_cons, List.map_cons, Text.joinWith_cons_cons,
        ← List.map_cons, ← ih]
      simp [plain]

theorem Token.joinWords_flatMap_ofChar (t : Text) :
    joinWords (t.flatMap Mark.ofChar) = (joinWords t).flatMap Mark.ofChar := by
  rw [joinWords, joinWords, Text.words_flatMap_ofChar, flatMap_joinWith rfl]

/-- A piece consists of characters of the text that do not separate. -/
theorem Text.mem_of_mem_splitOnP {p : Char → Bool} {t w : Text} (word : w ∈ t.splitOnP p) {c : Char}
    (mem : c ∈ w) : c ∈ t ∧ p c = false := by
  induction t generalizing w with
  | nil =>
    rw [List.splitOnP_nil, List.mem_singleton] at word
    rw [word] at mem
    cases mem
  | cons d t ih =>
    have later {w : Text} (word : w ∈ t.splitOnP p) (mem : c ∈ w) : c ∈ d :: t ∧ p c = false :=
      (ih word mem).imp_left (List.mem_cons_of_mem d)
    rw [List.splitOnP_cons_eq_if_modifyHead] at word
    split at word
    · rcases List.mem_cons.1 word with rfl | word
      · cases mem
      · exact later word mem
    next solid =>
      cases split : t.splitOnP p with
      | nil => exact absurd split (List.splitOnP_ne_nil p t)
      | cons first rest =>
        rw [split] at later word
        rcases List.mem_cons.1 word with rfl | word
        · rcases List.mem_cons.1 mem with rfl | mem
          · exact ⟨List.mem_cons_self, Bool.eq_false_iff.2 solid⟩
          · exact later List.mem_cons_self mem
        · exact later (List.mem_cons_of_mem first word) mem

theorem Text.mem_joinWith {c d : Char} {pieces : List Text} (mem : d ∈ Text.joinWith [c] pieces) :
    d = c ∨ ∃ piece ∈ pieces, d ∈ piece := by
  induction pieces with
  | nil => cases mem
  | cons piece pieces ih =>
    cases pieces with
    | nil => exact .inr ⟨piece, List.mem_cons_self, by simpa [joinWith] using mem⟩
    | cons next pieces =>
      rw [joinWith_cons_cons, List.mem_append, List.mem_cons] at mem
      rcases mem with here | rfl | later
      · exact .inr ⟨piece, List.mem_cons_self, here⟩
      · exact .inl rfl
      · rcases ih later with same | ⟨word, there, inside⟩
        · exact .inl same
        · exact .inr ⟨word, List.mem_cons_of_mem piece there, inside⟩

/-- Joined words consist of the characters of the words and `_`. -/
theorem Token.mem_joinWords {t : Text} {c : Char} (mem : c ∈ joinWords t) : c ∈ t ∨ c = '_' := by
  rcases Text.mem_joinWith mem with same | ⟨word, there, inside⟩
  · exact .inr same
  · exact .inl (Text.mem_of_mem_splitOnP (List.mem_filter.1 there).1 inside).1

theorem Token.isSpace_of_mem_joinWords {t : Text} {c : Char} (mem : c ∈ joinWords t) :
    Text.isSpace c = false := by
  rcases Text.mem_joinWith mem with rfl | ⟨word, there, inside⟩
  · rfl
  · exact (Text.mem_of_mem_splitOnP (List.mem_filter.1 there).1 inside).2

theorem bareName_suffix (t : Text) : bareName t <:+ t := by
  unfold bareName
  split
  next t => exact List.suffix_cons '.' t
  next t => exact List.suffix_cons '#' t
  next => exact List.suffix_rfl

theorem bareName_flatMap_ofChar (t : Text) :
    bareName (t.flatMap Mark.ofChar) = (bareName t).flatMap Mark.ofChar := by
  cases t with
  | nil => rfl
  | cons c t =>
    by_cases dot : c = '.'
    · subst dot
      rfl
    by_cases hash : c = '#'
    · subst hash
      rfl
    have other {d : Char} (u : Text) (dot : d ≠ '.') (hash : d ≠ '#') : bareName (d :: u) = d :: u := by
      unfold bareName
      split
      next same => exact absurd (List.cons.inj same).1 dot
      next same => exact absurd (List.cons.inj same).1 hash
      next => rfl
    rw [other t dot hash, List.flatMap_cons]
    by_cases known : c ∈ Mark.chars
    · obtain ⟨inside, shape, -⟩ := Mark.ofChar_shape known
      rw [shape]
      exact other _ (by decide) (by decide)
    · rw [Mark.ofChar_of_not_mem known]
      exact other _ dot hash

namespace PlainScheme
variable (scheme : PlainScheme)

theorem scope_flatMap_ofChar (name : Text) :
    scheme.scope (name.flatMap Mark.ofChar) = (scheme.scope name).flatMap Mark.ofChar := by
  have digits := Mark.flatMap_ofChar_of_isNameChar (t := scheme.suffix) fun c mem => by
    simp [Plain.isNameChar, scheme.digits c mem]
  rw [scope, scope, Suffix.attach, Suffix.attach, List.flatMap_append, List.flatMap_cons, digits]
  rfl

/-- What an attribute is compared with in place of a value that names ids or classes. -/
def ofValue (onId : Bool) (value : Text) : Text :=
  bareName (scheme.scope (if onId then value else Token.joinWords value))

/-- The value of an attribute may be marked before it is scoped or afterwards. -/
theorem ofValue_flatMap_ofChar (onId : Bool) (value : Text) :
    scheme.ofValue onId (value.flatMap Mark.ofChar) = (scheme.ofValue onId value).flatMap Mark.ofChar := by
  rw [ofValue, ofValue, ← bareName_flatMap_ofChar, ← scope_flatMap_ofChar]
  cases onId with
  | true => rfl
  | false =>
    have joined := Token.joinWords_flatMap_ofChar value
    exact congrArg (fun name => bareName (scheme.scope name)) joined

theorem mem_ofValue {onId : Bool} {value : Text} {c : Char} (mem : c ∈ scheme.ofValue onId value) :
    c ∈ value ∨ Plain.isNameChar c := by
  rcases scheme.mem_scope.1 ((bareName_suffix _).subset mem) with mem | rfl | mem
  · cases onId with
    | true => exact .inl mem
    | false =>
      rcases Token.mem_joinWords mem with mem | rfl
      · exact .inl mem
      · exact .inr rfl
  · exact .inr rfl
  · exact .inr (by simp [Plain.isNameChar, scheme.digits c mem])

theorem wordFree_ofValue {onId : Bool} {value : Text} (free : WordFree value)
    (joined : onId = false → WordFree (Token.joinWords value)) :
    WordFree (scheme.ofValue onId value) := by
  refine WordFree.part ?_ (bareName_suffix _).isInfix
  cases onId with
  | true => exact scheme.wordFree_scope free
  | false => exact scheme.wordFree_scope (joined rfl)

end PlainScheme

end ScopedCss
