import ScopedCss.Animation
import ScopedCss.Proofs.Tree.Commas
import ScopedCss.Proofs.Tree.Names
import ScopedCss.Proofs.Rule.Rows

/-!
# Animations as layers of parts

The value of an animation is a list of layers, and a layer a row of parts: words, strings and signs,
among which are parentheses and, inside these, commas.  In each layer the first word or string outside
parentheses that names declared keyframes is scoped, and nothing else (`rename_text`).
-/
namespace ScopedCss

open Quoted

/-- A part of an animation's layer. -/
inductive AnimationPart where
  | word (name : Text) (nonempty : name ≠ []) (letters : ∀ c ∈ name, Text.isNameChar c)
  /-- A string.  It holds no comma and no parenthesis. -/
  | string (quote : Char) (name : Text) (isQuote : Text.isQuote quote)
      (inside : ∀ c ∈ name, c ≠ quote ∧ c ∉ ['\\', ',', '(', ')'])
  /-- A character that belongs to no word and no string. -/
  | sign (c : Char) (known : Text.isNameChar c = false ∧ Text.isQuote c = false ∧
      c ∉ ['\\', ';', '{', '}'])

namespace AnimationPart

/-- The characters of a part. -/
def text : AnimationPart → Text
  | word name _ _ => name
  | string quote name _ _ => quote :: (name ++ [quote])
  | sign c _ => [c]

/-- What a part may name. -/
def name? : AnimationPart → Option Text
  | word name _ _ => some name
  | string _ name _ _ => some name
  | sign _ _ => none

/-- Whether a part is a word. -/
def isWord : AnimationPart → Bool
  | word _ _ _ => true
  | _ => false

/-- The number of open parentheses behind a part. -/
def depthAfter (depth : Nat) : AnimationPart → Nat
  | sign c _ => if c = '(' then depth + 1 else if c = ')' then depth - 1 else depth
  | _ => depth

theorem ne_of_name {c quote : Char} (letter : Plain.isNameChar c) (isQuote : Text.isQuote quote) :
    c ≠ quote := by
  rintro rfl
  simp only [Text.isQuote, Bool.or_eq_true, beq_iff_eq] at isQuote
  rcases isQuote with rfl | rfl <;> cases letter

/-- The part with its name scoped. -/
def scope (scheme : PlainScheme) : AnimationPart → AnimationPart
  | word name _ letters => word (scheme.scope name) (scheme.scope_ne_nil name) (by
      intro c mem
      rcases scheme.mem_scope.1 mem with mem | rfl | mem
      · exact letters c mem
      · rfl
      · simp [Text.isNameChar, scheme.digits c mem])
  | string quote name isQuote inside => string quote (scheme.scope name) isQuote (by
      intro c mem
      rcases scheme.mem_scope.1 mem with mem | rfl | mem
      · exact inside c mem
      · exact ⟨ne_of_name rfl isQuote, by decide⟩
      · have letter := scheme.digits c mem
        refine ⟨ne_of_name (by simp [Plain.isNameChar, letter]) isQuote, ?_⟩
        simp only [List.mem_cons, List.not_mem_nil, or_false, not_or]
        refine ⟨?_, ?_, ?_, ?_⟩ <;> rintro rfl <;> cases letter)
  | sign c known => sign c known

/-- A row of parts in which the first outside parentheses that names declared keyframes is scoped. -/
def scopeFirst (scheme : PlainScheme) (declared : Text → Bool) :
    Nat → List AnimationPart → List AnimationPart
  | _, [] => []
  | depth, part :: parts =>
    if depth = 0 ∧ part.name?.any declared then part.scope scheme :: parts
    else part :: scopeFirst scheme declared (part.depthAfter depth) parts

end AnimationPart

/-- A layer of an animation. -/
structure AnimationLayer where
  parts : List AnimationPart
  /-- Something stands between two words. -/
  apart : parts.IsChain fun part next => ¬ (part.isWord ∧ next.isWord)
  /-- Parentheses are closed, and commas stand inside them. -/
  enclosed : CommaList.enclosed 0 (parts.flatMap AnimationPart.text)

namespace AnimationLayer

/-- The characters of a layer. -/
def text (layer : AnimationLayer) : Text := layer.parts.flatMap AnimationPart.text

/-- The characters of a layer in which the first declared name outside parentheses is scoped. -/
def scopedText (scheme : PlainScheme) (declared : Text → Bool) (layer : AnimationLayer) : Text :=
  (AnimationPart.scopeFirst scheme declared 0 layer.parts).flatMap AnimationPart.text

end AnimationLayer

/-- The value of an animation. -/
structure AnimationValue where
  layers : List AnimationLayer
  nonempty : layers ≠ []

namespace AnimationValue

/-- The characters of an animation. -/
def text (value : AnimationValue) : Text :=
  CommaList.join (value.layers.map AnimationLayer.text)

/-- The characters of an animation in which the first declared name of each layer is scoped. -/
def scopedText (scheme : PlainScheme) (declared : Text → Bool) (value : AnimationValue) : Text :=
  CommaList.join (value.layers.map (AnimationLayer.scopedText scheme declared))

end AnimationValue

/-! ### Scanning the parts -/

namespace AnimationPart
variable {scheme : PlainScheme} {declared : Text → Bool}

/-- What a part is recognised as. -/
def segment : AnimationPart → Segment AnimationWord
  | word name _ _ => .hit (.bare name)
  | string quote name _ _ => .hit (.quoted quote name true)
  | sign c _ => .plain c

theorem read_word {name t : Text} (nonempty : name ≠ []) (letters : ∀ c ∈ name, Text.isNameChar c)
    (ends : ∀ c ∈ t.head?, Text.isNameChar c = false) :
    AnimationWord.read (name ++ t) = some (.bare name) := by
  obtain ⟨c, rest, rfl⟩ := List.exists_cons_of_ne_nil nonempty
  have letter := letters c List.mem_cons_self
  have whole : (rest ++ t).takeWhile Text.isNameChar = rest := by
    rw [List.takeWhile_append_of_pos fun d mem => letters d (List.mem_cons_of_mem c mem)]
    cases t with
    | nil => simp
    | cons d t => simp [ends d rfl]
  rw [List.cons_append, AnimationWord.read, Text.isQuote_of_isNameChar letter, letter, whole]
  rfl

theorem read_string {quote : Char} {name : Text} (isQuote : Text.isQuote quote)
    (inside : quote ∉ name) (t : Text) :
    AnimationWord.read (quote :: (name ++ quote :: t)) = some (.quoted quote name true) := by
  have whole : (name ++ quote :: t).takeWhile (· != quote) = name := by
    rw [List.takeWhile_append_of_pos]
    · simp
    · intro c mem
      rw [bne_iff_ne]
      rintro rfl
      exact inside mem
  rw [AnimationWord.read, if_pos isQuote, whole]
  simp

/-- A part is recognised as what it is if no word runs on behind it. -/
theorem scan_cons (part : AnimationPart) {t : Text}
    (ends : part.isWord → ∀ c ∈ t.head?, Text.isNameChar c = false) :
    AnimationWord.recogniser.scan (part.text ++ t) =
      part.segment :: AnimationWord.recogniser.scan t := by
  cases part with
  | word name nonempty letters =>
    exact Recogniser.scan_spell_append (r := AnimationWord.recogniser) (a := .bare name)
      (read_word nonempty letters (ends rfl))
  | string quote name isQuote inside =>
    have spelled : (string quote name isQuote inside).text ++ t =
        AnimationWord.spell (.quoted quote name true) ++ t := by simp [text, AnimationWord.spell]
    have written : AnimationWord.spell (.quoted quote name true) ++ t =
        quote :: (name ++ quote :: t) := by simp [AnimationWord.spell]
    rw [spelled]
    refine Recogniser.scan_spell_append (r := AnimationWord.recogniser)
      (a := .quoted quote name true) ?_
    exact written ▸ read_string isQuote (fun mem => (inside quote mem).1 rfl) t
  | sign c known =>
    refine Recogniser.scan_of_not_read ?_
    show AnimationWord.read (c :: t) = none
    rw [AnimationWord.read, known.2.1, known.1]
    rfl

/-- No word runs on behind a word. -/
theorem head_of_apart {part : AnimationPart} {parts : List AnimationPart}
    (apart : (part :: parts).IsChain fun part next => ¬ (part.isWord ∧ next.isWord))
    (word : part.isWord) : ∀ c ∈ (parts.flatMap text).head?, Text.isNameChar c = false := by
  intro c mem
  cases parts with
  | nil => cases mem
  | cons next parts =>
    have other := (List.isChain_cons_cons.1 apart).1
    cases next with
    | word name nonempty letters => exact absurd ⟨word, rfl⟩ other
    | string quote name isQuote inside =>
      cases mem
      by_contra letter
      rw [Bool.not_eq_false] at letter
      rw [Text.isQuote_of_isNameChar letter] at isQuote
      cases isQuote
    | sign d known =>
      cases mem
      exact known.1

/-- A row of parts is recognised part by part. -/
theorem scan_parts {parts : List AnimationPart}
    (apart : parts.IsChain fun part next => ¬ (part.isWord ∧ next.isWord)) :
    AnimationWord.recogniser.scan (parts.flatMap text) = parts.map segment := by
  induction parts with
  | nil => rfl
  | cons part parts ih =>
    rw [List.flatMap_cons, scan_cons part (head_of_apart apart), ih apart.tail]
    rfl

/-- A part with a name is recognised as a word with this name. -/
theorem segment_of_name (scheme : PlainScheme) {part : AnimationPart} {name : Text}
    (named : part.name? = some name) :
    ∃ word : AnimationWord, part.segment = .hit word ∧ word.name = name ∧ word.spell = part.text ∧
      (word.withName (scheme.scope name)).spell = (part.scope scheme).text ∧
      ∀ depth, part.depthAfter depth = depth := by
  cases part with
  | word name nonempty letters =>
    cases named
    exact ⟨.bare name, rfl, rfl, rfl, rfl, fun _ => rfl⟩
  | string quote name isQuote inside =>
    cases named
    exact ⟨.quoted quote name true, rfl, rfl, by simp [AnimationWord.spell, text],
      by simp [AnimationWord.spell, AnimationWord.withName, text, scope], fun _ => rfl⟩
  | sign c known => cases named

theorem spellAll_segments (parts : List AnimationPart) :
    AnimationWord.recogniser.spellAll (parts.map segment) = parts.flatMap text := by
  rw [Recogniser.spellAll, List.flatMap_map]
  refine List.flatMap_congr fun part _ => ?_
  cases part with
  | string quote name isQuote inside =>
    simp [segment, Recogniser.spellSegment, AnimationWord.recogniser, AnimationWord.spell, text]
  | _ => rfl

/-- Renaming in a layer scopes the first declared name outside parentheses. -/
theorem renameFrom_segments {table : NameTable} (knows : scheme.Knows declared table) (depth : Nat)
    (parts : List AnimationPart) :
    (Animation.renameFrom table depth (parts.map segment)).getD (parts.flatMap text) =
      (scopeFirst scheme declared depth parts).flatMap text := by
  induction parts generalizing depth with
  | nil => rfl
  | cons part parts ih =>
    -- A part that is passed over is written before what becomes of the rest.
    have pass {t : Text} {result : Option Text} :
        (result.map (t ++ ·)).getD (t ++ parts.flatMap text) =
          t ++ result.getD (parts.flatMap text) := by
      cases result <;> rfl
    cases named : part.name? with
    | none =>
      cases part with
      | sign c known =>
        rw [scopeFirst, if_neg (by simp [named]), List.map_cons, List.flatMap_cons, List.flatMap_cons,
          ← ih]
        exact pass (t := [c])
      | _ => cases named
    | some name =>
      obtain ⟨word, isHit, own, spelled, renamed, same⟩ := segment_of_name scheme named
      rw [List.map_cons, List.flatMap_cons, isHit, Animation.renameFrom, own, scopeFirst, named, same]
      by_cases here : depth = 0 ∧ declared name
      · rw [if_pos here.1, knows name, if_pos here.2, if_pos (by simpa using here)]
        simp only [Option.getD_some, List.flatMap_cons]
        rw [renamed, spellAll_segments]
      · have unknown : (if depth = 0 then table.find? name else none) = none := by
          split
          next zero => rw [knows name, if_neg fun known => here ⟨zero, known⟩]
          next => rfl
        rw [unknown, if_neg (by simpa using here), List.flatMap_cons, ← ih, ← spelled]
        exact pass

/-! ### Well-formed results -/

theorem flat_text (part : AnimationPart) : Flat part.text := by
  cases part with
  | word name nonempty letters =>
    refine flat_of_no_quote (fun c mem => Text.isQuote_of_isNameChar (letters c mem)) (fun mem => ?_) fun c mem => ?_
    · cases letters '\\' mem
    · have letter := letters c mem
      by_contra structural
      rw [Bool.not_eq_false, Frame.isStructural_iff] at structural
      rcases structural with rfl | rfl | rfl <;> cases letter
  | string quote name isQuote inside =>
    exact flat_quoted isQuote (fun mem => (inside quote mem).1 rfl)
      fun mem => (inside '\\' mem).2 List.mem_cons_self
  | sign d known =>
    refine flat_of_no_quote (fun c mem => List.mem_singleton.1 mem ▸ known.2.1) (fun mem => ?_) fun c mem => ?_
    · cases List.mem_singleton.1 mem
      exact known.2.2 List.mem_cons_self
    · cases List.mem_singleton.1 mem
      by_contra structural
      rw [Bool.not_eq_false, Frame.isStructural_iff] at structural
      rcases structural with rfl | rfl | rfl <;> exact known.2.2 (by simp)

theorem flat_parts (parts : List AnimationPart) : Flat (parts.flatMap text) := by
  induction parts with
  | nil => exact .nil
  | cons part parts ih => exact part.flat_text.append ih

/-- Scoping a name does not make the word in every mark. -/
theorem wordFree_scopeFirst (front : Text) {parts : List AnimationPart}
    (apart : parts.IsChain fun part next => ¬ (part.isWord ∧ next.isWord)) (depth : Nat)
    (free : WordFree (front ++ parts.flatMap text)) :
    WordFree (front ++ (scopeFirst scheme declared depth parts).flatMap text) := by
  induction parts generalizing front depth with
  | nil => exact free
  | cons part parts ih =>
    rw [scopeFirst]
    split
    next here =>
      rw [List.flatMap_cons] at free ⊢
      cases part with
      | word name nonempty letters =>
        have ends : ∀ c ∈ (parts.flatMap text).head?, c ∉ Mark.word := fun c mem word =>
          absurd (Mark.isNameChar_of_mem_word word) (by simp [head_of_apart apart rfl c mem])
        have whole := wordFree_attach_append (s := front ++ name) (by simpa [text] using free) ends
          scheme.digits scheme.few
        simpa [text, scope, PlainScheme.scope, Suffix.attach] using whole
      | string quote name isQuote inside =>
        have ends : ∀ c ∈ (quote :: parts.flatMap text).head?, c ∉ Mark.word := by
          rintro c ⟨⟩ word
          rw [Text.isQuote_of_isNameChar (Mark.isNameChar_of_mem_word word)] at isQuote
          cases isQuote
        have whole := wordFree_attach_append (s := front ++ quote :: name)
          (by simpa [text] using free) ends scheme.digits scheme.few
        simpa [text, scope, PlainScheme.scope, Suffix.attach] using whole
      | sign c known => simp [name?] at here
    next =>
      rw [List.flatMap_cons, ← List.append_assoc] at free ⊢
      exact ih _ apart.tail _ free

end AnimationPart

namespace AnimationLayer
variable {scheme : PlainScheme} {declared : Text → Bool} (layer : AnimationLayer)

theorem getD_renameLayer {table : NameTable} (knows : scheme.Knows declared table) :
    (Animation.renameLayer table layer.text).getD layer.text = layer.scopedText scheme declared := by
  rw [Animation.renameLayer, text, AnimationPart.scan_parts layer.apart]
  exact AnimationPart.renameFrom_segments knows 0 layer.parts

end AnimationLayer

namespace AnimationValue
variable {scheme : PlainScheme} {declared : Text → Bool} (value : AnimationValue)

/-- An animation is flat, and stays flat when it is scoped. -/
theorem flat_text : Flat value.text ∧ Flat (value.scopedText scheme declared) := by
  refine ⟨CommaList.flat_join fun piece mem => ?_, CommaList.flat_join fun piece mem => ?_⟩
  · obtain ⟨layer, -, rfl⟩ := List.mem_map.1 mem
    exact AnimationPart.flat_parts _
  · obtain ⟨layer, -, rfl⟩ := List.mem_map.1 mem
    exact AnimationPart.flat_parts _

/-- If nothing is declared the animation stays as it is. -/
theorem scopedText_of_none (none : ∀ name, declared name = false) :
    value.scopedText scheme declared = value.text := by
  have parts (depth : Nat) (parts : List AnimationPart) :
      AnimationPart.scopeFirst scheme declared depth parts = parts := by
    induction parts generalizing depth with
    | nil => rfl
    | cons part parts ih =>
      have silent : part.name?.any declared = false := by
        cases part.name? with
        | none => rfl
        | some name => exact none name
      simp [AnimationPart.scopeFirst, silent, ih]
  refine congrArg CommaList.join (List.map_congr_left fun layer _ => ?_)
  rw [AnimationLayer.scopedText, parts]
  rfl

theorem wordFree_scopedText (free : WordFree value.text) :
    WordFree (value.scopedText scheme declared) := by
  refine (wordFree_joinWith (by decide)).2 fun piece mem => ?_
  obtain ⟨layer, there, rfl⟩ := List.mem_map.1 mem
  have own := (wordFree_joinWith (by decide)).1 free _ (List.mem_map_of_mem there)
  exact AnimationPart.wordFree_scopeFirst [] layer.apart 0 own

/-- **Renaming an animation** scopes the first declared name of each layer, outside parentheses, and
nothing else. -/
theorem getD_rename {table : NameTable} (knows : scheme.Knows declared table) :
    (Animation.rename table value.text).getD value.text = value.scopedText scheme declared := by
  have enclosed : ∀ piece ∈ value.layers.map AnimationLayer.text, CommaList.enclosed 0 piece := by
    intro piece mem
    obtain ⟨layer, -, rfl⟩ := List.mem_map.1 mem
    exact layer.enclosed
  have nonempty : value.layers.map AnimationLayer.text ≠ [] := by simp [value.nonempty]
  have whole := CommaList.getD_mapSome nonempty enclosed (Animation.renameLayer table)
  rw [List.map_map] at whole
  refine whole.trans (congrArg CommaList.join (List.map_congr_left fun layer _ => ?_))
  exact layer.getD_renameLayer knows

end AnimationValue

end ScopedCss
