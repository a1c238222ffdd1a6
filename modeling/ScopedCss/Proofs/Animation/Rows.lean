import ScopedCss.Proofs.Tree.Animations

/-!
# The grammar of animations

The value of an animation is a row of words, strings, signs and commas, in which a group in parentheses
is a row again.  Every text with closed strings and balanced parentheses is such a row, provided that its
strings hold neither commas nor parentheses nor backslashes (`readable_iff`).

The commas outside groups cut a row into layers.  In each layer renaming writes the new name in the place
of the first name outside groups that is recorded, be it a word or what a string holds, and it keeps
everything else (`rename_text`).
-/
namespace ScopedCss.Animation

open Recogniser

/-! ### Texts that can be read -/

/-- Whether strings are closed, parentheses are balanced, and strings hold no comma, no parenthesis and
no backslash.  The state is the quote of the string that is open at the front, if one is, and the number
of parentheses open there. -/
def readable : Option Char → Nat → Text → Bool
  | some _, _, [] => false
  | none, depth, [] => depth == 0
  | some quote, depth, c :: t =>
    if c = quote then readable none depth t
    else c ∉ [',', '(', ')', '\\'] && readable (some quote) depth t
  | none, depth, c :: t =>
    if Text.isQuote c then readable (some c) depth t
    else if c = '(' then readable none (depth + 1) t
    else if c = ')' then 0 < depth && readable none (depth - 1) t
    else readable none depth t

/-! ### Rows -/

/-- A row of what the value of an animation consists of. -/
inductive Row where
  | nil
  /-- A word. -/
  | word (name : Text) (nonempty : name ≠ []) (letters : ∀ c ∈ name, Text.isNameChar c) (rest : Row)
  /-- A string.  It holds no comma, no parenthesis and no backslash. -/
  | string (quote : Char) (name : Text) (isQuote : Text.isQuote quote)
      (inside : ∀ c ∈ name, c ≠ quote ∧ c ∉ [',', '(', ')', '\\']) (rest : Row)
  /-- A character that belongs to no word, no string and no group, and separates no layers. -/
  | sign (c : Char) (known : Text.isNameChar c = false ∧ Text.isQuote c = false ∧
      c ∉ [',', '(', ')']) (rest : Row)
  | comma (rest : Row)
  /-- A row in parentheses. -/
  | group (inside rest : Row)

/-- A name in a layer, with the text before and after it.  The quotes around the name in a string belong
to these. -/
structure Spot where
  before : Text
  name : Text
  after : Text

namespace Spot

/-- The text with another name in the spot. -/
def fill (new : Text) (spot : Spot) : Text := spot.before ++ (new ++ spot.after)

/-- The spot behind some text. -/
def behind (front : Text) (spot : Spot) : Spot := { spot with before := front ++ spot.before }

end Spot

namespace Row

/-- The characters of a row. -/
def text : Row → Text
  | nil => []
  | word name _ _ rest => name ++ rest.text
  | string quote name _ _ rest => quote :: (name ++ quote :: rest.text)
  | sign c _ rest => c :: rest.text
  | comma rest => ',' :: rest.text
  | group inside rest => '(' :: (inside.text ++ ')' :: rest.text)

/-- Whether a row starts with a word. -/
def startsWithWord : Row → Bool
  | word _ _ _ _ => true
  | _ => false

/-- No word follows a word, so that every word is as long as it can be. -/
def Apart : Row → Prop
  | nil => True
  | word _ _ _ rest => rest.startsWithWord = false ∧ rest.Apart
  | string _ _ _ _ rest => rest.Apart
  | sign _ _ rest => rest.Apart
  | comma rest => rest.Apart
  | group inside rest => inside.Apart ∧ rest.Apart

/-- The first layer of a row and the layers after it.  Commas in groups separate nothing. -/
def cut : Row → Row × List Row
  | nil => (nil, [])
  | word name nonempty letters rest => (word name nonempty letters rest.cut.1, rest.cut.2)
  | string quote name isQuote inside rest => (string quote name isQuote inside rest.cut.1, rest.cut.2)
  | sign c known rest => (sign c known rest.cut.1, rest.cut.2)
  | comma rest => (nil, rest.cut.1 :: rest.cut.2)
  | group inside rest => (group inside rest.cut.1, rest.cut.2)

/-- The layers of a row. -/
def layers (row : Row) : List Row := row.cut.1 :: row.cut.2

/-- The words and strings of a layer that stand outside groups, from left to right. -/
def spots : Row → List Spot
  | nil => []
  | word name _ _ rest => ⟨[], name, rest.text⟩ :: rest.spots.map (Spot.behind name)
  | string quote name _ _ rest =>
    ⟨[quote], name, quote :: rest.text⟩ :: rest.spots.map (Spot.behind (quote :: (name ++ [quote])))
  | sign c _ rest => rest.spots.map (Spot.behind [c])
  | comma rest => rest.spots.map (Spot.behind [','])
  | group inside rest => rest.spots.map (Spot.behind ('(' :: (inside.text ++ [')'])))

/-- A layer with the new name in the place of the first name that is recorded, if there is one. -/
def renameFirst (keyframes : NameTable) (layer : Row) : Option Text :=
  layer.spots.findSome? fun spot => (keyframes.find? spot.name).map spot.fill

/-- A row with the first recorded name of each layer renamed, if a layer has one. -/
def renamed (keyframes : NameTable) (row : Row) : Option Text :=
  if row.layers.any fun layer => (layer.renameFirst keyframes).isSome then
    some (CommaList.join (row.layers.map fun layer =>
      (layer.renameFirst keyframes).getD layer.text))
  else none

end Row

/-! ### Every readable text is a row -/

theorem readable_cons_of_inert {c : Char} (inert : Text.isQuote c = false ∧ c ≠ '(' ∧ c ≠ ')')
    (depth : Nat) (t : Text) : readable none depth (c :: t) = readable none depth t := by
  rw [readable, if_neg (by simp [inert.1]), if_neg inert.2.1, if_neg inert.2.2]

theorem inert_of_isNameChar {c : Char} (letter : Text.isNameChar c) :
    Text.isQuote c = false ∧ c ≠ '(' ∧ c ≠ ')' := by
  refine ⟨Text.isQuote_of_isNameChar letter, ?_, ?_⟩ <;> rintro rfl <;> cases letter

theorem readable_append_of_letters {name : Text} (letters : ∀ c ∈ name, Text.isNameChar c)
    (depth : Nat) (t : Text) : readable none depth (name ++ t) = readable none depth t := by
  induction name with
  | nil => rfl
  | cons c name ih =>
    rw [List.cons_append, readable_cons_of_inert (inert_of_isNameChar (letters c List.mem_cons_self)),
      ih fun d mem => letters d (List.mem_cons_of_mem c mem)]

/-- What stands in a string is read over. -/
theorem readable_string {quote : Char} {name : Text}
    (inside : ∀ c ∈ name, c ≠ quote ∧ c ∉ [',', '(', ')', '\\']) (depth : Nat) (t : Text) :
    readable (some quote) depth (name ++ quote :: t) = readable none depth t := by
  induction name with
  | nil => rw [List.nil_append, readable, if_pos rfl]
  | cons c name ih =>
    obtain ⟨other, plain⟩ := inside c List.mem_cons_self
    rw [List.cons_append, readable, if_neg other, decide_eq_true plain,
      ih fun d mem => inside d (List.mem_cons_of_mem c mem), Bool.true_and]

/-- A string that is read is closed. -/
theorem exists_string {quote : Char} {depth : Nat} {t : Text}
    (h : readable (some quote) depth t = true) :
    ∃ name u, t = name ++ quote :: u ∧ (∀ c ∈ name, c ≠ quote ∧ c ∉ [',', '(', ')', '\\']) ∧
      readable none depth u = true := by
  induction t with
  | nil => cases h
  | cons c t ih =>
    rw [readable] at h
    split at h
    next same =>
      subst same
      exact ⟨[], t, rfl, nofun, h⟩
    next other =>
      rw [Bool.and_eq_true, decide_eq_true_eq] at h
      obtain ⟨name, u, rfl, inside, rest⟩ := ih h.2
      exact ⟨c :: name, u, rfl, List.forall_mem_cons.2 ⟨⟨other, h.1⟩, inside⟩, rest⟩

namespace Row

/-- A row is read over. -/
theorem readable_text (row : Row) (depth : Nat) (t : Text) :
    readable none depth (row.text ++ t) = readable none depth t := by
  induction row generalizing depth t with
  | nil => rfl
  | word name nonempty letters rest ih =>
    rw [text, List.append_assoc, readable_append_of_letters letters, ih]
  | string quote name isQuote inside rest ih =>
    rw [text, List.cons_append, readable, if_pos isQuote, List.append_assoc, List.cons_append,
      readable_string inside, ih]
  | sign c known rest ih =>
    have plain := known.2.2
    simp only [List.mem_cons, List.not_mem_nil, or_false, not_or] at plain
    rw [text, List.cons_append, readable_cons_of_inert ⟨known.2.1, plain.2⟩, ih]
  | comma rest ih =>
    rw [text, List.cons_append, readable_cons_of_inert (by decide), ih]
  | group inside rest ihInside ihRest =>
    rw [text, List.cons_append, readable, if_neg (by decide), if_pos rfl, List.append_assoc, ihInside,
      List.cons_append, readable, if_neg (by decide), if_neg (by decide), if_pos rfl,
      Nat.add_sub_cancel, ihRest]
    simp

/-- A letter before a row belongs to the word that the row starts with, if it does. -/
theorem exists_consLetter {c : Char} (letter : Text.isNameChar c) {row : Row} (apart : row.Apart) :
    ∃ longer : Row, longer.Apart ∧ longer.text = c :: row.text := by
  cases starts : row.startsWithWord with
  | false =>
    refine ⟨word [c] (by simp) (by simpa using letter) row, ⟨starts, apart⟩, rfl⟩
  | true =>
    cases row with
    | word name nonempty letters rest =>
      exact ⟨word (c :: name) (by simp) (List.forall_mem_cons.2 ⟨letter, letters⟩) rest, apart, rfl⟩
    | _ => cases starts

/-- The front of a text is a row: all of the text if no parenthesis is open, else what stands before the
parenthesis that closes the innermost one. -/
def IsFrontOf (row : Row) : Nat → Text → Prop
  | 0, t => t = row.text
  | depth + 1, t => ∃ u, t = row.text ++ ')' :: u ∧ readable none depth u = true

/-- What stands before a row stands before the text as well. -/
theorem IsFrontOf.extend {row : Row} {depth : Nat} {t : Text} (h : row.IsFrontOf depth t)
    (longer : Row) (front : Text) (text : longer.text = front ++ row.text) : longer.IsFrontOf depth (front ++ t) := by
  cases depth with
  | zero => exact (congrArg (front ++ ·) h).trans text.symm
  | succ depth =>
    obtain ⟨u, rfl, rest⟩ := h
    exact ⟨u, by rw [text, List.append_assoc], rest⟩

/-- **A text that can be read starts with a row.** -/
theorem exists_isFrontOf {depth : Nat} {t : Text} (h : readable none depth t = true) :
    ∃ row : Row, row.Apart ∧ row.IsFrontOf depth t := by
  induction size : t.length using Nat.strongRecOn generalizing depth t with
  | ind n ih =>
    cases t with
    | nil =>
      rw [readable, beq_iff_eq] at h
      subst h
      exact ⟨nil, trivial, rfl⟩
    | cons c t =>
      rw [List.length_cons] at size
      rw [readable] at h
      split at h
      next isQuote =>
        obtain ⟨name, u, rfl, inside, rest⟩ := exists_string h
        rw [List.length_append, List.length_cons] at size
        obtain ⟨row, apart, front⟩ := ih u.length (by omega) rest rfl
        have whole := front.extend (string c name isQuote inside row) (c :: (name ++ [c]))
          (by simp [text])
        rw [List.cons_append, List.append_assoc, List.singleton_append] at whole
        exact ⟨string c name isQuote inside row, apart, whole⟩
      next isQuote =>
        split at h
        next opens =>
          subst opens
          obtain ⟨inner, apartInner, u, rfl, rest⟩ := ih t.length (by omega) h rfl
          rw [List.length_append, List.length_cons] at size
          obtain ⟨row, apart, front⟩ := ih u.length (by omega) rest rfl
          have whole := front.extend (group inner row) ('(' :: (inner.text ++ [')']))
            (by simp [text])
          rw [List.cons_append, List.append_assoc, List.singleton_append] at whole
          exact ⟨group inner row, ⟨apartInner, apart⟩, whole⟩
        next opens =>
          split at h
          next closes =>
            -- The row ends where the innermost parenthesis is closed.
            subst closes
            rw [Bool.and_eq_true, decide_eq_true_eq] at h
            obtain ⟨less, rfl⟩ := Nat.exists_eq_succ_of_ne_zero h.1.ne'
            exact ⟨nil, trivial, t, rfl, h.2⟩
          next closes =>
            obtain ⟨row, apart, front⟩ := ih t.length (by omega) h rfl
            by_cases letter : Text.isNameChar c
            · obtain ⟨longer, apart, whole⟩ := exists_consLetter letter apart
              exact ⟨longer, apart, front.extend longer [c] whole⟩
            · by_cases separates : c = ','
              · exact ⟨comma row, apart, front.extend (comma row) [c] (by rw [separates]; rfl)⟩
              · have known : Text.isNameChar c = false ∧ Text.isQuote c = false ∧
                    c ∉ [',', '(', ')'] := by
                  refine ⟨by simpa using letter, by simpa using isQuote, ?_⟩
                  simp [separates, opens, closes]
                exact ⟨sign c known row, apart, front.extend (sign c known row) [c] rfl⟩

end Row

/-- The texts that can be read are the texts of rows. -/
theorem readable_iff {value : Text} :
    readable none 0 value = true ↔ ∃ row : Row, row.Apart ∧ row.text = value := by
  constructor
  · intro h
    obtain ⟨row, apart, whole⟩ := Row.exists_isFrontOf h
    exact ⟨row, apart, whole.symm⟩
  · rintro ⟨row, -, rfl⟩
    have whole := row.readable_text 0 []
    rw [List.append_nil] at whole
    exact whole

namespace Row
variable {keyframes : NameTable}

/-! ### Layers -/

/-- No comma stands outside groups. -/
def Single : Row → Prop
  | nil => True
  | word _ _ _ rest => rest.Single
  | string _ _ _ _ rest => rest.Single
  | sign _ _ rest => rest.Single
  | comma _ => False
  | group _ rest => rest.Single

theorem startsWithWord_cut (row : Row) : row.cut.1.startsWithWord = row.startsWithWord := by
  cases row <;> rfl

/-- A layer is a row without commas outside groups, and words are as apart in it as in the whole row. -/
theorem of_mem_layers (row : Row) :
    ∀ layer ∈ row.layers, layer.Single ∧ (row.Apart → layer.Apart) := by
  unfold layers
  induction row with
  | nil => simp [cut, Single]
  | word name nonempty letters rest ih =>
    rw [List.forall_mem_cons] at ih ⊢
    refine ⟨⟨ih.1.1, fun apart => ⟨?_, ih.1.2 apart.2⟩⟩, fun layer mem => ?_⟩
    · exact (startsWithWord_cut rest).trans apart.1
    · exact (ih.2 layer mem).imp_right fun own apart => own apart.2
  | string quote name isQuote inside rest ih =>
    rw [List.forall_mem_cons] at ih ⊢
    exact ih
  | sign c known rest ih =>
    rw [List.forall_mem_cons] at ih ⊢
    exact ih
  | comma rest ih => exact List.forall_mem_cons.2 ⟨⟨trivial, fun _ => trivial⟩, ih⟩
  | group inside rest _ ih =>
    rw [List.forall_mem_cons] at ih ⊢
    refine ⟨⟨ih.1.1, fun apart => ⟨apart.1, ih.1.2 apart.2⟩⟩, fun layer mem => ?_⟩
    exact (ih.2 layer mem).imp_right fun own apart => own apart.2

/-- The layers with commas between them are the row. -/
theorem join_layers (row : Row) : CommaList.join (row.layers.map text) = row.text := by
  rw [layers, List.map_cons, CommaList.join_cons]
  induction row with
  | nil => rfl
  | word name nonempty letters rest ih => rw [cut, text, List.append_assoc, ih, text]
  | string quote name isQuote inside rest ih =>
    rw [cut, text, List.cons_append, List.append_assoc, List.cons_append, ih, text]
  | sign c known rest ih => rw [cut, text, List.cons_append, ih, text]
  | comma rest ih => rw [cut, text, List.map_cons, List.flatMap_cons, List.nil_append,
      List.cons_append, ih, text]
  | group inside rest _ ih =>
    rw [cut, text, List.cons_append, List.append_assoc, List.cons_append, ih, text]

/-- In parentheses any row is enclosed, and outside a row without commas. -/
theorem enclosed_text {row : Row} {depth : Nat} (inside : row.Single ∨ 0 < depth) (t : Text) :
    CommaList.enclosed depth (row.text ++ t) = CommaList.enclosed depth t := by
  induction row generalizing depth t with
  | nil => rfl
  | word name nonempty letters rest ih =>
    rw [text, List.append_assoc, CommaList.enclosed_append_left, ih inside]
    intro c mem
    refine ⟨?_, (inert_of_isNameChar (letters c mem)).2⟩
    rintro rfl
    cases letters _ mem
  | string quote name isQuote within rest ih =>
    have split : (string quote name isQuote within rest).text ++ t =
        (quote :: (name ++ [quote])) ++ (rest.text ++ t) := by simp [text]
    rw [split, CommaList.enclosed_append_left, ih inside]
    have plain : quote ≠ ',' ∧ quote ≠ '(' ∧ quote ≠ ')' := by
      refine ⟨?_, ?_, ?_⟩ <;> rintro rfl <;> cases isQuote
    refine List.forall_mem_cons.2 ⟨plain, List.forall_mem_append.2 ⟨fun c mem => ?_, ?_⟩⟩
    · have own := (within c mem).2
      simp only [List.mem_cons, List.not_mem_nil, or_false, not_or] at own
      exact ⟨own.1, own.2.1, own.2.2.1⟩
    · simpa using plain
  | sign c known rest ih =>
    have plain := known.2.2
    simp only [List.mem_cons, List.not_mem_nil, or_false, not_or] at plain
    rw [text, List.cons_append, CommaList.enclosed, if_neg plain.2.1, if_neg plain.2.2, ih inside]
    simp [plain.1]
  | comma rest ih =>
    have deep : 0 < depth := inside.resolve_left id
    rw [text, List.cons_append, CommaList.enclosed, if_neg (by decide), if_neg (by decide),
      ih (.inr deep)]
    simp [deep]
  | group inner rest ihInner ihRest =>
    rw [text, List.cons_append, CommaList.enclosed, if_pos rfl, List.append_assoc,
      ihInner (.inr depth.succ_pos), List.cons_append, CommaList.enclosed, if_neg (by decide),
      if_pos rfl, Nat.succ_sub_one, ihRest inside]
    simp

/-- A row is cut into its layers. -/
theorem split_text (row : Row) : CommaList.split row.text = row.layers.map text := by
  rw [← join_layers]
  refine CommaList.split_join (by simp [layers]) fun piece mem => ?_
  obtain ⟨layer, there, rfl⟩ := List.mem_map.1 mem
  have whole : CommaList.enclosed 0 (layer.text ++ []) = CommaList.enclosed 0 [] :=
    enclosed_text (.inl (row.of_mem_layers layer there).1) []
  rw [List.append_nil] at whole
  exact whole

/-! ### Names in a layer -/

/-- What a row is recognised as. -/
def segments : Row → List (Segment AnimationWord)
  | nil => []
  | word name _ _ rest => .hit (.bare name) :: rest.segments
  | string quote name _ _ rest => .hit (.quoted quote name true) :: rest.segments
  | sign c _ rest => .plain c :: rest.segments
  | comma rest => .plain ',' :: rest.segments
  | group inside rest => .plain '(' :: (inside.segments ++ .plain ')' :: rest.segments)

/-- No name character follows a row that starts with no word. -/
theorem head_text {row : Row} (other : row.startsWithWord = false) {t : Text}
    (ends : ∀ c ∈ t.head?, Text.isNameChar c = false) :
    ∀ c ∈ (row.text ++ t).head?, Text.isNameChar c = false := by
  intro c first
  cases row with
  | nil => exact ends c first
  | word name nonempty letters rest => cases other
  | string quote name isQuote inside rest =>
    cases first
    by_contra letter
    rw [Bool.not_eq_false] at letter
    rw [Text.isQuote_of_isNameChar letter] at isQuote
    cases isQuote
  | sign d known rest =>
    cases first
    exact known.1
  | comma rest =>
    cases first
    rfl
  | group inside rest =>
    cases first
    rfl

theorem scan_plain {c : Char} (other : Text.isNameChar c = false ∧ Text.isQuote c = false) (t : Text) :
    AnimationWord.recogniser.scan (c :: t) = .plain c :: AnimationWord.recogniser.scan t := by
  refine Recogniser.scan_of_not_read ?_
  show AnimationWord.read (c :: t) = none
  rw [AnimationWord.read, other.1, other.2]
  rfl

theorem scan_text {row : Row} (apart : row.Apart) {t : Text}
    (ends : ∀ c ∈ t.head?, Text.isNameChar c = false) :
    AnimationWord.recogniser.scan (row.text ++ t) =
      row.segments ++ AnimationWord.recogniser.scan t := by
  induction row generalizing t with
  | nil => rfl
  | word name nonempty letters rest ih =>
    have first : AnimationWord.read (name ++ (rest.text ++ t)) = some (.bare name) :=
      AnimationPart.read_word nonempty letters (head_text apart.1 ends)
    rw [text, List.append_assoc, segments, List.cons_append, ← ih apart.2 ends]
    exact Recogniser.scan_spell_append (r := AnimationWord.recogniser) (a := .bare name) first
  | string quote name isQuote inside rest ih =>
    have first : AnimationWord.read (quote :: (name ++ quote :: (rest.text ++ t))) =
        some (.quoted quote name true) :=
      AnimationPart.read_string isQuote (fun mem => (inside quote mem).1 rfl) _
    have spelled : quote :: (name ++ quote :: (rest.text ++ t)) =
        AnimationWord.spell (.quoted quote name true) ++ (rest.text ++ t) := by
      simp [AnimationWord.spell]
    rw [text, List.cons_append, List.append_assoc, List.cons_append, segments, List.cons_append,
      ← ih apart ends, spelled]
    exact Recogniser.scan_spell_append (r := AnimationWord.recogniser)
      (a := .quoted quote name true) (spelled ▸ first)
  | sign c known rest ih =>
    rw [text, List.cons_append, scan_plain ⟨known.1, known.2.1⟩, ih apart ends]
    rfl
  | comma rest ih =>
    rw [text, List.cons_append, scan_plain (by decide), ih apart ends]
    rfl
  | group inside rest ihInside ihRest =>
    rw [text, List.cons_append, scan_plain (by decide), List.append_assoc, List.cons_append,
      ihInside apart.1 (by rintro c ⟨⟩; rfl), scan_plain (by decide), ihRest apart.2 ends]
    simp [segments]

theorem spellAll_segments (row : Row) :
    AnimationWord.recogniser.spellAll row.segments = row.text := by
  induction row with
  | nil => rfl
  | word name nonempty letters rest ih =>
    rw [segments, text, ← ih]
    rfl
  | string quote name isQuote inside rest ih =>
    rw [segments, text, ← ih]
    simp [Recogniser.spellAll, Recogniser.spellSegment, AnimationWord.recogniser, AnimationWord.spell]
  | sign c known rest ih =>
    rw [segments, text, ← ih]
    rfl
  | comma rest ih =>
    rw [segments, text, ← ih]
    rfl
  | group inside rest ihInside ihRest =>
    rw [segments, text, ← ihInside, ← ihRest]
    simp [Recogniser.spellAll, Recogniser.spellSegment]

/-- A name is renamed if it is recorded and stands outside parentheses. -/
theorem renameFrom_hit (depth : Nat) (word : AnimationWord) (more : List (Segment AnimationWord)) :
    renameFrom keyframes depth (.hit word :: more) =
      ((if depth = 0 then keyframes.find? word.name else none).map fun new =>
          (word.withName new).spell ++ AnimationWord.recogniser.spellAll more).or
        ((renameFrom keyframes depth more).map (word.spell ++ ·)) := by
  rw [renameFrom]
  cases (if depth = 0 then keyframes.find? word.name else none) <;> rfl

theorem renameFrom_plain {c : Char} (inert : c ≠ '(' ∧ c ≠ ')') (depth : Nat)
    (more : List (Segment AnimationWord)) :
    renameFrom keyframes depth (.plain c :: more) =
      (renameFrom keyframes depth more).map (c :: ·) := by
  rw [renameFrom]
  simp only [inert, ↓reduceIte]

theorem renameFrom_opening (depth : Nat) (more : List (Segment AnimationWord)) :
    renameFrom keyframes depth (.plain '(' :: more) =
      (renameFrom keyframes (depth + 1) more).map ('(' :: ·) := rfl

theorem renameFrom_closing (depth : Nat) (more : List (Segment AnimationWord)) :
    renameFrom keyframes depth (.plain ')' :: more) =
      (renameFrom keyframes (depth - 1) more).map (')' :: ·) := rfl

theorem inert_of_sign {c : Char}
    (known : Text.isNameChar c = false ∧ Text.isQuote c = false ∧ c ∉ [',', '(', ')']) :
    c ≠ '(' ∧ c ≠ ')' := by
  have plain := known.2.2
  simp only [List.mem_cons, List.not_mem_nil, or_false, not_or] at plain
  exact plain.2

/-- In parentheses nothing is renamed. -/
theorem renameFrom_inside (row : Row) (depth : Nat) (more : List (Segment AnimationWord)) :
    renameFrom keyframes (depth + 1) (row.segments ++ more) =
      (renameFrom keyframes (depth + 1) more).map (row.text ++ ·) := by
  induction row generalizing depth more with
  | nil => exact Option.map_id'.symm
  | word name nonempty letters rest ih =>
    rw [segments, List.cons_append, renameFrom_hit, if_neg depth.succ_ne_zero, ih, Option.map_map]
    refine congrArg (Option.map · _) (funext fun t => ?_)
    simp [text, AnimationWord.spell]
  | string quote name isQuote inside rest ih =>
    rw [segments, List.cons_append, renameFrom_hit, if_neg depth.succ_ne_zero, ih, Option.map_map]
    refine congrArg (Option.map · _) (funext fun t => ?_)
    simp [text, AnimationWord.spell]
  | sign c known rest ih =>
    rw [segments, List.cons_append, renameFrom_plain (inert_of_sign known), ih, Option.map_map]
    rfl
  | comma rest ih =>
    rw [segments, List.cons_append, renameFrom_plain (by decide), ih, Option.map_map]
    rfl
  | group inner rest ihInner ihRest =>
    rw [segments, List.cons_append, renameFrom_opening, List.append_assoc, ihInner, List.cons_append,
      renameFrom_closing, Nat.add_sub_cancel, ihRest, Option.map_map, Option.map_map, Option.map_map]
    refine congrArg (Option.map · _) (funext fun t => ?_)
    simp [text]

/-- What stands before a layer is kept when a name in the layer is renamed. -/
theorem findSome?_behind (front : Text) (spots : List Spot) :
    (spots.map (Spot.behind front)).findSome?
        (fun spot => (keyframes.find? spot.name).map spot.fill) =
      (spots.findSome? fun spot => (keyframes.find? spot.name).map spot.fill).map (front ++ ·) := by
  induction spots with
  | nil => rfl
  | cons spot spots ih =>
    rw [List.map_cons, List.findSome?_cons, List.findSome?_cons, ih]
    cases known : keyframes.find? spot.name with
    | none => simp [Spot.behind, known]
    | some new => simp [Spot.behind, Spot.fill, known]

/-- Renaming in a layer renames the first recorded name outside groups. -/
theorem renameFrom_segments (row : Row) :
    renameFrom keyframes 0 row.segments = row.renameFirst keyframes := by
  unfold renameFirst
  induction row with
  | nil => rfl
  | word name nonempty letters rest ih =>
    rw [segments, renameFrom_hit, ih, spots, List.findSome?_cons, findSome?_behind, spellAll_segments]
    cases known : keyframes.find? name with
    | none => simp [known, AnimationWord.name, AnimationWord.spell]
    | some new => simp [known, AnimationWord.name, AnimationWord.spell, AnimationWord.withName, Spot.fill]
  | string quote name isQuote inside rest ih =>
    rw [segments, renameFrom_hit, ih, spots, List.findSome?_cons, findSome?_behind, spellAll_segments]
    cases known : keyframes.find? name with
    | none => simp [known, AnimationWord.name, AnimationWord.spell]
    | some new => simp [known, AnimationWord.name, AnimationWord.spell, AnimationWord.withName, Spot.fill]
  | sign c known rest ih =>
    rw [segments, renameFrom_plain (inert_of_sign known), ih, spots, findSome?_behind]
    rfl
  | comma rest ih =>
    rw [segments, renameFrom_plain (by decide), ih, spots, findSome?_behind]
    rfl
  | group inner rest ihInner ihRest =>
    rw [segments, renameFrom_opening, renameFrom_inside, renameFrom_closing, ihRest, spots,
      findSome?_behind, Option.map_map, Option.map_map]
    refine congrArg (Option.map · _) (funext fun t => ?_)
    simp

/-- A spot is a place in its layer. -/
theorem fill_name_of_mem_spots {row : Row} {spot : Spot} (mem : spot ∈ row.spots) :
    spot.fill spot.name = row.text := by
  -- What stands before the rest of a row stands before its spots.
  have behind {front : Text} {rest : Row} (ih : ∀ spot ∈ rest.spots, spot.fill spot.name = rest.text)
      {spot : Spot} (mem : spot ∈ rest.spots.map (Spot.behind front)) :
      spot.fill spot.name = front ++ rest.text := by
    obtain ⟨later, there, rfl⟩ := List.mem_map.1 mem
    rw [← ih later there]
    simp [Spot.fill, Spot.behind]
  induction row generalizing spot with
  | nil => cases mem
  | word name nonempty letters rest ih =>
    rcases List.mem_cons.1 mem with rfl | later
    · rfl
    · exact behind (fun _ => ih) later
  | string quote name isQuote inside rest ih =>
    rcases List.mem_cons.1 mem with rfl | later
    · rfl
    · simpa [text] using behind (fun _ => ih) later
  | sign c known rest ih => exact behind (fun _ => ih) mem
  | comma rest ih => exact behind (fun _ => ih) mem
  | group inner rest _ ih => simpa [text] using behind (fun _ => ih) mem

/-- A layer in which no name is recorded is not renamed, and no other layer is left out. -/
theorem renameFirst_eq_none_iff {layer : Row} :
    layer.renameFirst keyframes = none ↔ ∀ spot ∈ layer.spots, keyframes.find? spot.name = none := by
  rw [renameFirst, List.findSome?_eq_none_iff]
  simp only [Option.map_eq_none_iff]

theorem renamed_eq_none_iff {row : Row} :
    row.renamed keyframes = none ↔
      ∀ layer ∈ row.layers, ∀ spot ∈ layer.spots, keyframes.find? spot.name = none := by
  have decided : row.renamed keyframes = none ↔
      ∀ layer ∈ row.layers, layer.renameFirst keyframes = none := by
    rw [renamed]
    split
    next some =>
      obtain ⟨layer, mem, here⟩ := List.any_eq_true.1 some
      refine iff_of_false nofun fun all => ?_
      rw [all layer mem] at here
      cases here
    next none =>
      rw [Bool.not_eq_true, List.any_eq_false] at none
      exact iff_of_true rfl fun layer mem => by simpa using none layer mem
  simp only [decided, renameFirst_eq_none_iff]

/-- **Renaming an animation** renames the first recorded name of each layer. -/
theorem rename_text {row : Row} (apart : row.Apart) :
    rename keyframes row.text = row.renamed keyframes := by
  have layer : ∀ layer ∈ row.layers,
      renameLayer keyframes layer.text = layer.renameFirst keyframes := by
    intro layer mem
    have scanned := scan_text ((row.of_mem_layers layer mem).2 apart) (t := []) nofun
    rw [List.append_nil, Recogniser.scan_nil, List.append_nil] at scanned
    rw [renameLayer, scanned, renameFrom_segments]
  have some? : (row.layers.map text).any (fun piece => (renameLayer keyframes piece).isSome) =
      row.layers.any fun layer => (layer.renameFirst keyframes).isSome := by
    rw [List.any_map, Bool.eq_iff_iff, List.any_eq_true, List.any_eq_true]
    refine exists_congr fun part => and_congr_right fun mem => ?_
    rw [Function.comp_apply, layer part mem]
  have pieces : (row.layers.map text).map (fun piece => (renameLayer keyframes piece).getD piece) =
      row.layers.map fun layer => (layer.renameFirst keyframes).getD layer.text := by
    rw [List.map_map]
    refine List.map_congr_left fun part mem => ?_
    rw [Function.comp_apply, layer part mem]
  rw [rename, CommaList.mapSome, split_text, some?, pieces, renamed]

end Row
end ScopedCss.Animation
