import ScopedCss.Declaration
import ScopedCss.Proofs.Rule.Rows
import ScopedCss.Proofs.Tree.Animations
import ScopedCss.Proofs.Tree.Families

/-!
# Declarations in a content

The content of a rule is a list of pieces with `;` between them, and a piece is a property with a
value, a property without one, or nothing but spaces.  A visitor that edits the content sees these
properties and values, in order, and nothing else (`editAll_shield`), although the strings in the
content are shielded.
-/
namespace ScopedCss

open Quoted Block

/-- A value: an animation, a list of families, one family, or anything else without structure. -/
inductive Value where
  | animation (value : AnimationValue)
  | families (list : FamilyList)
  | family (family : Family)
  | other (text : Text) (flat : Flat text)

namespace Value

/-- The characters of a value. -/
def text : Value → Text
  | animation value => value.text
  | families list => list.text
  | family own => own.text
  | other text _ => text

theorem flat_text (value : Value) : Flat value.text := by
  have declared : Text → Bool := fun _ => false
  cases value with
  | animation value => exact (@value.flat_text default declared).1
  | families list => exact (@list.flat_text default declared).1
  | family own => exact (@own.flat_text default declared).1
  | other text flat => exact flat

end Value

/-- A property, and what stands around its value. -/
structure Slot where
  lead : Spaces
  property : Text
  /-- The spaces before the colon. -/
  gap : Spaces
  /-- The spaces before the value. -/
  front : Spaces
  /-- The spaces behind the value. -/
  back : Spaces
  nonempty : property ≠ []
  first : ∀ c ∈ property.head?, Text.isSpace c = false
  last : ∀ c ∈ property.getLast?, Text.isSpace c = false
  plain : ∀ c ∈ property, Text.isQuote c = false ∧ c ∉ ['\\', ':', ';', '{', '}']

namespace Slot
variable (slot : Slot)

/-- The characters before the colon. -/
def head : Text := slot.lead.text ++ (slot.property ++ slot.gap.text)

/-- The characters of a slot around a value. -/
def around (value : Text) : Text :=
  slot.head ++ ':' :: (slot.front.text ++ (value ++ slot.back.text))

end Slot

/-- The slot of a property without spaces around it. -/
def Slot.ofName (name : Plain.Name) : Slot where
  lead := .none
  property := name.text
  gap := .none
  front := .none
  back := .none
  nonempty := name.nonempty
  first c mem := Plain.isSpace_of_isNameChar (name.plain c (List.mem_of_mem_head? mem))
  last c mem := Plain.isSpace_of_isNameChar (name.plain c (List.mem_of_getLast? mem))
  plain c mem := by
    have letter := name.plain c mem
    refine ⟨Plain.Attribute.isQuote_of_isNameChar letter, fun known => ?_⟩
    simp only [List.mem_cons, List.not_mem_nil, or_false] at known
    rcases known with rfl | rfl | rfl | rfl | rfl <;> cases letter

/-- A property with a value. -/
structure Assignment where
  slot : Slot
  value : Value
  nonempty : value.text ≠ []
  first : ∀ c ∈ value.text.head?, Text.isSpace c = false
  last : ∀ c ∈ value.text.getLast?, Text.isSpace c = false

/-- A piece of a rule's content. -/
inductive Piece where
  | blank (spaces : Spaces)
  /-- A property without a value. -/
  | unset (slot : Slot)
  | set (assignment : Assignment)

namespace Piece

/-- The characters of a piece with something in place of its value. -/
def textWith (new : Value → Text) : Piece → Text
  | blank spaces => spaces.text
  | unset slot => slot.around []
  | set assignment => assignment.slot.around (new assignment.value)

/-- The characters of a piece. -/
def text (piece : Piece) : Text := piece.textWith Value.text

end Piece

/-- The content of a rule, in which the values fit their properties. -/
structure Content (fits : Text → Value → Prop) where
  pieces : List Piece
  nonempty : pieces ≠ []
  fits : ∀ assignment, .set assignment ∈ pieces → fits assignment.slot.property assignment.value

namespace Content
variable {fits : Text → Value → Prop} (content : Content fits)

/-- The characters of a content with something in place of its values. -/
def textWith (new : Value → Text) : Text :=
  Text.joinWith [';'] (content.pieces.map (Piece.textWith new))

/-- The characters of a content. -/
def text : Text := content.textWith Value.text

end Content

/-! ### Spaces and the word in every mark -/

namespace Spaces
variable (s : Spaces)

theorem wordFree_append {t : Text} : WordFree (s.text ++ t) ↔ WordFree t := by
  obtain ⟨text, isSpace⟩ := s
  induction text with
  | nil => rfl
  | cons c text ih =>
    have foreign : c ∉ Mark.word := by
      intro word
      have solid := Mark.isSpace_of_mem_word word
      rw [isSpace c List.mem_cons_self] at solid
      cases solid
    have cut := wordFree_append_cons foreign (s := []) (t := text ++ t)
    rw [List.nil_append] at cut
    rw [List.cons_append, cut]
    exact (and_iff_right wordFree_nil).trans (ih fun d mem => isSpace d (List.mem_cons_of_mem c mem))

theorem append_wordFree {t : Text} : WordFree (t ++ s.text) ↔ WordFree t := by
  cases split : s.text with
  | nil => rw [List.append_nil]
  | cons c rest =>
    have space := s.isSpace c (split ▸ List.mem_cons_self)
    have foreign : c ∉ Mark.word := by
      intro word
      have solid := Mark.isSpace_of_mem_word word
      rw [space] at solid
      cases solid
    have spaces : WordFree rest := by
      have inside : ∀ d ∈ rest, Text.isSpace d := fun d mem =>
        s.isSpace d (split ▸ List.mem_cons_of_mem c mem)
      have whole := (Spaces.mk rest inside).wordFree_append (t := [])
      rw [List.append_nil] at whole
      exact whole.2 wordFree_nil
    exact (wordFree_append_cons foreign).trans (and_iff_left spaces)

end Spaces

/-! ### Pieces -/

namespace Declaration
variable {name : Text}

/-- A piece is cut at its first colon. -/
theorem ofPiece?_append_colon (plain : ':' ∉ name) (raw : Text) :
    ofPiece? (name ++ ':' :: raw) =
      if Text.trim name = [] ∨ Text.trim raw = [] then none
      else some ⟨Text.lower (Text.trim name), name ++ ':' :: Text.leading raw, Text.trim raw,
        Text.trailing raw⟩ := by
  have solid : ∀ c ∈ name, (c != ':') = true := by
    intro c mem
    rw [bne_iff_ne]
    rintro rfl
    exact plain mem
  have before : (name ++ ':' :: raw).takeWhile (· != ':') = name := by
    rw [List.takeWhile_append_of_pos solid]
    simp
  have behind : (name ++ ':' :: raw).dropWhile (· != ':') = ':' :: raw := by
    rw [List.dropWhile_append_of_pos solid]
    simp
  rw [ofPiece?, behind]
  simp [before, Text.lower]

/-- A declaration is cut around its value. -/
theorem ofPiece?_around (gap back : Spaces) (plain : ':' ∉ name) (named : Text.trim name ≠ [])
    {value : Text} (nonempty : value ≠ []) (first : ∀ c ∈ value.head?, Text.isSpace c = false)
    (last : ∀ c ∈ value.getLast?, Text.isSpace c = false) :
    ofPiece? (name ++ ':' :: (gap.text ++ (value ++ back.text))) = some
      ⟨Text.lower (Text.trim name), name ++ ':' :: gap.text, value, back.text⟩ := by
  have whole : Text.trim (gap.text ++ (value ++ back.text)) = value :=
    Text.trim_of_spaces gap.isSpace back.isSpace first last
  have leading : Text.leading (gap.text ++ (value ++ back.text)) = gap.text := by
    refine (Text.trimStart_of_spaces gap.isSpace ?_).1
    rwa [List.head?_append_of_ne_nil _ nonempty]
  have trailing : Text.trailing (gap.text ++ (value ++ back.text)) = back.text := by
    rw [← List.append_assoc]
    refine (Text.trimEnd_of_spaces back.isSpace ?_).2
    rwa [List.getLast?_append_of_ne_nil _ nonempty]
  rw [ofPiece?_append_colon plain, whole, leading, trailing, if_neg (by simp [named, nonempty])]

end Declaration

namespace Slot
variable (slot : Slot)

/-- What stands before the colon has nothing to shield, and the colon is the first. -/
theorem plain_head : ∀ c ∈ slot.head, Text.isQuote c = false ∧ c ∉ ['\\', ':', ';', '{', '}'] := by
  have spaces (s : Spaces) : ∀ c ∈ s.text, Text.isQuote c = false ∧ c ∉ ['\\', ':', ';', '{', '}'] := by
    intro c mem
    refine ⟨Text.isQuote_of_isSpace (s.isSpace c mem), fun known => ?_⟩
    have solid : ['\\', ':', ';', '{', '}'].all fun c => !Text.isSpace c := by decide
    have here := List.all_eq_true.1 solid c known
    rw [s.isSpace c mem] at here
    cases here
  intro c mem
  rcases List.mem_append.1 mem with mem | mem
  · exact spaces slot.lead c mem
  · exact (List.mem_append.1 mem).elim (slot.plain c) (spaces slot.gap c)

theorem flat_head : Flat (slot.head ++ [':']) ∧ shield (slot.head ++ [':']) = slot.head ++ [':'] := by
  have unquoted : ∀ c ∈ slot.head ++ [':'], Text.isQuote c = false := by
    intro c mem
    rcases List.mem_append.1 mem with mem | mem
    · exact (slot.plain_head c mem).1
    · exact List.mem_singleton.1 mem ▸ rfl
  have clean : '\\' ∉ slot.head ++ [':'] := by
    rw [List.mem_append, not_or]
    exact ⟨fun mem => (slot.plain_head '\\' mem).2 (by decide), by decide⟩
  refine ⟨flat_of_no_quote unquoted clean fun c mem => ?_, shield_of_no_quote unquoted clean⟩
  rcases List.mem_append.1 mem with mem | mem
  · have foreign := (slot.plain_head c mem).2
    by_contra structural
    rw [Bool.not_eq_false, Frame.isStructural_iff] at structural
    rcases structural with rfl | rfl | rfl <;> exact foreign (by decide)
  · exact List.mem_singleton.1 mem ▸ rfl

/-- A slot is flat around a flat value, which is all there is to shield. -/
theorem flat_around {value : Text} (flat : Flat value) :
    Flat (slot.around value) ∧ shield (slot.around value) = slot.around (shield value) := by
  obtain ⟨head, same⟩ := slot.flat_head
  have split (value : Text) : slot.around value =
      (slot.head ++ [':']) ++ (slot.front.text ++ (value ++ slot.back.text)) := by simp [around]
  rw [split, split]
  refine ⟨head.append (slot.front.flat.append (flat.append slot.back.flat)), ?_⟩
  rw [shield_append head.closed, shield_append slot.front.flat.closed, shield_append flat.closed,
    same, slot.front.shield_eq, slot.back.shield_eq]

/-- A value is as free of the word in every mark as what stands around it. -/
theorem wordFree_around {value : Text} : WordFree (slot.around value) ↔
    WordFree slot.head ∧ WordFree value := by
  rw [around, wordFree_append_cons (by decide), slot.front.wordFree_append,
    slot.back.append_wordFree]

theorem not_mem_head : ':' ∉ slot.head := fun mem => (slot.plain_head ':' mem).2 (by decide)

/-- The declaration in a piece is cut around the value. -/
theorem ofPiece_around {value : Text} (nonempty : value ≠ [])
    (first : ∀ c ∈ value.head?, Text.isSpace c = false)
    (last : ∀ c ∈ value.getLast?, Text.isSpace c = false) :
    Declaration.ofPiece? (slot.around value) = some
      ⟨Text.lower slot.property, slot.head ++ ':' :: slot.front.text, value, slot.back.text⟩ := by
  have property : Text.trim slot.head = slot.property :=
    Text.trim_of_spaces slot.lead.isSpace slot.gap.isSpace slot.first slot.last
  have cut := Declaration.ofPiece?_around slot.front slot.back slot.not_mem_head (property ▸ slot.nonempty)
    nonempty first last
  rwa [property] at cut

/-- A property without a value makes no declaration. -/
theorem ofPiece_around_nil : Declaration.ofPiece? (slot.around []) = none := by
  have blank : Text.trim (slot.front.text ++ ([] ++ slot.back.text)) = [] :=
    Text.trim_of_spaces slot.front.isSpace slot.back.isSpace (by simp) (by simp)
  rw [around, Declaration.ofPiece?_append_colon slot.not_mem_head, if_pos (.inr blank)]

end Slot

namespace Piece
variable {m : Type → Type} [Monad m]

/-- A piece, shielded, with what a visitor answers in place of its value. -/
def edit (visit : Text → Text → m (Option Text)) : Piece → m Text
  | blank spaces => return spaces.text
  | unset slot => return slot.around []
  | set assignment => do
    match ← visit (Text.lower assignment.slot.property) assignment.value.text with
    | none => return assignment.slot.around (shield assignment.value.text)
    | some new => return assignment.slot.around new

/-- A piece is flat if what stands in place of its value is, and otherwise not shielded. -/
theorem flat_textWith {new : Value → Text} (flat : ∀ value, Flat (new value)) (piece : Piece) :
    Flat (piece.textWith new) ∧
      shield (piece.textWith new) = piece.textWith fun value => shield (new value) := by
  cases piece with
  | blank spaces => exact ⟨spaces.flat, spaces.shield_eq⟩
  | unset slot => exact slot.flat_around .nil
  | set assignment => exact assignment.slot.flat_around (flat assignment.value)

/-- A visitor of a shielded piece sees its property and its value. -/
theorem editPiece_shield (visit : Text → Text → m (Option Text)) {piece : Piece}
    (free : WordFree piece.text) :
    Declaration.editPiece visit (shield piece.text) = piece.edit visit := by
  rw [text, (piece.flat_textWith Value.flat_text).2]
  cases piece with
  | blank spaces =>
    have none : spaces.text.dropWhile (· != ':') = [] := List.dropWhile_eq_nil_iff.2 fun c mem => by
      rw [bne_iff_ne]
      rintro rfl
      exact spaces.not_mem rfl mem
    rw [textWith, Declaration.editPiece, Declaration.ofPiece?, none]
    rfl
  | unset slot =>
    rw [textWith, Declaration.editPiece, slot.ofPiece_around_nil]
    rfl
  | set assignment =>
    obtain ⟨first, last⟩ := ends_shield assignment.value.flat_text.closed
    have nonempty : shield assignment.value.text ≠ [] := by
      intro empty
      rw [empty] at first
      exact assignment.nonempty (List.head?_eq_none_iff.1 first.symm)
    have own : WordFree assignment.value.text := (assignment.slot.wordFree_around.1 free).2
    rw [textWith, Declaration.editPiece, assignment.slot.ofPiece_around nonempty
      (first ▸ assignment.first) (last ▸ assignment.last)]
    simp only [unshield_shield own, edit]
    refine bind_congr fun answer => ?_
    cases answer <;> simp [Slot.around]

end Piece

/-! ### Contents -/

/-- Flat pieces with `;` between them are balanced, and shielded one by one. -/
theorem shield_pieces {pieces : List Text} (flat : ∀ piece ∈ pieces, Flat piece) :
    Balanced (Text.joinWith [';'] pieces) ∧
      shield (Text.joinWith [';'] pieces) = Text.joinWith [';'] (pieces.map shield) := by
  induction pieces with
  | nil => exact ⟨.nil, rfl⟩
  | cons piece pieces ih =>
    have first := flat piece List.mem_cons_self
    cases pieces with
    | nil => simpa [Text.joinWith] using Balanced.of_flat first
    | cons next pieces =>
      obtain ⟨balanced, same⟩ := ih fun p mem => flat p (List.mem_cons_of_mem piece mem)
      have semicolon : Balanced [';'] := ⟨(Row.flat_singleton rfl (by decide)).1, rfl⟩
      have behind := shield_append semicolon.closed (Text.joinWith [';'] (next :: pieces))
      rw [Text.joinWith_cons_cons, List.map_cons, List.map_cons, Text.joinWith_cons_cons,
        ← List.map_cons, ← same, shield_append first.closed]
      refine ⟨(Balanced.of_flat first).append (semicolon.append balanced), ?_⟩
      exact congrArg (shield piece ++ ·) behind

/-- Pieces with `;` between them are unshielded one by one. -/
theorem unshield_pieces (pieces : List Text) :
    unshield (Text.joinWith [';'] pieces) = Text.joinWith [';'] (pieces.map unshield) := by
  induction pieces with
  | nil => rfl
  | cons piece pieces ih =>
    cases pieces with
    | nil => simp [Text.joinWith]
    | cons next pieces =>
      rw [List.map_cons, List.map_cons, Text.joinWith_cons_cons, Text.joinWith_cons_cons,
        ← List.map_cons, ← ih, unshield_append_cons rfl]

namespace Content
variable {fits : Text → Value → Prop} (content : Content fits)

theorem flat_pieces {new : Value → Text} (flat : ∀ value, Flat (new value)) :
    ∀ piece ∈ content.pieces.map (Piece.textWith new), Flat piece := by
  intro text mem
  obtain ⟨piece, -, rfl⟩ := List.mem_map.1 mem
  exact (piece.flat_textWith flat).1

/-- A content is balanced if what stands in place of its values is flat. -/
theorem balanced_textWith {new : Value → Text} (flat : ∀ value, Flat (new value)) :
    Balanced (content.textWith new) :=
  (shield_pieces (content.flat_pieces flat)).1

/-- The pieces of a content are free of the word in every mark if the content is. -/
theorem wordFree_piece (free : WordFree content.text) {piece : Piece}
    (mem : piece ∈ content.pieces) : WordFree piece.text :=
  (wordFree_joinWith (by decide)).1 free _ (List.mem_map_of_mem mem)

/-- **A visitor of a shielded content** sees its properties and values, in order. -/
theorem editAll_shield {m : Type → Type} [Monad m] [LawfulMonad m]
    (visit : Text → Text → m (Option Text)) (free : WordFree content.text) :
    Declaration.editAll visit (shield content.text) =
      Text.joinWith [';'] <$> content.pieces.mapM (Piece.edit visit) := by
  have flat := content.flat_pieces Value.flat_text
  have split : (shield content.text).splitOn ';' =
      content.pieces.map fun piece => shield piece.text := by
    rw [text, textWith, (shield_pieces flat).2, List.map_map]
    refine List.splitOn_intercalate ';' (fun text mem inside => ?_) (by simp [content.nonempty])
    obtain ⟨piece, there, rfl⟩ := List.mem_map.1 mem
    have plain := (flat _ (List.mem_map_of_mem there)).plain ';' inside
    cases plain
  have visited : ∀ pieces ⊆ content.pieces,
      pieces.mapM (fun piece => Declaration.editPiece visit (shield piece.text)) =
        pieces.mapM (Piece.edit visit) := by
    intro pieces
    induction pieces with
    | nil => exact fun _ => rfl
    | cons piece pieces ih =>
      intro all
      obtain ⟨here, later⟩ := List.cons_subset.1 all
      rw [List.mapM_cons, List.mapM_cons, ih later,
        Piece.editPiece_shield visit (content.wordFree_piece free here)]
  rw [Declaration.editAll, split, List.mapM_map, bind_pure_comp]
  exact congrArg _ (visited _ (List.Subset.refl _))

end Content

end ScopedCss
