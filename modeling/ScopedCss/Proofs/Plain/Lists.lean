import Mathlib.Data.List.DropRight
import ScopedCss.Proofs.Plain.Renaming
import ScopedCss.Proofs.Selector.Lists

/-!
# Scoping plain selector lists

What becomes of a plain list is a matter of its items (`scopeList_plain`).  The list is cut at the
commas outside functions, and its pieces are trimmed; both can be done on the items as well as on
their text, and what is left of a piece keeps to itself, so that the list is scoped part by part.
-/
namespace ScopedCss

namespace Plain
variable {scheme : Scheme}

/-! ### Normalising -/

namespace Item

theorem startsCompound_normal (item : Item) : item.normal.startsCompound = item.startsCompound := by
  cases item <;> rfl

theorem endsCompound_normal (item : Item) : item.normal.endsCompound = item.endsCompound := by
  cases item <;> rfl

/-- Of an attribute selector only the operator is normalised. -/
theorem named_normal (a : Attribute) :
    (a.normal.named?).map (fun named => (named.onId, named.value)) =
      (a.named?).map fun named => (named.onId, named.value) := by
  unfold Attribute.normal
  split
  next named =>
    rw [Attribute.named?, Attribute.named?]
    cases a.comparison with
    | none => rfl
    | some c => simp [named]
  next => rfl

theorem record_normal (item : Item) : item.normal.record? scheme = item.record? scheme := by
  cases item with
  | attr a =>
    have same := named_normal a
    rw [normal, record?, record?]
    cases first : a.normal.named? with
    | none =>
      rw [first, Option.map_none] at same
      rw [Option.map_eq_none_iff.1 same.symm]
    | some b =>
      rw [first, Option.map_some] at same
      obtain ⟨named, second, same⟩ := Option.map_eq_some_iff.1 same.symm
      obtain ⟨onId, value⟩ := Prod.mk.inj same
      rw [second]
      simp only [onId, value]
  | _ => rfl

theorem image_normal (item : Item) : item.normal.image scheme = item.scopedText scheme := by
  rw [image, record_normal]
  rfl

end Item

theorem normalise_render_append (items : List Item) (t : Text) :
    NamedAttribute.normalise (render items ++ t) =
      render (items.map Item.normal) ++ NamedAttribute.normalise t := by
  induction items with
  | nil => rfl
  | cons item items ih =>
    have first : NamedAttribute.normalise (item.text ++ (render items ++ t)) =
        item.normal.text ++ NamedAttribute.normalise (render items ++ t) := by
      cases item with
      | attr a => exact a.normalise_text _
      | _ => exact NamedAttribute.normalise_append_of_no_bracket (Item.no_bracket _ (by simp)) _
    rw [render, List.flatMap_cons, List.append_assoc, ← render, first, ih]
    simp [render]

/-- Normalising a plain list is normalising its items. -/
theorem normalise_render (items : List Item) :
    NamedAttribute.normalise (render items) = render (items.map Item.normal) := by
  have whole := normalise_render_append items []
  rwa [List.append_nil, show NamedAttribute.normalise [] = [] from rfl, List.append_nil] at whole

theorem isChain_normal {items : List Item}
    (compounds : items.IsChain fun item next => next.startsCompound → item.endsCompound) :
    (items.map Item.normal).IsChain fun item next => next.startsCompound → item.endsCompound := by
  rw [List.isChain_map]
  simpa only [Item.startsCompound_normal, Item.endsCompound_normal] using compounds

/-! ### Pieces -/

open CommaList

/-- An item other than a comma belongs to a piece. -/
theorem splitFrom_text {item : Item} (other : item ≠ .comma) (n : Int) :
    ∃ m, ∀ t, splitFrom n (item.text ++ t) =
      (item.text ++ (splitFrom m t).1, (splitFrom m t).2) := by
  have inert {s : Text} (h : ∀ c ∈ s, c ≠ ',' ∧ c ≠ '(' ∧ c ≠ ')') :
      ∃ m, ∀ t, splitFrom n (s ++ t) = (s ++ (splitFrom m t).1, (splitFrom m t).2) :=
    ⟨n, splitFrom_append_of_inert h n⟩
  have basic (basic : item.isBasic) (signs : ',' ∉ item.signs ∧ '(' ∉ item.signs ∧ ')' ∉ item.signs) :
      ∃ m, ∀ t, splitFrom n (item.text ++ t) =
        (item.text ++ (splitFrom m t).1, (splitFrom m t).2) := by
    refine inert fun c mem => ?_
    rcases Item.mem_text basic mem with letter | sign
    · exact ⟨ne_of_isNameChar letter rfl, ne_of_isNameChar letter rfl, ne_of_isNameChar letter rfl⟩
    · refine ⟨?_, ?_, ?_⟩ <;> rintro rfl
      · exact signs.1 sign
      · exact signs.2.1 sign
      · exact signs.2.2 sign
  cases item with
  | function name selectors =>
    have front : ∀ c ∈ ':' :: name.text, c ≠ ',' ∧ c ≠ '(' ∧ c ≠ ')' := by
      intro c mem
      rcases List.mem_cons.1 mem with rfl | mem
      · decide
      · have letter := name.plain c mem
        exact ⟨ne_of_isNameChar letter rfl, ne_of_isNameChar letter rfl,
          ne_of_isNameChar letter rfl⟩
    refine ⟨n + 1, fun t => ?_⟩
    have opens := splitFrom_cons n '(' t
    have whole := splitFrom_append_of_inert front n ('(' :: t)
    rw [opens] at whole
    simpa [Item.text, level] using whole
  | close => exact ⟨n - 1, fun t => splitFrom_cons n ')' t⟩
  | attr a =>
    refine inert fun c mem => ?_
    rw [Item.text, a.text_eq] at mem
    simp only [List.mem_cons, List.mem_append, List.not_mem_nil, or_false] at mem
    rcases mem with rfl | mem | rfl
    · decide
    · have known := a.not_outer_of_mem_inside mem
      refine ⟨?_, ?_, ?_⟩ <;> rintro rfl <;> exact known (by decide)
    · decide
  | space c blank =>
    refine basic rfl ⟨?_, ?_, ?_⟩ <;> intro sign <;> cases List.mem_singleton.1 sign <;>
      exact absurd blank (by decide)
  | combinator c known =>
    refine basic rfl ⟨?_, ?_, ?_⟩ <;> intro sign <;> cases List.mem_singleton.1 sign <;>
      exact absurd known (by decide)
  | comma => exact absurd rfl other
  | comment =>
    have plain : Mark.comment.all (fun c => c != ',' && (c != '(' && c != ')')) := by decide
    exact inert fun c mem => by simpa using List.all_eq_true.1 plain c mem
  | type name letters => exact basic rfl (by simp [Item.signs])
  | universal => exact basic rfl (by simp [Item.signs])
  | ofClass name => exact basic rfl (by simp [Item.signs])
  | ofId name => exact basic rfl (by simp [Item.signs])
  | pseudo element name => exact basic rfl (by simp [Item.signs])

theorem splitFrom_render (items : List Item) (n : Int) :
    ∃ (first : List Item) (rest : List (List Item)),
      items = first ++ rest.flatMap (Item.comma :: ·) ∧
      splitFrom n (render items) = (render first, rest.map render) := by
  induction items generalizing n with
  | nil => exact ⟨[], [], rfl, rfl⟩
  | cons item items ih =>
    by_cases other : item = .comma
    · subst other
      obtain ⟨first, rest, rfl, cut⟩ := ih n
      have step : splitFrom n (render (.comma :: (first ++ rest.flatMap (Item.comma :: ·)))) =
          if ',' = ',' ∧ n = 0 then ([], render first :: rest.map render)
          else (',' :: render first, rest.map render) := by
        have cons := splitFrom_cons n ',' (render (first ++ rest.flatMap (Item.comma :: ·)))
        have same : level n ',' = n := rfl
        rwa [same, cut] at cons
      rw [step]
      by_cases zero : n = 0
      · refine ⟨[], first :: rest, rfl, ?_⟩
        rw [if_pos ⟨rfl, zero⟩]
        rfl
      · refine ⟨.comma :: first, rest, rfl, ?_⟩
        rw [if_neg fun both => zero both.2]
        rfl
    · obtain ⟨m, step⟩ := splitFrom_text other n
      obtain ⟨first, rest, rfl, cut⟩ := ih m
      refine ⟨item :: first, rest, rfl, ?_⟩
      rw [render, List.flatMap_cons, ← render, step, cut]
      rfl

/-! ### The spaces around a piece -/

namespace Item

/-- Whether an item is a space. -/
def isBlank : Item → Bool
  | space _ _ => true
  | _ => false

theorem isSpace_of_blank {c : Char} (blank : c ∈ blanks) : Text.isSpace c := by
  simp only [blanks, List.mem_cons, List.not_mem_nil, or_false] at blank
  rcases blank with rfl | rfl | rfl | rfl | rfl | rfl <;> rfl

theorem mem_blanks_of_isBlank {item : Item} (h : item.isBlank) {c : Char} (mem : c ∈ item.text) :
    c ∈ blanks := by
  cases item with
  | space d blank =>
    cases List.mem_singleton.1 mem
    exact blank
  | _ => cases h

theorem text_ne_nil (item : Item) : item.text ≠ [] := by
  cases item with
  | type name letters =>
    rintro rfl
    cases letters
  | _ => exact List.cons_ne_nil _ _

/-- An item that is no space neither starts nor ends with one. -/
theorem solid_ends {item : Item} (h : item.isBlank = false) :
    (∀ c ∈ item.text.head?, Text.isSpace c = false) ∧
      ∀ c ∈ item.text.getLast?, Text.isSpace c = false := by
  have basic (basic : item.isBasic) (solid : ∀ c ∈ item.signs, Text.isSpace c = false) :
      ∀ c ∈ item.text, Text.isSpace c = false := by
    intro c mem
    rcases mem_text basic mem with letter | sign
    · exact isSpace_of_isNameChar letter
    · exact solid c sign
  have both (all : ∀ c ∈ item.text, Text.isSpace c = false) :
      (∀ c ∈ item.text.head?, Text.isSpace c = false) ∧
        ∀ c ∈ item.text.getLast?, Text.isSpace c = false :=
    ⟨fun c first => all c (List.mem_of_mem_head? first),
      fun c last => all c (List.mem_of_mem_getLast? last)⟩
  cases item with
  | attr a =>
    constructor
    · intro c first
      cases first
      rfl
    · intro c last
      rw [text, a.text_eq, ← List.cons_append, List.getLast?_append] at last
      cases last
      rfl
  | comment => exact ⟨fun c first => by cases first; rfl, fun c last => by cases last; rfl⟩
  | space c blank => cases h
  | combinator c known =>
    refine both (basic rfl fun d mem => ?_)
    cases List.mem_singleton.1 mem
    simp only [List.mem_cons, List.not_mem_nil, or_false] at known
    rcases known with rfl | rfl | rfl <;> rfl
  | _ => exact both (basic rfl (by simp [signs, Text.isSpace]))

end Item

theorem mem_blanks_of_mem_render {items : List Item} (spaces : ∀ i ∈ items, i.isBlank) {c : Char}
    (mem : c ∈ render items) : c ∈ blanks := by
  obtain ⟨i, there, mem⟩ := List.mem_flatMap.1 mem
  exact Item.mem_blanks_of_isBlank (spaces i there) mem

/-- The spaces around a piece are spaces of its items. -/
theorem exists_surround (items : List Item) :
    ∃ lead middle trail, items = lead ++ (middle ++ trail) ∧
      (∀ i ∈ lead, i.isBlank) ∧ (∀ i ∈ trail, i.isBlank) ∧
      Text.leading (render items) = render lead ∧
      Text.trim (render items) = render middle ∧
      Text.trailing (Text.trimStart (render items)) = render trail := by
  obtain ⟨lead, rest, split, blank, solid⟩ : ∃ lead rest, items = lead ++ rest ∧
      (∀ i ∈ lead, i.isBlank) ∧ ∀ i ∈ rest.head?, i.isBlank = false := by
    refine ⟨items.takeWhile Item.isBlank, items.dropWhile Item.isBlank,
      List.takeWhile_append_dropWhile.symm, fun i mem => List.mem_takeWhile_imp mem, ?_⟩
    intro i first
    have stops := List.head?_dropWhile_not Item.isBlank items
    rw [Option.mem_def.1 first] at stops
    simpa using stops
  obtain ⟨middle, trail, split', blank', solid'⟩ : ∃ middle trail, rest = middle ++ trail ∧
      (∀ i ∈ trail, i.isBlank) ∧ ∀ i ∈ middle.getLast?, i.isBlank = false := by
    refine ⟨rest.rdropWhile Item.isBlank, rest.rtakeWhile Item.isBlank, ?_,
      fun i mem => List.mem_rtakeWhile_imp mem, ?_⟩
    · rw [List.rdropWhile, List.rtakeWhile, ← List.reverse_append,
        List.takeWhile_append_dropWhile, List.reverse_reverse]
    · intro i last
      rw [List.rdropWhile, List.getLast?_reverse] at last
      have stops := List.head?_dropWhile_not Item.isBlank rest.reverse
      rw [Option.mem_def.1 last] at stops
      simpa using stops
  have front : ∀ c ∈ (render rest).head?, Text.isSpace c = false := by
    cases rest with
    | nil => exact fun c first => by cases first
    | cons i rest =>
      intro c first
      rw [render, List.flatMap_cons, List.head?_append_of_ne_nil _ i.text_ne_nil] at first
      exact (Item.solid_ends (solid i rfl)).1 c first
  have back : ∀ c ∈ (render middle).getLast?, Text.isSpace c = false := by
    rcases List.eq_nil_or_concat middle with rfl | ⟨middle', i, rfl⟩
    · exact fun c last => by cases last
    · intro c last
      rw [List.concat_eq_append] at last solid'
      rw [render, List.flatMap_append, List.flatMap_singleton,
        List.getLast?_append_of_ne_nil _ i.text_ne_nil] at last
      exact (Item.solid_ends (solid' i (by simp))).2 c last
  have spaces {items : List Item} (blank : ∀ i ∈ items, i.isBlank) :
      ∀ c ∈ render items, Text.isSpace c :=
    fun c mem => Item.isSpace_of_blank (mem_blanks_of_mem_render blank mem)
  have whole : render items = render lead ++ render rest := by simp [split, render]
  have whole' : render rest = render middle ++ render trail := by simp [split', render]
  obtain ⟨leading, trimStart⟩ := Text.trimStart_of_spaces (spaces blank) front
  obtain ⟨trimEnd, trailing⟩ := Text.trimEnd_of_spaces (spaces blank') back
  refine ⟨lead, middle, trail, by rw [split, split'], blank, blank', ?_, ?_, ?_⟩
  · rw [whole, leading]
  · rw [whole, Text.trim, trimStart, whole', trimEnd]
  · rw [whole, trimStart, whole', trailing]

/-! ### Every piece is scoped by itself -/

open Selector

/-- The part of a piece keeps to itself, and its items become their images. -/
theorem part_keepTo (scheme : Scheme) {items : List Item} {outer : Option Char} {after : Text}
    (compounds : items.IsChain fun item next => next.startsCompound → item.endsCompound)
    (opens : Place.OpensCompound outer) (closes : Closes after)
    (foreign : ∀ c ∈ after.head?, c ∉ Mark.comment) :
    KeepTo scheme outer after (tokens (NamedAttribute.normalise (render items)))
        (Cursor.start (NamedAttribute.normalise (render items))) ∧
      imageOf scheme (render items) = items.flatMap (Item.scopedText scheme) := by
  have own := tokens_render (isChain_normal compounds)
  rw [← normalise_render] at own
  have stands : StandsBefore scheme outer [] (items.map Item.normal)
      (Cursor.start (NamedAttribute.normalise (render items))) :=
    ⟨nofun, normalise_render items, fun _ _ _ => opens⟩
  obtain ⟨keep, image⟩ := run_items (isChain_normal compounds) stands closes foreign
    fun token mem renamed => isSought_of_mem_tokens (own.symm ▸ mem) renamed
  rw [← own] at keep image
  refine ⟨keep, ?_⟩
  rw [imageOf, image, List.flatMap_map]
  simp only [Item.image_normal]
  rfl

theorem closes_of_blank {c : Char} (blank : c ∈ blanks) :
    Text.isNameChar c = false ∧ Text.isWordChar c = false ∧ c ≠ '(' := by
  simp only [blanks, List.mem_cons, List.not_mem_nil, or_false] at blank
  rcases blank with rfl | rfl | rfl | rfl | rfl | rfl <;> decide

/-- A piece becomes the scoped forms of its items. -/
theorem replaced_render {items : List Item}
    (compounds : items.IsChain fun item next => next.startsCompound → item.endsCompound) :
    replaced scheme (render items) = items.flatMap (Item.scopedText scheme) := by
  obtain ⟨lead, middle, trail, rfl, blank, blank', leading, trim, trailing⟩ := exists_surround items
  have spaces {items : List Item} (blank : ∀ i ∈ items, i.isBlank) :
      items.flatMap (Item.scopedText scheme) = render items := by
    refine List.flatMap_congr fun i mem => ?_
    have space := blank i mem
    cases i <;> first | rfl | cases space
  have alone : Place.OpensCompound none := fun c mem => by cases mem
  obtain ⟨-, image⟩ := part_keepTo scheme compounds.right_of_append.left_of_append alone closes_nil
    fun c mem => by cases mem
  rw [replaced, between, leading, trim, trailing, image, List.flatMap_append, List.flatMap_append,
    spaces blank, spaces blank']

/-- The tokens of a piece keep to it. -/
theorem partKeepsTo_render {items : List Item} (earlier later : List Text)
    (compounds : items.IsChain fun item next => next.startsCompound → item.endsCompound) :
    PartKeepsTo scheme earlier (render items) later := by
  have foreign := foreign_of_endsPiece (endsPiece_textBehind (render items) later)
  obtain ⟨lead, middle, trail, rfl, blank, blank', leading, trim, trailing⟩ := exists_surround items
  have opens : Place.OpensCompound
      (textBefore earlier (render (lead ++ (middle ++ trail)))).getLast? := by
    intro c last
    rw [textBefore, leading, List.getLast?_append] at last
    rcases Option.or_eq_some_iff.1 last with space | ⟨-, comma⟩
    · have space := mem_blanks_of_mem_render blank (List.mem_of_mem_getLast? space)
      refine ⟨?_, (closes_of_blank space).1⟩
      simp only [blanks, List.mem_cons, List.not_mem_nil, or_false] at space
      rcases space with rfl | rfl | rfl | rfl | rfl | rfl <;> decide
    · rcases List.eq_nil_or_concat earlier with rfl | ⟨front, piece, rfl⟩
      · cases comma
      · rw [List.concat_eq_append, List.flatMap_append, List.flatMap_singleton,
          ← List.append_assoc, List.getLast?_append] at comma
        cases comma
        decide
  have closes : Closes (textBehind (render (lead ++ (middle ++ trail))) later) := by
    intro c first
    rw [textBehind, trailing] at first
    rcases Option.or_eq_some_iff.1 (List.head?_append.symm.trans first) with space | ⟨-, comma⟩
    · exact closes_of_blank (mem_blanks_of_mem_render blank' (List.mem_of_mem_head? space))
    · cases later with
      | nil => cases comma
      | cons piece later =>
        cases comma
        decide
  rw [PartKeepsTo, trim]
  exact (part_keepTo scheme compounds.right_of_append.left_of_append opens closes foreign).1

/-! ### What a list is noted for -/

/-- The ledger has the names of items, in order, and nothing to warn of. -/
structure Notes (scheme : Scheme) (items : List Item) (before after : Ledger) : Prop where
  warnings : after.warnings = before.warnings
  mapping : after.mapping = (items.filterMap (Item.record? scheme)).foldl
    (fun mapping (category, name, scopedName) => mapping.insert category name scopedName)
    before.mapping

theorem Notes.refl (ledger : Ledger) : Notes scheme [] ledger ledger := ⟨rfl, rfl⟩

theorem Notes.append {items items' : List Item} {first second third : Ledger}
    (h : Notes scheme items first second) (h' : Notes scheme items' second third) :
    Notes scheme (items ++ items') first third where
  warnings := h'.warnings.trans h.warnings
  mapping := by rw [List.filterMap_append, List.foldl_append, ← h.mapping, h'.mapping]

/-- An item without a record has nothing to note. -/
theorem Notes.of_record_none {item : Item} (none : item.record? scheme = none) (ledger : Ledger) :
    Notes scheme [item] ledger ledger where
  warnings := rfl
  mapping := by simp [none]

theorem notes_token (fixed : scheme.Fixed) (part : Text) (item : Item) (ledger : Ledger) :
    Notes scheme [item] ledger (item.token?.toList.foldl (Ledger.note scheme part) ledger) := by
  cases own : item.token? with
  | none => exact .of_record_none (by rw [Item.record_eq, own]; rfl) ledger
  | some token =>
    have known (text : Text) : token ≠ .unknown text := by
      rintro rfl
      cases item with
      | attr a =>
        obtain ⟨named, -, value⟩ := Option.bind_eq_some_iff.1 own
        rw [NamedAttribute.token?] at value
        split at value <;> cases value
      | _ => cases own
    rw [Option.toList_some, List.foldl_cons, List.foldl_nil, Ledger.note_of_known scheme part _ known,
      Token.renaming?_of_fixed fixed ledger.asterisks]
    cases renamed : token.renaming? scheme 0 with
    | none => exact .of_record_none (by rw [Item.record_eq, own, Option.bind_some, renamed]; rfl) ledger
    | some r =>
      have record := Item.record_of_renaming own renamed
      refine ⟨ledger.warnings_rename token r, ?_⟩
      simp [record, ledger.mapping_rename token r]

theorem notes_tokens (fixed : scheme.Fixed) (part : Text) (items : List Item) (ledger : Ledger) :
    Notes scheme items ledger
      ((items.filterMap Item.token?).foldl (Ledger.note scheme part) ledger) := by
  induction items generalizing ledger with
  | nil => exact .refl ledger
  | cons item items ih =>
    have collect : (item :: items).filterMap Item.token? =
        item.token?.toList ++ items.filterMap Item.token? := by
      cases h : item.token? <;> simp [h]
    rw [collect, List.foldl_append]
    exact (notes_token fixed part item ledger).append (ih _)

theorem Notes.of_blank {items : List Item} (blank : ∀ i ∈ items, i.isBlank) (ledger : Ledger) :
    Notes scheme items ledger ledger := by
  have none : items.filterMap (Item.record? scheme) = [] := by
    rw [List.filterMap_eq_nil_iff]
    intro i mem
    have space := blank i mem
    cases i <;> first | rfl | cases space
  exact ⟨rfl, by rw [none]; rfl⟩

/-- Noting the part of a piece is noting its items. -/
theorem notes_part (fixed : scheme.Fixed) {items : List Item}
    (compounds : items.IsChain fun item next => next.startsCompound → item.endsCompound)
    (ledger : Ledger) :
    Notes scheme items ledger ((partsOf [render items]).foldl (notePart scheme) ledger) := by
  obtain ⟨lead, middle, trail, rfl, blank, blank', -, trim, -⟩ := exists_surround items
  have inner : Notes scheme middle ledger
      ((partsOf [render (lead ++ (middle ++ trail))]).foldl (notePart scheme) ledger) := by
    by_cases empty : render middle = []
    · have none : middle = [] := by
        cases middle with
        | nil => rfl
        | cons i middle => exact absurd (List.append_eq_nil_iff.1 empty).1 i.text_ne_nil
      rw [partsOf_of_blank (trim.trans empty), none]
      exact .refl ledger
    · have own := tokens_render (isChain_normal compounds.right_of_append.left_of_append)
      rw [← normalise_render] at own
      have notes := notes_tokens fixed (NamedAttribute.normalise (render middle))
        (middle.map Item.normal) ledger
      rw [partsOf_of_part (trim.symm ▸ empty), trim, List.foldl_cons, List.foldl_nil, notePart, own]
      refine ⟨notes.warnings, notes.mapping.trans ?_⟩
      rw [List.filterMap_map]
      simp only [Function.comp_def, Item.record_normal]
  exact (Notes.of_blank blank ledger).append (inner.append (Notes.of_blank blank' _))

theorem partsOf_cons (piece : Text) (pieces : List Text) :
    partsOf (piece :: pieces) = partsOf [piece] ++ partsOf pieces := partsOf_append [piece] pieces

/-- Noting the parts of pieces is noting the items of the pieces. -/
theorem notes_parts (fixed : scheme.Fixed) {pieces : List (List Item)}
    (compounds : ∀ items ∈ pieces,
      items.IsChain fun item next => next.startsCompound → item.endsCompound)
    (ledger : Ledger) :
    Notes scheme (pieces.flatMap (Item.comma :: ·)) ledger
      ((partsOf (pieces.map render)).foldl (notePart scheme) ledger) := by
  induction pieces generalizing ledger with
  | nil => exact .refl ledger
  | cons items pieces ih =>
    have later := ih fun piece mem => compounds piece (List.mem_cons_of_mem items mem)
    rw [List.map_cons, partsOf_cons, List.foldl_append, List.flatMap_cons]
    have comma : Notes scheme [.comma] ledger ledger := .of_record_none rfl ledger
    exact (comma.append (notes_part fixed (compounds items List.mem_cons_self) ledger)).append
      (later _)

end Plain

open Plain Selector CommaList

/-- The pieces of a list are lists of their own. -/
theorem PlainList.pieces (list : PlainList) :
    ∃ (first : List Item) (rest : List (List Item)),
      list.items = first ++ rest.flatMap (Item.comma :: ·) ∧
      split list.text = (first :: rest).map render ∧
      ∀ items ∈ first :: rest,
        items.IsChain fun item next => next.startsCompound → item.endsCompound := by
  obtain ⟨first, rest, whole, cut⟩ := splitFrom_render list.items 0
  refine ⟨first, rest, whole, by rw [split, PlainList.text, cut]; rfl, ?_⟩
  have compounds := list.compounds
  rw [whole] at compounds
  intro items mem
  rcases List.mem_cons.1 mem with rfl | mem
  · exact compounds.left_of_append
  · have inside : Item.comma :: items <:+: rest.flatMap (Item.comma :: ·) :=
      List.infix_of_mem_flatten (List.mem_map_of_mem mem)
    have chain := List.IsChain.infix compounds.right_of_append inside
    exact chain.tail

/-- **Plain selector lists are scoped item by item.**  The list becomes the scoped forms of its
items, without warnings, and the names of the items that are scoped are recorded in order. -/
theorem scopeList_plain (switches : Switches) (asterisk : Text) (elementName scope : Text → Text)
    (list : PlainList) (ledger : Ledger) :
    ∃ result, scopeList ⟨switches, .literal asterisk, elementName, scope⟩ list.text ledger =
        .ok (result, list.items.flatMap
          (Item.scopedText ⟨switches, .literal asterisk, elementName, scope⟩)) ∧
      result.warnings = ledger.warnings ∧
      result.mapping =
        (list.items.filterMap
          (Item.record? ⟨switches, .literal asterisk, elementName, scope⟩)).foldl
          (fun mapping (category, name, scopedName) => mapping.insert category name scopedName)
          ledger.mapping := by
  have fixed : Scheme.Fixed ⟨switches, .literal asterisk, elementName, scope⟩ := ⟨asterisk, rfl⟩
  generalize (⟨switches, .literal asterisk, elementName, scope⟩ : Scheme) = scheme at fixed
  obtain ⟨first, rest, whole, cut, compounds⟩ := list.pieces
  have keep : PartsKeepTo scheme list.text := by
    intro earlier piece later found
    rw [cut] at found
    obtain ⟨items, there, rfl⟩ := List.mem_map.1 (show piece ∈ (first :: rest).map render by
      rw [found]; simp)
    exact partKeepsTo_render earlier later (compounds items there)
  have notes : Notes scheme list.items ledger
      ((entries list.text).foldl (notePart scheme) ledger) := by
    rw [entries_eq_partsOf, cut, List.map_cons, partsOf_cons, List.foldl_append, whole]
    exact (notes_part fixed (compounds first List.mem_cons_self) ledger).append
      (notes_parts fixed (fun items mem => compounds items (List.mem_cons_of_mem first mem)) _)
  have text : join ((split list.text).map (replaced scheme)) =
      list.items.flatMap (Item.scopedText scheme) := by
    have first' : replaced scheme (render first) = first.flatMap (Item.scopedText scheme) :=
      replaced_render (compounds first List.mem_cons_self)
    have rest' : rest.flatMap (fun items => ',' :: replaced scheme (render items)) =
        rest.flatMap fun items => ',' :: items.flatMap (Item.scopedText scheme) := by
      refine List.flatMap_congr fun items mem => ?_
      rw [replaced_render (compounds items (List.mem_cons_of_mem first mem))]
    rw [cut, List.map_map, List.map_cons, join_cons, List.flatMap_map, whole, List.flatMap_append,
      List.flatMap_assoc]
    exact congrArg₂ (· ++ ·) first' rest'
  rw [scopeList_of_partsKeepTo fixed keep, text]
  exact ⟨_, rfl, notes.warnings, notes.mapping⟩

end ScopedCss
