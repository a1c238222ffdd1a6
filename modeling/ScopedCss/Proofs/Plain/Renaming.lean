import ScopedCss.Proofs.Plain.Search

/-!
# Renaming the tokens of a plain list

The cursor of a part that is a plain list goes from item to item: it renames those that have a record
and leaves the others behind (`run_items`).  The induction is on the items to come.  Its invariant is
`StandsBefore`: after the cursor stand the items skipped since the last one that was renamed, none of
which has a record, and then the items to come; and if these start a compound, nothing in front of them
could be taken for the front of a name.
-/
namespace ScopedCss

theorem Text.words_of_solid {t : Text} (nonempty : t ≠ []) (solid : ∀ c ∈ t, Text.isSpace c = false) :
    Text.words t = [t] := by
  have whole : t.splitOnP Text.isSpace = [t] :=
    List.splitOnP_eq_singleton solid
  rw [Text.words, whole]
  cases t with
  | nil => exact absurd rfl nonempty
  | cons c t => rfl

/-- A text without spaces is one word. -/
theorem Token.joinWords_of_solid {t : Text} (solid : ∀ c ∈ t, Text.isSpace c = false) :
    joinWords t = t := by
  by_cases empty : t = []
  · rw [empty]
    rfl
  · rw [joinWords, Text.words_of_solid empty solid]
    simp [Text.joinWith]

namespace Plain
variable {scheme : Scheme}

theorem joinWords_name (name : Name) : Token.joinWords name.text = name.text :=
  Token.joinWords_of_solid fun c mem => isSpace_of_isNameChar (name.plain c mem)

namespace Item

/-- The record of an item is what its token is renamed to. -/
theorem record_eq (item : Item) :
    item.record? scheme = (item.token?.bind fun token => token.renaming? scheme 0).map fun r =>
      (r.category, r.name, r.scopedName) := by
  have decide {on : Bool} {category : Category} {name scopedName : Text} :
      (if on then some (category, name, scopedName) else none) =
        (if on then some (⟨category, name, scopedName⟩ : Renaming) else none).map fun r =>
          (r.category, r.name, r.scopedName) := by
    cases on <;> rfl
  cases item with
  | type name letters => exact decide
  | universal => exact decide
  | ofClass name =>
    have becomes : (Token.ofClass name.text).renaming? scheme 0 =
        if scheme.switches.classes then
          some ⟨.classes, name.text, bareName (scheme.scope (Token.joinWords name.text))⟩
        else none := rfl
    rw [token?, Option.bind_some, becomes, joinWords_name]
    exact decide
  | ofId name => exact decide
  | attr a =>
    rw [record?, token?]
    cases a.named? with
    | none => rfl
    | some named =>
      by_cases empty : named.value = []
      · simp [empty, NamedAttribute.token?]
      · have token : named.token? = some (.attributeValue named.onId named.value) := by
          rw [NamedAttribute.token?, if_neg (by simpa using empty)]
        simp only [Option.bind_some, token]
        rw [if_neg empty]
        cases named.onId with
        | true => exact decide
        | false => exact decide
  | _ => rfl

theorem renaming_of_record_none {item : Item} (none : item.record? scheme = none) {token : Token}
    (own : item.token? = some token) : token.renaming? scheme 0 = Option.none := by
  rw [record_eq, own, Option.bind_some, Option.map_eq_none_iff] at none
  exact none

theorem record_of_renaming {item : Item} {token : Token} {r : Renaming}
    (own : item.token? = some token) (renamed : token.renaming? scheme 0 = some r) :
    item.record? scheme = some (r.category, r.name, r.scopedName) := by
  rw [record_eq, own, Option.bind_some, renamed]
  rfl

/-! ### Items without a record are passed -/

/-- What the name of a token starts with, and whether its category is scoped. -/
theorem head_of_renaming {item : Item} {token : Token} {r : Renaming} (unnamed : item.isNamed = false)
    (own : item.token? = some token) (renamed : token.renaming? scheme 0 = some r) :
    (token.text = ['*'] ∧ scheme.switches.elements) ∨
      (∃ name, token = .ofClass name ∧ scheme.switches.classes) ∨
      (∃ name, token = .ofId name ∧ scheme.switches.ids) ∨
      ∃ name, token = .element name ∧ Token.isElementName name ∧ scheme.switches.elements := by
  have on {category : Category} (h : token.category? = some category) :
      scheme.switches.on category := by
    rw [Token.renaming?, h] at renamed
    by_contra off
    dsimp only at renamed
    rw [if_neg off] at renamed
    cases renamed
  cases item with
  | type name letters =>
    cases own
    exact .inr (.inr (.inr ⟨name, rfl, letters, on rfl⟩))
  | universal =>
    cases own
    exact .inl ⟨rfl, on rfl⟩
  | ofClass name =>
    cases own
    exact .inr (.inl ⟨name.text, rfl, on rfl⟩)
  | ofId name =>
    cases own
    exact .inr (.inr (.inl ⟨name.text, rfl, on rfl⟩))
  | pseudo element name =>
    cases own
    cases renamed
  | function name selectors =>
    cases own
    cases renamed
  | attr a =>
    have none : a.named? = none := by simpa [isNamed] using unnamed
    rw [token?, none] at own
    cases own
  | _ => cases own

/-- An item without a record does not hold the sign of a token that is renamed. -/
theorem sign_not_mem {skipped : Item} (basic : skipped.isBasic)
    (none : skipped.record? scheme = none) {c : Char}
    (sign : (c = '*' ∧ scheme.switches.elements) ∨ (c = '.' ∧ scheme.switches.classes) ∨
      (c = '#' ∧ scheme.switches.ids)) : c ∉ skipped.text := by
  have unnamed : isNameChar c = false := by
    rcases sign with ⟨rfl, -⟩ | ⟨rfl, -⟩ | ⟨rfl, -⟩ <;> rfl
  intro mem
  have own : c ∈ skipped.signs := by
    rcases mem_text basic mem with letter | own
    · rw [unnamed] at letter
      cases letter
    · exact own
  cases skipped with
  | universal =>
    cases List.mem_singleton.1 own
    have on : scheme.switches.elements := by simpa using sign
    rw [record?, if_pos on] at none
    cases none
  | ofClass name =>
    cases List.mem_singleton.1 own
    have on : scheme.switches.classes := by simpa using sign
    rw [record?, if_pos on] at none
    cases none
  | ofId name =>
    cases List.mem_singleton.1 own
    have on : scheme.switches.ids := by simpa using sign
    rw [record?, if_pos on] at none
    cases none
  | space d blank =>
    cases List.mem_singleton.1 own
    rcases sign with ⟨rfl, -⟩ | ⟨rfl, -⟩ | ⟨rfl, -⟩ <;> exact absurd blank (by decide)
  | combinator d known =>
    cases List.mem_singleton.1 own
    rcases sign with ⟨rfl, -⟩ | ⟨rfl, -⟩ | ⟨rfl, -⟩ <;> exact absurd known (by decide)
  | function name selectors =>
    rcases sign with ⟨rfl, -⟩ | ⟨rfl, -⟩ | ⟨rfl, -⟩ <;> exact absurd own (by simp [signs])
  | pseudo | close | comma =>
    cases List.mem_singleton.1 own
    simp at sign
  | type | attr | comment => cases own

end Item

/-- A name behind a sign is hidden from the search for the name of a type. -/
theorem hides_name {sought : Text} {first d : Char} (head : sought.head? = some first)
    (letter : Text.isNameChar first) (sign : d = '.' ∨ d = '#' ∨ d = ':' ∨ Text.isNameChar d)
    {t : Text} (plain : ∀ c ∈ t, isNameChar c) : Place.Hides sought (some d) t := by
  induction t generalizing d with
  | nil => trivial
  | cons c t ih =>
    have here := plain c List.mem_cons_self
    have named : Text.isNameChar c := isNameChar_text here
    refine ⟨⟨Attribute.isQuote_of_isNameChar here, ne_of_isNameChar here rfl,
      ne_of_isNameChar here rfl, .inr ?_⟩, ?_⟩
    · exact Place.startsName_of_sign head letter sign
    · exact ih (.inr (.inr (.inr named))) fun e mem => plain e (List.mem_cons_of_mem c mem)

namespace Item

/-- A character of an item that no name holds hides a name that starts with a letter. -/
theorem hides_char {skipped : Item} (basic : skipped.isBasic) {first d : Char} {name : Text}
    (letter : Text.isNameChar first) (other : Text.isNameChar d = false) (mem : d ∈ skipped.text)
    (previous : Option Char) : Place.Hides (first :: name) previous [d] := by
  refine ⟨⟨no_quote basic mem, (no_brackets basic mem).1, (no_brackets basic mem).2, .inl ?_⟩, trivial⟩
  rintro ⟨⟩
  rw [letter] at other
  cases other

/-- An item without a record hides the name of a type.  The name could start at any letter of the item,
were it not for what stands in front of it. -/
theorem hides_type {skipped : Item} (basic : skipped.isBasic) (none : skipped.record? scheme = none)
    (on : scheme.switches.elements) {first : Char} (letter : Text.isNameChar first) (name : Text)
    (previous : Option Char) : Place.Hides (first :: name) previous skipped.text := by
  have sign {d : Char} (other : Text.isNameChar d = false) (mem : d ∈ skipped.text)
      (previous : Option Char) : Place.Hides (first :: name) previous [d] :=
    hides_char basic letter other mem previous
  have behind {d : Char} (kind : d = '.' ∨ d = '#' ∨ d = ':') (own : Name) :
      Place.Hides (first :: name) (some d) own.text := by
    refine hides_name rfl letter ?_ own.plain
    rcases kind with rfl | rfl | rfl <;> simp
  cases skipped with
  | type | universal =>
    rw [record?, if_pos on] at none
    cases none
  | ofClass own =>
    have dot := sign (d := '.') (by decide) (by simp [Item.text, classSelector]) previous
    exact Place.hides_append dot (behind (.inl rfl) own)
  | ofId own =>
    have hash := sign (d := '#') (by decide) (by simp [Item.text, idSelector]) previous
    exact Place.hides_append hash (behind (.inr (.inl rfl)) own)
  | pseudo element own =>
    have colon := sign (d := ':') (by decide) (by simp [Item.text])
    cases element with
    | false => exact Place.hides_append (colon previous) (behind (.inr (.inr rfl)) own)
    | true =>
      exact Place.hides_append (colon previous)
        (Place.hides_append (colon _) (behind (.inr (.inr rfl)) own))
  | function own selectors =>
    have colon := sign (d := ':') (by decide) (by simp [Item.text]) previous
    have opens := sign (d := '(') (by decide) (by simp [Item.text])
    exact Place.hides_append colon (Place.hides_append (behind (.inr (.inr rfl)) own) (opens _))
  | space d blank =>
    have other : Text.isNameChar d = false := by
      simp only [blanks, List.mem_cons, List.not_mem_nil, or_false] at blank
      rcases blank with rfl | rfl | rfl | rfl | rfl | rfl <;> rfl
    exact sign other (by simp [Item.text]) previous
  | combinator d known =>
    have other : Text.isNameChar d = false := by
      simp only [List.mem_cons, List.not_mem_nil, or_false] at known
      rcases known with rfl | rfl | rfl <;> rfl
    exact sign other (by simp [Item.text]) previous
  | close | comma => exact sign (by decide) (by simp [Item.text]) previous
  | attr | comment => cases basic

/-- An item without a record hides the name of every token that is renamed. -/
theorem hides {skipped item : Item} {token : Token} {r : Renaming} (basic : skipped.isBasic)
    (none : skipped.record? scheme = none) (unnamed : item.isNamed = false)
    (own : item.token? = some token) (renamed : token.renaming? scheme 0 = some r)
    (previous : Option Char) : Place.Hides token.text previous skipped.text := by
  have byHead {c : Char} (head : token.text.head? = some c) (absent : c ∉ skipped.text) :
      Place.Hides token.text previous skipped.text := by
    refine Place.hides_of_head (fun d mem => no_quote basic mem) (fun d mem => no_brackets basic mem) ?_
    rintro d mem first
    rw [head] at first
    cases first
    exact absent mem
  rcases head_of_renaming unnamed own renamed with
    ⟨text, on⟩ | ⟨name, rfl, on⟩ | ⟨name, rfl, on⟩ | ⟨name, rfl, letters, on⟩
  · exact byHead (by rw [text]; rfl) (sign_not_mem basic none (.inl ⟨rfl, on⟩))
  · exact byHead rfl (sign_not_mem basic none (.inr (.inl ⟨rfl, on⟩)))
  · exact byHead rfl (sign_not_mem basic none (.inr (.inr ⟨rfl, on⟩)))
  · cases name with
    | nil => cases letters
    | cons first rest =>
      have plain : isNameChar first := by
        simp [isNameChar, Selector.alphanum_of_isElementName letters first List.mem_cons_self]
      exact hides_type basic none on (isNameChar_text plain) rest previous

/-- The search for the name of a token that is renamed passes an item without a record. -/
theorem passes {skipped item : Item} {token : Token} {r : Renaming}
    (none : skipped.record? scheme = none) (unnamed : item.isNamed = false)
    (own : item.token? = some token) (renamed : token.renaming? scheme 0 = some r)
    (nonempty : token.text ≠ []) (previous : Option Char) :
    Place.Passes token.text Option.none 0 previous (Place.hidden.scan skipped.text) Option.none 0
      (skipped.text.getLast?.or previous) := by
  cases basic : skipped.isBasic with
  | true =>
    rw [scan_hidden_of_basic basic]
    exact Place.passes_of_hides nonempty (hides basic none unnamed own renamed previous)
  | false =>
    cases skipped with
    | comment => exact Place.passes_hit Mark.comment
    | attr a =>
      have last : (Item.attr a).text.getLast?.or previous = some ']' := by
        rw [text, a.text_eq, ← List.cons_append, List.getLast?_append]
        rfl
      rw [last]
      exact a.passes_text token.text previous
    | _ => cases basic

end Item

theorem scan_hidden_render (items : List Item) (t : Text) :
    Place.hidden.scan (render items ++ t) =
      Place.hidden.scan (render items) ++ Place.hidden.scan t := by
  induction items generalizing t with
  | nil => rfl
  | cons item items ih =>
    rw [render, List.flatMap_cons, List.append_assoc, ← render, item.scan_hidden_text,
      item.scan_hidden_text, ih, List.append_assoc]

/-- The search passes items without records. -/
theorem passes_render {skipped : List Item} {item : Item} {token : Token} {r : Renaming}
    (none : ∀ i ∈ skipped, i.record? scheme = none) (unnamed : item.isNamed = false)
    (own : item.token? = some token) (renamed : token.renaming? scheme 0 = some r)
    (nonempty : token.text ≠ []) (previous : Option Char) :
    Place.Passes token.text Option.none 0 previous (Place.hidden.scan (render skipped)) Option.none 0
      ((render skipped).getLast?.or previous) := by
  induction skipped generalizing previous with
  | nil => exact .nil
  | cons i skipped ih =>
    rw [render, List.flatMap_cons, i.scan_hidden_text, ← render, List.getLast?_append,
      Option.or_assoc]
    exact (Item.passes (none i List.mem_cons_self) unnamed own renamed nonempty previous).append
      (ih (fun j mem => none j (List.mem_cons_of_mem i mem)) _)

/-! ### Tokens are found at their items -/

/-- A token of a name is found behind the items without records. -/
theorem ofName?_render (item : Item) {skipped : List Item} {token : Token} {r : Renaming}
    (none : ∀ i ∈ skipped, i.record? scheme = none) (basic : item.isBasic)
    (own : item.token? = some token) (renamed : token.renaming? scheme 0 = some r)
    (text : item.text = token.text) {previous : Option Char} {t : Text}
    (starts : Place.startsName token.text ((render skipped).getLast?.or previous))
    (closes : Closes t) :
    Place.ofName? token.text previous (render skipped ++ (item.text ++ t)) =
      some ⟨render skipped, token.text, [], t⟩ := by
  have unnamed : item.isNamed = false := by
    cases item <;> first | rfl | cases basic
  have nonempty : token.text ≠ [] := by
    rcases Item.head_of_renaming unnamed own renamed with
      ⟨text, -⟩ | ⟨name, rfl, -⟩ | ⟨name, rfl, -⟩ | ⟨name, rfl, letters, -⟩
    · simp [text]
    · simp [Token.text, classSelector]
    · simp [Token.text, idSelector]
    · rintro rfl
      cases letters
  obtain ⟨c, rest, head⟩ := List.exists_cons_of_ne_nil nonempty
  have mem : c ∈ item.text := by simp [text, head]
  have ends : Place.endsName (Place.hidden.scan t) := by
    rw [Place.endsName_iff (List.Subset.refl _), Recogniser.spellAll_scan]
    intro first
    obtain ⟨d, first, letter⟩ := (Option.any_eq_true _ _).1 first
    rw [(closes d first).1] at letter
    cases letter
  have here := Place.findName_here head (Item.no_quote basic mem) (Item.no_brackets basic mem).1
    (Item.no_brackets basic mem).2 starts ends
  rw [Place.ofName?, scan_hidden_render, item.scan_hidden_text, Item.scan_hidden_of_basic basic,
    passes_render none unnamed own renamed nonempty previous, text, here]
  simp [Recogniser.spellAll_scan]

/-- The value of an attribute is found behind the items without records. -/
theorem ofValue?_render {skipped : List Item} {a : Attribute} {named : NamedAttribute}
    (found : a.named? = some named) (record : ((Item.attr a).record? scheme).isSome)
    (none : ∀ i ∈ skipped, i.record? scheme = none) (t : Text) :
    Place.ofValue? named.onId named.value (render skipped ++ (a.text ++ t)) =
      some ⟨render skipped ++ named.opening, named.value, named.closing, t⟩ := by
  have scan : NamedAttribute.recogniser.scan (render skipped ++ (a.text ++ t)) =
      skipped.flatMap Item.namedSegments ++ .hit named :: NamedAttribute.recogniser.scan t := by
    have last : NamedAttribute.recogniser.scan (a.text ++ t) =
        .hit named :: NamedAttribute.recogniser.scan t := by
      have whole := (Item.attr a).scan_named t
      simpa [Item.text, Item.namedSegments, found] using whole
    rw [scan_named_append, last]
  have misses : ∀ segment ∈ skipped.flatMap Item.namedSegments,
      !Place.isNamed named.onId named.value segment := by
    intro segment mem
    obtain ⟨i, skip, mem⟩ := List.mem_flatMap.1 mem
    by_contra same
    cases kind : i.isNamed with
    | false =>
      rw [namedSegments_of_unnamed kind] at mem
      obtain ⟨c, -, rfl⟩ := List.mem_map.1 mem
      exact same rfl
    | true =>
      obtain ⟨b, hit, token⟩ := namedSegments_of_named kind
      rw [hit, List.mem_singleton] at mem
      subst mem
      simp only [Place.isNamed, Bool.not_eq_true, Bool.not_eq_false', Bool.and_eq_true,
        beq_iff_eq] at same
      have own : i.token? = (Item.attr a).token? := by
        rw [token, Item.token?, found, Option.bind_some, NamedAttribute.token?,
          NamedAttribute.token?, same.1, same.2]
      rw [Item.record_eq, ← own, ← Item.record_eq, none i skip] at record
      cases record
  have cut := Place.span_eq_iff.2 ⟨scan, by simp [Place.isNamed], misses⟩
  rw [Place.ofValue?]
  simp only [cut]
  have before : NamedAttribute.recogniser.spellAll (skipped.flatMap Item.namedSegments) =
      render skipped := by
    rw [← scan_named_render, Recogniser.spellAll_scan]
  rw [before, Recogniser.spellAll_scan]

/-- **A token that is renamed is found at its item**, behind items without records: its place is
where the item differs from its scoped form. -/
theorem ofToken?_render {skipped : List Item} {item : Item} {token : Token} {r : Renaming}
    (none : ∀ i ∈ skipped, i.record? scheme = none) (own : item.token? = some token)
    (renamed : token.renaming? scheme 0 = some r) :
    ∃ before old closing,
      (∀ scopedName, before ++ token.replacement scopedName ++ closing =
        render skipped ++ item.textWith scopedName) ∧
      ∀ previous t,
        (item.startsCompound → Place.OpensCompound ((render skipped).getLast?.or previous)) →
        (item.endsName → Closes t) →
          Place.ofToken? token previous (render skipped ++ (item.text ++ t)) =
            some ⟨before, old, closing, t⟩ := by
  have record := Item.record_of_renaming own renamed
  cases item with
  | attr a =>
    rw [Item.token?] at own
    obtain ⟨named, found, value⟩ := Option.bind_eq_some_iff.1 own
    rw [NamedAttribute.token?] at value
    split at value
    · cases value
    · cases value
      refine ⟨render skipped ++ named.opening, named.value, named.closing, ?_, fun previous t _ _ => ?_⟩
      · intro scopedName
        simp [Token.replacement, Item.textWith, found]
      · exact ofValue?_render found (by rw [record]; rfl) none t
  | type name letters =>
    cases own
    refine ⟨render skipped, name, [], fun scopedName => List.append_nil _,
      fun previous t opens closes => ?_⟩
    exact ofName?_render (.type name letters) none rfl rfl renamed rfl
      (Place.startsName_of_opensCompound (opens rfl)) (closes rfl)
  | universal =>
    cases own
    refine ⟨render skipped, ['*'], [], fun scopedName => List.append_nil _,
      fun previous t _ closes => ?_⟩
    exact ofName?_render .universal none rfl rfl renamed rfl
      (Place.startsName_of_head rfl (by decide)) (closes rfl)
  | ofClass name =>
    cases own
    refine ⟨render skipped, classSelector name.text, [], fun scopedName => List.append_nil _,
      fun previous t _ closes => ?_⟩
    exact ofName?_render (.ofClass name) none rfl rfl renamed rfl
      (Place.startsName_of_head rfl (by decide)) (closes rfl)
  | ofId name =>
    cases own
    refine ⟨render skipped, idSelector name.text, [], fun scopedName => List.append_nil _,
      fun previous t _ closes => ?_⟩
    exact ofName?_render (.ofId name) none rfl rfl renamed rfl
      (Place.startsName_of_head rfl (by decide)) (closes rfl)
  | pseudo element name =>
    cases own
    cases renamed
  | function name selectors =>
    cases own
    cases renamed
  | _ => cases own

/-! ### The cursor goes from item to item -/

namespace Item

/-- What becomes of an item of which the comparisons are normalised. -/
def image (scheme : Scheme) (item : Item) : Text :=
  match item.record? scheme with
  | none => item.text
  | some (_, _, scopedName) => item.textWith scopedName

/-- Behind an item that ends a compound, and behind none, a compound can start. -/
theorem opensCompound_of_endsCompound {item : Item} (h : item.endsCompound) (previous : Option Char) :
    Place.OpensCompound (item.text.getLast?.or previous) := by
  have opens {c : Char} (signs : c ∉ ['.', '#', ':']) (letter : Text.isNameChar c = false)
      (last : item.text.getLast? = some c) : Place.OpensCompound (item.text.getLast?.or previous) := by
    rw [last]
    intro d same
    cases same
    exact ⟨signs, letter⟩
  cases item with
  | function name selectors =>
    refine opens (c := '(') (by decide) (by decide) ?_
    rw [text, ← List.cons_append, List.getLast?_append]
    rfl
  | space d blank =>
    simp only [blanks, List.mem_cons, List.not_mem_nil, or_false] at blank
    rcases blank with rfl | rfl | rfl | rfl | rfl | rfl <;> exact opens (by decide) (by decide) rfl
  | combinator d known =>
    simp only [List.mem_cons, List.not_mem_nil, or_false] at known
    rcases known with rfl | rfl | rfl <;> exact opens (by decide) (by decide) rfl
  | comma => exact opens (c := ',') (by decide) (by decide) rfl
  | comment => exact opens (c := '%') (by decide) (by decide) rfl
  | _ => cases h

theorem endsCompound_of_record {item : Item} {record : Category × Text × Text}
    (h : item.record? scheme = some record) : item.endsCompound = false := by
  cases item <;> first | rfl | cases h

end Item

theorem opensCompound_or {first second third : Option Char}
    (h : Place.OpensCompound (first.or (second.or third))) :
    Place.OpensCompound (first.or second) := by
  intro c mem
  refine h c ?_
  rw [← Option.or_assoc]
  exact Option.or_eq_some_iff.2 (.inl mem)

open Selector

/-- A cursor stands in front of the items to come: behind items without records, and if those to come start
a compound, nothing in front of them could be taken for the front of a name. -/
structure StandsBefore (scheme : Scheme) (outer : Option Char) (skipped items : List Item)
    (cursor : Cursor) : Prop where
  none : ∀ i ∈ skipped, i.record? scheme = none
  rest : cursor.rest = render skipped ++ render items
  opens : ∀ i ∈ items.head?, i.startsCompound →
    Place.OpensCompound ((render skipped).getLast?.or (cursor.done.getLast?.or outer))

namespace StandsBefore
variable {outer : Option Char} {skipped items : List Item} {item : Item} {cursor : Cursor} {token : Token}
  {r : Renaming}

/-- An item without a record joins those that were skipped. -/
theorem skip (stands : StandsBefore scheme outer skipped (item :: items) cursor)
    (compounds : (item :: items).IsChain fun item next => next.startsCompound → item.endsCompound)
    (record : item.record? scheme = Option.none) :
    StandsBefore scheme outer (skipped ++ [item]) items cursor where
  none i mem := (List.mem_append.1 mem).elim (stands.none i) fun same => by
    rw [List.mem_singleton.1 same]
    exact record
  rest := by
    rw [stands.rest]
    simp [render]
  opens i first starts := by
    have last : render (skipped ++ [item]) = render skipped ++ item.text := by simp [render]
    rw [last, List.getLast?_append, Option.or_assoc]
    exact Item.opensCompound_of_endsCompound ((List.isChain_cons.1 compounds).1 i first starts) _

/-- The token of an item with a record is found at the item, in the part alone and in the list. -/
theorem exists_place (stands : StandsBefore scheme outer skipped (item :: items) cursor)
    (compounds : (item :: items).IsChain fun item next => next.startsCompound → item.endsCompound)
    (own : item.token? = some token) (renamed : token.renaming? scheme 0 = some r) :
    ∃ place : Place, place.after = render items ∧
      place.before ++ token.replacement r.scopedName ++ place.closing =
        render skipped ++ item.textWith r.scopedName ∧
      Place.ofToken? token cursor.done.getLast? cursor.rest = some place ∧
      ∀ after, Closes after →
        Place.ofToken? token (cursor.done.getLast?.or outer) (cursor.rest ++ after) =
          some (place.extend after) := by
  obtain ⟨before, old, closing, spelled, found⟩ := ofToken?_render stands.none own renamed
  have whole : cursor.rest = render skipped ++ (item.text ++ render items) := stands.rest
  refine ⟨⟨before, old, closing, render items⟩, rfl, spelled r.scopedName, ?_, fun after closes => ?_⟩
  · rw [whole]
    refine found _ _ (fun starts => opensCompound_or (stands.opens item rfl starts)) fun ends => ?_
    have closed := closes_render compounds ends closes_nil
    rwa [List.append_nil] at closed
  · rw [whole, List.append_assoc, List.append_assoc]
    exact found _ _ (stands.opens item rfl) fun ends => closes_render compounds ends closes

/-- Where the token of an item is renamed, the cursor comes to stand behind the item. -/
theorem rename (stands : StandsBefore scheme outer skipped (item :: items) cursor)
    (compounds : (item :: items).IsChain fun item next => next.startsCompound → item.endsCompound)
    (own : item.token? = some token) (renamed : token.renaming? scheme 0 = some r) :
    StandsBefore scheme outer [] items (cursor.rename scheme 0 token) ∧
      (cursor.rename scheme 0 token).done =
        cursor.done ++ render skipped ++ item.textWith r.scopedName := by
  obtain ⟨place, behind, spelled, alone, -⟩ := stands.exists_place compounds own renamed
  have becomes : cursor.rename scheme 0 token =
      cursor.replace place (token.replacement r.scopedName) := by
    rw [Cursor.rename_of_some renamed, alone]
  rw [becomes]
  refine ⟨⟨nofun, behind, fun i first starts => ?_⟩, ?_⟩
  · have ends := (List.isChain_cons.1 compounds).1 i first starts
    rw [Item.endsCompound_of_record (Item.record_of_renaming own renamed)] at ends
    cases ends
  · rw [List.append_assoc, ← spelled]
    simp [Cursor.replace]

/-- The token of an item keeps to the part. -/
theorem keepsTo (stands : StandsBefore scheme outer skipped (item :: items) cursor)
    (compounds : (item :: items).IsChain fun item next => next.startsCompound → item.endsCompound)
    (own : item.token? = some token) {after : Text} (closes : Closes after)
    (foreign : ∀ c ∈ after.head?, c ∉ Mark.comment) (renamed : token.renaming? scheme 0 = some r)
    (sought : Place.IsSought token) :
    Place.KeepsTo token cursor.done.getLast? outer cursor.rest after := by
  obtain ⟨place, -, -, alone, inList⟩ := stands.exists_place compounds own renamed
  refine (Place.ofToken?_append_iff foreign sought).1 ?_
  rw [inList after closes, alone]
  rfl

end StandsBefore

/-- **The tokens of a part that is a plain list keep to it, and each item becomes its image.** -/
theorem run_items {items skipped : List Item} {cursor : Cursor} {outer : Option Char} {after : Text}
    (compounds : items.IsChain fun item next => next.startsCompound → item.endsCompound)
    (stands : StandsBefore scheme outer skipped items cursor)
    (closes : Closes after) (foreign : ∀ c ∈ after.head?, c ∉ Mark.comment)
    (sought : ∀ token ∈ items.filterMap Item.token?, (token.renaming? scheme 0).isSome →
      Place.IsSought token) :
    KeepTo scheme outer after (items.filterMap Item.token?) cursor ∧
      ((items.filterMap Item.token?).foldl (Cursor.rename scheme 0) cursor).text =
        cursor.done ++ render skipped ++ items.flatMap (Item.image scheme) := by
  induction items generalizing skipped cursor with
  | nil =>
    refine ⟨trivial, ?_⟩
    rw [List.filterMap_nil, List.foldl_nil, Cursor.text, stands.rest]
    simp [render]
  | cons item items ih =>
    have later (token : Token) (mem : token ∈ items.filterMap Item.token?) :
        (token.renaming? scheme 0).isSome → Place.IsSought token :=
      sought token (((List.sublist_cons_self item items).filterMap _).subset mem)
    cases record : item.record? scheme with
    | none =>
      obtain ⟨keep, text⟩ := ih compounds.tail (stands.skip compounds record) later
      have image : item.image scheme = item.text := by rw [Item.image, record]
      have same : cursor.done ++ render (skipped ++ [item]) ++ items.flatMap (Item.image scheme) =
          cursor.done ++ render skipped ++ (item :: items).flatMap (Item.image scheme) := by
        simp [render, image]
      rw [same] at text
      cases own : item.token? with
      | none =>
        rw [List.filterMap_cons_none own]
        exact ⟨keep, text⟩
      | some token =>
        have unrenamed := Item.renaming_of_record_none record own
        have stays : cursor.rename scheme 0 token = cursor := Cursor.rename_of_none unrenamed
        rw [List.filterMap_cons_some own]
        refine ⟨⟨fun renamed => ?_, ?_⟩, ?_⟩
        · rw [unrenamed] at renamed
          cases renamed
        · rwa [stays]
        · rwa [List.foldl_cons, stays]
    | some e =>
      rw [Item.record_eq, Option.map_eq_some_iff] at record
      obtain ⟨r, found, -⟩ := record
      obtain ⟨token, own, renamed⟩ := Option.bind_eq_some_iff.1 found
      obtain ⟨next, done⟩ := stands.rename compounds own renamed
      obtain ⟨keep, text⟩ := ih compounds.tail next later
      have isSought := sought token (List.mem_filterMap.2 ⟨item, List.mem_cons_self, own⟩)
      have image : item.image scheme = item.textWith r.scopedName := by
        rw [Item.image, Item.record_of_renaming own renamed]
      rw [List.filterMap_cons_some own]
      refine ⟨⟨fun isRenamed => ?_, keep⟩, ?_⟩
      · exact stands.keepsTo compounds own closes foreign renamed (isSought isRenamed)
      · rw [List.foldl_cons, text, done, List.flatMap_cons, image]
        simp [render]

end Plain
end ScopedCss
