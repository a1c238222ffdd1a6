import ScopedCss.Proofs.Plain.Rereading

/-!
# Scoping and reading commute

A selector may be read first, and its tokens scoped, or scoped first and then read.  For a plain list,
with a suffix for every name, both come to the same unless a space is peeled off a bare value.  Names that
were scoped do not stay, and what names the scoped list has are values of the mapping.

That different names stay different is a matter of their stems (`separates_iff_stems`).  A class may be
called like a type with its marker or like `*`, `*` may be called like a type with its marker, and values
may be the same but for what is left off or joined; no other names merge (`separates_iff_noneMerge`).
Together these are exactly the exceptions (`rewritesTokens_iff`).
-/
namespace ScopedCss

/-- The names that the tokens of a selector record. -/
def Selector.names (switches : Switches) (selector : Text) : List (Category × Text) :=
  (tokens selector).filterMap (Token.record? switches)

/-- Different names have different scoped names: elements and classes, which all become classes, among
each other, and ids among each other. -/
def Scheme.Separates (scheme : Scheme) (names : List (Category × Text)) : Prop :=
  ∀ category category' name name', (category, name) ∈ names → (category', name') ∈ names →
    (category = .ids ↔ category' = .ids) →
      scheme.scopedForm category name = scheme.scopedForm category' name' →
        category = category' ∧ name = name'

/-- The scoped name of an element or a class. -/
def Mapping.HasClass (mapping : Mapping) (new : Text) : Prop :=
  ∃ category name, (category = .elements ∨ category = .classes) ∧
    (name, new) ∈ (mapping.table category).entries

/-- What is read of a selector that takes the place of another, with its names recorded in a mapping. -/
structure RewritesTokens (scheme : Scheme) (before after : Text) (mapping : Mapping) : Prop where
  /-- The tokens are the same in number and order, each in its scoped form. -/
  tokens : Selector.tokens after = (Selector.tokens before).map (Token.image scheme)
  renamed : ∀ token ∈ Selector.tokens before, (token.record? scheme.switches).isSome →
    (token.image scheme).name ≠ token.name
  apart : scheme.Separates (Selector.names scheme.switches before)
  recorded : scheme.switches.elements → scheme.switches.classes → scheme.switches.ids →
    ∀ token ∈ Selector.tokens after,
      (token.category? = some .classes → mapping.HasClass token.name) ∧
        (token.category? = some .ids → ∃ name, (name, token.name) ∈ mapping.ids.entries)

/-- No two names in one namespace have the same stem. -/
structure NoneMerge (asterisk : Text) (names : List (Category × Text)) : Prop where
  element : ∀ type name, (.elements, type) ∈ names → (.classes, name) ∈ names → type ≠ ['*'] →
    bareName (Token.joinWords name) ≠ type ++ Token.elementMarker
  universal : ∀ name, (.elements, ['*']) ∈ names → (.classes, name) ∈ names →
    bareName (Token.joinWords name) ≠ asterisk
  marked : ∀ type, (.elements, ['*']) ∈ names → (.elements, type) ∈ names → type ≠ ['*'] →
    type ++ Token.elementMarker ≠ asterisk
  classes : ∀ name name', (.classes, name) ∈ names → (.classes, name') ∈ names →
    bareName (Token.joinWords name) = bareName (Token.joinWords name') → name = name'
  ids : ∀ name name', (.ids, name) ∈ names → (.ids, name') ∈ names →
    bareName name = bareName name' → name = name'

namespace Plain

/-! ### The names of a selector -/

section
variable {switches : Switches} {selector : Text} {category : Category} {name : Text}

theorem known_of_mem_names (mem : (category, name) ∈ Selector.names switches selector) :
    category = .elements ∨ category = .classes ∨ category = .ids := by
  obtain ⟨token, -, recorded⟩ := List.mem_filterMap.1 mem
  exact Token.known_of_category? (Token.record?_eq_some_iff.1 recorded).1

theorem element_of_mem_names (mem : (.elements, name) ∈ Selector.names switches selector) :
    name = ['*'] ∨ Token.isElementName name := by
  obtain ⟨token, known, recorded⟩ := List.mem_filterMap.1 mem
  exact Selector.element_of_record? known recorded

end

theorem bareName_stem_universal (asterisk : Name) :
    bareName (Category.stem asterisk.text .elements ['*']) = asterisk.text := bareName_name asterisk

/-! ### Names do not stay -/

section
variable (switches : Switches) (asterisk : Name) {digits : Text} (alphanum : ∀ c ∈ digits, c.isAlphanum)
include alphanum

/-- No value is its own scoped form: the suffix does not make up for a `.` or `#` that is left off. -/
theorem attach_bareName_ne (value : Text) : Suffix.attach digits (bareName value) ≠ value := by
  -- A sign that is left off is missing in the count of signs.
  have counted {sign : Char} (other : isNameChar sign = false) (name : Text) :
      Suffix.attach digits name ≠ sign :: name := fun same => by
    have suffix : ('_' :: digits).count sign = 0 := List.count_eq_zero.2 fun mem => by
      rw [isNameChar_of_mem_suffix alphanum sign mem] at other
      cases other
    have counts := congrArg (List.count sign) same
    rw [Suffix.attach, List.count_append, suffix, List.count_cons_self] at counts
    omega
  unfold bareName
  split
  next name => exact counted rfl name
  next name => exact counted rfl name
  next => exact fun same => by simp [Suffix.attach] at same

/-- A value whose words are joined is its own scoped form no more: it would have no spaces. -/
theorem attach_joinWords_ne (value : Text) :
    Suffix.attach digits (bareName (Token.joinWords value)) ≠ value := by
  intro same
  have solid : ∀ c ∈ value, Text.isSpace c = false := by
    intro c mem
    rw [← same] at mem
    rcases List.mem_append.1 mem with mem | mem
    · exact Token.isSpace_of_mem_joinWords ((bareName_suffix _).subset mem)
    · exact isSpace_of_isNameChar (isNameChar_of_mem_suffix alphanum c mem)
  rw [Token.joinWords_of_solid solid] at same
  exact attach_bareName_ne alphanum value same

/-- No name that is recorded is its own scoped form. -/
theorem scopedForm_ne {selector : Text} {category : Category} {name : Text}
    (mem : (category, name) ∈ Selector.names switches selector) :
    (Scheme.suffixed switches asterisk.text digits).scopedForm category name ≠ name := by
  have known := known_of_mem_names mem
  rw [scopedForm_suffixed switches asterisk.text digits known]
  rcases known with rfl | rfl | rfl
  · rcases element_of_mem_names mem with rfl | letters
    · rw [bareName_stem_universal]
      intro same
      have mark : '_' ∈ ['*'] := same ▸ List.mem_append_right _ List.mem_cons_self
      cases List.mem_singleton.1 mark
    · rw [bareName_stem_element asterisk.text letters]
      exact fun same => by simp [Suffix.attach] at same
  · exact attach_joinWords_ne alphanum name
  · exact attach_bareName_ne alphanum name

end

/-! ### Names that merge -/

section
variable (asterisk : Name) (switches : Switches) (digits selector : Text)

/-- Scoped names are told apart by their stems. -/
theorem separates_iff_stems :
    (Scheme.suffixed switches asterisk.text digits).Separates (Selector.names switches selector) ↔
      ∀ category category' name name', (category, name) ∈ Selector.names switches selector →
        (category', name') ∈ Selector.names switches selector → (category = .ids ↔ category' = .ids) →
          bareName (category.stem asterisk.text name) = bareName (category'.stem asterisk.text name') →
            category = category' ∧ name = name' := by
  refine forall₄_congr fun category category' name name' => forall₂_congr fun mem mem' => ?_
  rw [scopedForm_suffixed switches _ _ (known_of_mem_names mem),
    scopedForm_suffixed switches _ _ (known_of_mem_names mem'), attach_inj]

/-- **When different names stay different.** -/
theorem separates_iff_noneMerge :
    (Scheme.suffixed switches asterisk.text digits).Separates (Selector.names switches selector) ↔
      NoneMerge asterisk.text (Selector.names switches selector) := by
  rw [separates_iff_stems]
  constructor
  · intro apart
    -- Each field is about two names with the same stem.
    constructor
    · intro type name mem mem' other same
      have letters := (element_of_mem_names mem).resolve_left other
      cases (apart _ _ _ _ mem mem' (by decide)
        ((bareName_stem_element asterisk.text letters).trans same.symm)).1
    · intro name mem mem' same
      cases (apart _ _ _ _ mem mem' (by decide) ((bareName_stem_universal asterisk).trans same.symm)).1
    · intro type mem mem' other same
      have letters := (element_of_mem_names mem').resolve_left other
      exact other (apart _ _ _ _ mem' mem .rfl ((bareName_stem_element asterisk.text letters).trans
        (same.trans (bareName_stem_universal asterisk).symm))).2
    · intro name name' mem mem' same
      exact (apart _ _ _ _ mem mem' .rfl same).2
    · intro name name' mem mem' same
      exact (apart _ _ _ _ mem mem' .rfl same).2
  · intro none category category' name name' mem mem' namespaces same
    have mixed {type name : Text} (mem : (.elements, type) ∈ Selector.names switches selector)
        (mem' : (.classes, name) ∈ Selector.names switches selector)
        (same : bareName (Category.stem asterisk.text .elements type) =
          bareName (Category.stem asterisk.text .classes name)) : False := by
      rcases element_of_mem_names mem with rfl | letters
      · exact none.universal name mem mem' (same.symm.trans (bareName_stem_universal asterisk))
      · exact none.element type name mem mem' (Selector.ne_asterisk_of_isElementName letters)
          (same.symm.trans (bareName_stem_element asterisk.text letters))
    have elements {type type' : Text} (mem : (.elements, type) ∈ Selector.names switches selector)
        (mem' : (.elements, type') ∈ Selector.names switches selector)
        (same : bareName (Category.stem asterisk.text .elements type) =
          bareName (Category.stem asterisk.text .elements type')) : type = type' := by
      rcases element_of_mem_names mem with rfl | letters <;>
        rcases element_of_mem_names mem' with rfl | letters'
      · rfl
      · rw [bareName_stem_universal, bareName_stem_element asterisk.text letters'] at same
        exact absurd same.symm
          (none.marked type' mem mem' (Selector.ne_asterisk_of_isElementName letters'))
      · rw [bareName_stem_universal, bareName_stem_element asterisk.text letters] at same
        exact absurd same (none.marked type mem' mem (Selector.ne_asterisk_of_isElementName letters))
      · rw [bareName_stem_element asterisk.text letters, bareName_stem_element asterisk.text letters'] at same
        exact List.append_cancel_right same
    -- Ids share no namespace with elements and classes.
    rcases known_of_mem_names mem with rfl | rfl | rfl <;>
      rcases known_of_mem_names mem' with rfl | rfl | rfl
    · exact ⟨rfl, elements mem mem' same⟩
    · exact (mixed mem mem' same).elim
    · exact absurd (namespaces.2 rfl) (by decide)
    · exact (mixed mem' mem same.symm).elim
    · exact ⟨rfl, none.classes name name' mem mem' same⟩
    · exact absurd (namespaces.2 rfl) (by decide)
    · exact absurd (namespaces.1 rfl) (by decide)
    · exact absurd (namespaces.1 rfl) (by decide)
    · exact ⟨rfl, none.ids name name' mem mem' same⟩

end

/-! ### The mapping -/

section
variable {scheme : Scheme}

/-- Recording the items of a list is recording the names of its tokens. -/
theorem foldl_record_items (fixed : scheme.Fixed) {items : List Item}
    (compounds : items.IsChain fun item next => next.startsCompound → item.endsCompound)
    (mapping : Mapping) :
    (items.filterMap (Item.record? scheme)).foldl
        (fun mapping (category, name, scopedName) => mapping.insert category name scopedName) mapping =
      (Selector.names scheme.switches (render items)).foldl (Mapping.record scheme) mapping := by
  rw [Selector.names, tokens_render compounds, List.filterMap_filterMap,
    funext (Item.record_eq_token fixed), ← List.map_filterMap, List.foldl_map]
  rfl

/-- With all categories of selectors switched on, a token that names something records it. -/
theorem category?_eq_none (elements : scheme.switches.elements) (classes : scheme.switches.classes)
    (ids : scheme.switches.ids) {token : Token} (silent : token.record? scheme.switches = none) :
    token.category? = none := by
  rw [Token.record?, Option.map_eq_none_iff, Option.filter_eq_none_iff] at silent
  refine Option.eq_none_iff_forall_ne_some.2 fun category kind => silent category kind ?_
  rcases Token.known_of_category? kind with rfl | rfl | rfl
  · exact elements
  · exact classes
  · exact ids

/-- The classes and ids that tokens name in scoped form are recorded, with all categories of selectors
switched on. -/
theorem recorded_image {selector : Text} {before after : Mapping}
    (mapping : after = (Selector.names scheme.switches selector).foldl (Mapping.record scheme) before)
    (elements : scheme.switches.elements) (classes : scheme.switches.classes)
    (ids : scheme.switches.ids) {token : Token} (mem : token ∈ Selector.tokens selector) :
    ((token.image scheme).category? = some .classes → after.HasClass (token.image scheme).name) ∧
      ((token.image scheme).category? = some .ids →
        ∃ name, (name, (token.image scheme).name) ∈ after.ids.entries) := by
  cases recorded : token.record? scheme.switches with
  | none =>
    rw [Token.image_of_record?_none recorded, category?_eq_none elements classes ids recorded]
    exact ⟨nofun, nofun⟩
  | some entry =>
    obtain ⟨category, name⟩ := entry
    have entry : (name, scheme.scopedForm category name) ∈ (after.table category).entries := by
      have there : (category, name) ∈ Selector.names scheme.switches selector :=
        List.mem_filterMap.2 ⟨token, mem, recorded⟩
      rw [mapping, Stylesheet.mem_entries_iff, Stylesheet.find?_foldl_record, if_pos there]
    have kind := (Token.record?_eq_some_iff.1 recorded).1
    rw [Token.image_of_record? recorded, Token.name_withName, Token.category_withName kind]
    rcases Token.known_of_category? kind with rfl | rfl | rfl
    · exact ⟨fun _ => ⟨.elements, name, .inl rfl, entry⟩, nofun⟩
    · exact ⟨fun _ => ⟨.classes, name, .inr rfl, entry⟩, nofun⟩
    · exact ⟨nofun, fun _ => ⟨name, entry⟩⟩

end

end Plain

open Plain

/-- **Scoping and reading commute** for a plain list and a suffix for every name, exactly if no space is
peeled off a bare value and no two names merge.  Then what is read of the scoped list are the tokens of
the list, in order, each in its scoped form; no scoped name stays, different names stay different, and
the classes and ids of the scoped list are recorded. -/
theorem rewritesTokens_iff (switches : Switches) (asterisk : Name) {digits : Text}
    (alphanum : ∀ c ∈ digits, c.isAlphanum) (list : PlainList) (ledger : Ledger) :
    ∃ after out, Selector.scopeList (.suffixed switches asterisk.text digits) list.text ledger =
        .ok (after, out) ∧
      (RewritesTokens (.suffixed switches asterisk.text digits) list.text out after.mapping ↔
        (∀ item ∈ list.items, ¬ item.PeelsToSpace switches) ∧
          NoneMerge asterisk.text (Selector.names switches list.text)) := by
  obtain ⟨after, done, -, mapping⟩ :=
    scopeList_plain switches asterisk.text id (Suffix.attach digits) list ledger
  refine ⟨after, _, done, ?_⟩
  have own := tokens_render list.compounds
  -- Tokens are compared item by item, because scoping never adds or takes away a token.
  have tokens_iff : Selector.tokens
        (list.items.flatMap (Item.scopedText (.suffixed switches asterisk.text digits))) =
          (Selector.tokens list.text).map (Token.image (.suffixed switches asterisk.text digits)) ↔
      ∀ item ∈ list.items, ¬ item.PeelsToSpace switches := by
    rw [tokens_scoped switches asterisk alphanum list.compounds, PlainList.text, own,
      List.map_filterMap, filterMap_eq_iff fun item => by simp [Item.reread]]
    exact forall₂_congr fun item _ => reread_eq_iff switches asterisk.text digits item
  have fixed : (Scheme.suffixed switches asterisk.text digits).Fixed := ⟨asterisk.text, rfl⟩
  have recorded := mapping.trans (foldl_record_items fixed list.compounds ledger.mapping)
  constructor
  · intro rewrites
    exact ⟨tokens_iff.1 rewrites.tokens,
      (separates_iff_noneMerge asterisk switches digits list.text).1 rewrites.apart⟩
  · rintro ⟨unpeeled, none⟩
    have tokens := tokens_iff.2 unpeeled
    refine ⟨tokens, ?_, (separates_iff_noneMerge asterisk switches digits list.text).2 none, ?_⟩
    · intro token mem records
      obtain ⟨⟨category, name⟩, records⟩ := Option.isSome_iff_exists.1 records
      rw [Token.image_of_record? records, Token.name_withName,
        (Token.record?_eq_some_iff.1 records).2.2]
      exact scopedForm_ne switches asterisk alphanum (List.mem_filterMap.2 ⟨token, mem, records⟩)
    · intro elements classes ids new mem
      obtain ⟨token, there, rfl⟩ := List.mem_map.1 (tokens ▸ mem)
      exact recorded_image recorded elements classes ids there

/-- A list in which a type, a class, an id and `*` get names of their own, the id as a bare value. -/
theorem rewritesTokens_card :
    (∀ c ∈ "1oN".toList, c.isAlphanum) ∧ ∃ list : PlainList, list.text = "div.card[id=top]>*".toList ∧
      ∃ after out, Selector.scopeList (.suffixed {} "__asterisk".toList "1oN".toList) list.text {} =
          .ok (after, out) ∧
        RewritesTokens (.suffixed {} "__asterisk".toList "1oN".toList) list.text out after.mapping := by
  have alphanum : ∀ c ∈ "1oN".toList, c.isAlphanum := List.all_eq_true.1 (by decide)
  refine ⟨alphanum, ⟨[.type "div".toList rfl,
    .ofClass ⟨"card".toList, by decide, List.all_eq_true.1 (by decide)⟩,
    .attr ⟨[], ⟨"id".toList, by decide, List.all_eq_true.1 (by decide)⟩, [],
      some ⟨none, [], none, "top".toList, [], by simp, by simp, by simp, List.all_eq_true.1 (by decide),
        by simp, fun _ => by simp [Text.isSpace]⟩, by simp, by simp⟩,
    .combinator '>' (by decide), .universal], by
      simp [Item.startsCompound, Item.endsCompound]⟩, rfl, ?_⟩
  obtain ⟨after, out, done, commute⟩ := rewritesTokens_iff {}
    ⟨"__asterisk".toList, by decide, List.all_eq_true.1 (by decide)⟩ alphanum ⟨_, _⟩ {}
  refine ⟨after, out, done, commute.2 ⟨?_, ?_⟩⟩
  · simp [Item.PeelsToSpace, bareName, Text.isSpace]
  · have names : Selector.names {} "div.card[id=top]>*".toList =
        [(.elements, "div".toList), (.classes, "card".toList), (.ids, "top".toList),
          (.elements, ['*'])] := by decide +kernel
    show NoneMerge _ (Selector.names {} "div.card[id=top]>*".toList)
    rw [names]
    refine ⟨fun type name mem mem' other => ?_, fun name _ mem => ?_, fun type _ mem other => ?_,
      fun name name' mem mem' _ => ?_, fun name name' mem mem' _ => ?_⟩
    · obtain rfl : type = "div".toList := by simpa [other] using mem
      obtain rfl : name = "card".toList := by simpa using mem'
      decide
    · obtain rfl : name = "card".toList := by simpa using mem
      decide
    · obtain rfl : type = "div".toList := by simpa [other] using mem
      decide
    · obtain rfl : name = "card".toList := by simpa using mem
      obtain rfl : name' = "card".toList := by simpa using mem'
      rfl
    · obtain rfl : name = "top".toList := by simpa using mem
      obtain rfl : name' = "top".toList := by simpa using mem'
      rfl

/-- Not all names stay different: the type and the class of this list become one class. -/
theorem not_rewritesTokens : ∃ list : PlainList, list.text = "a.a_el".toList ∧ ∃ after,
    Selector.scopeList (.suffixed {} "__asterisk".toList "1oN".toList) list.text {} =
        .ok (after, ".a_el_1oN.a_el_1oN".toList) ∧
      ¬ RewritesTokens (.suffixed {} "__asterisk".toList "1oN".toList) list.text
        ".a_el_1oN.a_el_1oN".toList after.mapping := by
  have ok : Selector.scopeList (.suffixed {} "__asterisk".toList "1oN".toList) "a.a_el".toList {} =
      .ok (⟨(({} : Mapping).insert .elements "a".toList "a_el_1oN".toList).insert .classes
        "a_el".toList "a_el_1oN".toList, [], 0⟩, ".a_el_1oN.a_el_1oN".toList) := by decide +kernel
  have names : Selector.names {} "a.a_el".toList =
      [(.elements, "a".toList), (.classes, "a_el".toList)] := by decide +kernel
  refine ⟨⟨[.type "a".toList rfl,
    .ofClass ⟨"a_el".toList, by decide, List.all_eq_true.1 (by decide)⟩], by
      simp [Item.startsCompound]⟩, rfl, _, ok, fun rewrites => ?_⟩
  have same := rewrites.apart .elements .classes "a".toList "a_el".toList
    (names ▸ List.mem_cons_self) (names ▸ List.mem_cons_of_mem _ List.mem_cons_self) (by decide)
    (by decide)
  cases same.1

end ScopedCss
