import ScopedCss.Proofs.Stylesheet.Collisions
import ScopedCss.Proofs.Tree.Selectors

/-!
# Reading scoped selectors

A plain list with a suffix for every name is plain again: item by item, what stands in the place of an
item is an item (`exists_scoped`), so that a scoped list has the tokens of its items (`tokens_scoped`).

What is read of a scoped item is the item's token in scoped form, with one exception
(`reread_eq_iff`).  A scoped value keeps the spaces that stand behind a `.` or `#` left off, and in front
of a bare value spaces are not read as part of it.
-/
namespace ScopedCss

open Plain

/-! ### Tokens in scoped form -/

namespace Token

/-- The token with another name.  Types and `*` become classes. -/
def withName (new : Text) : Token → Token
  | ofId _ => ofId new
  | attributeValue onId _ => attributeValue onId new
  | _ => ofClass new

theorem name_withName (new : Text) (token : Token) : (token.withName new).name = new := by
  cases token <;> rfl

theorem category_withName {token : Token} {category : Category}
    (kind : token.category? = some category) (new : Text) :
    (token.withName new).category? = some (if category = .ids then .ids else .classes) := by
  cases token with
  | attributeValue onId value => cases onId <;> cases kind <;> rfl
  | pseudo name => cases kind
  | unknown text => cases kind
  | _ => cases kind; rfl

/-- A token of a category that is scoped with its scoped name, and any other token as it is. -/
def image (scheme : Scheme) (token : Token) : Token :=
  match token.record? scheme.switches with
  | some (category, name) => token.withName (scheme.scopedForm category name)
  | none => token

theorem image_of_record? {scheme : Scheme} {token : Token} {category : Category} {name : Text}
    (recorded : token.record? scheme.switches = some (category, name)) :
    token.image scheme = token.withName (scheme.scopedForm category name) := by
  rw [image, recorded]

theorem image_of_record?_none {scheme : Scheme} {token : Token}
    (none : token.record? scheme.switches = none) : token.image scheme = token := by
  rw [image, none]

/-- The token as it is read if its name stands behind spaces. -/
def trimmed : Token → Token
  | attributeValue onId value => attributeValue onId (Text.trimStart value)
  | token => token

end Token

/-! ### Scoped names -/

section
variable (switches : Switches) (asterisk digits : Text)

/-- Where every name gets the same suffix, a scoped name is a stem with the suffix. -/
theorem scopedForm_suffixed {category : Category}
    (known : category = .elements ∨ category = .classes ∨ category = .ids) (name : Text) :
    (Scheme.suffixed switches asterisk digits).scopedForm category name =
      Suffix.attach digits (bareName (category.stem asterisk name)) := by
  rw [← bareName_attach]
  rcases known with rfl | rfl | rfl <;> rfl

/-- A value in scoped form. -/
theorem Token.image_attributeValue (onId : Bool) (value : Text) :
    (attributeValue onId value).image (.suffixed switches asterisk digits) =
      .attributeValue onId (if switches.on (if onId then .ids else .classes) then
        Suffix.attach digits (bareName (if onId then value else joinWords value)) else value) := by
  cases on : switches.on (if onId then .ids else .classes) with
  | true =>
    rw [image_of_record? (record?_eq_some_iff.2 ⟨rfl, on, rfl⟩),
      scopedForm_suffixed switches asterisk digits (by cases onId <;> simp)]
    cases onId <;> rfl
  | false =>
    refine image_of_record?_none ?_
    rw [record?, category?]
    simp [Option.filter, Scheme.suffixed, on]

end

/-! ### Scoped items -/

/-- Something is left if the spaces are taken off the front of a text that ends in something else. -/
theorem Text.trimStart_ne_nil {t : Text} (nonempty : t ≠ [])
    (last : ∀ c ∈ t.getLast?, isSpace c = false) : trimStart t ≠ [] := fun blank => by
  have final := List.getLast?_eq_some_getLast nonempty
  have space := trimStart_eq_nil_iff.1 blank _ (List.getLast_mem nonempty)
  rw [last _ final] at space
  cases space

theorem Text.trimStart_eq_self_iff {t : Text} :
    trimStart t = t ↔ ∀ c ∈ t.head?, isSpace c = false := by
  rw [trimStart, List.dropWhile_eq_self_iff]
  cases t <;> simp

namespace Plain

namespace Comparison

/-- The comparison with another value.  The spaces at its front belong to the value only in quotes. -/
def withValue (c : Comparison) (new : Text) (nonempty : new ≠ []) (chars : ∀ d ∈ new, isValueChar d)
    (last : ∀ d ∈ new.getLast?, Text.isSpace d = false) : Comparison where
  operator := c.operator
  lead := if c.quote = none then c.lead ++ Text.leading new else c.lead
  quote := c.quote
  value := if c.quote = none then Text.trimStart new else new
  back := c.back
  isOperator := c.isOperator
  lead_spaces d mem := by
    split at mem
    · exact (List.mem_append.1 mem).elim (c.lead_spaces d) (Text.leading_spaces new d)
    · exact c.lead_spaces d mem
  isQuote := c.isQuote
  value_chars d mem := by
    split at mem
    · exact chars d ((List.dropWhile_sublist _).subset mem)
    · exact chars d mem
  back_spaces := c.back_spaces
  bare bare := by
    have some := Text.trimStart_ne_nil nonempty last
    rw [if_pos bare]
    refine ⟨fun e first => ?_, fun e final => last e ?_, fun blank => absurd blank some⟩
    · have stops := List.head?_dropWhile_not Text.isSpace new
      rw [Text.trimStart] at first
      rw [Option.mem_def.1 first] at stops
      simpa using stops
    · rwa [← Text.trimStart_append new, List.getLast?_append_of_ne_nil _ some]

end Comparison

namespace Attribute

/-- The characters around the value stay. -/
theorem text_withValue (a : Attribute) (c : Comparison) {new : Text} (nonempty : new ≠ [])
    (chars : ∀ d ∈ new, isValueChar d) (last : ∀ d ∈ new.getLast?, Text.isSpace d = false) :
    Attribute.text { a with comparison := some (c.withValue new nonempty chars last) } =
      a.around c new := by
  rw [text_eq_around _ rfl]
  cases quoted : c.quote with
  | none =>
    have whole := Text.trimStart_append new
    have split (t : Text) : new ++ t = Text.leading new ++ (Text.trimStart new ++ t) := by
      rw [← List.append_assoc, whole]
    simp [around, front, Comparison.withValue, quoted, Comparison.operatorText, split]
  | some q => simp [around, front, Comparison.withValue, quoted, Comparison.operatorText]

end Attribute

namespace Item

/-- Whether an item compares an attribute with a bare value. -/
def isBare : Item → Bool
  | attr a => a.comparison.any fun c => c.quote.isNone
  | _ => false

/-- The token that is read of a scoped item. -/
def reread (scheme : Scheme) (item : Item) : Option Token :=
  item.token?.map fun token =>
    if item.isBare then (token.image scheme).trimmed else token.image scheme

/-- An item in the place of another: compounds start and end as before. -/
structure Replaces (new old : Item) : Prop where
  starts : new.startsCompound → old.startsCompound
  ends : new.endsCompound = old.endsCompound

variable {scheme : Scheme}

/-- The record of an item is that of its token. -/
theorem record_eq_token (fixed : scheme.Fixed) (item : Item) :
    item.record? scheme = (item.token?.bind fun token => token.record? scheme.switches).map
      fun entry => (entry.1, entry.2, scheme.scopedForm entry.1 entry.2) := by
  rw [record_eq]
  cases own : item.token? with
  | none => rfl
  | some token =>
    have letters : ∀ name, token = .element name → name ≠ ['*'] := by
      rintro name rfl
      cases item with
      | type name' known =>
        cases own
        exact Selector.ne_asterisk_of_isElementName known
      | attr a =>
        obtain ⟨named, -, read⟩ := Option.bind_eq_some_iff.1 own
        rw [NamedAttribute.token?] at read
        split at read <;> cases read
      | _ => cases own
    rw [Option.bind_some, Option.bind_some, Token.renaming?_eq_record? fixed 0 letters,
      Option.map_map]
    rfl

/-- What becomes of an item that records a name, and what is read of it. -/
theorem scoped_of_record (fixed : scheme.Fixed) {item : Item} {token : Token}
    (own : item.token? = some token) {category : Category} {name : Text}
    (recorded : token.record? scheme.switches = some (category, name)) :
    item.scopedText scheme = item.normal.textWith (scheme.scopedForm category name) ∧
      item.reread scheme = some (if item.isBare then
        (token.withName (scheme.scopedForm category name)).trimmed
          else token.withName (scheme.scopedForm category name)) := by
  constructor
  · rw [scopedText, record_eq_token fixed, own, Option.bind_some, recorded]
    rfl
  · rw [reread, own, Option.map_some, Token.image_of_record? recorded]

theorem token_normal (item : Item) : item.normal.token? = item.token? := by
  cases item with
  | attr a =>
    have same := named_normal a
    rw [normal, token?, token?]
    cases first : a.normal.named? with
    | none =>
      rw [first, Option.map_none] at same
      rw [Option.map_eq_none_iff.1 same.symm]
    | some b =>
      rw [first, Option.map_some] at same
      obtain ⟨named, second, same⟩ := Option.map_eq_some_iff.1 same.symm
      obtain ⟨onId, value⟩ := Prod.mk.inj same
      rw [second, Option.bind_some, Option.bind_some, NamedAttribute.token?, NamedAttribute.token?,
        onId, value]
  | _ => rfl

theorem replaces_normal (item : Item) : item.normal.Replaces item :=
  ⟨fun starts => startsCompound_normal item ▸ starts, endsCompound_normal item⟩

/-- The token of an attribute selector that compares. -/
theorem token_of_comparison {a : Attribute} {c : Comparison} (compared : a.comparison = some c) :
    (attr a).token? =
      if c.value ≠ [] ∧ (a.name.text = "class".toList ∨ a.name.text = "id".toList) then
        some (.attributeValue (a.name.text = "id".toList) c.value)
      else none := by
  rw [token?, Attribute.named?, compared]
  dsimp only
  by_cases known : a.name.text = "class".toList ∨ a.name.text = "id".toList
  · rw [if_pos known, Option.bind_some, NamedAttribute.token?]
    by_cases empty : c.value = []
    · rw [if_pos (by rw [empty]; rfl), if_neg fun h => h.1 empty]
    · rw [if_neg (by simpa using empty), if_pos ⟨empty, known⟩]
  · rw [if_neg known, if_neg fun h => known h.2]
    rfl

/-- The comparison whose value an item's token is. -/
theorem comparison_of_token {a : Attribute} {token : Token} (own : (attr a).token? = some token) :
    ∃ c, a.comparison = some c ∧ c.value ≠ [] ∧
      (a.name.text = "class".toList ∨ a.name.text = "id".toList) ∧
      token = .attributeValue (a.name.text = "id".toList) c.value := by
  cases compared : a.comparison with
  | none =>
    rw [token?, Attribute.named?, compared] at own
    cases own
  | some c =>
    rw [token_of_comparison compared] at own
    split at own
    next known =>
      cases own
      exact ⟨c, rfl, known.1, known.2, rfl⟩
    next => cases own

/-- A bare value has no spaces at its front. -/
theorem trimmed_token {item : Item} (bare : item.isBare) {token : Token}
    (own : item.token? = some token) : token.trimmed = token := by
  cases item with
  | attr a =>
    obtain ⟨c, compared, -, -, rfl⟩ := comparison_of_token own
    have unquoted : c.quote = none := by simpa [isBare, compared] using bare
    rw [Token.trimmed]
    cases shape : c.value with
    | nil => rfl
    | cons d t =>
      rw [Text.trimStart_cons_of_not_space ((c.bare unquoted).1 d (by rw [shape]; rfl))]
  | _ => cases bare

/-- An item that records nothing is only normalised. -/
theorem exists_scoped_of_none (fixed : scheme.Fixed) {item : Item}
    (none : item.token?.bind (fun token => token.record? scheme.switches) = none) :
    ∃ new : Item, new.text = item.scopedText scheme ∧ new.Replaces item ∧
      new.token? = item.reread scheme := by
  refine ⟨item.normal, ?_, replaces_normal item, ?_⟩
  · rw [scopedText, record_eq_token fixed, none]
    rfl
  · rw [token_normal, reread]
    cases own : item.token? with
    | none => rfl
    | some token =>
      rw [own, Option.bind_some] at none
      rw [Option.map_some, Token.image_of_record?_none none]
      split
      next bare => rw [trimmed_token bare own]
      next => rfl

end Item

/-! ### Items with a suffix -/

theorem isValueChar_of_isNameChar {c : Char} (letter : isNameChar c) : isValueChar c := by
  have other (d : Char) (plain : isNameChar d = false) : c ≠ d := ne_of_isNameChar letter plain
  simp [isValueChar, Attribute.isQuote_of_isNameChar letter, other '[' rfl, other ']' rfl, other '(' rfl,
    other ')' rfl, other ',' rfl, other '\\' rfl]

/-- The name of a type with its marker. -/
def Name.ofType (name : Text) (letters : Token.isElementName name) : Name where
  text := name ++ Token.elementMarker
  nonempty := by simp [Token.elementMarker]
  plain c mem := by
    rcases List.mem_append.1 mem with mem | mem
    · simp [isNameChar, Selector.alphanum_of_isElementName letters c mem]
    · exact List.all_eq_true.1 (by decide : Token.elementMarker.all isNameChar) c mem

theorem bareName_name (name : Name) : bareName name.text = name.text :=
  bareName_of_head fun _ first =>
    have letter := name.plain _ (List.mem_of_mem_head? first)
    ⟨ne_of_isNameChar letter rfl, ne_of_isNameChar letter rfl⟩

section
variable (switches : Switches) (asterisk : Name) {digits : Text} (alphanum : ∀ c ∈ digits, c.isAlphanum)
include alphanum

theorem isNameChar_of_mem_suffix : ∀ c ∈ '_' :: digits, isNameChar c := by
  intro c mem
  rcases List.mem_cons.1 mem with rfl | mem
  · rfl
  · simp [isNameChar, alphanum c mem]

/-- A scoped name ends in the suffix, which has no spaces. -/
theorem getLast_attach (stem : Text) :
    ∀ c ∈ (Suffix.attach digits stem).getLast?, Text.isSpace c = false := by
  intro c mem
  rw [Suffix.attach, List.getLast?_append_of_ne_nil _ (by simp)] at mem
  exact isSpace_of_isNameChar (isNameChar_of_mem_suffix alphanum c (List.mem_of_mem_getLast? mem))

/-- The scoped form of a value can be a value. -/
theorem isValueChar_of_mem_scopedForm (onId : Bool) {value : Text}
    (chars : ∀ c ∈ value, isValueChar c) :
    ∀ c ∈ (Scheme.suffixed switches asterisk.text digits).scopedForm
      (if onId then .ids else .classes) value, isValueChar c := by
  have suffix (c : Char) (mem : c ∈ '_' :: digits) : isValueChar c :=
    isValueChar_of_isNameChar (isNameChar_of_mem_suffix alphanum c mem)
  intro c mem
  rw [scopedForm_suffixed switches _ _ (by cases onId <;> simp)] at mem
  rcases List.mem_append.1 mem with mem | mem
  · have inStem := (bareName_suffix _).subset mem
    cases onId with
    | true => exact chars c inStem
    | false =>
      rcases Token.mem_joinWords inStem with inside | rfl
      · exact chars c inside
      · rfl
  · exact suffix c mem

/-- A scoped attribute selector is an attribute selector. -/
theorem exists_scoped_attr (a : Attribute) {token : Token} (own : (Item.attr a).token? = some token)
    {category : Category} {name : Text} (recorded : token.record? switches = some (category, name)) :
    ∃ new : Item, new.text = (Item.attr a).scopedText (.suffixed switches asterisk.text digits) ∧
      new.Replaces (.attr a) ∧
      new.token? = (Item.attr a).reread (.suffixed switches asterisk.text digits) := by
  obtain ⟨c, compared, filled, known, rfl⟩ := Item.comparison_of_token own
  have fixed : (Scheme.suffixed switches asterisk.text digits).Fixed := ⟨asterisk.text, rfl⟩
  obtain ⟨text, read⟩ := Item.scoped_of_record fixed own recorded
  obtain ⟨kind, -, rfl⟩ := Token.record?_eq_some_iff.1 recorded
  have selector := Token.known_of_category? kind
  cases kind
  have chars := isValueChar_of_mem_scopedForm switches asterisk alphanum (a.name.text = "id".toList)
    c.value_chars
  have shape := scopedForm_suffixed switches asterisk.text digits selector c.value
  rw [text, read]
  dsimp only [Token.name]
  generalize (Scheme.suffixed switches asterisk.text digits).scopedForm
    (if decide (a.name.text = "id".toList) then .ids else .classes) c.value = new at chars shape
  clear text read
  -- Whatever is left off at its front, the new value ends in the suffix.
  have nonempty : new ≠ [] := by
    rw [shape]
    simp [Suffix.attach]
  have last : ∀ d ∈ new.getLast?, Text.isSpace d = false := by
    rw [shape]
    exact getLast_attach alphanum _
  refine ⟨.attr { a with
    comparison := some ((a.normalComparison c).withValue new nonempty chars last) },
    ?_, ⟨fun starts => starts, rfl⟩, ?_⟩
  · exact (a.text_withValue _ nonempty chars last).trans (a.textWith_normal compared new known).symm
  · rw [Item.isBare, compared, Option.any_some, Item.token?, Attribute.named?]
    simp only [if_pos known, Option.bind_some, NamedAttribute.token?, Comparison.withValue,
      a.quote_normalComparison]
    have filled' := Text.trimStart_ne_nil nonempty last
    cases quoted : c.quote with
    | none => simp [Token.withName, Token.trimmed, filled']
    | some q => simp [Token.withName, nonempty]

/-- A name with the suffix. -/
def Name.suffixed (name : Name) : Name where
  text := Suffix.attach digits name.text
  nonempty := by simp [Suffix.attach]
  plain c mem :=
    (List.mem_append.1 mem).elim (name.plain c) (isNameChar_of_mem_suffix alphanum c)

/-- Where the stem is a name, so is the scoped name. -/
theorem scopedForm_name {category : Category}
    (known : category = .elements ∨ category = .classes ∨ category = .ids) (name : Text) (stem : Name)
    (same : category.stem asterisk.text name = stem.text) :
    (Scheme.suffixed switches asterisk.text digits).scopedForm category name =
      (stem.suffixed alphanum).text := by
  rw [scopedForm_suffixed switches asterisk.text digits known, same, bareName_name]
  rfl

/-- **A scoped item is an item**, and what is read of it is its token in scoped form. -/
theorem exists_scoped (item : Item) :
    ∃ new : Item, new.text = item.scopedText (.suffixed switches asterisk.text digits) ∧
      new.Replaces item ∧ new.token? = item.reread (.suffixed switches asterisk.text digits) := by
  have fixed : (Scheme.suffixed switches asterisk.text digits).Fixed := ⟨asterisk.text, rfl⟩
  cases records : item.token?.bind fun token => token.record? switches with
  | none => exact Item.exists_scoped_of_none fixed records
  | some entry =>
    obtain ⟨category, name⟩ := entry
    obtain ⟨token, own, recorded⟩ := Option.bind_eq_some_iff.1 records
    obtain ⟨text, read⟩ := Item.scoped_of_record fixed own recorded
    obtain ⟨kind, -, rfl⟩ := Token.record?_eq_some_iff.1 recorded
    have known := Token.known_of_category? kind
    have named (stem : Name) := scopedForm_name switches asterisk alphanum known token.name stem
    cases item with
    | attr a => exact exists_scoped_attr switches asterisk alphanum a own recorded
    | type name letters =>
      cases own
      cases kind
      have stem : Category.stem asterisk.text .elements name = (Name.ofType name letters).text :=
        if_neg (Selector.ne_asterisk_of_isElementName letters)
      rw [text, read, named _ stem]
      exact ⟨.ofClass ((Name.ofType name letters).suffixed alphanum), rfl, ⟨nofun, rfl⟩, rfl⟩
    | universal =>
      cases own
      cases kind
      rw [text, read, named asterisk rfl]
      exact ⟨.ofClass (asterisk.suffixed alphanum), rfl, ⟨nofun, rfl⟩, rfl⟩
    | ofClass name =>
      cases own
      cases kind
      rw [text, read, named name (joinWords_name name)]
      exact ⟨.ofClass (name.suffixed alphanum), rfl, ⟨nofun, rfl⟩, rfl⟩
    | ofId name =>
      cases own
      cases kind
      rw [text, read, named name rfl]
      exact ⟨.ofId (name.suffixed alphanum), rfl, ⟨nofun, rfl⟩, rfl⟩
    | pseudo element name =>
      cases own
      cases recorded
    | function name selectors =>
      cases own
      cases recorded
    | _ => cases own

/-- **A scoped list is plain again**, and what is read of it are the tokens of its items in scoped
form. -/
theorem tokens_scoped {items : List Item}
    (compounds : items.IsChain fun item next => next.startsCompound → item.endsCompound) :
    Selector.tokens (items.flatMap (Item.scopedText (.suffixed switches asterisk.text digits))) =
      items.filterMap (Item.reread (.suffixed switches asterisk.text digits)) := by
  choose new text replaces read using exists_scoped switches asterisk alphanum
  have spelled : render (items.map new) =
      items.flatMap (Item.scopedText (.suffixed switches asterisk.text digits)) := by
    rw [render, List.flatMap_map]
    exact List.flatMap_congr fun item _ => text item
  have compounds' : (items.map new).IsChain fun item next => next.startsCompound → item.endsCompound := by
    rw [List.isChain_map]
    refine compounds.imp fun item next behind starts => ?_
    rw [(replaces item).ends]
    exact behind ((replaces next).starts starts)
  rw [← spelled, tokens_render compounds', List.filterMap_map]
  exact List.filterMap_congr fun item _ => read item

end

/-! ### Spaces that are peeled off -/

/-- If two functions keep the same elements, they give the same list only if they agree on each. -/
theorem filterMap_eq_iff {α β : Type} {f g : α → Option β} {l : List α}
    (same : ∀ a, (f a).isSome = (g a).isSome) :
    l.filterMap f = l.filterMap g ↔ ∀ a ∈ l, f a = g a := by
  refine ⟨fun whole => ?_, List.filterMap_congr⟩
  induction l with
  | nil => nofun
  | cons a l ih =>
    have here := same a
    cases left : f a with
    | none =>
      rw [left, Option.isSome_none, eq_comm, Option.isSome_eq_false_iff, Option.isNone_iff_eq_none] at here
      rw [List.filterMap_cons_none left, List.filterMap_cons_none here] at whole
      exact List.forall_mem_cons.2 ⟨left.trans here.symm, ih whole⟩
    | some b =>
      rw [left, Option.isSome_some] at here
      obtain ⟨c, right⟩ := Option.isSome_iff_exists.1 here.symm
      rw [List.filterMap_cons_some left, List.filterMap_cons_some right] at whole
      obtain ⟨same, rest⟩ := List.cons.inj whole
      exact List.forall_mem_cons.2 ⟨by rw [left, right, same], ih rest⟩

/-- A bare value of ids starts with a space once its `.` or `#` is left off. -/
def Item.PeelsToSpace (switches : Switches) : Item → Prop
  | .attr a => a.name.text = "id".toList ∧ switches.ids ∧
      ∃ c ∈ a.comparison, c.quote = none ∧ ∃ d ∈ (bareName c.value).head?, Text.isSpace d
  | _ => False

/-- A scoped name starts with a space if its stem does. -/
theorem trimStart_attach_iff (digits stem : Text) :
    Text.trimStart (Suffix.attach digits stem) = Suffix.attach digits stem ↔
      ∀ c ∈ stem.head?, Text.isSpace c = false := by
  rw [Text.trimStart_eq_self_iff]
  cases stem with
  | nil =>
    refine iff_of_true (fun c first => ?_) nofun
    cases first
    rfl
  | cons c stem => rfl

/-- What is read of a scoped item is its token in scoped form, unless a space is peeled off. -/
theorem reread_eq_iff (switches : Switches) (asterisk digits : Text) (item : Item) :
    item.reread (.suffixed switches asterisk digits) =
        item.token?.map (Token.image (.suffixed switches asterisk digits)) ↔
      ¬ item.PeelsToSpace switches := by
  rw [Item.reread]
  -- Only in front of a bare value are spaces not read as part of it.
  cases bare : item.isBare with
  | false =>
    refine iff_of_true rfl fun peels => ?_
    cases item with
    | attr a =>
      obtain ⟨-, -, c, compared, unquoted, -⟩ := peels
      rw [Item.isBare, compared, Option.any_some, unquoted] at bare
      cases bare
    | _ => cases peels
  | true =>
    obtain ⟨a, rfl⟩ : ∃ a, item = .attr a := by
      cases item with
      | attr a => exact ⟨a, rfl⟩
      | _ => cases bare
    obtain ⟨c, compared, unquoted⟩ : ∃ c, a.comparison = some c ∧ c.quote = none := by
      obtain ⟨c, compared, unquoted⟩ := (Option.any_eq_true ..).1 bare
      exact ⟨c, compared, by simpa using unquoted⟩
    have peels_iff : (Item.attr a).PeelsToSpace switches ↔ a.name.text = "id".toList ∧ switches.ids ∧
        ∃ d ∈ (bareName c.value).head?, Text.isSpace d := by
      simp [Item.PeelsToSpace, compared, unquoted]
    rw [Item.token_of_comparison compared, peels_iff]
    by_cases filled : c.value ≠ [] ∧ (a.name.text = "class".toList ∨ a.name.text = "id".toList)
    · rw [if_pos filled, Option.map_some, Option.map_some, Option.some.injEq, if_pos rfl,
        Token.image_attributeValue, Token.trimmed, Token.attributeValue.injEq]
      simp only [true_and]
      by_cases onId : a.name.text = "id".toList
      · simp only [onId, decide_true, if_true, true_and]
        cases on : switches.on .ids with
        | true =>
          rw [if_pos rfl, trimStart_attach_iff, show switches.ids = true from on]
          simp
        | false =>
          rw [show switches.ids = false from on]
          refine iff_of_true (Text.trimStart_eq_self_iff.2 (c.bare unquoted).1) nofun
      · -- The words of a class have no spaces, whatever is left off.
        refine iff_of_true ?_ fun peels => onId peels.1
        simp only [onId, decide_false, Bool.false_eq_true, if_false]
        cases on : switches.on .classes with
        | true =>
          rw [if_pos rfl, trimStart_attach_iff]
          exact fun d first => Token.isSpace_of_mem_joinWords
            ((bareName_suffix _).subset (List.mem_of_mem_head? first))
        | false => exact Text.trimStart_eq_self_iff.2 (c.bare unquoted).1
    · rw [if_neg filled]
      refine iff_of_true rfl fun ⟨onId, _, d, first, _⟩ => filled ⟨?_, .inr onId⟩
      intro empty
      rw [empty] at first
      cases first

end Plain
end ScopedCss
