import ScopedCss.Proofs.Stylesheet.Leaks

/-!
# Names that collide

Types, `*` and classes all become classes, so their scoped names share one namespace.  With the options
left as they are, each gets the suffix of the sheet, which keeps apart what was apart: two scoped names
are the same exactly if the suffix is attached to the same *stem* (`scopedForm_eq`).  The stem of a type
is its name with a marker, that of `*` a fixed name, that of a class its words with `_` between.

Types never collide with each other or with `*`.  A class collides with a type if it is called like the
type with its marker, with `*` if it is called like that, and with another class if both have the same
words, apart from `_` and white space.  Nothing else collides (`tellsApart_iff`).
-/
namespace ScopedCss

/-! ### Stems -/

theorem attach_inj {digits s t : Text} : Suffix.attach digits s = Suffix.attach digits t ↔ s = t :=
  List.append_left_inj _

/-- The stem of the class that a type, `*` or a class becomes. -/
def Category.classStem (category : Category) (name : Text) : Text :=
  bareName (category.stem "__asterisk".toList name)

/-- A scoped class is its stem with the suffix of the sheet. -/
theorem scopedForm_eq (source name : Text) {category : Category}
    (classes : category = .elements ∨ category = .classes) :
    (({} : Options).schemeFor source).scopedForm category name =
      Suffix.scope source (category.classStem name) := by
  rw [Suffix.scope, Category.classStem, ← bareName_attach]
  rcases classes with rfl | rfl <;> rfl

theorem bareName_of_isElementName {name more : Text} (letters : Token.isElementName name) :
    bareName (name ++ more) = name ++ more := by
  refine bareName_of_head fun c mem => ?_
  cases name with
  | nil => cases letters
  | cons d name =>
    cases mem
    have alpha : c.isAlpha := (Bool.and_eq_true_iff.1 letters).1
    constructor <;> rintro rfl <;> cases alpha

/-- The stem of a type is its name with the marker. -/
theorem bareName_stem_element (asterisk : Text) {name : Text} (letters : Token.isElementName name) :
    bareName (Category.stem asterisk .elements name) = name ++ Token.elementMarker := by
  rw [Category.stem, if_neg (Selector.ne_asterisk_of_isElementName letters),
    bareName_of_isElementName letters]

theorem classStem_element {name : Text} (letters : Token.isElementName name) :
    Category.classStem .elements name = name ++ Token.elementMarker := bareName_stem_element _ letters

/-- The name of `*` does not end in the marker of types. -/
theorem append_marker_ne_asterisk (name : Text) :
    name ++ Token.elementMarker ≠ "__asterisk".toList := by
  intro same
  have ends : Token.elementMarker <:+ "__asterisk".toList := ⟨name, same⟩
  exact absurd ends (by decide)

/-- The name of an element that a token of a selector records is `*` or that of a type. -/
theorem Selector.element_of_record? {switches : Switches} {selector name : Text} {token : Token}
    (known : token ∈ tokens selector) (recorded : token.record? switches = some (.elements, name)) :
    name = ['*'] ∨ Token.isElementName name := by
  obtain ⟨kind, -, rfl⟩ := Token.record?_eq_some_iff.1 recorded
  cases token with
  | element name => exact .inr (isElementName_of_mem_tokens known)
  | universal => exact .inl rfl
  | attributeValue onId value => cases onId <;> cases kind
  | _ => cases kind

/-- The name of an element in a sheet is `*` or that of a type. -/
theorem Stylesheet.element_of_mem_recordsOf {switches : Switches} {rule : Rule} {name : Text}
    (mem : (Category.elements, name) ∈ recordsOf switches rule) :
    name = ['*'] ∨ Token.isElementName name := by
  rw [recordsOf] at mem
  split at mem
  · split at mem
    · obtain ⟨_, -, same⟩ := Option.map_eq_some_iff.1 (Option.mem_toList.1 mem)
      cases same
    · split at mem
      · obtain ⟨_, -, same⟩ := List.mem_map.1 mem
        cases same
      · cases mem
  · obtain ⟨part, -, inside⟩ := List.mem_flatMap.1 mem
    obtain ⟨token, known, recorded⟩ := List.mem_filterMap.1 inside
    exact Selector.element_of_record? known recorded

/-! ### Names in one namespace -/

/-- Different names among those of elements and classes have different scoped names. -/
def Mapping.TellsApart (mapping : Mapping) : Prop :=
  ∀ category category' name name' new,
    (category = .elements ∨ category = .classes) → (category' = .elements ∨ category' = .classes) →
      (name, new) ∈ (mapping.table category).entries →
        (name', new) ∈ (mapping.table category').entries → category = category' ∧ name = name'

namespace Stylesheet

/-- No class among the names is called like a type with its marker or like `*`, and no two classes have
the same words. -/
structure NoneCollide (names : List (Category × Text)) : Prop where
  element : ∀ type name, (.elements, type) ∈ names → (.classes, name) ∈ names → type ≠ ['*'] →
    bareName (Token.joinWords name) ≠ type ++ "_el".toList
  universal : ∀ name, (.elements, ['*']) ∈ names → (.classes, name) ∈ names →
    bareName (Token.joinWords name) ≠ "__asterisk".toList
  classes : ∀ name name', (.classes, name) ∈ names → (.classes, name') ∈ names →
    bareName (Token.joinWords name) = bareName (Token.joinWords name') → name = name'

variable {source : Text} {result : Result}

/-- Different stems, different names: it is enough to compare stems. -/
theorem tellsApart_iff_stems (ok : scope {} source = .ok result) :
    result.mapping.TellsApart ↔ ∀ category category' name name',
      (category = .elements ∨ category = .classes) → (category' = .elements ∨ category' = .classes) →
        (category, name) ∈ (leaves (walked {} source)).flatMap (recordsOf {}) →
          (category', name') ∈ (leaves (walked {} source)).flatMap (recordsOf {}) →
            category.classStem name = category'.classStem name' →
              category = category' ∧ name = name' := by
  have entries := (records_of_scope ⟨"__asterisk".toList, rfl⟩ ok).1
  have recorded (category : Category) (name new : Text) :
      (name, new) ∈ (result.mapping.table category).entries ↔
        (category, name) ∈ (leaves (walked {} source)).flatMap (recordsOf {}) ∧
          new = (({} : Options).schemeFor source).scopedForm category name := by
    rw [entries, List.mem_flatMap]
  constructor
  · intro apart category category' name name' kind kind' mem mem' same
    refine apart category category' name name' _ kind kind' ((recorded _ _ _).2 ⟨mem, rfl⟩) ?_
    refine (recorded _ _ _).2 ⟨mem', ?_⟩
    rw [scopedForm_eq source name kind, scopedForm_eq source name' kind', same]
  · intro apart category category' name name' new kind kind' there there'
    obtain ⟨mem, form⟩ := (recorded _ _ _).1 there
    obtain ⟨mem', form'⟩ := (recorded _ _ _).1 there'
    refine apart category category' name name' kind kind' mem mem' ?_
    rw [scopedForm_eq source name kind] at form
    rw [scopedForm_eq source name' kind'] at form'
    exact attach_inj.1 (form.symm.trans form')

/-- **When names are told apart.**  With the options left as they are, different elements and classes of
a sheet get different scoped names exactly if no class is called like a type with its marker or like
`*`, and no two classes have the same words. -/
theorem tellsApart_iff (ok : scope {} source = .ok result) :
    result.mapping.TellsApart ↔
      NoneCollide ((leaves (walked {} source)).flatMap (recordsOf {})) := by
  rw [tellsApart_iff_stems ok]
  generalize names : (leaves (walked {} source)).flatMap (recordsOf {}) = all
  have element {name : Text} (mem : (.elements, name) ∈ all) :
      name = ['*'] ∨ Token.isElementName name := by
    rw [← names] at mem
    obtain ⟨rule, -, inside⟩ := List.mem_flatMap.1 mem
    exact element_of_mem_recordsOf inside
  constructor
  · intro apart
    constructor
    · intro type name mem mem' other same
      have letters := (element mem).resolve_left other
      have clash := apart .elements .classes type name (.inl rfl) (.inr rfl) mem mem'
        ((classStem_element letters).trans same.symm)
      cases clash.1
    · intro name mem mem' same
      cases (apart .elements .classes ['*'] name (.inl rfl) (.inr rfl) mem mem' same.symm).1
    · intro name name' mem mem' same
      exact (apart .classes .classes name name' (.inr rfl) (.inr rfl) mem mem' same).2
  · intro none category category' name name' kind kind' mem mem' same
    -- Between an element and a class there is one case for types and one for `*`.
    have mixed {type name : Text} (mem : (.elements, type) ∈ all) (mem' : (.classes, name) ∈ all)
        (same : Category.classStem .elements type = Category.classStem .classes name) : False := by
      rcases element mem with rfl | letters
      · exact none.universal name mem mem' same.symm
      · rw [classStem_element letters] at same
        exact none.element type name mem mem' (Selector.ne_asterisk_of_isElementName letters) same.symm
    rcases kind with rfl | rfl <;> rcases kind' with rfl | rfl
    · refine ⟨rfl, ?_⟩
      rcases element mem with rfl | letters <;> rcases element mem' with rfl | letters'
      · rfl
      · rw [classStem_element letters'] at same
        exact absurd same.symm (append_marker_ne_asterisk name')
      · rw [classStem_element letters] at same
        exact absurd same (append_marker_ne_asterisk name)
      · rw [classStem_element letters, classStem_element letters'] at same
        exact List.append_cancel_right same
    · exact (mixed mem mem' same).elim
    · exact (mixed mem' mem same.symm).elim
    · exact ⟨rfl, none.classes name name' mem mem' same⟩

/-- A type and the class of the same name are told apart, and so is `*`. -/
theorem tellsApart_sameName :
    ∃ result, scope {} "div .div,*\x7b\x7d".toList = .ok result ∧ result.mapping.TellsApart := by
  have ok : scope {} "div .div,*\x7b\x7d".toList = .ok
      ⟨".div_el_4F1g39 .div_4F1g39,.__asterisk_4F1g39\x7b\x7d".toList,
        ((({} : Mapping).insert .elements "div".toList "div_el_4F1g39".toList).insert .classes
          "div".toList "div_4F1g39".toList).insert .elements "*".toList "__asterisk_4F1g39".toList,
        []⟩ := by decide +kernel
  refine ⟨_, ok, (tellsApart_iff ok).2 ?_⟩
  have names : (leaves (walked {} "div .div,*\x7b\x7d".toList)).flatMap (recordsOf {}) =
      [(.elements, "div".toList), (.classes, "div".toList), (.elements, ['*'])] := by decide +kernel
  rw [names]
  refine ⟨fun type name mem mem' other => ?_, fun name _ mem => ?_, fun name name' mem mem' _ => ?_⟩
  · obtain rfl : name = "div".toList := by simpa using mem'
    obtain rfl : type = "div".toList := by simpa [other] using mem
    decide
  · obtain rfl : name = "div".toList := by simpa using mem
    decide
  · obtain rfl : name = "div".toList := by simpa using mem
    obtain rfl : name' = "div".toList := by simpa using mem'
    rfl

/-- Not all names are told apart: here a class is called like a type with its marker, and both become
one class. -/
theorem not_tellsApart :
    ∃ result, scope {} "a .a_el\x7b\x7d".toList = .ok result ∧ ¬ result.mapping.TellsApart := by
  refine ⟨⟨".a_el_1HgKtd .a_el_1HgKtd\x7b\x7d".toList,
    (({} : Mapping).insert .elements "a".toList "a_el_1HgKtd".toList).insert .classes
      "a_el".toList "a_el_1HgKtd".toList, []⟩, by decide +kernel, fun apart => ?_⟩
  have same := apart .elements .classes "a".toList "a_el".toList "a_el_1HgKtd".toList (.inl rfl)
    (.inr rfl) (by decide) (by decide)
  cases same.1

end Stylesheet
end ScopedCss
