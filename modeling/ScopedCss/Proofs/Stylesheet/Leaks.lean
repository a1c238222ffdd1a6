import ScopedCss.Proofs.Plain.Renaming
import ScopedCss.Proofs.Stylesheet.Records
import ScopedCss.Proofs.Text.Patches
import ScopedCss.Proofs.Text.WordFree
import ScopedCss.Proofs.Tree.AtRules

/-!
# Marks that get out

A pass works on a text with marks in it, and it records names and warns of fragments while they are
there.  Nobody outside should see a mark: not in the mapping, and not in a warning.

Classes, ids and types have no marks in their names, whatever the sheet is: no `%` stands in them, and
what follows a `.` or a `#` follows it in the sheet.  The names of keyframes and the values of
attributes are recorded as they stand between marks, and a warning shows a whole selector.  So a mark
gets out exactly where one stands in these (`leaksNothing_iff`).
-/
namespace ScopedCss

open Quoted

/-! ### Texts without marks -/

/-- The words of marks: the mark of a comment, the mark of a block, and the word in all others. -/
def Mark.words : List Text := [comment, block, word]

/-- No word of marks stands in the text. -/
def Unmarked (t : Text) : Prop := ∀ w ∈ Mark.words, ¬ w <:+: t

instance (t : Text) : Decidable (Unmarked t) :=
  inferInstanceAs (Decidable (∀ w ∈ Mark.words, ¬ w <:+: t))

namespace Unmarked

theorem part {s t : Text} (h : Unmarked t) (inside : s <:+: t) : Unmarked s :=
  fun w known there => h w known (there.trans inside)

theorem wordFree {t : Text} (h : Unmarked t) : WordFree t := h Mark.word (by simp [Mark.words])

/-- Without `%` there is only one word to look for. -/
theorem of_no_percent {t : Text} (clean : '%' ∉ t) (free : WordFree t) : Unmarked t := by
  intro w known inside
  simp only [Mark.words, List.mem_cons, List.not_mem_nil, or_false] at known
  rcases known with rfl | rfl | rfl
  · exact clean (inside.subset (by decide))
  · exact clean (inside.subset (by decide))
  · exact free inside

/-- A suffix brings no mark with it, and takes none away. -/
theorem attach_iff {s digits : Text} (alphanum : ∀ c ∈ digits, c.isAlphanum)
    (few : digits.length ≤ 10) : Unmarked (Suffix.attach digits s) ↔ Unmarked s := by
  refine ⟨fun h => h.part (List.prefix_append s _).isInfix, fun h => ?_⟩
  have clean : '%' ∉ '_' :: digits := by
    intro mem
    rcases List.mem_cons.1 mem with same | mem
    · cases same
    · exact absurd (alphanum _ mem) (by decide)
  -- A mark that ends in the suffix would end in its `%` there.
  have whole {m : Text} (ends : m.getLast? = some '%') (outside : ¬ m <:+: s) :
      ¬ m <:+: Suffix.attach digits s := by
    have last {back : Text} (nonempty : back ≠ []) (tail : back <:+ m) : '%' ∈ back := by
      obtain ⟨front, rfl⟩ := tail
      rw [List.getLast?_append_of_ne_nil _ nonempty] at ends
      exact List.mem_of_getLast? ends
    have nonempty : m ≠ [] := by
      rintro rfl
      cases ends
    intro inside
    rcases infix_append_cases inside with before | after | ⟨front, back, split, some, -, start⟩
    · exact outside before
    · exact clean (after.subset (last nonempty List.suffix_rfl))
    · exact clean (start.subset (last some ⟨front, split.symm⟩))
  intro w known
  simp only [Mark.words, List.mem_cons, List.not_mem_nil, or_false] at known
  rcases known with rfl | rfl | rfl
  · exact whole (by decide) (h _ (by simp [Mark.words]))
  · exact whole (by decide) (h _ (by simp [Mark.words]))
  · exact wordFree_attach h.wordFree alphanum few

/-- No mark starts with the `.` or `#` of a name. -/
theorem bareName_iff {t : Text} : Unmarked (bareName t) ↔ Unmarked t := by
  have sigil {c : Char} {name : Text} (foreign : ∀ w ∈ Mark.words, w.head? ≠ some c) :
      Unmarked name ↔ Unmarked (c :: name) := by
    refine ⟨fun h w known inside => ?_, fun h => h.part (List.suffix_cons c name).isInfix⟩
    rcases List.infix_cons_iff.1 inside with here | later
    · obtain ⟨d, rest, rfl⟩ := List.exists_cons_of_ne_nil (l := w) (by
        rintro rfl
        exact absurd known (by decide))
      exact foreign _ known (congrArg some (List.cons_prefix_cons.1 here).1)
    · exact h w known later
  unfold bareName
  split
  · exact sigil (by decide)
  · exact sigil (by decide)
  · rfl

end Unmarked

namespace Quoted

/-- What stands between characters that marks do not consist of is unshielded by itself. -/
theorem unshield_part {x y : Text} (left : ∀ c ∈ x.getLast?, Mark.isMarkChar c = false)
    (right : ∀ c ∈ y.head?, Mark.isMarkChar c = false) (t : Text) :
    unshield t <:+: unshield (x ++ (t ++ y)) := by
  have front : unshield t <+: unshield (t ++ y) := by
    cases y with
    | nil => rw [List.append_nil]
    | cons c y =>
      rw [unshield_append_cons (right c rfl)]
      exact List.prefix_append _ _
  rcases List.eq_nil_or_concat x with rfl | ⟨x, c, rfl⟩
  · exact front.isInfix
  · rw [List.concat_eq_append, List.append_assoc, List.singleton_append, unshield_append_cons
      (left c (by simp))]
    exact front.isInfix.trans ((List.suffix_cons c _).trans (List.suffix_append _ _)).isInfix

end Quoted

/-! ### Names as they are written -/

namespace Text

theorem trim_part (t : Text) : trim t <:+: t := by
  have front : trim t <+: trimStart t := ⟨trailing (trimStart t), trimEnd_append _⟩
  have behind : trimStart t <:+ t := ⟨leading t, trimStart_append t⟩
  exact front.isInfix.trans behind.isInfix

/-- What is joined stands between separators. -/
theorem exists_joinWith {c : Char} {pieces : List Text} {piece : Text} (mem : piece ∈ pieces) :
    ∃ before after, joinWith [c] pieces = before ++ (piece ++ after) ∧
      (∀ d ∈ before.getLast?, d = c) ∧ ∀ d ∈ after.head?, d = c := by
  induction pieces with
  | nil => cases mem
  | cons first pieces ih =>
    cases pieces with
    | nil =>
      rw [List.mem_singleton.1 mem]
      exact ⟨[], [], by simp [joinWith], by simp, by simp⟩
    | cons next pieces =>
      rw [joinWith_cons_cons]
      rcases List.mem_cons.1 mem with rfl | later
      · exact ⟨[], c :: joinWith [c] (next :: pieces), rfl, by simp, by simp⟩
      · obtain ⟨before, after, split, starts, ends⟩ := ih later
        refine ⟨first ++ c :: before, after, by rw [split]; simp, ?_, ends⟩
        intro d last
        cases before with
        | nil => simpa using last.symm
        | cons e before => exact starts d (by simpa using last)

end Text

theorem CommaList.infix_of_mem_entries {t part : Text} (mem : part ∈ entries t) : part <:+: t := by
  obtain ⟨piece, known, rfl⟩ := List.mem_map.1 (List.mem_filter.1 mem).1
  have whole := splitFrom_append 0 t
  have inside : piece <:+: t := by
    rcases List.mem_cons.1 known with rfl | later
    · exact List.IsPrefix.isInfix ⟨_, whole⟩
    · obtain ⟨before, after, pieces⟩ := List.append_of_mem later
      rw [pieces, List.flatMap_append, List.flatMap_cons] at whole
      refine ⟨(splitFrom 0 t).1 ++ before.flatMap (',' :: ·) ++ [','], after.flatMap (',' :: ·), ?_⟩
      conv => rhs; rw [← whole]
      simp
  exact (Text.trim_part piece).trans inside

namespace KeyframesSelector

/-- The name of keyframes is cut out of their selector between characters that marks do not consist
of. -/
structure CutsOut (t : Text) (selector : KeyframesSelector) : Prop where
  whole : selector.spell = t
  before : ∀ c ∈ (selector.start ++ selector.openingQuote).getLast?, Mark.isMarkChar c = false
  behind : ∀ c ∈ (selector.closingQuote ++ selector.back).head?, Mark.isMarkChar c = false

theorem splitName_spec (t : Text) :
    (splitName t).1 ++ ((splitName t).2.1 ++ (splitName t).2.2) = t ∧
      ∀ c ∈ ((splitName t).2.1 ++ (splitName t).2.2).head?, Mark.isMarkChar c = false := by
  have space {c : Char} {s : Text} (all : ∀ d ∈ s, Text.isSpace d) (mem : c ∈ s.head?) :
      Mark.isMarkChar c = false := Mark.isMarkChar_of_isSpace (all c (List.mem_of_mem_head? mem))
  have whole := Text.trimEnd_append t
  unfold splitName
  split
  next blank =>
    rw [blank, List.nil_append] at whole
    have spaces : ∀ d ∈ t.drop 1, Text.isSpace d := fun d inside =>
      Text.trailing_spaces t d (whole.symm ▸ List.mem_of_mem_drop inside)
    exact ⟨List.take_append_drop 1 t, fun c mem => space spaces mem⟩
  next body _ =>
    split
    next quoted =>
      obtain ⟨last, ends, isQuote⟩ := (Option.any_eq_true ..).1 quoted.2
      obtain ⟨init, body⟩ := List.getLast?_eq_some_iff.1 ends
      have cut : (init ++ [last]).drop ((init ++ [last]).length - 1) = [last] := by simp
      rw [body] at whole ⊢
      rw [List.dropLast_concat, cut]
      refine ⟨by simpa using whole, fun c mem => ?_⟩
      cases mem
      exact isMarkChar_of_isQuote isQuote
    next => exact ⟨whole, fun c mem => space (Text.trailing_spaces t) mem⟩

theorem cutsOut_of_ofText? {t : Text} {selector : KeyframesSelector}
    (read : ofText? t = some selector) : CutsOut t selector := by
  obtain ⟨word, known, found⟩ := List.exists_of_findSome?_eq_some read
  obtain ⟨rest, front, behind⟩ := Option.bind_eq_some_iff.1 found
  have split := Text.append_of_isPrefixOf? front
  have spaced := Text.trimStart_append rest
  have letters : ∀ c ∈ word, Mark.isMarkChar c = false := by
    have all : atWords.all (fun word => word.all fun c => !Mark.isMarkChar c) := by decide
    intro c mem
    simpa using List.all_eq_true.1 (List.all_eq_true.1 all word known) c mem
  -- Whatever is taken off the front consists of the word and spaces.
  have plain {s : Text} (spaces : ∀ c ∈ s, Text.isSpace c) :
      ∀ c ∈ (word ++ s).getLast?, Mark.isMarkChar c = false := by
    intro c last
    rcases List.mem_append.1 (List.mem_of_getLast? last) with mem | mem
    · exact letters c mem
    · exact Mark.isMarkChar_of_isSpace (spaces c mem)
  have leading := Text.leading_spaces rest
  simp only at behind
  rw [split]
  clear split front found read known
  generalize Text.leading rest = spaces at spaced leading behind
  split at behind
  next blank =>
    rw [blank, List.append_nil] at spaced
    split at behind
    next several =>
      cases behind
      refine ⟨?_, ?_, by simp⟩
      · have last : spaces.dropLast ++ spaces.drop (spaces.length - 1) = rest := by
          rw [List.dropLast_eq_take, List.take_append_drop, spaced]
        rw [← last]
        simp [spell]
      · rw [List.append_nil]
        exact plain fun c mem => leading c (List.dropLast_subset _ mem)
    next => cases behind
  next c inside more =>
    rw [more] at spaced
    rw [← spaced]
    split at behind
    next => cases behind
    next =>
      cases quoted : Text.isQuote c && !inside.isEmpty with
      | true =>
        simp only [quoted, if_true] at behind
        have name := splitName_spec inside
        cases behind
        refine ⟨by simpa [spell] using name.1, ?_, name.2⟩
        have isQuote : Text.isQuote c := (Bool.and_eq_true_iff.1 quoted).1
        simpa using isMarkChar_of_isQuote isQuote
      | false =>
        simp only [quoted, Bool.false_eq_true, if_false] at behind
        have name := splitName_spec (c :: inside)
        cases behind
        refine ⟨by simpa [spell] using name.1, ?_, name.2⟩
        rw [List.append_nil]
        exact plain leading

end KeyframesSelector

namespace Stylesheet

/-- A rule has a name in its text as the sheet has it, with its strings unshielded.  The name of a type
consists of letters and digits, of which none is ever shielded; that of a family is a value without its
quotes and the spaces around it. -/
def Writes (rule : Rule) : Category → Text → Prop
  | .elements, name => name <:+: rule.selector
  | .fontFaces, name => ∃ value, value <:+: unshield rule.content ∧ FontFamily.nameOf value = name
  | _, name => name <:+: unshield rule.selector

/-- A rule writes the name of its keyframes, if no mark stands in it. -/
theorem writes_keyframes {rule : Rule} {selector : KeyframesSelector}
    (read : KeyframesSelector.ofText? rule.selector = some selector) (free : WordFree selector.name) :
    Writes rule .keyframes selector.name := by
  have cuts := KeyframesSelector.cutsOut_of_ofText? read
  have inside := unshield_part cuts.before cuts.behind selector.name
  rw [unshield_of_wordFree free] at inside
  show selector.name <:+: unshield rule.selector
  have whole : selector.start ++ selector.openingQuote ++
      (selector.name ++ (selector.closingQuote ++ selector.back)) = rule.selector := by
    rw [← cuts.whole]
    simp [KeyframesSelector.spell]
  rwa [whole] at inside

/-- The value of a declaration stands behind a colon and between spaces. -/
theorem exists_of_ofPiece? {piece : Text} {declaration : Declaration}
    (read : Declaration.ofPiece? piece = some declaration) :
    ∃ before after, piece = before ++ (declaration.value ++ after) ∧ before ≠ [] ∧
      (∀ c ∈ before.getLast?, c = ':' ∨ Text.isSpace c) ∧ ∀ c ∈ after, Text.isSpace c := by
  have whole : piece.takeWhile (· != ':') ++ piece.dropWhile (· != ':') = piece :=
    List.takeWhile_append_dropWhile
  unfold Declaration.ofPiece? at read
  split at read
  next raw behind =>
    dsimp only at read
    split at read
    next => cases read
    next =>
      cases read
      refine ⟨piece.takeWhile (· != ':') ++ ':' :: Text.leading raw,
        Text.trailing (Text.trimStart raw), ?_, by simp, fun c last => ?_, Text.trailing_spaces _⟩
      · conv => lhs; rw [← whole, behind, ← Text.trim_append raw]
        simp
      · rw [List.getLast?_append_of_ne_nil _ (List.cons_ne_nil _ _)] at last
        rcases List.mem_cons.1 (List.mem_of_getLast? last) with colon | space
        · exact .inl colon
        · exact .inr (Text.leading_spaces raw c space)
  next => cases read

/-- A rule writes the families it declares. -/
theorem writes_family {rule : Rule} {name : Text} (mem : name ∈ FontFamily.declaredIn rule.content) :
    Writes rule .fontFaces name := by
  obtain ⟨piece, known, declared⟩ := List.mem_filterMap.1 (List.mem_filter.1 mem).1
  obtain ⟨declaration, read, family⟩ := Option.bind_eq_some_iff.1 declared
  by_cases property : declaration.property = "font-family".toList
  · rw [if_pos property] at family
    refine ⟨unshield declaration.value, ?_, Option.some.inj family⟩
    obtain ⟨front, back, content, -, ends⟩ := Text.exists_joinWith (c := ';') known
    rw [Text.joinWith, List.intercalate_splitOn] at content
    obtain ⟨before, after, cut, nonempty, starts, spaces⟩ := exists_of_ofPiece? read
    have inside : unshield declaration.value <:+:
        unshield (front ++ before ++ (declaration.value ++ (after ++ back))) := by
      refine unshield_part (fun c last => ?_) (fun c first => ?_) _
      · rw [List.getLast?_append_of_ne_nil _ nonempty] at last
        rcases starts c last with rfl | space
        · rfl
        · exact Mark.isMarkChar_of_isSpace space
      · cases after with
        | nil =>
          rw [ends c first]
          rfl
        | cons d after =>
          cases first
          exact Mark.isMarkChar_of_isSpace (spaces _ List.mem_cons_self)
    rw [content, cut]
    simpa using inside
  · rw [if_neg property] at family
    exact absurd family (by simp)

end Stylesheet

/-! ### Scoped names -/

/-- The choices that add a suffix to every name, with one name for `*`. -/
def Scheme.suffixed (switches : Switches) (asterisk digits : Text) : Scheme where
  switches
  asteriskName := .literal asterisk
  elementName := id
  scope := Suffix.attach digits

/-- A name that starts with neither is left as it is. -/
theorem bareName_of_head {name : Text} (plain : ∀ c ∈ name.head?, c ≠ '.' ∧ c ≠ '#') :
    bareName name = name := by
  rw [bareName.eq_def]
  split
  next => exact absurd rfl (plain '.' rfl).1
  next => exact absurd rfl (plain '#' rfl).2
  next => rfl

/-- A suffix is appended behind the `.` or `#` that is left off. -/
theorem bareName_attach (digits name : Text) :
    bareName (Suffix.attach digits name) = Suffix.attach digits (bareName name) := by
  rw [bareName.eq_def name]
  split
  next => rfl
  next => rfl
  next full hash =>
    refine bareName_of_head fun c mem => ?_
    cases name with
    | nil =>
      cases mem
      decide
    | cons d name =>
      cases mem
      exact ⟨fun same => full name (by rw [same]), fun same => hash name (by rw [same])⟩

/-- What the suffix of a name is attached to. -/
def Category.stem (asterisk : Text) : Category → Text → Text
  | .elements, name => if name = ['*'] then asterisk else name ++ Token.elementMarker
  | .classes, name => Token.joinWords name
  | _, name => name

/-- A mark stands in a scoped name if it stands in what the suffix is attached to. -/
theorem unmarked_scopedForm_iff (switches : Switches) (asterisk : Text) {digits : Text}
    (alphanum : ∀ c ∈ digits, c.isAlphanum) (few : digits.length ≤ 10) (category : Category)
    (name : Text) :
    Unmarked ((Scheme.suffixed switches asterisk digits).scopedForm category name) ↔
      Unmarked (category.stem asterisk name) := by
  have bare (t : Text) : Unmarked (bareName (Suffix.attach digits t)) ↔ Unmarked t :=
    Unmarked.bareName_iff.trans (Unmarked.attach_iff alphanum few)
  cases category with
  | elements => exact bare _
  | classes => exact bare _
  | ids => exact bare _
  | keyframes => exact Unmarked.attach_iff alphanum few
  | fontFaces => exact Unmarked.attach_iff alphanum few

/-- A name is recorded as a rule writes it, and there is no mark in it or in what it is scoped to. -/
structure RecordedPlainly (asterisk : Text) (rule : Rule) (category : Category) (name : Text) :
    Prop where
  unmarked : Unmarked name
  stem : Unmarked (category.stem asterisk name)
  written : Stylesheet.Writes rule category name

theorem Text.isSpace_of_isIdentChar {c : Char} (ident : isIdentChar c) : isSpace c = false := by
  have none : ∀ n ∈ [9, 10, 11, 12, 13, 0x20, 0x85, 0xA0, 0x1680, 0x2000, 0x2001, 0x2002, 0x2003,
      0x2004, 0x2005, 0x2006, 0x2007, 0x2008, 0x2009, 0x200A, 0x2028, 0x2029, 0x202F, 0x205F, 0x3000],
      isIdentChar (Char.ofNat n) = false := by decide +kernel
  by_contra space
  have known := none c.toNat (by
    rw [Bool.not_eq_false] at space
    simp only [isSpace, Bool.or_eq_true, Bool.and_eq_true, decide_eq_true_eq, beq_iff_eq] at space
    simp only [List.mem_cons, List.not_mem_nil, or_false]
    omega)
  rw [Char.ofNat_toNat, ident] at known
  cases known

theorem startsPatch_of_isIdentChar {c : Char} (ident : Text.isIdentChar c) : startsPatch c = false := by
  by_contra starts
  rw [Bool.not_eq_false, startsPatch, Bool.or_eq_true, beq_iff_eq, beq_iff_eq] at starts
  rcases starts with rfl | rfl
  · exact absurd ident (by decide)
  · exact absurd ident (by decide)

namespace Selector
variable {switches : Switches} {asterisk sheet part : Text} {rule : Rule}

/-- No mark gets out with the tokens of a part: an unknown fragment is shown with the whole part, a
value is recorded as it stands there, and `*` has a name of its own. -/
structure KeepsMarks (switches : Switches) (asterisk : Text) (rule : Rule) (part : Text) : Prop where
  unknown : ∀ text, .unknown text ∈ tokens (NamedAttribute.normalise part) →
    Unmarked (NamedAttribute.normalise part)
  universal : .universal ∈ tokens (NamedAttribute.normalise part) → switches.elements →
    Unmarked asterisk
  value : ∀ onId value, .attributeValue onId value ∈ tokens (NamedAttribute.normalise part) →
    switches.on (if onId then .ids else .classes) →
      RecordedPlainly asterisk rule (if onId then .ids else .classes) value

/-- The name of a class or an id has no mark in it. -/
theorem recordedPlainly_ident (derived : Derived sheet rule.selector) (free : WordFree sheet)
    (inside : part <:+: rule.selector) {sigil : Char} {u name : Text}
    (kind : sigil = '.' ∨ sigil = '#') (there : u <:+: NamedAttribute.normalise part)
    (read : Fragment.read u = some (sigil :: name)) :
    Unmarked name ∧ Unmarked (Token.joinWords name) ∧ name <:+: unshield rule.selector := by
  have ident := isIdentChar_of_read kind read
  have clean : ∀ c ∈ name, startsPatch c = false := fun c mem =>
    startsPatch_of_isIdentChar (ident c mem)
  have percent : '%' ∉ name := fun mem => absurd (ident _ mem) (by decide)
  have plain : isPatchChar sigil = false ∧ Mark.isMarkChar sigil = false := by
    rcases kind with rfl | rfl
    · decide
    · decide
  have here : sigil :: name <:+: rule.selector :=
    (derived_normalise part sigil name plain.1 clean
      ((Fragment.front_of_read read).1.isInfix.trans there)).trans inside
  have inSheet : name <:+: sheet :=
    (List.suffix_cons sigil name).isInfix.trans (derived sigil name plain.1 clean here)
  have unmarked : Unmarked name := .of_no_percent percent (free.part inSheet)
  refine ⟨unmarked, ?_, ?_⟩
  · rwa [Token.joinWords_of_solid fun c mem => Text.isSpace_of_isIdentChar (ident c mem)]
  · obtain ⟨before, after, split⟩ := here
    rw [← split, List.append_assoc, List.cons_append, unshield_append_cons plain.2,
      unshield_append_of_no_percent percent]
    exact ⟨unshield before ++ [sigil], unshield after, by simp⟩

/-- The name of a type consists of letters and digits. -/
theorem recordedPlainly_element (inside : part <:+: rule.selector) {u name : Text}
    (there : u <:+: NamedAttribute.normalise part) (read : Fragment.read u = some name)
    (letters : Token.isElementName name) : RecordedPlainly asterisk rule .elements name := by
  have alphanum := alphanum_of_isElementName letters
  have absent {c : Char} (other : c.isAlphanum = false) : c ∉ name := fun mem => by
    rw [alphanum c mem] at other
    cases other
  have free : WordFree name := fun word => absent rfl (word.subset (show '_' ∈ Mark.word by decide))
  have unmarked : Unmarked name := .of_no_percent (absent rfl) free
  refine ⟨unmarked, ?_, ?_⟩
  · have marked : Unmarked (Suffix.attach "el".toList name) :=
      (Unmarked.attach_iff (List.all_eq_true.1 (by decide)) (by decide)).2 unmarked
    rw [Category.stem, if_neg (ne_asterisk_of_isElementName letters)]
    exact marked
  · have here := (Fragment.front_of_read read).1.isInfix.trans there
    cases name with
    | nil => cases letters
    | cons c name =>
      have clean : ∀ d ∈ name, startsPatch d = false := fun d mem =>
        startsPatch_of_isIdentChar
          (by simp [Text.isIdentChar, Text.isWordChar_of_isAlphanum (alphanum d (.tail c mem))])
      have other : c ≠ '~' := by
        rintro rfl
        exact absent rfl List.mem_cons_self
      exact ((NamedAttribute.patched_normalise part).of_part (beq_eq_false_iff_ne.2 other)
        clean here).trans inside

/-- The name `*` is written wherever there is a universal selector. -/
theorem recordedPlainly_universal (inside : part <:+: rule.selector) {u : Text}
    (there : u <:+: NamedAttribute.normalise part) (read : Fragment.read u = some ['*'])
    (unmarked : Unmarked asterisk) : RecordedPlainly asterisk rule .elements ['*'] := by
  refine ⟨by decide, unmarked, ?_⟩
  have here := (Fragment.front_of_read read).1.isInfix.trans there
  exact ((NamedAttribute.patched_normalise part).of_part (by decide) (by simp) here).trans inside

/-- If no mark gets out with a part, then what is recorded for a token of it is recorded plainly. -/
theorem KeepsMarks.recordedPlainly (keeps : KeepsMarks switches asterisk rule part)
    (derived : Derived sheet rule.selector) (free : WordFree sheet)
    (inside : part <:+: rule.selector) {token : Token} {category : Category}
    (known : token ∈ tokens (NamedAttribute.normalise part))
    (kind : token.category? = some category) (on : switches.on category) :
    RecordedPlainly asterisk rule category token.name := by
  rcases mem_tokens_cases known with ⟨onId, value, rfl⟩ | ⟨u, there, read, ofText⟩
  · cases kind
    exact keeps.value onId value known on
  · cases token with
    | element name =>
      cases kind
      exact recordedPlainly_element inside there read (isElementName_of_ofText ofText)
    | universal =>
      cases kind
      exact recordedPlainly_universal inside there read (keeps.universal known on)
    | ofClass name =>
      cases kind
      obtain ⟨unmarked, joined, written⟩ :=
        recordedPlainly_ident derived free inside (.inl rfl) there read
      exact ⟨unmarked, joined, written⟩
    | ofId name =>
      cases kind
      obtain ⟨unmarked, -, written⟩ :=
        recordedPlainly_ident derived free inside (.inr rfl) there read
      exact ⟨unmarked, unmarked, written⟩
    | attributeValue onId value =>
      cases kind
      exact keeps.value onId value known on
    | pseudo name => cases kind
    | unknown text => cases kind

/-- If no mark gets out with a part, then none is in what it is warned of for it. -/
theorem KeepsMarks.unmarked_warning (keeps : KeepsMarks switches asterisk rule part)
    {warning : Warning} (mem : warning ∈ warningsOf part) :
    Unmarked warning.token ∧ Unmarked warning.selector := by
  obtain ⟨token, known, warned⟩ := List.mem_flatMap.1 mem
  cases token with
  | unknown text =>
    rw [List.mem_singleton.1 warned]
    have whole := keeps.unknown text known
    rcases mem_tokens_cases known with ⟨_, _, same⟩ | ⟨u, there, read, -⟩
    · cases same
    · exact ⟨whole.part ((Fragment.front_of_read read).1.isInfix.trans there), whole⟩
  | _ => cases warned

/-- No mark gets out with a part exactly if what is recorded and warned of for it has none. -/
theorem keepsMarks_iff (switches : Switches) (asterisk : Text)
    (derived : Derived sheet rule.selector) (free : WordFree sheet) (inside : part <:+: rule.selector) :
    KeepsMarks switches asterisk rule part ↔
      (∀ entry ∈ recordsOf switches part, RecordedPlainly asterisk rule entry.1 entry.2) ∧
        ∀ warning ∈ warningsOf part, Unmarked warning.token ∧ Unmarked warning.selector := by
  have recorded {token : Token} {category : Category}
      (mem : token ∈ tokens (NamedAttribute.normalise part))
      (kind : token.category? = some category) (on : switches.on category) :
      (category, token.name) ∈ recordsOf switches part :=
    List.mem_filterMap.2 ⟨token, mem, Token.record?_eq_some_iff.2 ⟨kind, on, rfl⟩⟩
  constructor
  · refine fun keeps => ⟨?_, fun warning mem => keeps.unmarked_warning mem⟩
    rintro ⟨category, name⟩ mem
    obtain ⟨token, known, same⟩ := List.mem_filterMap.1 mem
    obtain ⟨kind, on, rfl⟩ := Token.record?_eq_some_iff.1 same
    exact keeps.recordedPlainly derived free inside known kind on
  · rintro ⟨names, warnings⟩
    constructor
    · intro text mem
      exact (warnings ⟨text, _⟩ (List.mem_flatMap.2 ⟨_, mem, List.mem_cons_self⟩)).2
    · exact fun mem on => (names _ (recorded mem rfl on)).stem
    · exact fun onId value mem on => names _ (recorded mem rfl on)

end Selector

namespace Stylesheet
variable {switches : Switches} {asterisk sheet source : Text} {rule : Rule} {stages : List Stage}

/-- No mark gets out with a rule that holds no rules: none stands in the name of its keyframes or in a
family it declares, and none gets out with the parts of its selector. -/
def KeepsMarks (switches : Switches) (asterisk : Text) (rule : Rule) : Prop :=
  if rule.isAtRule then ∀ entry ∈ recordsOf switches rule, Unmarked entry.2
  else ∀ part ∈ CommaList.entries rule.selector, Selector.KeepsMarks switches asterisk rule part

/-- What an at-rule records is recorded as the rule writes it, if no mark stands in it. -/
theorem recordedPlainly_of_isAtRule (isAt : rule.isAtRule) {entry : Category × Text}
    (mem : entry ∈ recordsOf switches rule) (unmarked : Unmarked entry.2) :
    RecordedPlainly asterisk rule entry.1 entry.2 := by
  rw [recordsOf, if_pos isAt] at mem
  split at mem
  next =>
    obtain ⟨selector, read, rfl⟩ := Option.map_eq_some_iff.1 (Option.mem_toList.1 mem)
    exact ⟨unmarked, unmarked, writes_keyframes read unmarked.wordFree⟩
  next =>
    split at mem
    next =>
      obtain ⟨name, known, rfl⟩ := List.mem_map.1 mem
      exact ⟨unmarked, unmarked, writes_family known⟩
    next => cases mem

/-- No mark gets out with a rule exactly if what is recorded and warned of for it has none. -/
theorem keepsMarks_iff (switches : Switches) (asterisk : Text)
    (derived : Derived sheet rule.selector) (free : WordFree sheet) :
    KeepsMarks switches asterisk rule ↔
      (∀ entry ∈ recordsOf switches rule, RecordedPlainly asterisk rule entry.1 entry.2) ∧
        ∀ warning ∈ warningsOf rule, Unmarked warning.token ∧ Unmarked warning.selector := by
  by_cases isAt : rule.isAtRule
  · rw [KeepsMarks, if_pos isAt, warningsOf, if_pos isAt]
    constructor
    · exact fun unmarked => ⟨fun entry mem => recordedPlainly_of_isAtRule isAt mem (unmarked entry mem),
        by simp⟩
    · exact fun plainly entry mem => (plainly.1 entry mem).unmarked
  · rw [KeepsMarks, if_neg isAt, recordsOf, if_neg isAt, warningsOf, if_neg isAt]
    have each (part : Text) (mem : part ∈ CommaList.entries rule.selector) :=
      Selector.keepsMarks_iff switches asterisk derived free (CommaList.infix_of_mem_entries mem)
    constructor
    · intro keeps
      constructor
      · intro entry mem
        obtain ⟨part, known, inside⟩ := List.mem_flatMap.1 mem
        exact ((each part known).1 (keeps part known)).1 entry inside
      · intro warning mem
        obtain ⟨part, known, inside⟩ := List.mem_flatMap.1 mem
        exact ((each part known).1 (keeps part known)).2 warning inside
    · rintro ⟨names, warnings⟩ part known
      refine (each part known).2 ⟨fun entry mem => ?_, fun warning mem => ?_⟩
      · exact names entry (List.mem_flatMap.2 ⟨part, known, mem⟩)
      · exact warnings warning (List.mem_flatMap.2 ⟨part, known, mem⟩)

/-- Options that leave the scoped names to the suffix of the sheet, with one name for `*`. -/
def suffixed (switches : Switches) (asterisk : Text) (stages : List Stage) : Options where
  switches
  asteriskName := .literal asterisk
  stages

/-- Nobody outside sees a mark: there is none in the mapping and none in a warning, and a name is
recorded as the rules that record it write it. -/
structure LeaksNothing (switches : Switches) (sheet : List Rule) (result : Result) : Prop where
  mapping : ∀ category name scopedName,
    (name, scopedName) ∈ (result.mapping.table category).entries → Unmarked name ∧ Unmarked scopedName
  warnings : ∀ warning ∈ result.warnings, Unmarked warning.token ∧ Unmarked warning.selector
  written : ∀ category name scopedName,
    (name, scopedName) ∈ (result.mapping.table category).entries →
      (∃ rule ∈ sheet, (category, name) ∈ recordsOf switches rule) ∧
        ∀ rule ∈ sheet, (category, name) ∈ recordsOf switches rule → Writes rule category name

/-- **When no mark gets out.**  For a text without the word of marks, nobody outside sees a mark
exactly if none gets out with a rule of the sheet: none stands in the name of keyframes, in a declared
family, in the value of a recorded attribute or in what its words make when they are joined, in a part
with an unknown fragment, or in the name of a `*` that stands somewhere, and the values are recorded as
they are written. -/
theorem leaksNothing_iff (free : WordFree ((suffixed switches asterisk stages).stage source))
    {result : Result} (ok : scope (suffixed switches asterisk stages) source = .ok result) :
    LeaksNothing switches (leaves (walked (suffixed switches asterisk stages) source)) result ↔
      ∀ rule ∈ leaves (walked (suffixed switches asterisk stages) source),
        KeepsMarks switches asterisk rule := by
  have fixed : ((suffixed switches asterisk stages).schemeFor source).Fixed := ⟨asterisk, rfl⟩
  obtain ⟨entries, warned⟩ := records_of_scope fixed ok
  have form := unmarked_scopedForm_iff switches asterisk
    (fun _ mem => Suffix.isAlphanum_of_mem_ofSource mem)
    ((Suffix.length_ofSource_le source).trans (by decide))
  have leaf (rule : Rule) (mem : rule ∈ leaves (walked (suffixed switches asterisk stages) source)) :=
    keepsMarks_iff switches asterisk
      ((derived_of_marked (Comment.patched_extract _)).trans (derived_of_mem_leaves mem)) free
  constructor
  · intro nothing rule mem
    refine (leaf rule mem).2 ⟨fun entry known => ?_, fun warning known => ?_⟩
    · have recorded := (entries entry.1 entry.2 _).2 ⟨⟨rule, mem, known⟩, rfl⟩
      have unmarked := nothing.mapping _ _ _ recorded
      exact ⟨unmarked.1, (form entry.1 entry.2).1 unmarked.2,
        (nothing.written _ _ _ recorded).2 rule mem known⟩
    · exact nothing.warnings warning (warned ▸ List.mem_flatMap.2 ⟨rule, mem, known⟩)
  · intro keeps
    constructor
    · intro category name scopedName recorded
      obtain ⟨⟨rule, mem, known⟩, rfl⟩ := (entries category name scopedName).1 recorded
      have plainly := ((leaf rule mem).1 (keeps rule mem)).1 _ known
      exact ⟨plainly.unmarked, (form category name).2 plainly.stem⟩
    · intro warning known
      rw [warned] at known
      obtain ⟨rule, mem, inside⟩ := List.mem_flatMap.1 known
      exact ((leaf rule mem).1 (keeps rule mem)).2 warning inside
    · intro category name scopedName recorded
      refine ⟨((entries category name scopedName).1 recorded).1, fun rule mem known => ?_⟩
      exact (((leaf rule mem).1 (keeps rule mem)).1 _ known).written

/-- A sheet whose keyframes and ids have no marks in their names. -/
def unmarkedNames : Text := "@keyframes a\x7b\x7d[id=\"b\"]\x7b\x7d".toList

/-- Nothing gets out of it. -/
theorem leaksNothing_unmarkedNames :
    WordFree ((suffixed {} "__asterisk".toList []).stage unmarkedNames) ∧
      ∃ result, scope (suffixed {} "__asterisk".toList []) unmarkedNames = .ok result ∧
        LeaksNothing {} (leaves (walked (suffixed {} "__asterisk".toList []) unmarkedNames)) result := by
  have free : WordFree ((suffixed {} "__asterisk".toList []).stage unmarkedNames) := by
    unfold WordFree
    decide
  have sheet : leaves (walked (suffixed {} "__asterisk".toList []) unmarkedNames) =
      [⟨"@keyframes a".toList, []⟩, ⟨"[id=\"b\"]".toList, []⟩] := by decide +kernel
  have ok : scope (suffixed {} "__asterisk".toList []) unmarkedNames =
      .ok ⟨"@keyframes a_Yn4Y9\x7b\x7d[id=\"b_Yn4Y9\"]\x7b\x7d".toList,
        (({} : Mapping).insert .keyframes "a".toList "a_Yn4Y9".toList).insert .ids "b".toList
          "b_Yn4Y9".toList, []⟩ := by decide +kernel
  refine ⟨free, _, ok, (leaksNothing_iff free ok).2 ?_⟩
  have keyframes : KeepsMarks {} "__asterisk".toList ⟨"@keyframes a".toList, []⟩ := by
    show ∀ entry ∈ [(Category.keyframes, "a".toList)], Unmarked entry.2
    decide
  have tokens : Selector.tokens (NamedAttribute.normalise "[id=\"b\"]".toList) =
      [.attributeValue true "b".toList] := by decide
  have ids : KeepsMarks {} "__asterisk".toList ⟨"[id=\"b\"]".toList, []⟩ := by
    show ∀ part ∈ ["[id=\"b\"]".toList], _
    rintro part mem
    rw [List.mem_singleton.1 mem]
    constructor
    · intro text mem
      rw [tokens] at mem
      cases List.mem_singleton.1 mem
    · intro mem
      rw [tokens] at mem
      cases List.mem_singleton.1 mem
    · intro onId value mem on
      rw [tokens] at mem
      cases List.mem_singleton.1 mem
      exact ⟨by decide, by decide, ⟨"[id=\"".toList, "\"]".toList, by decide⟩⟩
  rw [sheet]
  intro rule mem
  rcases List.mem_cons.1 mem with rfl | mem
  · exact keyframes
  · rw [List.mem_singleton.1 mem]
    exact ids

/-- A sheet with a colon in a string that names a class. -/
def colonInName : Text := "[class=\"a:b\"]\x7b\x7d".toList

/-- Not every sheet keeps its marks to itself: here the colon is recorded as its mark. -/
theorem not_leaksNothing : Unmarked colonInName ∧
    ∃ result, scope (suffixed {} "__asterisk".toList []) colonInName = .ok result ∧
      ¬ LeaksNothing {} (leaves (walked (suffixed {} "__asterisk".toList []) colonInName)) result := by
  refine ⟨by decide, ⟨"[class~=\"a:b_2KiCtx\"]\x7b\x7d".toList,
    ({} : Mapping).insert .classes "a%COLON_IN_PLACEHOLDER%b".toList
      "a%COLON_IN_PLACEHOLDER%b_2KiCtx".toList, []⟩, by decide +kernel, fun nothing => ?_⟩
  have unmarked := nothing.mapping .classes "a%COLON_IN_PLACEHOLDER%b".toList
    "a%COLON_IN_PLACEHOLDER%b_2KiCtx".toList (by decide)
  exact absurd unmarked.1 (by decide)

end Stylesheet
end ScopedCss
