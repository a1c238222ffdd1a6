import ScopedCss.FontFamily
import ScopedCss.Proofs.Rule.Rows
import ScopedCss.Proofs.Tree.Commas
import ScopedCss.Proofs.Tree.Names
import ScopedCss.Proofs.Tree.Phrases

/-!
# Names of font families

A family is a name, bare or in one pair of quotes, with spaces around it.  Declaring it and referring
to it find the same name (`nameOf_text`) and put the scoped name into the same place
(`replaceFirst_text`), so that references follow declarations in every spelling.
-/
namespace ScopedCss

open Quoted

/-- A font family. -/
structure Family where
  lead : Spaces
  quote : Option Char
  /-- The spaces before the name, inside the quotes. -/
  inner : Spaces
  name : Text
  /-- The spaces behind the name, inside the quotes. -/
  outer : Spaces
  back : Spaces
  isQuote : ∀ q ∈ quote, Text.isQuote q
  unquoted : ∀ c ∈ name, Text.isQuote c = false ∧ c ≠ '\\'
  first : ∀ c ∈ name.head?, Text.isSpace c = false
  last : ∀ c ∈ name.getLast?, Text.isSpace c = false
  /-- A bare name has no structural character. -/
  bare : quote = none → ∀ c ∈ name, Frame.isStructural c = false
  /-- Parentheses are closed, and commas stand inside them. -/
  enclosed : CommaList.enclosed 0 name

namespace Family
variable (family : Family)

/-- What stands before the name. -/
def front : Text := family.lead.text ++ (family.quote.toList ++ family.inner.text)

/-- What stands behind the name. -/
def rear : Text := family.outer.text ++ (family.quote.toList ++ family.back.text)

/-- The characters of a family around a name. -/
def around (name : Text) : Text := family.front ++ (name ++ family.rear)

/-- The characters of a family. -/
def text : Text := family.around family.name

/-- The characters of a family with its name scoped, if it has a declared one. -/
def scopedText (scheme : PlainScheme) (declared : Text → Bool) : Text :=
  family.around (if declared family.name then scheme.scope family.name else family.name)

end Family

/-- A list of families. -/
structure FamilyList where
  entries : List Family
  nonempty : entries ≠ []

namespace FamilyList

/-- The characters of a list of families. -/
def text (list : FamilyList) : Text := CommaList.join (list.entries.map Family.text)

/-- The characters of a list of families in which the declared ones are scoped. -/
def scopedText (scheme : PlainScheme) (declared : Text → Bool) (list : FamilyList) : Text :=
  CommaList.join (list.entries.map fun family => family.scopedText scheme declared)

end FamilyList

/-! ### The name of a family -/

namespace Text

theorem unquoted_append (s t : Text) : unquoted (s ++ t) = unquoted s ++ unquoted t :=
  List.filter_append s t

theorem unquoted_of_no_quote {t : Text} (plain : ∀ c ∈ t, isQuote c = false) : unquoted t = t := by
  rw [unquoted, List.filter_eq_self]
  intro c mem
  rw [plain c mem]
  rfl

theorem trim_of_spaces {lead name back : Text} (spaces : ∀ c ∈ lead, isSpace c)
    (spaces' : ∀ c ∈ back, isSpace c) (first : ∀ c ∈ name.head?, isSpace c = false)
    (last : ∀ c ∈ name.getLast?, isSpace c = false) : trim (lead ++ (name ++ back)) = name := by
  by_cases empty : name = []
  · subst empty
    have blank : trimStart (lead ++ back) = [] := trimStart_eq_nil_iff.2 fun c mem =>
      (List.mem_append.1 mem).elim (spaces c) (spaces' c)
    rw [trim, List.nil_append, blank]
    rfl
  · have first' : ∀ c ∈ (name ++ back).head?, isSpace c = false := by
      rwa [List.head?_append_of_ne_nil _ empty]
    rw [trim, (trimStart_of_spaces spaces first').2, (trimEnd_of_spaces spaces' last).1]

end Text

namespace FontFamily
variable {front name rear : Text}

/-- The name of a family holds all its characters but quotes and spaces. -/
theorem count_nameOf {c : Char} (solid : Text.isSpace c = false) (plain : Text.isQuote c = false)
    (family : Text) : (nameOf family).count c = family.count c := by
  have spaces {s : Text} (all : ∀ d ∈ s, Text.isSpace d) : s.count c = 0 :=
    List.count_eq_zero.2 fun mem => by
      rw [all c mem] at solid
      cases solid
  have whole := congrArg (List.count c) (Text.trim_append (Text.unquoted family))
  rw [List.count_append, List.count_append, spaces (Text.leading_spaces _),
    spaces (Text.trailing_spaces _)] at whole
  have unquoted : (Text.unquoted family).count c = family.count c :=
    List.count_filter (by simp [plain])
  rw [nameOf, ← unquoted]
  simpa using whole

/-- Spaces and quotes around a name do not belong to it. -/
theorem nameOf_around (before : ∀ c ∈ front, Text.isSpace c ∨ Text.isQuote c)
    (behind : ∀ c ∈ rear, Text.isSpace c ∨ Text.isQuote c)
    (unquoted : ∀ c ∈ name, Text.isQuote c = false)
    (first : ∀ c ∈ name.head?, Text.isSpace c = false)
    (last : ∀ c ∈ name.getLast?, Text.isSpace c = false) :
    nameOf (front ++ (name ++ rear)) = name := by
  have spaces {t : Text} (blank : ∀ c ∈ t, Text.isSpace c ∨ Text.isQuote c) :
      ∀ c ∈ Text.unquoted t, Text.isSpace c := by
    intro c mem
    obtain ⟨there, other⟩ := List.mem_filter.1 mem
    exact (blank c there).resolve_right (by simpa using other)
  rw [nameOf, Text.unquoted_append, Text.unquoted_append, Text.unquoted_of_no_quote unquoted]
  exact Text.trim_of_spaces (spaces before) (spaces behind) first last

/-- The first place of a name is behind the spaces and quotes around it. -/
theorem replaceFirst_around (before : ∀ c ∈ front, Text.isSpace c ∨ Text.isQuote c)
    (unquoted : ∀ c ∈ name, Text.isQuote c = false)
    (first : ∀ c ∈ name.head?, Text.isSpace c = false) (nonempty : name ≠ []) (new rear : Text) :
    Text.replaceFirst name new (front ++ (name ++ rear)) = front ++ (new ++ rear) := by
  obtain ⟨c, rest, rfl⟩ := List.exists_cons_of_ne_nil nonempty
  have absent : c ∉ front := by
    intro mem
    rcases before c mem with space | quote
    · rw [first c rfl] at space
      cases space
    · rw [unquoted c List.mem_cons_self] at quote
      cases quote
  rw [Text.replaceFirst, Text.breakAt?_of_head absent rear]
  exact List.append_assoc _ _ _

end FontFamily

namespace Family
variable (family : Family)

/-- What stands before the name is spaces and quotes. -/
theorem front_blank : ∀ c ∈ family.front, Text.isSpace c ∨ Text.isQuote c := by
  intro c mem
  simp only [front, List.mem_append, Option.mem_toList] at mem
  rcases mem with mem | mem | mem
  · exact .inl (family.lead.isSpace c mem)
  · exact .inr (family.isQuote c mem)
  · exact .inl (family.inner.isSpace c mem)

/-- What stands behind the name is spaces and quotes. -/
theorem rear_blank : ∀ c ∈ family.rear, Text.isSpace c ∨ Text.isQuote c := by
  intro c mem
  simp only [rear, List.mem_append, Option.mem_toList] at mem
  rcases mem with mem | mem | mem
  · exact .inl (family.outer.isSpace c mem)
  · exact .inr (family.isQuote c mem)
  · exact .inl (family.back.isSpace c mem)

/-- **The name of a family** is found in every spelling. -/
theorem nameOf_text : FontFamily.nameOf family.text = family.name :=
  FontFamily.nameOf_around family.front_blank family.rear_blank (fun c mem => (family.unquoted c mem).1)
    family.first family.last

/-- The first place of the name is where it stands. -/
theorem replaceFirst_text (nonempty : family.name ≠ []) (new : Text) :
    Text.replaceFirst family.name new family.text = family.around new :=
  FontFamily.replaceFirst_around family.front_blank (fun c mem => (family.unquoted c mem).1)
    family.first nonempty new family.rear

variable {scheme : PlainScheme} {declared : Text → Bool}

/-- A family that is not declared stays as it is. -/
theorem scopedText_of_none (none : declared family.name = false) :
    family.scopedText scheme declared = family.text := by
  rw [scopedText, none]
  rfl

/-- A declaration gives the family its scoped name, unless it has no name. -/
theorem declare_text (ledger : Ledger) :
    FontFamily.declare scheme.scope family.text ledger =
      (if family.name.isEmpty then ledger
        else ledger.insert .fontFaces family.name (scheme.scope family.name),
      family.scopedText scheme fun name => !name.isEmpty) := by
  rw [FontFamily.declare, family.nameOf_text, scopedText]
  cases empty : family.name.isEmpty with
  | true => simp [text]
  | false =>
    have nonempty : family.name ≠ [] := by simpa using empty
    simp [family.replaceFirst_text nonempty]

/-- A reference gets the scoped name in place of the name. -/
theorem getD_renameEntry {table : NameTable} (knows : scheme.Knows declared table)
    (named : declared [] = false) :
    (FontFamily.renameEntry table family.text).getD family.text = family.scopedText scheme declared := by
  rw [FontFamily.renameEntry, family.nameOf_text, knows, scopedText]
  by_cases known : declared family.name
  · have nonempty : family.name ≠ [] := by
      intro empty
      rw [empty, named] at known
      cases known
    rw [if_pos known, if_pos known]
    exact family.replaceFirst_text nonempty _
  · rw [if_neg known, if_neg known]
    rfl

/-- Spaces and quotes around a name do not matter for its commas. -/
theorem enclosed_text : CommaList.enclosed 0 family.text := by
  have plain {c : Char} (apart : Text.isSpace c ∨ Text.isQuote c) : c ≠ ',' ∧ c ≠ '(' ∧ c ≠ ')' := by
    refine ⟨?_, ?_, ?_⟩ <;> rintro rfl <;> rcases apart with h | h <;> cases h
  have spaces (s : Spaces) : ∀ c ∈ s.text, c ≠ ',' ∧ c ≠ '(' ∧ c ≠ ')' := fun c mem =>
    plain (.inl (s.isSpace c mem))
  have quotes : ∀ c ∈ family.quote.toList, c ≠ ',' ∧ c ≠ '(' ∧ c ≠ ')' := fun c mem =>
    plain (.inr (family.isQuote c (Option.mem_toList.1 mem)))
  rw [text, around, front, rear, CommaList.enclosed_append_left, CommaList.enclosed_append_right]
  · exact family.enclosed
  · intro c mem
    rcases List.mem_append.1 mem with mem | mem
    · exact spaces family.outer c mem
    · exact (List.mem_append.1 mem).elim (quotes c) (spaces family.back c)
  · intro c mem
    rcases List.mem_append.1 mem with mem | mem
    · exact spaces family.lead c mem
    · exact (List.mem_append.1 mem).elim (quotes c) (spaces family.inner c)

/-! ### Well-formed results -/

/-- A family is flat around every name that could be its own. -/
theorem flat_around {name : Text} (unquoted : ∀ c ∈ name, Text.isQuote c = false ∧ c ≠ '\\')
    (bare : family.quote = none → ∀ c ∈ name, Frame.isStructural c = false) :
    Flat (family.around name) := by
  have clean : '\\' ∉ family.inner.text ++ (name ++ family.outer.text) := by
    simp only [List.mem_append, not_or]
    exact ⟨family.inner.not_mem rfl, fun mem => (unquoted '\\' mem).2 rfl, family.outer.not_mem rfl⟩
  have middle : Flat (family.quote.toList ++
      ((family.inner.text ++ (name ++ family.outer.text)) ++ family.quote.toList)) := by
    cases quoted : family.quote with
    | none =>
      have own : Flat name := flat_of_no_quote (fun c mem => (unquoted c mem).1)
        (fun mem => (unquoted '\\' mem).2 rfl) (bare quoted)
      simpa using family.inner.flat.append (own.append family.outer.flat)
    | some q =>
      have isQuote := family.isQuote q quoted
      refine flat_quoted isQuote ?_ clean
      have solid := Plain.Comparison.isSpace_of_isQuote isQuote
      simp only [List.mem_append, not_or]
      refine ⟨family.inner.not_mem solid, fun mem => ?_, family.outer.not_mem solid⟩
      rw [(unquoted q mem).1] at isQuote
      cases isQuote
  have split : family.around name = family.lead.text ++ ((family.quote.toList ++
      ((family.inner.text ++ (name ++ family.outer.text)) ++ family.quote.toList)) ++
        family.back.text) := by simp [around, front, rear]
  rw [split]
  exact family.lead.flat.append (middle.append family.back.flat)

/-- A family is flat, and stays flat when it is scoped. -/
theorem flat_text : Flat family.text ∧ Flat (family.scopedText scheme declared) := by
  have own := family.flat_around family.unquoted family.bare
  refine ⟨own, ?_⟩
  unfold scopedText
  split
  next =>
    refine family.flat_around (fun c mem => ?_) fun quoted c mem => ?_
    · rcases scheme.mem_scope.1 mem with mem | rfl | mem
      · exact family.unquoted c mem
      · decide
      · have letter := Plain.isPlain_of_isNameChar (c := c) (by
          simp [Plain.isNameChar, scheme.digits c mem])
        exact ⟨(Text.isPlain_iff.1 letter).1, (Text.isPlain_iff.1 letter).2.1⟩
    · rcases scheme.mem_scope.1 mem with mem | rfl | mem
      · exact family.bare quoted c mem
      · rfl
      · have letter := scheme.digits c mem
        by_contra structural
        rw [Bool.not_eq_false, Frame.isStructural_iff] at structural
        rcases structural with rfl | rfl | rfl <;> cases letter
  next => exact own

/-- Scoping a family does not make the word in every mark. -/
theorem wordFree_scopedText (free : WordFree family.text) :
    WordFree (family.scopedText scheme declared) := by
  unfold scopedText
  split
  next =>
    have ends : ∀ c ∈ family.rear.head?, c ∉ Mark.word := by
      intro c mem word
      have letter := Mark.isNameChar_of_mem_word word
      have inside := List.mem_of_mem_head? mem
      simp only [rear, List.mem_append, Option.mem_toList] at inside
      rcases inside with inside | inside | inside
      · exact family.outer.not_mem (Mark.isSpace_of_mem_word word) inside
      · have isQuote := family.isQuote c inside
        rw [Text.isQuote_of_isNameChar letter] at isQuote
        cases isQuote
      · exact family.back.not_mem (Mark.isSpace_of_mem_word word) inside
    have whole := wordFree_attach_append (s := family.front ++ family.name)
      (by simpa [text, around] using free) ends scheme.digits scheme.few
    simpa [around, PlainScheme.scope, Suffix.attach] using whole
  next => exact free

end Family

namespace FamilyList
variable {scheme : PlainScheme} {declared : Text → Bool} (list : FamilyList)

/-- A list of families is flat, and stays flat when it is scoped. -/
theorem flat_text : Flat list.text ∧ Flat (list.scopedText scheme declared) := by
  refine ⟨CommaList.flat_join fun piece mem => ?_, CommaList.flat_join fun piece mem => ?_⟩
  · obtain ⟨family, -, rfl⟩ := List.mem_map.1 mem
    exact (@family.flat_text default fun _ => false).1
  · obtain ⟨family, -, rfl⟩ := List.mem_map.1 mem
    exact family.flat_text.2

theorem wordFree_scopedText (free : WordFree list.text) :
    WordFree (list.scopedText scheme declared) := by
  refine (wordFree_joinWith (by decide)).2 fun piece mem => ?_
  obtain ⟨family, there, rfl⟩ := List.mem_map.1 mem
  exact family.wordFree_scopedText
    ((wordFree_joinWith (by decide)).1 free _ (List.mem_map_of_mem there))

/-- If nothing is declared the list stays as it is. -/
theorem scopedText_of_none (none : ∀ name, declared name = false) :
    list.scopedText scheme declared = list.text :=
  congrArg CommaList.join (List.map_congr_left fun family _ => family.scopedText_of_none (none _))

/-- **Renaming a list of families** scopes the declared ones, and nothing else. -/
theorem getD_rename {table : NameTable} (knows : scheme.Knows declared table)
    (named : declared [] = false) :
    (FontFamily.rename table list.text).getD list.text = list.scopedText scheme declared := by
  have enclosed : ∀ piece ∈ list.entries.map Family.text, CommaList.enclosed 0 piece := by
    intro piece mem
    obtain ⟨family, -, rfl⟩ := List.mem_map.1 mem
    exact family.enclosed_text
  have nonempty : list.entries.map Family.text ≠ [] := by simp [list.nonempty]
  have whole := CommaList.getD_mapSome nonempty enclosed (FontFamily.renameEntry table)
  rw [List.map_map] at whole
  refine whole.trans (congrArg CommaList.join (List.map_congr_left fun family _ => ?_))
  exact family.getD_renameEntry knows named

end FamilyList

end ScopedCss
