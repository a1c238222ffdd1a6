import ScopedCss.Proofs.Rule.Keeping
import ScopedCss.Proofs.Selector.Resumption
import ScopedCss.Proofs.Stylesheet.Leaks
import ScopedCss.Proofs.Tree.Names

/-!
# Scoping a selector keeps blocks

Wherever a selector stands, scoping it opens and closes no block and no string, and writes no mark
outside strings: each token that is renamed is a run of harmless characters and becomes another one.
That holds however the tokens are found, since a place in a list is a cut of it.

What becomes of `*` has to be harmless as well (`Scheme.Quiet`), and joining the words of a class
attribute must not write the word in every mark.
-/
namespace ScopedCss

open Quoted Block ScopedCss.Frame

/-- A suffix and a name for `*` that mean nothing to blocks, strings and marks. -/
structure Scheme.Quiet (asterisk digits : Text) : Prop where
  alphanum : ∀ c ∈ digits, c.isAlphanum
  few : digits.length ≤ 10
  letters : ∀ c ∈ asterisk, Text.isNameChar c
  free : WordFree asterisk

variable {state : Option Char}

/-- The word in every mark is written with the characters of marks. -/
theorem not_mem_word {c : Char} (other : Mark.isMarkChar c = false) : c ∉ Mark.word := by
  have all : Mark.word.all Mark.isMarkChar := by decide
  intro mem
  rw [List.all_eq_true.1 all c mem] at other
  cases other

/-- The word in every mark is written with name characters. -/
theorem not_mem_word_of_isNameChar {c : Char} (other : Text.isNameChar c = false) : c ∉ Mark.word := by
  have all : Mark.word.all Text.isNameChar := by decide
  intro mem
  rw [List.all_eq_true.1 all c mem] at other
  cases other

/-- Texts free of the word are so one after the other if the word does not go on into the second. -/
theorem Quoted.WordFree.append {s t : Text} (free : WordFree s) (free' : WordFree t) (ends : Ends t) :
    WordFree (s ++ t) := by
  cases t with
  | nil => rwa [List.append_nil]
  | cons c t =>
    have behind := free'.part (List.suffix_cons c t).isInfix
    exact (wordFree_append_cons (ends c rfl)).2 ⟨free, behind⟩

/-! ### Operators -/

/-- Looking for words in class attributes keeps blocks. -/
theorem keeps_normalise (isQuote : ∀ q ∈ state, Text.isQuote q) (t : Text) :
    Keeps state t (NamedAttribute.normalise t) := by
  refine Recogniser.keeps_substitute (fun state isQuote inside t => ?_) isQuote t
  have front := isQuote_of_mem_openAfter (t := '[' :: inside) isQuote
  have tilde : Keeps (openAfter state ('[' :: inside)) [] ['~'] := by
    refine keeps_inert front nofun (List.all_eq_true.1 (by decide)) ⟨'~', by simp, rfl⟩ ?_
    intro u v _ free
    rw [List.singleton_append, wordFree_append_cons (by decide)]
    exact ⟨free.part (List.prefix_append u v).isInfix, free.part (List.suffix_append u v).isInfix⟩
  have whole := tilde.around isQuote (y := '=' :: t) (by rintro c ⟨⟩; decide)
  simpa [NamedAttribute.exactClass] using whole

theorem NamedAttribute.mem_normalise {t : Text} {c : Char} (mem : c ∈ normalise t) : c ∈ t ∨ c = '~' := by
  obtain ⟨segment, scanned, here⟩ := List.mem_flatMap.1 mem
  have part : ∀ d ∈ exactClass.spellSegment segment, d ∈ t := by
    intro d inside
    rw [← exactClass.spellAll_scan t]
    exact List.mem_flatMap.2 ⟨segment, scanned, inside⟩
  cases segment with
  | plain d => exact .inl (part c here)
  | hit inside =>
    have pieces : c ∈ '[' :: inside ∨ c = '~' ∨ c = '=' := by simpa [or_assoc] using here
    rcases pieces with front | rfl | rfl
    · exact .inl (part c (List.mem_append_left _ front))
    · exact .inr rfl
    · exact .inl (part '=' (List.mem_append_right _ List.mem_cons_self))

/-! ### Tokens -/

namespace Selector
variable {switches : Switches} {asterisk digits part : Text} {token : Token} {n : Nat} {r : Renaming}

theorem scopedName_of_renaming?
    (renamed : token.renaming? (.suffixed switches asterisk digits) n = some r) :
    r.scopedName =
      Suffix.attach digits (bareName (token.nameToScope (.suffixed switches asterisk digits) n)) := by
  rw [← bareName_attach]
  rw [Token.renaming?] at renamed
  split at renamed
  next =>
    split at renamed
    next =>
      cases renamed
      rfl
    next => cases renamed
  next => cases renamed

/-- Identifiers start with neither `.` nor `#`. -/
theorem bareName_of_ident {name : Text} (ident : ∀ c ∈ name, Text.isIdentChar c) :
    bareName name = name := by
  refine bareName_of_head fun c mem => ?_
  have known := ident c (List.mem_of_mem_head? mem)
  constructor <;> rintro rfl <;> cases known

/-- An identifier is one word. -/
theorem joinWords_of_ident {name : Text} (ident : ∀ c ∈ name, Text.isIdentChar c) :
    Token.joinWords name = name :=
  Token.joinWords_of_solid fun c mem => Text.isSpace_of_isIdentChar (ident c mem)

/-- A class with a suffix is inert. -/
theorem isInert_of_mem_scoped {name : Text} (letters : ∀ c ∈ name, Text.isNameChar c)
    (alphanum : ∀ c ∈ digits, c.isAlphanum) : ∀ c ∈ '.' :: Suffix.attach digits name, isInert c := by
  intro c mem
  rcases List.mem_cons.1 mem with rfl | mem
  · rfl
  · rcases List.mem_append.1 mem with mem | mem
    · exact isInert_of_isNameChar (letters c mem)
    · exact isInert_of_mem_suffix alphanum c mem

/-- A class or an id is given the suffix where it stands. -/
theorem replacement_of_ident {name : Text} (ident : ∀ c ∈ name, Text.isIdentChar c)
    (kind : token = .ofClass name ∨ token = .ofId name)
    (renamed : token.renaming? (.suffixed switches asterisk digits) n = some r) :
    token.replacement r.scopedName = Suffix.attach digits token.text := by
  have form := scopedName_of_renaming? renamed
  rcases kind with rfl | rfl
  · rw [form, Token.nameToScope, joinWords_of_ident ident, bareName_of_ident ident]
    rfl
  · have stem : (Token.ofId name).nameToScope (.suffixed switches asterisk digits) n = name := rfl
    rw [form, stem, bareName_of_ident ident]
    rfl

/-- In the place of `*` stands a class. -/
theorem keeps_universal (quiet : Scheme.Quiet asterisk digits) (isQuote : ∀ q ∈ state, Text.isQuote q)
    (renamed : Token.universal.renaming? (.suffixed switches asterisk digits) n = some r) :
    Keeps state Token.universal.text (Token.universal.replacement r.scopedName) := by
  have bare : ∀ c ∈ bareName asterisk, Text.isNameChar c := fun c mem =>
    quiet.letters c ((bareName_suffix asterisk).subset mem)
  have whole : Token.universal.replacement r.scopedName =
      '.' :: Suffix.attach digits (bareName asterisk) := by
    rw [scopedName_of_renaming? renamed]
    rfl
  rw [whole]
  refine keeps_inert isQuote (List.all_eq_true.1 (by decide)) (isInert_of_mem_scoped bare quiet.alphanum)
    ⟨'.', List.mem_cons_self, rfl⟩ fun u v ends free => ?_
  have text : Token.universal.text ++ v = '*' :: v := rfl
  rw [text, wordFree_append_cons (by decide)] at free
  rw [List.cons_append, wordFree_append_cons (by decide)]
  have front := quiet.free.part (bareName_suffix asterisk).isInfix
  exact ⟨free.1, wordFree_attach_append (front.append free.2 ends) ends quiet.alphanum quiet.few⟩

/-- In the place of an element stands a class, named after it. -/
theorem replacement_element {name : Text} (alphanum : ∀ c ∈ name, c.isAlphanum)
    (renamed : (Token.element name).renaming? (.suffixed switches asterisk digits) n = some r) :
    (Token.element name).replacement r.scopedName =
      '.' :: Suffix.attach digits (Suffix.attach "el".toList name) := by
  have stem : (Token.element name).nameToScope (.suffixed switches asterisk digits) n =
      Suffix.attach "el".toList name := rfl
  rw [scopedName_of_renaming? renamed, stem, bareName_attach, bareName_of_head]
  · rfl
  · intro c mem
    have known := alphanum c (List.mem_of_mem_head? mem)
    constructor <;> rintro rfl <;> cases known

theorem keeps_element (quiet : Scheme.Quiet asterisk digits) (isQuote : ∀ q ∈ state, Text.isQuote q)
    {name : Text} (alphanum : ∀ c ∈ name, c.isAlphanum)
    (renamed : (Token.element name).renaming? (.suffixed switches asterisk digits) n = some r) :
    Keeps state (Token.element name).text ((Token.element name).replacement r.scopedName) := by
  have letters : ∀ c ∈ name, Text.isNameChar c := fun c mem => by
    simp [Text.isNameChar, alphanum c mem]
  have el : ∀ c ∈ '_' :: "el".toList, Text.isNameChar c := List.all_eq_true.1 (by decide)
  have bare : ∀ c ∈ Suffix.attach "el".toList name, Text.isNameChar c := fun c mem =>
    (List.mem_append.1 mem).elim (letters c) (el c)
  rw [replacement_element alphanum renamed]
  refine keeps_inert isQuote (fun c mem => isInert_of_isNameChar (letters c mem))
    (isInert_of_mem_scoped bare quiet.alphanum) ⟨'.', List.mem_cons_self, rfl⟩ fun u v ends free => ?_
  have text : (Token.element name).text = name := rfl
  rw [text] at free
  rw [List.cons_append, wordFree_append_cons (by decide)]
  refine ⟨free.part (List.prefix_append u _).isInfix, ?_⟩
  have behind : WordFree (Suffix.attach "el".toList name ++ v) :=
    wordFree_attach_append (free.part (List.suffix_append u _).isInfix) ends
      (List.all_eq_true.1 (by decide)) (by decide)
  exact wordFree_attach_append behind ends quiet.alphanum quiet.few

/-- **Scoping a name keeps blocks**, wherever the name stands. -/
theorem keeps_name (quiet : Scheme.Quiet asterisk digits) (isQuote : ∀ q ∈ state, Text.isQuote q)
    (mem : token ∈ tokens part)
    (renamed : token.renaming? (.suffixed switches asterisk digits) n = some r)
    (named : ∀ onId value, token ≠ .attributeValue onId value) :
    Keeps state token.text (token.replacement r.scopedName) := by
  obtain ⟨u, -, read, -⟩ := (mem_tokens_cases mem).resolve_left fun ⟨onId, value, same⟩ =>
    named onId value same
  cases token with
  | attributeValue onId value => exact absurd rfl (named onId value)
  | pseudo name => cases renamed
  | unknown text => cases renamed
  | ofClass name =>
    rw [replacement_of_ident (isIdentChar_of_read (.inl rfl) read) (.inl rfl) renamed]
    exact keeps_attach isQuote _ quiet.alphanum quiet.few
  | ofId name =>
    rw [replacement_of_ident (isIdentChar_of_read (.inr rfl) read) (.inr rfl) renamed]
    exact keeps_attach isQuote _ quiet.alphanum quiet.few
  | universal => exact keeps_universal quiet isQuote renamed
  | element name =>
    have alphanum := alphanum_of_isElementName (isElementName_of_mem_tokens mem)
    exact keeps_element quiet isQuote alphanum renamed

/-! ### Values -/

/-- The token of a value is that of an attribute selector in the part. -/
theorem exists_read_of_mem_tokens {onId : Bool} {value : Text}
    (mem : .attributeValue onId value ∈ tokens part) :
    ∃ u a, u <:+ part ∧ NamedAttribute.read u = some a ∧ a.value = value := by
  have ofRun (segments : List (Segment NamedAttribute)) : ∀ run ∈ (Segment.runs segments).2,
      .hit run.1 ∈ segments := by
    induction segments with
    | nil => nofun
    | cons segment segments ih =>
      intro run mem
      cases segment with
      | plain c => exact .tail _ (ih run mem)
      | hit a =>
        rcases List.mem_cons.1 mem with rfl | mem
        · exact List.mem_cons_self
        · exact .tail _ (ih run mem)
  have noFragment (t : Text) : .attributeValue onId value ∉ Fragment.tokens t := by
    intro mem
    obtain ⟨f, kept, made⟩ := List.mem_map.1 mem
    have bracket : f.head? = some '[' := by
      rw [← Token.text_ofText f, made]
      rfl
    have skipped := (List.mem_filter.1 kept).2
    simp [Fragment.isSkipped, bracket] at skipped
  unfold tokens at mem
  split at mem
  · cases mem
  · rcases List.mem_append.1 mem with first | later
    · exact absurd first (noFragment _)
    · obtain ⟨run, known, mem⟩ := List.mem_flatMap.1 later
      rcases List.mem_append.1 mem with here | fragment
      · obtain ⟨u, behind, read⟩ := Recogniser.exists_read_of_mem_scan (ofRun _ run known)
        refine ⟨u, run.1, behind, read, ?_⟩
        rw [NamedAttribute.token?] at here
        split at here
        · cases here
        · cases List.mem_singleton.1 here
          rfl
      · exact absurd fragment (noFragment _)

/-- No quote stands in the value of an attribute selector, and the word in every mark goes neither on
from the character before it nor into the one behind. -/
structure Enclosed (a : NamedAttribute) : Prop where
  unquoted : ∀ c ∈ a.value, Text.isQuote c = false
  opening : ∃ front c, a.opening = front ++ [c] ∧ c ∉ Mark.word
  closing : a.closing ≠ [] ∧ Ends a.closing

theorem enclosed_of_readValue {t value closing : Text}
    (read : NamedAttribute.readValue t = some (value, closing)) :
    (∀ c ∈ value, Text.isQuote c = false) ∧ closing ≠ [] ∧ Ends closing := by
  have run : ∀ c ∈ t.takeWhile NamedAttribute.isValueChar, Text.isQuote c = false := by
    intro c mem
    have known := List.mem_takeWhile_imp mem
    rw [NamedAttribute.isValueChar, Bool.and_eq_true, Bool.not_eq_true'] at known
    exact known.1
  unfold NamedAttribute.readValue at read
  dsimp only at read
  split at read
  next behind =>
    cases read
    have trimmed := Text.trimEnd_append (t.takeWhile NamedAttribute.isValueChar)
    refine ⟨fun c mem => run c (trimmed ▸ List.mem_append_left _ mem), by simp, fun c first => ?_⟩
    rcases List.mem_append.1 (List.mem_of_mem_head? first) with space | bracket
    · exact not_mem_word (Mark.isMarkChar_of_isSpace (Text.trailing_spaces _ c space))
    · rw [List.mem_singleton.1 bracket]
      decide
  next quote rest other behind =>
    split at read
    next =>
      cases read
      refine ⟨run, by simp, ?_⟩
      rintro c ⟨⟩
      have stops := List.head_dropWhile_not NamedAttribute.isValueChar (l := t) (by simp [behind])
      simp only [behind, List.head_cons, NamedAttribute.isValueChar, Bool.and_eq_false_iff,
        Bool.not_eq_false', bne_eq_false_iff_eq] at stops
      rcases stops with isQuote | rfl
      · exact not_mem_word (isMarkChar_of_isQuote isQuote)
      · exact absurd rfl other
    next => cases read
  next => cases read

theorem enclosed_of_read {t : Text} {a : NamedAttribute} (read : NamedAttribute.read t = some a) :
    Enclosed a := by
  unfold NamedAttribute.read at read
  split at read
  next t =>
    simp only [Option.bind_eq_bind, Option.bind_eq_some_iff, Option.some.injEq, Prod.exists] at read
    obtain ⟨onId, name, t₁, -, operator, t₂, compared, value, closing, valued, rfl⟩ := read
    obtain ⟨unquoted, closes⟩ := enclosed_of_readValue valued
    refine ⟨unquoted, ?_, closes⟩
    obtain ⟨compare, rfl⟩ : ∃ compare, operator = compare ++ ['='] := by
      unfold NamedAttribute.readOperator at compared
      split at compared
      next =>
        cases compared
        exact ⟨[], rfl⟩
      next =>
        split at compared
        · cases compared
          exact ⟨[_], rfl⟩
        · cases compared
      next => cases compared
    -- Behind the operator stand spaces and a quote.
    have plain : ∀ c ∈ '=' :: (Text.leading t₂ ++ (NamedAttribute.splitQuote (Text.trimStart t₂)).1),
        c ∉ Mark.word := by
      intro c mem
      rcases List.mem_cons.1 mem with rfl | mem
      · decide
      rcases List.mem_append.1 mem with space | quote
      · exact not_mem_word (Mark.isMarkChar_of_isSpace (Text.leading_spaces t₂ c space))
      · unfold NamedAttribute.splitQuote at quote
        split at quote
        next =>
          split at quote
          next isQuote =>
            rw [List.mem_singleton.1 quote]
            exact not_mem_word (isMarkChar_of_isQuote isQuote)
          next => cases quote
        next => cases quote
    rcases List.eq_nil_or_concat ('=' :: (Text.leading t₂ ++
      (NamedAttribute.splitQuote (Text.trimStart t₂)).1)) with none | ⟨front, c, split⟩
    · cases none
    · refine ⟨'[' :: Text.leading t ++ name ++ Text.leading t₁ ++ compare ++ front, c, ?_, ?_⟩
      · simpa using split
      · exact plain c (split ▸ by simp)
  next => cases read

/-- **Scoping a value keeps blocks**, wherever the value stands behind a character into which no mark
goes on. -/
theorem keeps_value (quiet : Scheme.Quiet asterisk digits) (isQuote : ∀ q ∈ state, Text.isQuote q)
    {onId : Bool} {value : Text} (mem : .attributeValue onId value ∈ tokens part)
    (plain : ∀ c ∈ part, isStructural c = false ∧ c ≠ '\\')
    (joined : onId = false → WordFree value → WordFree (Token.joinWords value))
    (renamed : (Token.attributeValue onId value).renaming? (.suffixed switches asterisk digits) n =
      some r) {c : Char} (foreign : c ∉ Mark.word) :
    Keeps state (c :: value) (c :: (Token.attributeValue onId value).replacement r.scopedName) := by
  obtain ⟨u, a, behind, read, rfl⟩ := exists_read_of_mem_tokens mem
  have inside : a.value <:+: part := by
    obtain ⟨rest, split⟩ := NamedAttribute.recogniser.spell_front read
    have here : a.value <:+: NamedAttribute.recogniser.spell a := ⟨a.opening, a.closing, rfl⟩
    exact here.trans (List.IsPrefix.isInfix ⟨rest, split⟩ |>.trans behind.isInfix)
  have inert : ∀ d ∈ a.value, isInert d := fun d mem =>
    isInert_iff.2 ⟨(plain d (inside.subset mem)).1, (enclosed_of_read read).unquoted d mem,
      (plain d (inside.subset mem)).2⟩
  obtain ⟨stem, same, inertStem, freeStem⟩ : ∃ stem,
      (Token.attributeValue onId a.value).nameToScope (.suffixed switches asterisk digits) n = stem ∧
        (∀ d ∈ stem, isInert d) ∧ (WordFree a.value → WordFree stem) := by
    cases onId with
    | true => exact ⟨_, rfl, inert, id⟩
    | false =>
      refine ⟨_, rfl, fun d mem => ?_, joined rfl⟩
      rcases Token.mem_joinWords mem with mem | rfl
      · exact inert d mem
      · rfl
  have whole : (Token.attributeValue onId a.value).replacement r.scopedName =
      Suffix.attach digits (bareName stem) := by
    rw [Token.replacement, scopedName_of_renaming? renamed, same]
  rw [whole]
  refine keeps_behind isQuote foreign inert (fun d mem => ?_) ⟨'_', by simp [Suffix.attach], rfl⟩
    fun free => ?_
  · rcases List.mem_append.1 mem with mem | mem
    · exact inertStem d ((bareName_suffix stem).subset mem)
    · exact isInert_of_mem_suffix quiet.alphanum d mem
  · exact wordFree_attach ((freeStem free).part (bareName_suffix stem).isInfix) quiet.alphanum quiet.few

/-! ### Places -/

/-- Into what follows a name the word in every mark does not go on. -/
theorem ends_of_ofName? {name : Text} {previous : Option Char} {t : Text} {place : Place}
    (found : Place.ofName? name previous t = some place) :
    place.old = name ∧ place.closing = [] ∧ Ends place.after := by
  have apart := (Place.apart_of_ofName? found).2
  obtain ⟨⟨before, after⟩, there, rfl⟩ := Option.map_eq_some_iff.1 found
  refine ⟨rfl, rfl, fun c first => not_mem_word_of_isNameChar ?_⟩
  by_contra letter
  rw [Bool.not_eq_false] at letter
  exact apart ((Option.any_eq_true ..).2 ⟨c, first, letter⟩)

/-- A value is found in an attribute selector. -/
theorem enclosed_of_ofValue? {onId : Bool} {value t : Text} {place : Place}
    (found : Place.ofValue? onId value t = some place) :
    place.old = value ∧ ∃ before a, Enclosed a ∧ place.before = before ++ a.opening ∧
      place.closing = a.closing := by
  unfold Place.ofValue? at found
  dsimp only at found
  split at found
  next before a after cut =>
    cases found
    obtain ⟨whole, -, -⟩ := Place.span_eq_iff.1 cut
    obtain ⟨u, -, read⟩ := Recogniser.exists_read_of_mem_scan
      (r := NamedAttribute.recogniser) (t := t) (a := a) (by rw [whole]; simp)
    exact ⟨rfl, _, a, enclosed_of_read read, rfl, rfl⟩
  next => cases found

/-- Joining the words of the class attributes in a part does not write the word in every mark. -/
def JoinsFreely (part : Text) : Prop :=
  ∀ value, .attributeValue false value ∈ tokens part → WordFree value →
    WordFree (Token.joinWords value)

/-- Renaming a token keeps the blocks of the list. -/
theorem keeps_rename (quiet : Scheme.Quiet asterisk digits) (isQuote : ∀ q ∈ state, Text.isQuote q)
    (mem : token ∈ tokens part) (plain : ∀ c ∈ part, isStructural c = false ∧ c ≠ '\\')
    (joined : JoinsFreely part) (cursor : Cursor) :
    Keeps state cursor.text
      (cursor.rename (.suffixed switches asterisk digits) n token).text := by
  unfold Cursor.rename
  split
  next => exact .refl _
  next r renamed =>
    split
    next place found =>
      have cut : cursor.text = cursor.done ++ place.before ++ (place.old ++
          (place.closing ++ place.after)) := by
        rw [Cursor.text, ← Place.spell_ofToken? found]
        simp [Place.spell]
      have text : (cursor.replace place (token.replacement r.scopedName)).text = cursor.done ++
          place.before ++ (token.replacement r.scopedName ++ (place.closing ++ place.after)) := by
        simp [Cursor.text, Cursor.replace]
      rw [cut, text]
      by_cases byValue : ∃ onId value, token = .attributeValue onId value
      · obtain ⟨onId, value, rfl⟩ := byValue
        obtain ⟨rfl, before, a, enclosed, opens, closes⟩ := enclosed_of_ofValue? found
        obtain ⟨front, c, opening, foreign⟩ := enclosed.opening
        have pieces (t u : Text) : cursor.done ++ place.before ++ (t ++ u) =
            cursor.done ++ before ++ front ++ (c :: t ++ u) := by simp [opens, opening]
        rw [pieces, pieces]
        refine Keeps.around isQuote (keeps_value quiet (isQuote_of_mem_openAfter isQuote) mem plain
          (fun onClass => ?_) renamed foreign) ?_
        · subst onClass
          exact joined _ mem
        · obtain ⟨d, back, split⟩ := List.exists_cons_of_ne_nil enclosed.closing.1
          have ends := enclosed.closing.2
          rw [closes, split] at *
          exact ends
      · have named : ∀ onId value, token ≠ .attributeValue onId value := fun onId value same =>
          byValue ⟨onId, value, same⟩
        have byName : Place.ofName? token.text cursor.done.getLast? cursor.rest = some place := by
          rw [← found]
          unfold Place.ofToken?
          split
          next onId value => exact absurd rfl (named onId value)
          next => rfl
        obtain ⟨old, closing, ends⟩ := ends_of_ofName? byName
        rw [old, closing]
        exact Keeps.around isQuote
          (keeps_name quiet (isQuote_of_mem_openAfter isQuote) mem renamed named) ends
    next => exact .refl _

/-- Scoping the tokens of a part keeps the blocks of the list. -/
theorem keeps_foldl_scopeToken (quiet : Scheme.Quiet asterisk digits)
    (isQuote : ∀ q ∈ state, Text.isQuote q) {l : List Token} (known : ∀ token ∈ l, token ∈ tokens part)
    (plain : ∀ c ∈ part, isStructural c = false ∧ c ≠ '\\') (joined : JoinsFreely part)
    (ledger : Ledger) (cursor : Cursor) :
    Keeps state cursor.text
      (l.foldl (scopeToken (.suffixed switches asterisk digits) part) (ledger, cursor)).2.text := by
  induction l generalizing ledger cursor with
  | nil => exact .refl _
  | cons token l ih =>
    rw [List.foldl_cons, scopeToken_eq]
    exact (keeps_rename quiet isQuote (known token List.mem_cons_self) plain joined cursor).trans
      (ih (fun token mem => known token (.tail _ mem)) _ _)

/-- Looking for a part does not change the text. -/
theorem Cursor.text_seek (done rest part : Text) : (seek done rest part).text = done ++ rest := by
  unfold seek
  split
  next before after found => simp [Cursor.text, Text.eq_of_breakAt? found]
  next => rfl

/-- Scoping parts one after the other keeps the blocks of the list. -/
theorem keeps_scopeFrom (quiet : Scheme.Quiet asterisk digits)
    (isQuote : ∀ q ∈ state, Text.isQuote q) {parts : List Text}
    (plain : ∀ part ∈ parts, ∀ c ∈ part, isStructural c = false ∧ c ≠ '\\')
    (joined : ∀ part ∈ parts, JoinsFreely (NamedAttribute.normalise part))
    {ledger after : Ledger} {text text' : Text} {offset : Nat}
    (ok : scopeFrom (.suffixed switches asterisk digits) parts ledger text offset = .ok (after, text')) :
    Keeps state text text' := by
  induction parts generalizing ledger text offset with
  | nil =>
    cases ok
    exact .refl _
  | cons part parts ih =>
    rw [scopeFrom] at ok
    split at ok
    · cases ok
    next done rest cut =>
      have sought : text = (Cursor.seek done rest (NamedAttribute.normalise part)).text :=
        (Text.splitAtByte?_eq_some_iff.1 cut).1.trans (Cursor.text_seek done rest _).symm
      rw [sought]
      refine Keeps.trans (keeps_foldl_scopeToken quiet isQuote (fun _ => id) (fun c mem => ?_)
        (joined part List.mem_cons_self) ledger _) (ih
          (fun part mem => plain part (.tail _ mem)) (fun part mem => joined part (.tail _ mem)) ok)
      rcases NamedAttribute.mem_normalise mem with mem | rfl
      · exact plain part List.mem_cons_self c mem
      · exact ⟨rfl, by decide⟩

/-- **Scoping a selector list keeps its blocks**, wherever the list stands. -/
theorem keeps_scopeList (quiet : Scheme.Quiet asterisk digits)
    (isQuote : ∀ q ∈ state, Text.isQuote q) {list : Text}
    (plain : ∀ c ∈ list, isStructural c = false ∧ c ≠ '\\')
    (joined : ∀ part ∈ CommaList.entries list, JoinsFreely (NamedAttribute.normalise part))
    {ledger after : Ledger} {list' : Text}
    (ok : scopeList (.suffixed switches asterisk digits) list ledger = .ok (after, list')) :
    Keeps state list list' :=
  (keeps_normalise isQuote list).trans <| keeps_scopeFrom quiet isQuote
    (fun _ mem c inside => plain c ((CommaList.infix_of_mem_entries mem).subset inside)) joined ok

end Selector

/-- **Scoping the name of keyframes keeps blocks**, wherever the selector stands. -/
theorem KeyframesSelector.keeps_rename {digits : Text} (alphanum : ∀ c ∈ digits, c.isAlphanum)
    (few : digits.length ≤ 10) (isQuote : ∀ q ∈ state, Text.isQuote q) {t : Text}
    {selector : KeyframesSelector} (read : ofText? t = some selector) (ledger : Ledger) :
    Keeps state t (selector.rename (Suffix.attach digits) ledger).2 := by
  have cuts := cutsOut_of_ofText? read
  have text : t = selector.start ++ selector.openingQuote ++
      (selector.name ++ (selector.closingQuote ++ selector.back)) := by
    rw [← cuts.whole]
    simp [spell]
  have renamed : (selector.rename (Suffix.attach digits) ledger).2 =
      selector.start ++ selector.openingQuote ++ (Suffix.attach digits selector.name ++
        (selector.closingQuote ++ selector.back)) := by
    simp [rename, renameName, spell]
  rw [text, renamed]
  exact Keeps.around isQuote (keeps_attach (isQuote_of_mem_openAfter isQuote) _ alphanum few)
    fun c first => not_mem_word (cuts.behind c first)

end ScopedCss
