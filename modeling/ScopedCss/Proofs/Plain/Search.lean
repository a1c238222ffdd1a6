import ScopedCss.Proofs.Plain.Tokens

/-!
# Looking for a token behind other items

In a plain list a token is looked for from the end of the last one that was renamed.  What lies
between are items that are not scoped, and the search *passes* them: where the name could start they
hide it, behind the sign or the letters in front of it, or between brackets.  So the token is found
at the item that it belongs to (`ofToken?_render`).
-/
namespace ScopedCss

namespace Place
variable {name : Text} {quote quote' : Option Char} {depth depth' : Nat}
  {previous previous' : Option Char} {s t : List (Segment Text)}

/-- A search comes from one state to another over segments without finding anything in them. -/
def Passes (name : Text) (quote : Option Char) (depth : Nat) (previous : Option Char)
    (s : List (Segment Text)) (quote' : Option Char) (depth' : Nat) (previous' : Option Char) :
    Prop :=
  ∀ t, findName name quote depth previous (s ++ t) =
    (findName name quote' depth' previous' t).map fun (before, after) => (s ++ before, after)

theorem Passes.nil : Passes name quote depth previous [] quote depth previous := by
  intro t
  rw [List.nil_append]
  cases findName name quote depth previous t <;> rfl

theorem Passes.append {quote'' : Option Char} {depth'' : Nat} {previous'' : Option Char}
    (h : Passes name quote depth previous s quote' depth' previous')
    (h' : Passes name quote' depth' previous' t quote'' depth'' previous'') :
    Passes name quote depth previous (s ++ t) quote'' depth'' previous'' := by
  intro u
  rw [List.append_assoc, h, h', Option.map_map]
  simp [Function.comp_def]

/-- A segment at which nothing is found is passed. -/
theorem Passes.step {segment : Segment Text}
    (h : ∀ t, findName name quote depth previous (segment :: t) =
      findName.step segment (findName name quote' depth' previous' t)) :
    Passes name quote depth previous [segment] quote' depth' previous' := h

theorem passes_hit (h : Text) : Passes name quote depth previous [.hit h] quote depth h.getLast? :=
  .step fun t => by cases quote <;> rfl

/-- A character that is no quote and no bracket is passed if the name does not start there or is no
name of its own. -/
theorem passes_plain {c : Char} (quote : Text.isQuote c = false) (opens : c ≠ '[') (closes : c ≠ ']')
    (nonempty : name ≠ []) (h : c ∉ name.head? ∨ startsName name previous = false) :
    Passes name none 0 previous [.plain c] none 0 (some c) := by
  refine .step fun t => ?_
  rw [findName, if_neg (by rw [quote]; exact Bool.false_ne_true), if_neg opens, if_neg closes]
  split
  next rest front =>
    refine if_neg ?_
    rintro ⟨-, -, starts⟩
    rcases h with other | hidden
    · have whole := isPrefixOf?_map_eq_some_iff.1 front
      cases name with
      | nil => exact nonempty rfl
      | cons d name =>
        cases (List.cons.inj whole).1
        exact other rfl
    · rw [hidden] at starts
      cases starts
  next => rfl

/-- Between brackets nothing is found. -/
theorem passes_inner (s : List (Segment Text))
    (inner : ∀ c, .plain c ∈ s → Text.isQuote c = false ∧ c ≠ '[' ∧ c ≠ ']')
    (quoted : ∀ q ∈ quote, Text.isQuote q) (previous : Option Char) :
    ∃ previous', Passes name quote 1 previous s quote 1 previous' := by
  induction s generalizing previous with
  | nil => exact ⟨previous, .nil⟩
  | cons segment s ih =>
    have rest := ih fun c mem => inner c (List.mem_cons_of_mem segment mem)
    cases segment with
    | hit h =>
      obtain ⟨previous', passes⟩ := rest h.getLast?
      exact ⟨previous', (passes_hit h).append passes⟩
    | plain c =>
      obtain ⟨previous', passes⟩ := rest (some c)
      obtain ⟨noQuote, opens, closes⟩ := inner c List.mem_cons_self
      refine ⟨previous', Passes.append (s := [.plain c]) (.step fun t => ?_) passes⟩
      cases quote with
      | none =>
        rw [findName, if_neg (by rw [noQuote]; exact Bool.false_ne_true), if_neg opens,
          if_neg closes]
        split
        next => exact if_neg fun h => absurd h.1 Nat.one_ne_zero
        next => rfl
      | some q =>
        have other : c ≠ q := by
          rintro rfl
          rw [quoted c rfl] at noQuote
          cases noQuote
        rw [findName, if_neg other]

theorem passes_opening (name : Text) (previous : Option Char) :
    Passes name none 0 previous [.plain '['] none 1 (some '[') := .step fun _ => rfl

theorem passes_closing (name : Text) (previous : Option Char) :
    Passes name none 1 previous [.plain ']'] none 0 (some ']') := .step fun _ => rfl

/-- A quote opens a string, or closes the one that it opened. -/
theorem passes_quote {q : Char} (h : Text.isQuote q) (previous : Option Char) :
    Passes name none 1 previous [.plain q] (some q) 1 (some q) ∧
      Passes name (some q) 1 previous [.plain q] none 1 (some q) := by
  refine ⟨.step fun t => ?_, .step fun t => ?_⟩
  · rw [findName, if_pos h]
  · rw [findName, if_pos rfl]

/-! ### Texts that hide a name -/

/-- A text hides a name from a search: it holds no quote and no bracket, and wherever the name could
start in it the name is none of its own. -/
def Hides (name : Text) : Option Char → Text → Prop
  | _, [] => True
  | previous, c :: t =>
    (Text.isQuote c = false ∧ c ≠ '[' ∧ c ≠ ']' ∧
      (c ∉ name.head? ∨ startsName name previous = false)) ∧ Hides name (some c) t

theorem getLast?_cons_or (c : Char) (t : Text) (previous : Option Char) :
    (c :: t).getLast?.or previous = t.getLast?.or (some c) := by
  cases t with
  | nil => rfl
  | cons d t =>
    rw [List.getLast?_cons_cons, List.getLast?_eq_some_getLast (by simp)]
    rfl

theorem passes_of_hides (nonempty : name ≠ []) {t : Text} (h : Hides name previous t) :
    Passes name none 0 previous (t.map .plain) none 0 (t.getLast?.or previous) := by
  induction t generalizing previous with
  | nil => exact .nil
  | cons c t ih =>
    obtain ⟨⟨quote, opens, closes, hides⟩, later⟩ := h
    rw [getLast?_cons_or]
    exact (passes_plain quote opens closes nonempty hides).append (ih later)

/-- Behind a name character or the sign of a class, an id or a pseudo-class no name starts. -/
theorem startsName_of_sign {c d : Char} (letter : c ∈ name.head?) (named : Text.isNameChar c)
    (sign : d = '.' ∨ d = '#' ∨ d = ':' ∨ Text.isNameChar d) : startsName name (some d) = false := by
  rw [Option.mem_def] at letter
  rcases sign with rfl | rfl | rfl | sign
  · simp [startsName, letter, named]
  · simp [startsName, letter, named]
  · simp [startsName, letter, named]
  · simp [startsName, letter, named, sign]

theorem hides_append {s t : Text} (h : Hides name previous s)
    (h' : Hides name (s.getLast?.or previous) t) : Hides name previous (s ++ t) := by
  induction s generalizing previous with
  | nil => exact h'
  | cons c s ih =>
    refine ⟨h.1, ih h.2 ?_⟩
    rwa [getLast?_cons_or] at h'

/-- A text without the first character of the name hides it. -/
theorem hides_of_head {t : Text} (quotes : ∀ c ∈ t, Text.isQuote c = false)
    (brackets : ∀ c ∈ t, c ≠ '[' ∧ c ≠ ']') (head : ∀ c ∈ t, c ∉ name.head?) :
    Hides name previous t := by
  induction t generalizing previous with
  | nil => trivial
  | cons c t ih =>
    have here : c ∈ c :: t := List.mem_cons_self
    refine ⟨⟨quotes c here, (brackets c here).1, (brackets c here).2, .inl (head c here)⟩, ?_⟩
    exact ih (fun d mem => quotes d (List.mem_cons_of_mem c mem))
      (fun d mem => brackets d (List.mem_cons_of_mem c mem))
      fun d mem => head d (List.mem_cons_of_mem c mem)

/-- A name is found where the search stands if it ends and starts there. -/
theorem findName_here {c : Char} {rest : Text} (head : name = c :: rest)
    (quote : Text.isQuote c = false) (opens : c ≠ '[') (closes : c ≠ ']')
    (starts : startsName name previous) (ends : endsName t) :
    findName name none 0 previous (name.map .plain ++ t) = some ([], t) := by
  have front : (name.map Segment.plain).isPrefixOf? (name.map .plain ++ t) = some t :=
    List.isPrefixOf?_eq_some_iff_append_eq.2 rfl
  subst head
  rw [List.map_cons, List.cons_append] at front ⊢
  rw [findName, if_neg (by rw [quote]; exact Bool.false_ne_true), if_neg opens, if_neg closes]
  simp only [List.map_cons, front]
  exact if_pos ⟨trivial, ends, starts⟩

/-- What stands before a compound: nothing, or no name character and no sign of a class, an id or a
pseudo-class. -/
def OpensCompound (previous : Option Char) : Prop :=
  ∀ c ∈ previous, c ∉ ['.', '#', ':'] ∧ Text.isNameChar c = false

theorem startsName_of_opensCompound (h : OpensCompound previous) : startsName name previous := by
  cases previous with
  | none => simp [startsName]
  | some c =>
    obtain ⟨signs, letter⟩ := h c rfl
    simp only [List.mem_cons, List.not_mem_nil, or_false, not_or] at signs
    simp [startsName, signs, letter]

/-- A name that starts with no name character can start anywhere. -/
theorem startsName_of_head {c : Char} (head : name.head? = some c)
    (none : Text.isNameChar c = false) : startsName name previous := by
  simp [startsName, head, none]

end Place

namespace Plain
open Place

/-! ### The characters of items -/

/-- The characters of items other than attribute selectors and comments that are no name
characters. -/
def punctuation : List Char := ['*', '.', '#', ':', '(', ')', '>', '+', '~', ','] ++ blanks

namespace Item

/-- Whether an item is neither an attribute selector nor the mark of a comment. -/
def isBasic : Item → Bool
  | attr _ => false
  | comment => false
  | _ => true

/-- The characters of an item that are no name characters. -/
def signs : Item → List Char
  | universal => ['*']
  | ofClass _ => ['.']
  | ofId _ => ['#']
  | pseudo _ _ => [':']
  | function _ _ => [':', '(']
  | close => [')']
  | space c _ => [c]
  | combinator c _ => [c]
  | comma => [',']
  | _ => []

theorem mem_text {item : Item} (basic : item.isBasic) {c : Char} (mem : c ∈ item.text) :
    isNameChar c ∨ c ∈ item.signs := by
  cases item with
  | type name letters =>
    have letter := Selector.alphanum_of_isElementName letters c mem
    exact .inl (by simp [isNameChar, letter])
  | universal => exact .inr mem
  | ofClass name =>
    rcases List.mem_cons.1 mem with rfl | mem
    · exact .inr List.mem_cons_self
    · exact .inl (name.plain c mem)
  | ofId name =>
    rcases List.mem_cons.1 mem with rfl | mem
    · exact .inr List.mem_cons_self
    · exact .inl (name.plain c mem)
  | pseudo element name =>
    rcases List.mem_cons.1 mem with rfl | mem
    · exact .inr List.mem_cons_self
    · rcases List.mem_append.1 mem with mem | mem
      · cases element with
        | false => cases mem
        | true => exact .inr mem
      · exact .inl (name.plain c mem)
  | function name selectors =>
    rcases List.mem_cons.1 mem with rfl | mem
    · exact .inr List.mem_cons_self
    · rcases List.mem_append.1 mem with mem | mem
      · exact .inl (name.plain c mem)
      · exact .inr (List.mem_cons_of_mem _ mem)
  | close => exact .inr mem
  | attr a => cases basic
  | space d blank => exact .inr mem
  | combinator d known => exact .inr mem
  | comma => exact .inr mem
  | comment => cases basic

theorem mem_punctuation {item : Item} {c : Char} (mem : c ∈ item.signs) : c ∈ punctuation := by
  cases item with
  | space d blank =>
    cases List.mem_singleton.1 mem
    exact List.mem_append_right _ blank
  | combinator d known =>
    cases List.mem_singleton.1 mem
    simp only [List.mem_cons, List.not_mem_nil, or_false] at known
    rcases known with rfl | rfl | rfl <;> decide
  | universal => cases List.mem_singleton.1 mem; decide
  | ofClass name => cases List.mem_singleton.1 mem; decide
  | ofId name => cases List.mem_singleton.1 mem; decide
  | pseudo element name => cases List.mem_singleton.1 mem; decide
  | function name selectors =>
    simp only [signs, List.mem_cons, List.not_mem_nil, or_false] at mem
    rcases mem with rfl | rfl <;> decide
  | close => cases List.mem_singleton.1 mem; decide
  | comma => cases List.mem_singleton.1 mem; decide
  | type name letters => cases mem
  | attr a => cases mem
  | comment => cases mem

/-- A character that is neither a name character nor punctuation does not stand in an item. -/
theorem not_mem_text {item : Item} (basic : item.isBasic) {c : Char} (none : isNameChar c = false)
    (foreign : c ∉ punctuation) : c ∉ item.text := by
  intro mem
  rcases mem_text basic mem with letter | sign
  · rw [none] at letter
    cases letter
  · exact foreign (mem_punctuation sign)

theorem no_quote {item : Item} (basic : item.isBasic) {c : Char} (mem : c ∈ item.text) :
    Text.isQuote c = false := by
  rw [← Bool.not_eq_true]
  intro quote
  simp only [Text.isQuote, Bool.or_eq_true, beq_iff_eq] at quote
  rcases quote with rfl | rfl
  · exact not_mem_text basic (by decide) (by decide) mem
  · exact not_mem_text basic (by decide) (by decide) mem

theorem no_brackets {item : Item} (basic : item.isBasic) {c : Char} (mem : c ∈ item.text) :
    c ≠ '[' ∧ c ≠ ']' := by
  constructor
  · rintro rfl
    exact not_mem_text basic (by decide) (by decide) mem
  · rintro rfl
    exact not_mem_text basic (by decide) (by decide) mem

/-! ### The marks and escapes in items -/

theorem readHidden_of_basic {item : Item} (basic : item.isBasic) {c : Char} (mem : c ∈ item.text)
    (t : Text) : hidden.read (c :: t) = none := by
  have backslash : c ≠ '\\' := by
    rintro rfl
    exact not_mem_text basic (by decide) (by decide) mem
  have percent : c ≠ '%' := by
    rintro rfl
    exact not_mem_text basic (by decide) (by decide) mem
  refine (readHidden_of_ne_backslash backslash t).trans (if_neg ?_)
  rw [List.isPrefixOf_iff_prefix]
  exact fun front => percent (List.cons_prefix_cons.1 front).1.symm

/-- An item is scanned by itself. -/
theorem scan_hidden_text (item : Item) (t : Text) :
    hidden.scan (item.text ++ t) = hidden.scan item.text ++ hidden.scan t := by
  cases basic : item.isBasic with
  | true =>
    have plain := fun c mem u => readHidden_of_basic (c := c) basic mem u
    have alone := Recogniser.scan_append_of_plain (r := Place.hidden) plain []
    rw [List.append_nil] at alone
    rw [Recogniser.scan_append_of_plain plain, alone, Recogniser.scan_nil, List.append_nil]
  | false =>
    cases item with
    | comment =>
      have here : hidden.read (hidden.spell Mark.comment ++ t) = some Mark.comment := rfl
      exact Recogniser.scan_spell_append here
    | attr a =>
      refine Recogniser.scan_append fun u inside nonempty => ?_
      have last : ']' ∈ u := by
        obtain ⟨s, split⟩ := inside
        rcases List.eq_nil_or_concat u with rfl | ⟨v, c, rfl⟩
        · exact absurd rfl nonempty
        · rw [List.concat_eq_append, ← List.append_assoc] at split
          have whole : s ++ v ++ [c] = ('[' :: a.inside) ++ [']'] := by
            rw [split, text, a.text_eq, List.cons_append]
          have same := (List.append_inj' whole rfl).2
          cases same
          simp
      have no_backslash : u.head? ≠ some '\\' := by
        intro first
        have mem : '\\' ∈ a.text := inside.mem (List.mem_of_mem_head? first)
        rw [a.text_eq] at mem
        simp only [List.mem_cons, List.mem_append, List.not_mem_nil, or_false] at mem
        rcases mem with mem | mem | mem
        · cases mem
        · exact a.not_outer_of_mem_inside mem (by decide)
        · cases mem
      have mark : Mark.comment.isPrefixOf (u ++ t) = Mark.comment.isPrefixOf u := by
        rw [← List.isSome_isPrefixOf?_eq_isPrefixOf, ← List.isSome_isPrefixOf?_eq_isPrefixOf,
          Text.isPrefixOf?_append_of_mem last (by decide), Option.isSome_map]
      cases u with
      | nil => exact absurd rfl nonempty
      | cons c u =>
        have solid : c ≠ '\\' := fun same => no_backslash (by rw [same]; rfl)
        show readHidden (c :: u ++ t) = readHidden (c :: u)
        rw [List.cons_append, readHidden_of_ne_backslash solid, readHidden_of_ne_backslash solid,
          ← List.cons_append, mark]
    | _ => cases basic

theorem scan_hidden_of_basic {item : Item} (basic : item.isBasic) :
    hidden.scan item.text = item.text.map .plain := by
  have plain := fun c mem u => readHidden_of_basic (c := c) basic mem u
  have alone := Recogniser.scan_append_of_plain (r := Place.hidden) plain []
  rwa [List.append_nil, Recogniser.scan_nil, List.append_nil] at alone

end Item

/-! ### Attribute selectors are passed -/

theorem scan_hidden_solid {s : Text} (solid : '\\' ∉ s) {c : Char} (escape : c ≠ '\\')
    (foreign : c ∉ Mark.comment) (t : Text) :
    hidden.scan (s ++ c :: t) = hidden.scan s ++ .plain c :: hidden.scan t := by
  have cut : hidden.scan (s ++ c :: t) = hidden.scan s ++ hidden.scan (c :: t) := by
    refine Recogniser.scan_append fun u inside nonempty => ?_
    refine readHidden_append (fun d first => ?_) nonempty ?_
    · cases first
      exact foreign
    · rintro rfl
      exact solid (inside.mem List.mem_cons_self)
  have unread : hidden.read (c :: t) = none := by
    refine (readHidden_of_ne_backslash escape t).trans (if_neg ?_)
    rw [List.isPrefixOf_iff_prefix]
    intro front
    refine foreign ?_
    rw [← (List.cons_prefix_cons.1 front).1]
    exact List.mem_cons_self
  rw [cut, Recogniser.scan_of_not_read unread]

theorem mem_of_plain_mem_scan {t : Text} {c : Char} (mem : .plain c ∈ hidden.scan t) : c ∈ t := by
  rw [← Place.hidden.spellAll_scan t]
  exact List.mem_flatMap.2 ⟨.plain c, mem, List.mem_cons_self⟩

namespace Comparison
variable {c : Comparison} {d : Char}

theorem unquoted_of_mem_value (mem : d ∈ c.value) : Text.isQuote d = false ∧ d ≠ '\\' := by
  have known := c.value_chars d mem
  simp only [isValueChar, Bool.and_eq_true, Bool.not_eq_true'] at known
  refine ⟨known.1, ?_⟩
  rintro rfl
  exact absurd known.2 (by decide)

theorem unquoted_of_mem_operatorText (mem : d ∈ c.operatorText) : Text.isQuote d = false := by
  have known : d ∈ ['=', '*', '^', '$', '~', '|'] := by
    rcases List.mem_append.1 mem with mem | mem
    · exact List.mem_cons_of_mem _ (c.isOperator d (by simpa using mem))
    · rw [List.mem_singleton.1 mem]
      exact List.mem_cons_self
  simp only [List.mem_cons, List.not_mem_nil, or_false] at known
  rcases known with rfl | rfl | rfl | rfl | rfl | rfl <;> rfl

end Comparison

namespace Attribute
variable (a : Attribute)

/-- A text between brackets that holds no quote. -/
theorem passes_unquoted (name : Text) {quote : Option Char} (quoted : ∀ q ∈ quote, Text.isQuote q)
    {t : Text} (inner : ∀ c ∈ t, Text.isQuote c = false ∧ c ∉ outer) (previous : Option Char) :
    ∃ previous', Passes name quote 1 previous (hidden.scan t) quote 1 previous' := by
  refine passes_inner _ (fun c mem => ?_) quoted previous
  obtain ⟨noQuote, known⟩ := inner c (mem_of_plain_mem_scan mem)
  refine ⟨noQuote, ?_, ?_⟩
  · rintro rfl
    exact known (by decide)
  · rintro rfl
    exact known (by decide)

theorem isQuote_of_isSpace {c : Char} (space : Text.isSpace c) : Text.isQuote c = false := by
  rw [← Bool.not_eq_true]
  intro quote
  rw [Comparison.isSpace_of_isQuote quote] at space
  cases space

theorem isQuote_of_isNameChar {c : Char} (letter : isNameChar c) : Text.isQuote c = false := by
  rw [← Bool.not_eq_true]
  intro quote
  simp only [Text.isQuote, Bool.or_eq_true, beq_iff_eq] at quote
  rcases quote with rfl | rfl <;> cases letter

/-- What stands between the brackets holds no quotes, or a value between two quotes. -/
theorem inside_cases :
    (∀ c ∈ a.inside, Text.isQuote c = false) ∨
      ∃ front q value back, a.inside = front ++ q :: (value ++ q :: back) ∧ Text.isQuote q ∧
        (∀ c ∈ front, Text.isQuote c = false) ∧ (∀ c ∈ value, Text.isQuote c = false) ∧
        ∀ c ∈ back, Text.isQuote c = false := by
  have front : ∀ c ∈ a.lead ++ (a.name.text ++ a.gap), Text.isQuote c = false :=
    List.forall_mem_append.2 ⟨fun c mem => isQuote_of_isSpace (a.lead_spaces c mem),
      List.forall_mem_append.2 ⟨fun c mem => isQuote_of_isNameChar (a.name.plain c mem),
        fun c mem => isQuote_of_isSpace (a.gap_spaces c mem)⟩⟩
  cases compared : a.comparison with
  | none => exact .inl (by simpa [inside, compared] using front)
  | some c =>
    have compare : ∀ d ∈ c.operatorText ++ c.lead, Text.isQuote d = false :=
      List.forall_mem_append.2 ⟨fun d mem => Comparison.unquoted_of_mem_operatorText mem,
        fun d mem => isQuote_of_isSpace (c.lead_spaces d mem)⟩
    have value : ∀ d ∈ c.value, Text.isQuote d = false := fun d mem =>
      (Comparison.unquoted_of_mem_value mem).1
    have back : ∀ d ∈ c.back, Text.isQuote d = false := fun d mem =>
      isQuote_of_isSpace (c.back_spaces d mem)
    have begun := List.forall_mem_append.2 ⟨front, compare⟩
    cases quoted : c.quote with
    | none =>
      have whole : a.inside = a.lead ++ (a.name.text ++ a.gap) ++ (c.operatorText ++ c.lead) ++
          (c.value ++ c.back) := by simp [inside, compared, Comparison.text, quoted]
      rw [whole]
      exact .inl (List.forall_mem_append.2 ⟨begun, List.forall_mem_append.2 ⟨value, back⟩⟩)
    | some q =>
      refine .inr ⟨a.lead ++ (a.name.text ++ a.gap) ++ (c.operatorText ++ c.lead), q, c.value,
        c.back, ?_, c.isQuote q quoted, begun, value, back⟩
      simp [inside, compared, Comparison.text, quoted]

/-- Attribute selectors are passed, with the strings in them. -/
theorem passes_text (name : Text) (previous : Option Char) :
    Passes name none 0 previous (hidden.scan a.text) none 0 (some ']') := by
  have no_escape {s : Text} (part : ∀ c ∈ s, c ∈ a.inside) : '\\' ∉ s :=
    fun mem => a.not_outer_of_mem_inside (part _ mem) (by decide)
  have bracket : hidden.scan a.text =
      .plain '[' :: (hidden.scan a.inside ++ .plain ']' :: hidden.scan []) := by
    have opening := scan_hidden_solid (s := []) (by simp) (c := '[') (by decide) (by decide)
      (a.inside ++ [']'])
    have closing := scan_hidden_solid (no_escape fun _ mem => mem) (c := ']') (by decide)
      (by decide) []
    rw [a.text_eq, ← closing]
    exact opening
  have through : ∃ p, Passes name none 1 (some '[') (hidden.scan a.inside) none 1 p := by
    have none (q : Char) (mem : q ∈ (none : Option Char)) : Text.isQuote q := by cases mem
    rcases a.inside_cases with unquoted | ⟨front, q, value, back, split, quote, noF, noV, noB⟩
    · exact passes_unquoted name none (fun c mem => ⟨unquoted c mem, a.not_outer_of_mem_inside mem⟩) _
    · have inF (c : Char) (mem : c ∈ front) : c ∈ a.inside := by simp [split, mem]
      have inV (c : Char) (mem : c ∈ value) : c ∈ a.inside := by simp [split, mem]
      have inB (c : Char) (mem : c ∈ back) : c ∈ a.inside := by simp [split, mem]
      have escape : q ≠ '\\' := by
        rintro rfl
        cases quote
      have foreign : q ∉ Mark.comment := by
        simp only [Text.isQuote, Bool.or_eq_true, beq_iff_eq] at quote
        rcases quote with rfl | rfl <;> decide
      have inString (d : Char) (mem : d ∈ some q) : Text.isQuote d := by
        cases mem
        exact quote
      obtain ⟨p, passes⟩ := passes_unquoted name none
        (fun c mem => ⟨noF c mem, a.not_outer_of_mem_inside (inF c mem)⟩) (some '[')
      obtain ⟨p', passes'⟩ := passes_unquoted name inString
        (fun c mem => ⟨noV c mem, a.not_outer_of_mem_inside (inV c mem)⟩) (some q)
      obtain ⟨p'', passes''⟩ := passes_unquoted name none
        (fun c mem => ⟨noB c mem, a.not_outer_of_mem_inside (inB c mem)⟩) (some q)
      refine ⟨p'', ?_⟩
      rw [split, scan_hidden_solid (no_escape inF) escape foreign,
        scan_hidden_solid (no_escape inV) escape foreign]
      exact passes.append ((passes_quote quote p).1.append
        (passes'.append ((passes_quote quote p').2.append passes'')))
  obtain ⟨p, through⟩ := through
  rw [bracket]
  exact (passes_opening name previous).append (through.append (passes_closing name p))

end Attribute

end Plain
end ScopedCss
