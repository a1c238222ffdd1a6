import ScopedCss.Proofs.Plain.Attributes
import ScopedCss.Proofs.Selector.Parts
import ScopedCss.Selector.Tokens

/-!
# The tokens of a plain selector list

The tokens of a plain list are those of its items, in order (`tokens_render`).  An item is scanned by
itself: attribute selectors on classes and ids, which are cut out first, are read for what they are,
and between them each item is one fragment or none.  All that an item needs of the text behind it is
that a name ends where the item does, and that no parenthesis opens there: the text *closes* it.
-/
namespace ScopedCss.Plain

/-- What may follow an item that ends in a name. -/
def Closes (t : Text) : Prop :=
  ∀ c ∈ t.head?, Text.isNameChar c = false ∧ Text.isWordChar c = false ∧ c ≠ '('

theorem closes_nil : Closes [] := fun _ first => by cases first

namespace Item

/-- The token of an item. -/
def token? : Item → Option Token
  | type name _ => some (.element name)
  | universal => some .universal
  | ofClass name => some (.ofClass name.text)
  | ofId name => some (.ofId name.text)
  | pseudo element name => some (.pseudo (':' :: ((if element then [':'] else []) ++ name.text)))
  | function name _ => some (.pseudo (':' :: name.text))
  | attr a => a.named?.bind NamedAttribute.token?
  | _ => none

/-- Whether an item ends in a name, or in `*`. -/
def endsName : Item → Bool
  | type _ _ => true
  | universal => true
  | ofClass _ => true
  | ofId _ => true
  | pseudo _ _ => true
  | _ => false

theorem endsCompound_of_endsName {item : Item} (h : item.endsName) : item.endsCompound = false := by
  cases item <;> first | rfl | cases h

theorem head_of_startsCompound {item : Item} (h : item.startsCompound = false) (t : Text) :
    Closes (item.text ++ t) := by
  have closes {c : Char} (none : Text.isNameChar c = false) (word : Text.isWordChar c = false)
      (opens : c ≠ '(') (u : Text) : Closes (c :: u) := by
    intro d first
    cases first
    exact ⟨none, word, opens⟩
  cases item with
  | type name letters => cases h
  | universal => cases h
  | ofClass name => exact closes (by decide) (by decide) (by decide) _
  | ofId name => exact closes (by decide) (by decide) (by decide) _
  | pseudo element name => exact closes (by decide) (by decide) (by decide) _
  | function name selectors => exact closes (by decide) (by decide) (by decide) _
  | close => exact closes (by decide) (by decide) (by decide) _
  | attr a => exact closes (by decide) (by decide) (by decide) _
  | space c blank =>
    simp only [blanks, List.mem_cons, List.not_mem_nil, or_false] at blank
    rcases blank with rfl | rfl | rfl | rfl | rfl | rfl <;>
      exact closes (by decide) (by decide) (by decide) _
  | combinator c known =>
    simp only [List.mem_cons, List.not_mem_nil, or_false] at known
    rcases known with rfl | rfl | rfl <;> exact closes (by decide) (by decide) (by decide) _
  | comma => exact closes (by decide) (by decide) (by decide) _
  | comment => exact closes (by decide) (by decide) (by decide) _

end Item

/-- In a list every name is closed by what follows it. -/
theorem closes_render {item : Item} {items : List Item}
    (compounds : (item :: items).IsChain fun item next => next.startsCompound → item.endsCompound)
    (name : item.endsName) {after : Text} (closes : Closes after) :
    Closes (render items ++ after) := by
  cases items with
  | nil => exact closes
  | cons next items =>
    have starts : next.startsCompound = false := by
      have here := (List.isChain_cons_cons.1 compounds).1
      rw [Item.endsCompound_of_endsName name] at here
      simpa using here
    rw [render, List.flatMap_cons, List.append_assoc]
    exact Item.head_of_startsCompound starts _

/-! ### Attribute selectors are cut out -/

namespace Item

/-- The segments of an item when attribute selectors on classes and ids are cut out. -/
def namedSegments : Item → List (Segment NamedAttribute)
  | attr a =>
    match a.named? with
    | some named => [.hit named]
    | none => a.text.map .plain
  | item => item.text.map .plain

/-- Whether an item is an attribute selector on classes or ids. -/
def isNamed : Item → Bool
  | attr a => a.named?.isSome
  | _ => false

theorem no_bracket_of_name (name : Name) : '[' ∉ name.text :=
  fun mem => by cases name.plain _ mem

theorem no_bracket (item : Item) (h : ∀ a, item ≠ attr a) : '[' ∉ item.text := by
  cases item with
  | type name letters =>
    intro mem
    have letter := Selector.alphanum_of_isElementName letters _ mem
    cases letter
  | universal => decide
  | ofClass name => simpa [text, classSelector] using no_bracket_of_name name
  | ofId name => simpa [text, idSelector] using no_bracket_of_name name
  | pseudo element name => cases element <;> simpa [text] using no_bracket_of_name name
  | function name selectors => simpa [text] using no_bracket_of_name name
  | close => decide
  | attr a => exact absurd rfl (h a)
  | space c blank =>
    simp only [text, List.mem_singleton]
    rintro rfl
    exact absurd blank (by decide)
  | combinator c known =>
    simp only [text, List.mem_singleton]
    rintro rfl
    exact absurd known (by decide)
  | comma => decide
  | comment => decide

theorem read_of_ne_bracket {c : Char} (h : c ≠ '[') (t : Text) :
    NamedAttribute.read (c :: t) = none := by
  unfold NamedAttribute.read
  split
  next same => exact absurd (List.cons.inj same).1 h
  next => rfl

theorem scan_named (item : Item) (t : Text) :
    NamedAttribute.recogniser.scan (item.text ++ t) =
      item.namedSegments ++ NamedAttribute.recogniser.scan t := by
  have plain {s : Text} (none : '[' ∉ s) :
      NamedAttribute.recogniser.scan (s ++ t) =
        s.map .plain ++ NamedAttribute.recogniser.scan t :=
    Recogniser.scan_append_of_plain
      (fun c mem u => read_of_ne_bracket (fun same => none (same ▸ mem)) u) t
  cases item with
  | attr a =>
    have read := a.read_text t
    cases found : a.named? with
    | some named =>
      rw [found, ← a.spell_of_named found] at read
      simp only [text, namedSegments, found]
      rw [← a.spell_of_named found]
      exact Recogniser.scan_spell_append read
    | none =>
      simp only [text, namedSegments, found]
      rw [found, a.text_eq, List.cons_append] at read
      have rest : '[' ∉ a.inside ++ [']'] := by
        intro mem
        rcases List.mem_append.1 mem with mem | mem
        · exact a.not_outer_of_mem_inside mem (by decide)
        · cases List.mem_singleton.1 mem
      rw [a.text_eq, List.cons_append]
      refine (Recogniser.scan_of_not_read read).trans ?_
      rw [plain rest]
      rfl
  | _ => exact plain (no_bracket _ (by simp))

end Item

/-! ### Fragments -/

theorem isIdentChar_of_isNameChar {c : Char} (h : isNameChar c) : Text.isIdentChar c := by
  simp only [isNameChar, Bool.or_eq_true, beq_iff_eq] at h
  rw [Text.isIdentChar, Bool.or_eq_true]
  rcases h with (letter | rfl) | rfl
  · exact .inl (Text.isWordChar_of_isAlphanum letter)
  · exact .inl (by decide)
  · exact .inr rfl

theorem isIdentChar_eq_false {c : Char} (none : Text.isNameChar c = false)
    (word : Text.isWordChar c = false) : Text.isIdentChar c = false := by
  rw [Text.isIdentChar, word, Bool.false_or]
  cases same : c == '-' with
  | false => rfl
  | true =>
    rw [eq_of_beq same] at none
    cases none

/-- A run that is closed is read as a whole. -/
theorem readRun_append {p : Char → Bool} {run t : Text} (nonempty : run ≠ [])
    (all : ∀ c ∈ run, p c) (stops : ∀ c ∈ t.head?, p c = false) :
    Fragment.readRun p (run ++ t) = some run := by
  have rest : t.takeWhile p = [] := by
    cases t with
    | nil => rfl
    | cons c t => simp [stops c rfl]
  rw [Fragment.readRun, List.takeWhile_append_of_pos all, rest, List.append_nil]
  cases run with
  | nil => exact absurd rfl nonempty
  | cons c run => rfl

theorem readRun_name (name : Name) {t : Text} (closes : Closes t) :
    Fragment.readRun Text.isIdentChar (name.text ++ t) = some name.text :=
  readRun_append name.nonempty (fun c mem => isIdentChar_of_isNameChar (name.plain c mem))
    fun c first => isIdentChar_eq_false (closes c first).1 (closes c first).2.1

/-- A pseudo-class before which no parenthesis opens is no function. -/
theorem readFunction_name (name : Name) {t : Text}
    (stops : ∀ c ∈ t.head?, Text.isIdentChar c = false)
    (plain : t.head? = some '(' → Fragment.takesPlainArgument name.text = false) :
    Fragment.readFunction (name.text ++ t) = none := by
  have all : ∀ c ∈ name.text, Text.isIdentChar c :=
    fun c mem => isIdentChar_of_isNameChar (name.plain c mem)
  have take : t.takeWhile Text.isIdentChar = [] ∧ t.dropWhile Text.isIdentChar = t := by
    cases t with
    | nil => exact ⟨rfl, rfl⟩
    | cons c t => simp [stops c rfl]
  rw [Fragment.readFunction, List.takeWhile_append_of_pos all, List.dropWhile_append_of_pos all,
    take.1, take.2, List.append_nil]
  split
  next rest =>
    rw [if_neg]
    rintro ⟨argument, -⟩
    rw [plain rfl] at argument
    cases argument
  next => rfl

theorem tokens_of_read {f t : Text} (read : Fragment.read (f ++ t) = some f)
    (kept : Fragment.isSkipped f = false) :
    Fragment.tokens (f ++ t) = Token.ofText f :: Fragment.tokens t := by
  have scan : Fragment.recogniser.scan (f ++ t) = .hit f :: Fragment.recogniser.scan t :=
    Recogniser.scan_spell_append read
  simp [Fragment.tokens, scan, Segment.hit?, kept]

theorem tokens_of_skipped {f t : Text} (read : Fragment.read (f ++ t) = some f)
    (skipped : Fragment.isSkipped f = true) :
    Fragment.tokens (f ++ t) = Fragment.tokens t := by
  have scan : Fragment.recogniser.scan (f ++ t) = .hit f :: Fragment.recogniser.scan t :=
    Recogniser.scan_spell_append read
  simp [Fragment.tokens, scan, Segment.hit?, skipped]

theorem tokens_of_not_read {c : Char} {t : Text} (read : Fragment.read (c :: t) = none) :
    Fragment.tokens (c :: t) = Fragment.tokens t := by
  have scan : Fragment.recogniser.scan (c :: t) = .plain c :: Fragment.recogniser.scan t :=
    Recogniser.scan_of_not_read read
  rw [Fragment.tokens, scan]
  rfl

theorem read_of_word {c : Char} (other : c ∉ ['%', '[', '.', '#', ':', '*']) (t : Text) :
    Fragment.read (c :: t) = Fragment.readRun Text.isWordChar (c :: t) := by
  unfold Fragment.read
  split
  next same => exact absurd (by rw [(List.cons.inj same).1]; decide) other
  next same => exact absurd (by rw [(List.cons.inj same).1]; decide) other
  next same => exact absurd (by rw [(List.cons.inj same).1]; decide) other
  next same => exact absurd (by rw [(List.cons.inj same).1]; decide) other
  next same => exact absurd (by rw [(List.cons.inj same).1]; decide) other
  next same => exact absurd (by rw [(List.cons.inj same).1]; decide) other
  next => rfl

theorem read_of_separator {c : Char} (other : c ∉ ['%', '[', '.', '#', ':', '*'])
    (word : Text.isWordChar c = false) (t : Text) : Fragment.read (c :: t) = none := by
  rw [read_of_word other]
  simp [Fragment.readRun, word]

theorem readPseudo_name (name : Name) {t : Text}
    (stops : ∀ c ∈ t.head?, Text.isIdentChar c = false) :
    Fragment.readPseudo (name.text ++ t) = some name.text ∧
      Fragment.readPseudo (':' :: (name.text ++ t)) = some (':' :: name.text) := by
  obtain ⟨c, u, head, letter⟩ := name.head
  have run : Fragment.readRun Text.isIdentChar (name.text ++ t) = some name.text :=
    readRun_append name.nonempty (fun c mem => isIdentChar_of_isNameChar (name.plain c mem)) stops
  refine ⟨?_, by rw [Fragment.readPseudo, run]; rfl⟩
  have other : c ≠ ':' := ne_of_isNameChar letter rfl
  rw [head] at run ⊢
  unfold Fragment.readPseudo
  split
  next same => exact absurd (List.cons.inj same).1 other
  next => exact run

/-- A pseudo-class is read up to the end of its name. -/
theorem read_pseudo (name : Name) {t : Text}
    (stops : ∀ c ∈ t.head?, Text.isIdentChar c = false)
    (plain : t.head? = some '(' → Fragment.takesPlainArgument name.text = false) :
    Fragment.read (':' :: (name.text ++ t)) = some (':' :: name.text) := by
  have read : Fragment.read (':' :: (name.text ++ t)) =
      ((Fragment.readFunction (name.text ++ t)).or (Fragment.readPseudo (name.text ++ t))).map
        (':' :: ·) := rfl
  rw [read, readFunction_name name stops plain, (readPseudo_name name stops).1]
  rfl

/-- A pseudo-element is read up to the end of its name. -/
theorem read_element (name : Name) {t : Text}
    (stops : ∀ c ∈ t.head?, Text.isIdentChar c = false) :
    Fragment.read (':' :: ':' :: (name.text ++ t)) = some (':' :: ':' :: name.text) := by
  have read : Fragment.read (':' :: ':' :: (name.text ++ t)) =
      ((Fragment.readFunction (':' :: (name.text ++ t))).or
        (Fragment.readPseudo (':' :: (name.text ++ t)))).map (':' :: ·) := rfl
  have none : Fragment.readFunction (':' :: (name.text ++ t)) = Option.none := by
    rw [Fragment.readFunction]
    have stop : Text.isIdentChar ':' = false := by decide
    simp [stop]
  rw [read, none, (readPseudo_name name stops).2]
  rfl

theorem ofText_of_isElementName {name : Text} (letters : Token.isElementName name) :
    Token.ofText name = .element name := by
  unfold Token.ofText
  split <;> first | cases letters | exact if_pos letters

theorem isDigit_of_isAlpha {c : Char} (h : c.isAlpha) : c.isDigit = false := by
  rw [Bool.eq_false_iff]
  intro digit
  have letter := Text.isAlpha_iff.1 h
  have bounds : 48 ≤ c.toNat ∧ c.toNat ≤ 57 := Char.isDigit_iff_toNat.1 digit
  omega

theorem isSkipped_of_isElementName {name : Text} (letters : Token.isElementName name) :
    Fragment.isSkipped name = false := by
  cases name with
  | nil => cases letters
  | cons c name =>
    have letter : c.isAlpha := by
      simp only [Token.isElementName, Bool.and_eq_true] at letters
      exact letters.1
    have mark : c ≠ '%' := by
      rintro rfl
      cases letter
    have bracket : c ≠ '[' := by
      rintro rfl
      cases letter
    have comment : c :: name ≠ Mark.comment := fun same => mark (List.cons.inj same).1
    simp [Fragment.isSkipped, comment, bracket, isDigit_of_isAlpha letter]

/-- The name of a type is read up to its end. -/
theorem read_type {name t : Text} (letters : Token.isElementName name) (closes : Closes t) :
    Fragment.read (name ++ t) = some name := by
  have all := Selector.alphanum_of_isElementName letters
  have run : Fragment.readRun Text.isWordChar (name ++ t) = some name :=
    readRun_append (by rintro rfl; cases letters)
      (fun c mem => Text.isWordChar_of_isAlphanum (all c mem)) fun c first => (closes c first).2.1
  cases name with
  | nil => cases letters
  | cons c name =>
    have other : c ∉ ['%', '[', '.', '#', ':', '*'] := by
      intro mem
      have letter := all c List.mem_cons_self
      simp only [List.mem_cons, List.not_mem_nil, or_false] at mem
      rcases mem with rfl | rfl | rfl | rfl | rfl | rfl <;> cases letter
    rw [List.cons_append, read_of_word other]
    exact run

/-- A class or an id is read up to the end of its name. -/
theorem read_signed {sign : Char} (known : sign = '.' ∨ sign = '#') (name : Name) {t : Text}
    (closes : Closes t) : Fragment.read (sign :: (name.text ++ t)) = some (sign :: name.text) := by
  have run := readRun_name name closes
  rcases known with rfl | rfl
  · show (Fragment.readRun Text.isIdentChar (name.text ++ t)).map ('.' :: ·) = _
    rw [run]
    rfl
  · show (Fragment.readRun Text.isIdentChar (name.text ++ t)).map ('#' :: ·) = _
    rw [run]
    rfl

/-- An attribute selector is read up to its closing bracket. -/
theorem read_attribute (a : Attribute) (t : Text) : Fragment.read (a.text ++ t) = some a.text := by
  have stop : ∀ c ∈ a.inside, c != ']' := by
    intro c mem
    have known := a.not_outer_of_mem_inside mem
    simp only [bne_iff_ne, ne_eq]
    rintro rfl
    exact known (by decide)
  have closed : ']' ∈ a.inside ++ [']'] ++ t := by simp
  rw [a.text_eq, List.cons_append]
  show (if _ then _ else _) = _
  rw [if_pos closed, List.append_assoc, List.takeWhile_append_of_pos stop]
  simp

/-- **An item is one fragment or none.**  An item that is not cut out gives its own token, whatever
closes it. -/
theorem tokens_text {item : Item} (unnamed : item.isNamed = false) {t : Text}
    (closes : item.endsName → Closes t) :
    Fragment.tokens (item.text ++ t) = item.token?.toList ++ Fragment.tokens t := by
  have stops (closes : Closes t) : ∀ c ∈ t.head?, Text.isIdentChar c = false :=
    fun c first => isIdentChar_eq_false (closes c first).1 (closes c first).2.1
  cases item with
  | type name letters =>
    refine (tokens_of_read (read_type letters (closes rfl)) (isSkipped_of_isElementName letters)).trans ?_
    rw [ofText_of_isElementName letters]
    rfl
  | universal => exact tokens_of_read (f := ['*']) rfl rfl
  | ofClass name =>
    exact tokens_of_read (f := classSelector name.text) (read_signed (.inl rfl) name (closes rfl)) rfl
  | ofId name =>
    exact tokens_of_read (f := idSelector name.text) (read_signed (.inr rfl) name (closes rfl)) rfl
  | pseudo element name =>
    have opens : t.head? ≠ some '(' := fun first => (closes rfl '(' first).2.2 rfl
    cases element with
    | false =>
      exact tokens_of_read (f := ':' :: name.text)
        (read_pseudo name (stops (closes rfl)) fun first => absurd first opens) rfl
    | true =>
      exact tokens_of_read (f := ':' :: ':' :: name.text)
        (read_element name (stops (closes rfl))) rfl
  | function name selectors =>
    have read : Fragment.read (':' :: name.text ++ '(' :: t) = some (':' :: name.text) := by
      refine read_pseudo name ?_ fun _ => selectors
      intro c first
      cases first
      decide
    have spelled : (Item.function name selectors).text ++ t = ':' :: name.text ++ '(' :: t := by
      simp [Item.text]
    rw [spelled, tokens_of_read read rfl,
      tokens_of_not_read (read_of_separator (by decide) (by decide) t)]
    rfl
  | attr a =>
    have none : a.named? = none := by simpa [Item.isNamed] using unnamed
    refine (tokens_of_skipped (read_attribute a t) ?_).trans ?_
    · rw [a.text_eq]
      simp [Fragment.isSkipped]
    · simp [Item.token?, none]
  | space c blank =>
    simp only [blanks, List.mem_cons, List.not_mem_nil, or_false] at blank
    rcases blank with rfl | rfl | rfl | rfl | rfl | rfl <;>
      exact tokens_of_not_read (read_of_separator (by decide) (by decide) t)
  | combinator c known =>
    simp only [List.mem_cons, List.not_mem_nil, or_false] at known
    rcases known with rfl | rfl | rfl <;>
      exact tokens_of_not_read (read_of_separator (by decide) (by decide) t)
  | close | comma => exact tokens_of_not_read (read_of_separator (by decide) (by decide) t)
  | comment => exact tokens_of_skipped (f := Mark.comment) rfl (by decide)

/-! ### The tokens of items in a row -/

theorem scan_named_append (items : List Item) (t : Text) :
    NamedAttribute.recogniser.scan (render items ++ t) =
      items.flatMap Item.namedSegments ++ NamedAttribute.recogniser.scan t := by
  induction items with
  | nil => rfl
  | cons item items ih =>
    rw [render, List.flatMap_cons, List.append_assoc, item.scan_named, ← render, ih,
      List.flatMap_cons, List.append_assoc]

theorem scan_named_render (items : List Item) :
    NamedAttribute.recogniser.scan (render items) = items.flatMap Item.namedSegments := by
  have whole := scan_named_append items []
  rwa [List.append_nil, Recogniser.scan_nil, List.append_nil] at whole

/-- The segments of an item that is not cut out are its characters. -/
theorem namedSegments_of_unnamed {item : Item} (unnamed : item.isNamed = false) :
    item.namedSegments = item.text.map .plain := by
  cases item with
  | attr a =>
    have none : a.named? = none := by simpa [Item.isNamed] using unnamed
    simp [Item.namedSegments, Item.text, none]
  | _ => rfl

theorem namedSegments_of_named {item : Item} (named : item.isNamed) :
    ∃ a, item.namedSegments = [.hit a] ∧ item.token? = a.token? := by
  cases item with
  | attr a =>
    obtain ⟨found, some⟩ := Option.isSome_iff_exists.1 named
    exact ⟨found, by simp [Item.namedSegments, some], by simp [Item.token?, some]⟩
  | _ => cases named

theorem runs_plain_append {α : Type} (t : Text) (segments : List (Segment α)) :
    Segment.runs (t.map .plain ++ segments) =
      (t ++ (Segment.runs segments).1, (Segment.runs segments).2) := by
  induction t with
  | nil => rfl
  | cons c t ih => simp [Segment.runs, ih]

/-- An item that ends in a name is closed by the characters before the next selector that is cut
out. -/
theorem closes_runs {item : Item} {items : List Item}
    (compounds : (item :: items).IsChain fun item next => next.startsCompound → item.endsCompound)
    (name : item.endsName) :
    Closes (Segment.runs (items.flatMap Item.namedSegments)).1 := by
  cases items with
  | nil => exact closes_nil
  | cons next items =>
    have starts : next.startsCompound = false := by
      have here := (List.isChain_cons_cons.1 compounds).1
      rw [Item.endsCompound_of_endsName name] at here
      simpa using here
    rw [List.flatMap_cons]
    cases named : next.isNamed with
    | true =>
      obtain ⟨a, hit, -⟩ := namedSegments_of_named named
      rw [hit]
      exact closes_nil
    | false =>
      rw [namedSegments_of_unnamed named, runs_plain_append]
      exact Item.head_of_startsCompound starts _

/-- The tokens of a text of which the segments are given. -/
def tokensOf (segments : List (Segment NamedAttribute)) : List Token :=
  Fragment.tokens (Segment.runs segments).1 ++
    (Segment.runs segments).2.flatMap fun (named, after) =>
      named.token?.toList ++ Fragment.tokens after

theorem tokensOf_namedSegments {items : List Item}
    (compounds : items.IsChain fun item next => next.startsCompound → item.endsCompound) :
    tokensOf (items.flatMap Item.namedSegments) = items.filterMap Item.token? := by
  induction items with
  | nil => rfl
  | cons item items ih =>
    have collect : (item :: items).filterMap Item.token? =
        item.token?.toList ++ items.filterMap Item.token? := by
      cases h : item.token? <;> simp [h]
    rw [List.flatMap_cons, collect, ← ih compounds.tail]
    cases named : item.isNamed with
    | true =>
      obtain ⟨a, hit, token⟩ := namedSegments_of_named named
      rw [hit, token]
      exact List.append_assoc _ _ _
    | false =>
      rw [tokensOf, namedSegments_of_unnamed named, runs_plain_append,
        tokens_text named (closes_runs compounds), List.append_assoc]
      rfl

/-- No item starts with a digit. -/
theorem startsWithDigit_render (items : List Item) :
    Selector.startsWithDigit (render items) = false := by
  have solid {c : Char} (none : c.isDigit = false) (space : Text.isSpace c = false) (t : Text) :
      Selector.startsWithDigit (c :: t) = false := by
    rw [Selector.startsWithDigit, Text.trimStart_cons_of_not_space space]
    exact none
  induction items with
  | nil => rfl
  | cons item items ih =>
    rw [render, List.flatMap_cons, ← render]
    cases item with
    | type name letters =>
      have letter := Selector.alphanum_of_isElementName letters
      cases name with
      | nil => cases letters
      | cons c name =>
        have alpha : c.isAlpha := by
          simp only [Token.isElementName, Bool.and_eq_true] at letters
          exact letters.1
        have plain : isNameChar c := by
          simp [isNameChar, letter c List.mem_cons_self]
        exact solid (isDigit_of_isAlpha alpha) (isSpace_of_isNameChar plain) _
    | space c blank =>
      have space : Text.isSpace c := by
        simp only [blanks, List.mem_cons, List.not_mem_nil, or_false] at blank
        rcases blank with rfl | rfl | rfl | rfl | rfl | rfl <;> rfl
      rw [Selector.startsWithDigit] at ih ⊢
      rw [Text.trimStart_append_of_spaces (by simpa [Item.text] using space)]
      exact ih
    | combinator c known =>
      simp only [List.mem_cons, List.not_mem_nil, or_false] at known
      rcases known with rfl | rfl | rfl <;> exact solid (by decide) (by decide) _
    -- All other items start with a sign of their own.
    | _ => exact solid (by decide) (by decide) _

/-- **The tokens of a plain list are those of its items, in order.** -/
theorem tokens_render {items : List Item}
    (compounds : items.IsChain fun item next => next.startsCompound → item.endsCompound) :
    Selector.tokens (render items) = items.filterMap Item.token? := by
  rw [Selector.tokens, startsWithDigit_render, if_neg Bool.false_ne_true, scan_named_render]
  exact tokensOf_namedSegments compounds

end ScopedCss.Plain
