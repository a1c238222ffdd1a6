import ScopedCss.Proofs.Tree.Families

/-!
# References to declared families

A family is declared by itself, and referred to in lists.  Both times its name is what it is without
spaces and quotes, so that in every spelling the reference gets what the declaration got, as long as the
list is cut into its families.

It is not always.  The commas that separate are told by counting parentheses, and strings are not looked
at: a comma in a string may separate, and a parenthesis in a string may keep a comma behind it from
separating.  A list that ends in `!important` is cut so that this belongs to the name of its last family.
These are the only reasons (`follows_iff`).
-/
namespace ScopedCss

/-! ### Where a piece of a list ends -/

namespace CommaList

/-- The number of open parentheses behind a text. -/
def levelAfter (n : Int) (t : Text) : Int := t.foldl level n

/-- Whether no comma of a text separates anything, where a number of parentheses is open at the front. -/
def uncut : Int → Text → Bool
  | _, [] => true
  | n, c :: t => !(c == ',' && n == 0) && uncut (level n c) t

/-- A text that is not cut belongs to one piece. -/
theorem splitFrom_append_of_uncut {n : Int} {s : Text} (h : uncut n s) (t : Text) :
    splitFrom n (s ++ t) =
      (s ++ (splitFrom (levelAfter n s) t).1, (splitFrom (levelAfter n s) t).2) := by
  induction s generalizing n with
  | nil => rfl
  | cons c s ih =>
    rw [uncut, Bool.and_eq_true, Bool.not_eq_true', Bool.and_eq_false_iff] at h
    have belongs : ¬ (c = ',' ∧ n = 0) := by
      rintro ⟨rfl, rfl⟩
      simp at h
    rw [List.cons_append, splitFrom_cons, if_neg belongs, ih h.2]
    rfl

/-- A text that is cut is longer than the piece that it starts with. -/
theorem exists_of_cut {n : Int} {s : Text} (h : uncut n s = false) (t : Text) :
    ∃ piece rest, s = piece ++ ',' :: rest ∧ splitFrom n (s ++ t) = (piece, split (rest ++ t)) := by
  induction s generalizing n with
  | nil => cases h
  | cons c s ih =>
    rw [List.cons_append, splitFrom_cons]
    by_cases separates : c = ',' ∧ n = 0
    · obtain ⟨rfl, rfl⟩ := separates
      exact ⟨[], s, rfl, if_pos ⟨rfl, rfl⟩⟩
    · rw [if_neg separates]
      have belongs : (!(c == ',' && n == 0)) = true := by
        rw [Bool.not_eq_true', Bool.and_eq_false_iff, beq_eq_false_iff_ne, beq_eq_false_iff_ne]
        exact not_and_or.1 separates
      have later : uncut (level n c) s = false := by rwa [uncut, belongs, Bool.true_and] at h
      obtain ⟨piece, rest, rfl, cut⟩ := ih later
      exact ⟨c :: piece, rest, rfl, by rw [cut]⟩

end CommaList

namespace FontFamily

/-! ### Lists of families -/

/-- A family: identifiers separated by spaces, or one quoted string. -/
structure Value where
  quote : Option Char
  /-- The spaces before the name, inside the quotes if there are any. -/
  inner : Spaces
  name : Text
  /-- The spaces behind the name. -/
  outer : Spaces
  isQuote : ∀ q ∈ quote, Text.isQuote q
  nonempty : name ≠ []
  unquoted : ∀ c ∈ name, Text.isQuote c = false ∧ c ≠ '\\'
  first : ∀ c ∈ name.head?, Text.isSpace c = false
  last : ∀ c ∈ name.getLast?, Text.isSpace c = false
  bare : quote = none → ∀ c ∈ name, Text.isNameChar c ∨ Text.isSpace c

/-- A family in a list, with the spaces around it. -/
structure Entry where
  lead : Spaces
  value : Value
  back : Spaces

/-- A list of families, which may end in spaces and `!important`. -/
structure References where
  entries : List Entry
  nonempty : entries ≠ []
  important : Option Spaces

namespace Value
variable (value : Value)

/-- The characters of a family around a name. -/
def around (name : Text) : Text :=
  value.quote.toList ++ (value.inner.text ++ (name ++ (value.outer.text ++ value.quote.toList)))

/-- The characters of a family. -/
def text : Text := value.around value.name

/-- The characters of a family with the new name, if its name is recorded. -/
def renamed (fontFaces : NameTable) : Text :=
  match fontFaces.find? value.name with
  | some new => value.around new
  | none => value.text

end Value

namespace Entry
variable (entry : Entry)

/-- Some characters in the place of the family. -/
def surround (family : Text) : Text := entry.lead.text ++ (family ++ entry.back.text)

/-- The characters of an entry. -/
def text : Text := entry.surround entry.value.text

end Entry

namespace References
variable (list : References)

/-- What stands behind the last entry. -/
def ending : Text :=
  match list.important with
  | some spaces => spaces.text ++ "!important".toList
  | none => []

/-- The characters of a list with other characters for its families. -/
def textWith (write : Value → Text) : Text :=
  CommaList.join (list.entries.map fun entry => entry.surround (write entry.value)) ++ list.ending

/-- The characters of a list. -/
def text : Text := list.textWith Value.text

/-- After a family was declared, it is written in the list as the declaration was rewritten, and every
other family has its new name if its name is recorded. -/
def Follows (value : Value) : Prop :=
  ∀ (scope : Text → Text) (ledger : Ledger),
    let (after, declared) := declare scope value.text ledger
    rename after.mapping.fontFaces list.text =
      some (list.textWith fun family =>
        if family.text = value.text then declared else family.renamed after.mapping.fontFaces)

/-- The list does not end in `!important`, no comma in a family stands where as many parentheses were
opened as closed, and every family but the last opens as many as it closes. -/
def Separates : Prop :=
  list.important = none ∧ (∀ entry ∈ list.entries, CommaList.uncut 0 entry.text) ∧
    ∀ entry ∈ list.entries.dropLast, CommaList.levelAfter 0 entry.text = 0

end References

/-! ### Names of families -/

namespace Value
variable (value : Value)

/-- What stands before the name. -/
def front : Text := value.quote.toList ++ value.inner.text

/-- What stands behind the name. -/
def rear : Text := value.outer.text ++ value.quote.toList

theorem around_eq (name : Text) : value.around name = value.front ++ (name ++ value.rear) := by
  simp [around, front, rear]

theorem front_blank : ∀ c ∈ value.front, Text.isSpace c ∨ Text.isQuote c := by
  intro c mem
  rcases List.mem_append.1 mem with mem | mem
  · exact .inr (value.isQuote c (Option.mem_toList.1 mem))
  · exact .inl (value.inner.isSpace c mem)

theorem rear_blank : ∀ c ∈ value.rear, Text.isSpace c ∨ Text.isQuote c := by
  intro c mem
  rcases List.mem_append.1 mem with mem | mem
  · exact .inl (value.outer.isSpace c mem)
  · exact .inr (value.isQuote c (Option.mem_toList.1 mem))

theorem nameOf_text : nameOf value.text = value.name := by
  rw [text, around_eq]
  exact nameOf_around value.front_blank value.rear_blank (fun c mem => (value.unquoted c mem).1)
    value.first value.last

theorem replaceFirst_text (new : Text) :
    Text.replaceFirst value.name new value.text = value.around new := by
  rw [text, around_eq, around_eq]
  exact replaceFirst_around value.front_blank (fun c mem => (value.unquoted c mem).1) value.first
    value.nonempty new value.rear

/-- **A declaration** records the name and writes the new one in its place. -/
theorem declare_text (scope : Text → Text) (ledger : Ledger) :
    declare scope value.text ledger =
      (ledger.insert .fontFaces value.name (scope value.name), value.around (scope value.name)) := by
  have named : value.name.isEmpty = false := by simpa using value.nonempty
  rw [declare, nameOf_text, named, replaceFirst_text]
  rfl

end Value

namespace Entry
variable (entry : Entry)

theorem surround_around (name : Text) : entry.surround (entry.value.around name) =
    (entry.lead.text ++ entry.value.front) ++ (name ++ (entry.value.rear ++ entry.back.text)) := by
  rw [surround, Value.around_eq]
  simp only [List.append_assoc]

theorem front_blank :
    ∀ c ∈ entry.lead.text ++ entry.value.front, Text.isSpace c ∨ Text.isQuote c :=
  List.forall_mem_append.2 ⟨fun c mem => .inl (entry.lead.isSpace c mem), entry.value.front_blank⟩

theorem nameOf_text : nameOf entry.text = entry.value.name := by
  rw [text, Value.text, surround_around]
  refine nameOf_around entry.front_blank ?_ (fun c mem => (entry.value.unquoted c mem).1)
    entry.value.first entry.value.last
  exact List.forall_mem_append.2 ⟨entry.value.rear_blank, fun c mem => .inl (entry.back.isSpace c mem)⟩

theorem replaceFirst_text (new : Text) :
    Text.replaceFirst entry.value.name new entry.text = entry.surround (entry.value.around new) := by
  rw [text, Value.text, surround_around, surround_around]
  exact replaceFirst_around entry.front_blank (fun c mem => (entry.value.unquoted c mem).1)
    entry.value.first entry.value.nonempty new _

/-- **A reference** gets the new name in the place of its name, if that is recorded. -/
theorem getD_renameEntry (fontFaces : NameTable) :
    (renameEntry fontFaces entry.text).getD entry.text =
      entry.surround (entry.value.renamed fontFaces) := by
  rw [renameEntry, nameOf_text, Value.renamed]
  cases fontFaces.find? entry.value.name with
  | none => rfl
  | some new => exact entry.replaceFirst_text new

end Entry

/-! ### Lists that are cut into their families -/

/-- What stands behind the first entry of a list. -/
def tail (write : Value → Text) (later : List Entry) (ending : Text) : Text :=
  later.flatMap (fun entry => ',' :: entry.surround (write entry.value)) ++ ending

/-- What the rest of a list must be like to be cut into its families. -/
def Separated (ending : Text) : Entry → List Entry → Prop
  | entry, [] => ending = [] ∧ CommaList.uncut 0 entry.text
  | entry, next :: later =>
    (CommaList.uncut 0 entry.text ∧ CommaList.levelAfter 0 entry.text = 0) ∧
      Separated ending next later

namespace References

theorem textWith_cons {entry : Entry} {later : List Entry} {important : Option Spaces}
    (write : Value → Text) :
    textWith ⟨entry :: later, List.cons_ne_nil _ _, important⟩ write =
      entry.surround (write entry.value) ++
        tail write later (ending ⟨entry :: later, List.cons_ne_nil _ _, important⟩) := by
  rw [textWith, tail, List.map_cons, CommaList.join_cons, List.append_assoc, List.flatMap_map]

theorem ending_eq_nil_iff {list : References} : list.ending = [] ↔ list.important = none := by
  rw [ending]
  cases list.important <;> simp

theorem separates_iff {entry : Entry} {later : List Entry} {important : Option Spaces} :
    Separates ⟨entry :: later, List.cons_ne_nil _ _, important⟩ ↔
      Separated (ending ⟨entry :: later, List.cons_ne_nil _ _, important⟩) entry later := by
  have known : ending ⟨entry :: later, List.cons_ne_nil _ _, important⟩ = [] ↔ important = none :=
    ending_eq_nil_iff
  rw [Separates, ← known]
  generalize ending _ = ending
  clear known
  show (ending = [] ∧ (∀ e ∈ entry :: later, _) ∧ ∀ e ∈ (entry :: later).dropLast, _) ↔ _
  induction later generalizing entry with
  | nil => simp [Separated]
  | cons next later ih =>
    rw [Separated, ← ih, List.dropLast_cons_cons, List.forall_mem_cons,
      List.forall_mem_cons (l := (next :: later).dropLast)]
    constructor
    · rintro ⟨none, ⟨here, others⟩, level, levels⟩
      exact ⟨⟨here, level⟩, none, others, levels⟩
    · rintro ⟨⟨here, level⟩, none, others, levels⟩
      exact ⟨none, ⟨here, others⟩, level, levels⟩

end References

/-! ### The pieces of a list -/

/-- A piece of a list with the new name, if its name is recorded. -/
def renamePiece (fontFaces : NameTable) (piece : Text) : Text :=
  (renameEntry fontFaces piece).getD piece

/-- The pieces of a list with their new names. -/
def renamePieces (fontFaces : NameTable) (t : Text) : Text :=
  CommaList.join ((CommaList.split t).map (renamePiece fontFaces))

/-- A renamed list is its renamed pieces. -/
theorem eq_of_rename {fontFaces : NameTable} {t u : Text} (h : rename fontFaces t = some u) :
    u = renamePieces fontFaces t := by
  rw [rename, CommaList.mapSome] at h
  split at h
  next =>
    cases h
    rfl
  next => cases h

/-- The first piece with its new name, and the others with theirs. -/
theorem renamePieces_eq {fontFaces : NameTable} {t piece : Text} {pieces : List Text}
    (cut : CommaList.splitFrom 0 t = (piece, pieces)) :
    renamePieces fontFaces t =
      renamePiece fontFaces piece ++ pieces.flatMap (fun p => ',' :: renamePiece fontFaces p) := by
  rw [renamePieces, CommaList.split, cut]
  show CommaList.join (renamePiece fontFaces piece :: pieces.map (renamePiece fontFaces)) = _
  rw [CommaList.join_cons, List.flatMap_map]

/-- A separated entry is a piece of its own. -/
theorem splitFrom_separated {s t : Text} (uncut : CommaList.uncut 0 s)
    (level : CommaList.levelAfter 0 s = 0) :
    CommaList.splitFrom 0 (s ++ ',' :: t) = (s, CommaList.split t) := by
  rw [CommaList.splitFrom_append_of_uncut uncut, level, CommaList.splitFrom_cons, if_pos ⟨rfl, rfl⟩,
    List.append_nil]
  rfl

/-- A list whose commas separate is cut into its entries. -/
theorem split_separated {ending : Text} {entry : Entry} {later : List Entry}
    (separated : Separated ending entry later) :
    CommaList.split (entry.text ++ tail Value.text later ending) =
      (entry :: later).map Entry.text := by
  induction later generalizing entry with
  | nil =>
    obtain ⟨rfl, uncut⟩ := separated
    have whole := CommaList.splitFrom_append_of_uncut uncut []
    rw [List.append_nil, CommaList.splitFrom, List.append_nil] at whole
    simp [CommaList.split, tail, whole]
  | cons next later ih =>
    obtain ⟨⟨uncut, level⟩, separated⟩ := separated
    have rest : tail Value.text (next :: later) ending =
        ',' :: (next.text ++ tail Value.text later ending) := by simp [tail, Entry.text]
    rw [rest, CommaList.split, splitFrom_separated uncut level, ih separated]
    rfl

/-! ### Lists that are not -/

/-- Replacing a pattern by itself changes nothing. -/
theorem replaceFirst_self (pattern t : Text) : Text.replaceFirst pattern pattern t = t := by
  rw [Text.replaceFirst]
  cases found : Text.breakAt? pattern t with
  | none => rfl
  | some parts => exact (Text.eq_of_breakAt? found).symm

/-- A piece with more or fewer of a character than an entry has another name. -/
theorem nameOf_ne {entry : Entry} {piece : Text} {c : Char} (solid : Text.isSpace c = false)
    (unquoted : Text.isQuote c = false) (differs : piece.count c ≠ entry.text.count c) :
    nameOf piece ≠ entry.value.name := by
  intro same
  apply differs
  rw [← count_nameOf solid unquoted piece, ← count_nameOf solid unquoted entry.text, same,
    entry.nameOf_text]

/-- There is a new name for a family with which the pieces of a text do not become what is expected, as
long as no other recorded name is changed. -/
def Missed (family : Value) (t : Text) (expected : NameTable → Text) : Prop :=
  ∃ new, ∀ fontFaces : NameTable, fontFaces.find? family.name = some new →
    (∀ name other, name ≠ family.name → fontFaces.find? name = some other → other = name) →
      renamePieces fontFaces t ≠ expected fontFaces

/-- The first entry is missed if the first piece has another name, and starts like the entry. -/
theorem missed_of_piece {entry : Entry} {t piece : Text} {pieces : List Text}
    (cut : CommaList.splitFrom 0 (entry.text ++ t) = (piece, pieces))
    (other : nameOf piece ≠ entry.value.name)
    (starts : ∀ c ∈ entry.value.name.head?, ∀ write : Text → Text,
      entry.lead.text ++ entry.value.front ++ [c] <+: piece ++ pieces.flatMap (fun p => ',' :: write p))
    (rest : NameTable → Text) :
    Missed entry.value (entry.text ++ t) fun fontFaces =>
      entry.surround (entry.value.renamed fontFaces) ++ rest fontFaces := by
  obtain ⟨c, more, named⟩ := List.exists_cons_of_ne_nil entry.value.nonempty
  have apart : ∃ d : Char, d ≠ c := by
    by_cases same : c = 'a'
    · exact ⟨'b', by rw [same]; decide⟩
    · exact ⟨'a', fun h => same h.symm⟩
  obtain ⟨d, apart⟩ := apart
  refine ⟨[d], fun fontFaces recorded others same => apart ?_⟩
  have kept : renamePiece fontFaces piece = piece := by
    rw [renamePiece, renameEntry]
    cases found : fontFaces.find? (nameOf piece) with
    | none => rfl
    | some written =>
      rw [others _ _ other found]
      exact replaceFirst_self _ _
  have new : entry.value.renamed fontFaces = entry.value.around [d] := by
    rw [Value.renamed, recorded]
  simp only [renamePieces_eq cut, kept, new, Entry.surround_around] at same
  -- At the place of the name one text has its first character and the other the new one.
  have here := starts c (by rw [named]; rfl) (renamePiece fontFaces)
  rw [same] at here
  have there : entry.lead.text ++ entry.value.front ++ [d] <+:
      entry.lead.text ++ entry.value.front ++
        ([d] ++ (entry.value.rear ++ entry.back.text)) ++ rest fontFaces :=
    ⟨entry.value.rear ++ entry.back.text ++ rest fontFaces, by simp⟩
  have equal := List.prefix_of_prefix_length_le here there (by simp)
  have last := List.IsPrefix.eq_of_length equal (by simp)
  simpa using last.symm

/-- An entry starts with spaces and quotes, and then its name. -/
theorem starts_of_prefix {entry : Entry} {t : Text} (h : entry.text <+: t) :
    ∀ c ∈ entry.value.name.head?, entry.lead.text ++ entry.value.front ++ [c] <+: t := by
  intro c first
  cases named : entry.value.name with
  | nil => exact absurd named entry.value.nonempty
  | cons d more =>
    rw [named] at first
    cases first
    refine List.IsPrefix.trans ⟨more ++ (entry.value.rear ++ entry.back.text), ?_⟩ h
    rw [Entry.text, Value.text, Entry.surround_around, named]
    simp

/-- An entry that is cut is missed. -/
theorem missed_of_cut {entry : Entry} (cut : CommaList.uncut 0 entry.text = false) (t : Text)
    (rest : NameTable → Text) :
    Missed entry.value (entry.text ++ t) fun fontFaces =>
      entry.surround (entry.value.renamed fontFaces) ++ rest fontFaces := by
  obtain ⟨piece, behind, whole, split⟩ := CommaList.exists_of_cut cut t
  refine missed_of_piece split ?_ (fun c first write => ?_) rest
  · refine nameOf_ne (c := ',') (by decide) (by decide) ?_
    rw [whole, List.count_append, List.count_cons_self]
    omega
  · have comma : piece ++ [','] <+:
        piece ++ (CommaList.split (behind ++ t)).flatMap (fun p => ',' :: write p) := by
      rw [List.prefix_append_right_inj, CommaList.split, List.flatMap_cons]
      exact ⟨_, rfl⟩
    have own : entry.lead.text ++ entry.value.front ++ [c] <+: piece ++ ',' :: behind :=
      whole ▸ starts_of_prefix List.prefix_rfl c first
    have cutOff : piece ++ [','] <+: piece ++ ',' :: behind := ⟨behind, by simp⟩
    refine (List.prefix_of_prefix_length_le own cutOff ?_).trans comma
    -- The comma that cuts the entry stands behind the spaces and quotes before the name.
    by_contra short
    have early : piece ++ [','] <+: entry.lead.text ++ entry.value.front := by
      refine List.prefix_of_prefix_length_le cutOff ((List.prefix_append _ [c]).trans own) ?_
      simp only [List.length_append, List.length_singleton] at short ⊢
      omega
    have mem : ',' ∈ entry.lead.text ++ entry.value.front := early.subset (by simp)
    rcases entry.front_blank ',' mem with h | h <;> cases h

/-- An entry that is joined to what follows is missed. -/
theorem missed_of_joined {entry : Entry} {t : Text} (more : Text) (pieces : List Text) {c : Char}
    (split : CommaList.splitFrom 0 (entry.text ++ t) = (entry.text ++ more, pieces))
    (solid : Text.isSpace c = false) (unquoted : Text.isQuote c = false) (mem : c ∈ more)
    (rest : NameTable → Text) :
    Missed entry.value (entry.text ++ t) fun fontFaces =>
      entry.surround (entry.value.renamed fontFaces) ++ rest fontFaces := by
  refine missed_of_piece split ?_ (fun d first write => ?_) rest
  · refine nameOf_ne solid unquoted ?_
    have positive := List.count_pos_iff.2 mem
    rw [List.count_append]
    omega
  · refine starts_of_prefix ?_ d first
    rw [List.append_assoc]
    exact List.prefix_append _ _

/-- **A list whose commas do not separate** misses one of its families. -/
theorem exists_missed {ending : Text} {entry : Entry} {later : List Entry}
    (closed : ending = [] ∨ '!' ∈ ending ∧ ∀ c ∈ ending, c ≠ ',' ∧ c ≠ '(' ∧ c ≠ ')')
    (merged : ¬ Separated ending entry later) :
    ∃ e ∈ entry :: later,
      Missed e.value (entry.text ++ tail Value.text later ending) fun fontFaces =>
        entry.surround (entry.value.renamed fontFaces) ++
          tail (fun value => value.renamed fontFaces) later ending := by
  induction later generalizing entry with
  | nil =>
    refine ⟨entry, List.mem_cons_self, ?_⟩
    cases uncut : CommaList.uncut 0 entry.text with
    | false => exact missed_of_cut uncut _ _
    | true =>
      -- The entry is joined to the ending.
      have marked : '!' ∈ ending ∧ ∀ c ∈ ending, c ≠ ',' ∧ c ≠ '(' ∧ c ≠ ')' :=
        closed.resolve_left fun none => merged ⟨none, uncut⟩
      have inert := CommaList.splitFrom_append_of_inert marked.2
        (CommaList.levelAfter 0 entry.text) []
      rw [List.append_nil, CommaList.splitFrom, List.append_nil] at inert
      refine missed_of_joined ending [] (c := '!') ?_ (by decide) (by decide) marked.1 _
      rw [tail, List.flatMap_nil, List.nil_append, CommaList.splitFrom_append_of_uncut uncut, inert]
  | cons next later ih =>
    have behind (write : Value → Text) : tail write (next :: later) ending =
        ',' :: (next.surround (write next.value) ++ tail write later ending) := by simp [tail]
    simp only [behind]
    cases uncut : CommaList.uncut 0 entry.text with
    | false => exact ⟨entry, List.mem_cons_self, missed_of_cut uncut _ _⟩
    | true =>
      by_cases level : CommaList.levelAfter 0 entry.text = 0
      · -- The entry is a piece of its own, and the missed one is among those behind it.
        obtain ⟨e, mem, new, differs⟩ := ih fun separated => merged ⟨⟨uncut, level⟩, separated⟩
        refine ⟨e, List.mem_cons_of_mem entry mem, new, fun fontFaces recorded others same => ?_⟩
        refine differs fontFaces recorded others ?_
        have own : renamePiece fontFaces entry.text =
            entry.surround (entry.value.renamed fontFaces) := entry.getD_renameEntry fontFaces
        rw [renamePieces_eq (splitFrom_separated uncut level), own, CommaList.split,
          List.flatMap_cons] at same
        rw [renamePieces_eq rfl]
        exact List.cons.inj (List.append_cancel_left same) |>.2
      · -- The entry is joined to the comma and what follows.
        refine ⟨entry, List.mem_cons_self, ?_⟩
        have split := CommaList.splitFrom_append_of_uncut uncut
          (',' :: (next.surround next.value.text ++ tail Value.text later ending))
        rw [CommaList.splitFrom_cons, if_neg fun h => level h.2] at split
        exact missed_of_joined _ _ split (c := ',') (by decide) (by decide) List.mem_cons_self _

namespace References
variable (list : References)

/-- A family is followed if in the list every family with a recorded name gets its new name, whatever was
recorded before. -/
theorem follows_iff_rename {value : Value} :
    list.Follows value ↔ ∀ (scope : Text → Text) (ledger : Ledger),
      let fontFaces := ledger.mapping.fontFaces.insert value.name (scope value.name)
      rename fontFaces list.text = some (list.textWith fun family => family.renamed fontFaces) := by
  refine forall₂_congr fun scope ledger => ?_
  rw [Value.declare_text]
  have written : (fun family : Value => if family.text = value.text
      then value.around (scope value.name)
      else family.renamed (ledger.mapping.fontFaces.insert value.name (scope value.name))) =
      fun family => family.renamed (ledger.mapping.fontFaces.insert value.name (scope value.name)) := by
    funext family
    split
    next same =>
      have named : family.name = value.name := by
        rw [← family.nameOf_text, ← value.nameOf_text, same]
      rw [Value.renamed, NameTable.find?_insert, if_pos named, ← value.replaceFirst_text]
      show _ = family.around (scope value.name)
      rw [← family.replaceFirst_text, same, named]
    next => rfl
  show rename _ _ = some (list.textWith fun family => if family.text = value.text
    then value.around (scope value.name)
    else family.renamed (ledger.mapping.fontFaces.insert value.name (scope value.name))) ↔ _
  rw [written]
  rfl

/-- The ending of a list is empty or has a `!`, and takes part in no cut. -/
theorem ending_cases :
    list.ending = [] ∨ '!' ∈ list.ending ∧ ∀ c ∈ list.ending, c ≠ ',' ∧ c ≠ '(' ∧ c ≠ ')' := by
  rw [ending]
  cases list.important with
  | none => exact .inl rfl
  | some spaces =>
    refine .inr ⟨List.mem_append_right _ (by decide), List.forall_mem_append.2 ⟨?_, by simp⟩⟩
    intro c mem
    have space := spaces.isSpace c mem
    refine ⟨?_, ?_, ?_⟩ <;> rintro rfl <;> cases space

/-- A list whose commas separate is followed. -/
theorem follows_of_split (cut : CommaList.split list.text = list.entries.map Entry.text)
    (plain : list.ending = []) {entry : Entry} (mem : entry ∈ list.entries) :
    list.Follows entry.value := by
  refine list.follows_iff_rename.2 fun scope ledger => ?_
  intro fontFaces
  have recorded : fontFaces.find? entry.value.name = some (scope entry.value.name) :=
    (NameTable.find?_insert _ _ _ _).trans (if_pos rfl)
  have known : (renameEntry fontFaces entry.text).isSome := by
    rw [renameEntry, Entry.nameOf_text, recorded]
    rfl
  have some : (list.entries.map Entry.text).any fun piece => (renameEntry fontFaces piece).isSome :=
    List.any_eq_true.2 ⟨entry.text, List.mem_map_of_mem mem, known⟩
  rw [rename, CommaList.mapSome, cut, if_pos some, textWith, plain, List.append_nil, List.map_map]
  refine congrArg (fun pieces => Option.some (CommaList.join pieces)) (List.map_congr_left ?_)
  exact fun other _ => other.getD_renameEntry fontFaces

/-- **References follow declarations** exactly if the commas of the list separate its families, and the
list does not end in `!important`. -/
theorem follows_iff (list : References) {entry : Entry} (mem : entry ∈ list.entries) :
    list.Follows entry.value ↔ list.Separates := by
  obtain ⟨entries, nonempty, important⟩ := list
  obtain ⟨first, later, rfl⟩ := List.exists_cons_of_ne_nil nonempty
  have whole := @textWith_cons first later important
  rw [separates_iff]
  constructor
  · intro follow
    by_contra merged
    obtain ⟨e, -, new, differs⟩ := exists_missed (ending_cases _) merged
    -- The missed family is recorded with the new name, and the declared one, if it is another, with its own.
    have renamed := eq_of_rename ((follows_iff_rename _).1 follow
      (fun name => if name = e.value.name then new else name)
      (Ledger.insert {} .fontFaces e.value.name new))
    rw [text, whole, whole] at renamed
    refine differs _ ?_ (fun name other apart found => ?_) renamed.symm
    · rw [NameTable.find?_insert]
      split
      next same => rw [if_pos same.symm]
      next => exact (NameTable.find?_insert _ _ _ _).trans (if_pos rfl)
    · rw [NameTable.find?_insert] at found
      split at found
      next same =>
        rw [← same, if_neg apart] at found
        exact (Option.some.inj found).symm
      next =>
        have none := (NameTable.find?_insert .empty e.value.name new name).trans (if_neg apart)
        cases none.symm.trans found
  · intro separated
    have cut := split_separated separated
    rw [Entry.text, ← whole Value.text] at cut
    refine follows_of_split _ cut ?_ mem
    exact ending_eq_nil_iff.2 (separates_iff.2 separated).1

/-- Commas in parentheses separate nothing, in a string either, and so a list with such a string follows
the declaration of the family behind it. -/
theorem follows_iff_parentheses :
    let string : Value := ⟨some '"', .none, "a(,)".toList, .none, by simp [Text.isQuote], by decide,
      by simp [Text.isQuote], by simp [Text.isSpace], by simp [Text.isSpace], nofun⟩
    let bare : Value := ⟨none, .none, "x y".toList, .none, nofun, by decide, by simp [Text.isQuote],
      by simp [Text.isSpace], by simp [Text.isSpace],
      fun _ => by simp [Text.isNameChar, Text.isSpace]⟩
    let list : References := ⟨[⟨.none, string, .none⟩,
      ⟨⟨[' '], List.all_eq_true.1 (by decide)⟩, bare, .none⟩], by decide, none⟩
    list.text = "\"a(,)\", x y".toList ∧ list.Follows bare := by
  intro string bare list
  have separates : list.Separates := ⟨rfl, by decide, by decide⟩
  have mem : ⟨⟨[' '], List.all_eq_true.1 (by decide)⟩, bare, .none⟩ ∈ list.entries :=
    List.mem_cons_of_mem _ List.mem_cons_self
  exact ⟨rfl, (follows_iff list mem).2 separates⟩

/-- In `x !important` the family `x` does not follow its declaration. -/
theorem not_follows_important :
    ¬ ∀ (list : References), ∀ entry ∈ list.entries, list.Follows entry.value := by
  intro follow
  let bare : Value := ⟨none, .none, "x".toList, .none, nofun, by decide, by simp [Text.isQuote],
    by simp [Text.isSpace], by simp [Text.isSpace], fun _ => by simp [Text.isNameChar]⟩
  have renamed := follow
    ⟨[⟨.none, bare, .none⟩], by decide, some ⟨[' '], List.all_eq_true.1 (by decide)⟩⟩ _
    List.mem_cons_self (fun name => name ++ "_1".toList) {}
  have kept : rename (NameTable.empty.insert "x".toList "x_1".toList) "x !important".toList = none := by
    decide +kernel
  cases kept.symm.trans renamed

end References

end FontFamily
end ScopedCss
