import ScopedCss.Proofs.Selector.Pieces
import ScopedCss.Proofs.Selector.Places

/-!
# Looking for a token in a text and in a longer one

A part of a selector list is looked through twice in these proofs: alone, and with the rest of the
list around it.  What is found in the part alone is found in the list at the same place, unless the
place lies at an edge of the part and a name character follows or precedes the part
(`ofName?_append_iff`).  For the value of an attribute there is not even this exception, because an
attribute selector is read off its own characters (`read_append_of_mem`).

So a token keeps to its part (`Place.KeepsTo`) if, when it is not in the part, it is not behind it
either, and if its place does not touch a name character outside.  This is exactly the condition
under which both searches answer the same (`ofToken?_append_iff`).
-/
namespace ScopedCss

namespace Text

/-- Whether a pattern stands in front is seen in as many characters as it has. -/
theorem isPrefixOf?_append_of_length {α : Type} [BEq α] {p s : List α}
    (short : p.length ≤ s.length) (t : List α) :
    p.isPrefixOf? (s ++ t) = (p.isPrefixOf? s).map (· ++ t) := by
  induction p generalizing s with
  | nil => rfl
  | cons c p ih =>
    cases s with
    | nil => cases short
    | cons d s =>
      rw [List.cons_append, List.isPrefixOf?, List.isPrefixOf?, ih (Nat.le_of_succ_le_succ short)]
      split <;> rfl

/-- A pattern without a character that stands in a text does not reach over the text's end. -/
theorem isPrefixOf?_append_of_mem {p s : Text} {c : Char} (mem : c ∈ s) (foreign : c ∉ p)
    (t : Text) : p.isPrefixOf? (s ++ t) = (p.isPrefixOf? s).map (· ++ t) := by
  induction p generalizing s with
  | nil => rfl
  | cons d p ih =>
    have later : c ∉ p := fun h => foreign (List.mem_cons_of_mem d h)
    cases s with
    | nil => cases mem
    | cons e s =>
      rw [List.cons_append, List.isPrefixOf?, List.isPrefixOf?]
      split
      next same =>
        have other : c ≠ e := fun h => foreign (by simp [h, eq_of_beq same])
        exact ih (by simpa [other] using mem) later
      next => rfl

/-- A run ends before a character without its property, whatever follows that character. -/
theorem run_append_of_mem {p : Char → Bool} {c : Char} {s : Text} (mem : c ∈ s) (stops : p c = false)
    (t : Text) :
    (s ++ t).takeWhile p = s.takeWhile p ∧ (s ++ t).dropWhile p = s.dropWhile p ++ t ∧
      c ∈ s.dropWhile p := by
  induction s with
  | nil => cases mem
  | cons d s ih =>
    by_cases more : p d = true
    · have other : c ≠ d := by
        rintro rfl
        rw [stops] at more
        cases more
      obtain ⟨take, drop, mem⟩ := ih (by simpa [other] using mem)
      simp [more, take, drop, mem]
    · simpa [more] using mem

end Text

namespace NamedAttribute

/-! ### Attribute selectors are read off their own characters -/

variable {t : Text} (mem : ']' ∈ t) (u : Text)
include mem

theorem trimStart_append_of_mem :
    Text.leading (t ++ u) = Text.leading t ∧ Text.trimStart (t ++ u) = Text.trimStart t ++ u ∧
      ']' ∈ Text.trimStart t :=
  Text.run_append_of_mem mem (by decide) u

theorem readName_append_of_mem :
    readName (t ++ u) = (readName t).map fun (onId, name, rest) => (onId, name, rest ++ u) := by
  unfold readName
  rw [Text.isPrefixOf?_append_of_mem mem (by decide), Text.isPrefixOf?_append_of_mem mem (by decide)]
  cases "class".toList.isPrefixOf? t with
  | some rest => rfl
  | none => cases "id".toList.isPrefixOf? t <;> rfl

theorem mem_of_readName {onId : Bool} {name rest : Text} (h : readName t = some (onId, name, rest)) :
    ']' ∈ rest := by
  have split := append_of_readName h
  have foreign : ']' ∉ name := by
    unfold readName at h
    split at h
    next =>
      cases h
      decide
    next =>
      obtain ⟨_, _, same⟩ := Option.map_eq_some_iff.1 h
      cases same
      decide
  rw [split] at mem
  exact (List.mem_append.1 mem).resolve_left foreign

theorem mem_of_readOperator {operator rest : Text} (h : readOperator t = some (operator, rest)) :
    ']' ∈ rest := by
  unfold readOperator at h
  split at h
  next =>
    cases h
    simpa using mem
  next c _ _ =>
    split at h
    next known =>
      cases h
      have foreign : c ≠ ']' := by
        rintro rfl
        revert known
        decide
      simpa [foreign.symm] using mem
    next => cases h
  next => cases h

theorem readOperator_append_of_mem :
    readOperator (t ++ u) = (readOperator t).map fun (operator, rest) => (operator, rest ++ u) := by
  cases t with
  | nil => cases mem
  | cons c t =>
    by_cases equals : c = '='
    · subst equals
      rfl
    · cases t with
      | nil =>
        cases List.mem_singleton.1 mem
        cases u with
        | nil => rfl
        | cons d u =>
          by_cases equals' : d = '='
          · subst equals'
            rfl
          · simp [readOperator, equals']
      | cons d t =>
        by_cases equals' : d = '='
        · subst equals'
          simp only [List.cons_append, readOperator]
          split <;> rfl
        · simp [readOperator, equals, equals']

theorem splitQuote_append_of_mem :
    splitQuote (t ++ u) = ((splitQuote t).1, (splitQuote t).2 ++ u) ∧ ']' ∈ (splitQuote t).2 := by
  cases t with
  | nil => cases mem
  | cons c t =>
    by_cases quote : Text.isQuote c
    · have other : ']' ≠ c := by rintro rfl; cases quote
      exact ⟨by simp [splitQuote, quote], by simpa [splitQuote, quote, other] using mem⟩
    · exact ⟨by simp [splitQuote, quote], by simpa [splitQuote, quote] using mem⟩

theorem readValue_append_of_mem : readValue (t ++ u) = readValue t := by
  obtain ⟨take, drop, mem⟩ := Text.run_append_of_mem (p := isValueChar) mem (by decide) u
  unfold readValue
  simp only [take, drop]
  cases rest : t.dropWhile isValueChar with
  | nil => rw [rest] at mem; cases mem
  | cons c rest' =>
    rw [List.cons_append]
    by_cases bracket : c = ']'
    · subst bracket
      rfl
    · rw [rest] at mem
      obtain ⟨lead, trim, mem⟩ :=
        trimStart_append_of_mem (t := rest') (by simpa [Ne.symm bracket] using mem) u
      simp only [trim, lead]
      cases last : Text.trimStart rest' with
      | nil => rw [last] at mem; cases mem
      | cons d v =>
        rw [List.cons_append]
        by_cases bracket' : d = ']'
        · subst bracket'
          simp
        · simp [bracket']

/-- An attribute selector is read off the text up to the first closing bracket. -/
theorem read_append_of_mem : read (t ++ u) = read t := by
  cases t with
  | nil => cases mem
  | cons c t =>
    by_cases bracket : c = '['
    · subst bracket
      have mem₀ : ']' ∈ t := by simpa using mem
      obtain ⟨lead₀, trim₀, mem₀⟩ := trimStart_append_of_mem mem₀ u
      simp only [List.cons_append, read, lead₀, trim₀, readName_append_of_mem mem₀ u]
      cases named : readName (Text.trimStart t) with
      | none => rfl
      | some found =>
        obtain ⟨onId, name, t₁⟩ := found
        obtain ⟨lead₁, trim₁, mem₁⟩ := trimStart_append_of_mem (mem_of_readName mem₀ named) u
        simp only [Option.map_some, Option.bind_eq_bind, Option.bind_some, lead₁, trim₁,
          readOperator_append_of_mem mem₁ u]
        cases compared : readOperator (Text.trimStart t₁) with
        | none => rfl
        | some found =>
          obtain ⟨operator, t₂⟩ := found
          obtain ⟨lead₂, trim₂, mem₂⟩ :=
            trimStart_append_of_mem (mem_of_readOperator mem₁ compared) u
          obtain ⟨quote, mem₃⟩ := splitQuote_append_of_mem mem₂ u
          simp only [Option.map_some, Option.bind_some, lead₂, trim₂, quote,
            readValue_append_of_mem mem₃ u]
    · have unread (v : Text) : read (c :: v) = none := by
        unfold read
        split
        next same => exact absurd (List.cons.inj same).1 bracket
        next => rfl
      rw [List.cons_append, unread, unread]

omit mem in
theorem mem_spell_of_read {a : NamedAttribute} (h : read t = some a) : ']' ∈ a.spell := by
  have last {t value closing : Text} (h : readValue t = some (value, closing)) : ']' ∈ closing := by
    unfold readValue at h
    dsimp only at h
    split at h
    next => cases h; simp
    next =>
      split at h
      next => cases h; simp
      next => cases h
    next => cases h
  unfold read at h
  split at h
  next t =>
    simp only [Option.bind_eq_bind, Option.bind_eq_some_iff, Option.some.injEq, Prod.exists] at h
    obtain ⟨_, _, _, _, _, _, _, value, closing, valued, rfl⟩ := h
    exact List.mem_append_right _ (last valued)
  next => cases h

omit mem in
theorem mem_of_scan {a : NamedAttribute} {before after : List (Segment NamedAttribute)}
    (h : recogniser.scan t = before ++ .hit a :: after) : ']' ∈ t := by
  obtain ⟨v, inside, read⟩ :=
    Recogniser.exists_read_of_mem_scan (r := recogniser) (t := t) (a := a) (by rw [h]; simp)
  obtain ⟨rest, split⟩ := recogniser.spell_front read
  exact inside.mem (split ▸ List.mem_append_left rest (mem_spell_of_read read))

omit mem in
/-- A scan that comes to an attribute selector comes to it with any text behind it. -/
theorem scan_append_of_hit {a : NamedAttribute} {before after : List (Segment NamedAttribute)}
    (h : recogniser.scan t = before ++ .hit a :: after) :
    recogniser.scan (t ++ u) =
      before ++ .hit a :: recogniser.scan (recogniser.spellAll after ++ u) := by
  induction before generalizing t with
  | nil =>
    cases t with
    | nil => cases h
    | cons c t =>
      have front := read_append_of_mem (mem_of_scan h) u
      rcases Recogniser.scan_cons (r := recogniser) c t with
        ⟨b, rest, read, split, -, scan⟩ | ⟨-, scan⟩
      · rw [scan] at h
        cases h
        have here := front.trans read
        rw [split, List.append_assoc] at here ⊢
        rw [Recogniser.scan_spell_append here, Recogniser.spellAll_scan, List.nil_append]
      · rw [scan] at h
        cases h
  | cons segment before ih =>
    cases t with
    | nil => cases h
    | cons c t =>
      have front := read_append_of_mem (mem_of_scan h) u
      rcases Recogniser.scan_cons (r := recogniser) c t with
        ⟨b, rest, read, split, -, scan⟩ | ⟨read, scan⟩
      · rw [scan] at h
        obtain ⟨rfl, later⟩ := List.cons.inj h
        have here := front.trans read
        rw [split, List.append_assoc] at here ⊢
        rw [Recogniser.scan_spell_append here, ih later, List.cons_append]
      · rw [scan] at h
        obtain ⟨rfl, later⟩ := List.cons.inj h
        have step : recogniser.scan (c :: (t ++ u)) = .plain c :: recogniser.scan (t ++ u) :=
          Recogniser.scan_of_not_read (front.trans read)
        rw [List.cons_append, step, ih later, List.cons_append]

end NamedAttribute

namespace Place
variable {name : Text} {quote : Option Char} {depth : Nat} {previous previous' : Option Char}
  {s before after : List (Segment Text)}

theorem endsName_append (nonempty : after ≠ []) (u : List (Segment Text)) :
    endsName (after ++ u) = endsName after := by
  cases after with
  | nil => exact absurd rfl nonempty
  | cons a after => cases a <;> rfl

/-- A name that ends in segments stands in them, whatever follows. -/
theorem exists_of_cut {segment : Segment Text} {u rest : List (Segment Text)}
    (whole : segment :: s = before ++ name.map Segment.plain ++ after)
    (cut : segment :: (s ++ u) = name.map Segment.plain ++ rest) :
    ∃ rest', rest = rest' ++ u ∧ segment :: s = name.map Segment.plain ++ rest' := by
  rw [← List.cons_append] at cut
  rcases List.append_eq_append_iff.1 cut with ⟨more, long, -⟩ | ⟨rest', split, rfl⟩
  · -- The segments are not shorter than the name.
    have sizes := congrArg List.length (whole.symm.trans rfl)
    have size := congrArg List.length long
    simp only [List.length_append] at sizes size
    obtain rfl : more = [] := List.length_eq_zero_iff.1 (by omega)
    rw [List.append_nil] at long
    refine ⟨[], ?_, by rw [List.append_nil, long]⟩
    rw [long] at cut
    exact (List.append_cancel_left cut).symm
  · exact ⟨rest', rfl, split⟩

/-- What is found in segments is found whatever follows them, unless its place is at an edge and not a
name's there. -/
theorem findName_replace {u v : List (Segment Text)} (nonempty : name ≠ [])
    (h : findName name quote depth previous (s ++ v) = some (before, after ++ v))
    (eased : startsName name previous' → startsName name previous)
    (starts : before = [] → startsName name previous') (stops : after = [] → endsName u)
    (closed : endsName v) :
    findName name quote depth previous' (s ++ u) = some (before, after ++ u) := by
  have whole : s = before ++ name.map Segment.plain ++ after := by
    have longer := (cut_of_findName ⟨quote, depth, previous⟩ h).1
    rw [← List.append_assoc] at longer
    exact List.append_cancel_right longer
  induction s generalizing quote depth previous previous' before with
  | nil => simp [nonempty] at whole
  | cons segment s ih =>
    have here := findName_cons name ⟨quote, depth, previous⟩ segment (s ++ v)
    have there := findName_cons name ⟨quote, depth, previous'⟩ segment (s ++ u)
    rcases here with ⟨rest, cut, flat, admits, ends⟩ | ⟨bars, goes⟩
    · cases ends.symm.trans h
      have ends' : endsName (after ++ u) := by
        by_cases none : after = []
        · rw [none]
          exact stops none
        · rw [endsName_append none, ← endsName_append none v]
          exact admits.2.2.1
      have split : segment :: (s ++ u) = name.map Segment.plain ++ (after ++ u) := by
        rw [← List.cons_append, whole]
        simp
      rcases there with ⟨rest, cut', -, -, found⟩ | ⟨bars', -⟩
      · rw [List.cons_append, List.append_cancel_left (split.symm.trans cut')]
        exact found
      · exact absurd ⟨admits.1, admits.2.1, ends', starts rfl⟩ (bars' _ split flat)
    · obtain ⟨before, found, rfl⟩ := step_eq_some_iff.1 (goes.symm.trans h)
      rcases there with ⟨rest, cut', flat, admits', -⟩ | ⟨-, goes'⟩
      · -- The place would admit the name with the other segments behind it, too.
        obtain ⟨rest', rfl, split⟩ := exists_of_cut whole cut'
        have ends : endsName (rest' ++ v) := by
          by_cases none : rest' = []
          · rw [none]
            exact closed
          · rw [endsName_append none, ← endsName_append none u]
            exact admits'.2.2.1
        have split' : segment :: (s ++ v) = name.map Segment.plain ++ (rest' ++ v) := by
          rw [← List.cons_append, split, List.append_assoc]
        exact absurd ⟨admits'.1, admits'.2.1, ends, eased admits'.2.2.2⟩ (bars _ split' flat)
      · rw [Reading.pass_previous ⟨quote, depth, previous⟩ previous'] at goes'
        refine goes'.trans (step_eq_some_iff.2 ⟨before, ?_, rfl⟩)
        exact ih found id (cut_of_findName _ found).2.2 (List.cons.inj whole).2

theorem readHidden_of_ne_backslash {c : Char} (solid : c ≠ '\\') (t : Text) :
    readHidden (c :: t) = if Mark.comment.isPrefixOf (c :: t) then some Mark.comment else none := by
  unfold readHidden
  split
  next same => exact absurd (List.cons.inj same).1 solid
  next => rfl

theorem readHidden_append {after : Text} (foreign : ∀ c ∈ after.head?, c ∉ Mark.comment) {t : Text}
    (nonempty : t ≠ []) (whole : t ≠ ['\\']) : readHidden (t ++ after) = readHidden t := by
  have mark : Mark.comment.isPrefixOf (t ++ after) = Mark.comment.isPrefixOf t := by
    rw [← List.isSome_isPrefixOf?_eq_isPrefixOf, ← List.isSome_isPrefixOf?_eq_isPrefixOf,
      Text.isPrefixOf?_append foreign, Option.isSome_map]
  cases t with
  | nil => exact absurd rfl nonempty
  | cons c t =>
    by_cases backslash : c = '\\'
    · subst backslash
      cases t with
      | nil => exact absurd rfl whole
      | cons d t => rfl
    · rw [List.cons_append, readHidden_of_ne_backslash backslash,
        readHidden_of_ne_backslash backslash, ← List.cons_append, mark]

/-- The segments of a part are those it has alone, except that a backslash at its end hides the
character behind it. -/
theorem scan_hidden_append {after : Text} (foreign : ∀ c ∈ after.head?, c ∉ Mark.comment) (t : Text) :
    ∃ s u v, hidden.scan (t ++ after) = s ++ u ∧ hidden.scan t = s ++ v ∧
      (v = [] ∧ u = hidden.scan after ∨ v = [.plain '\\'] ∧ endsName u) := by
  induction size : t.length using Nat.strongRecOn generalizing t with
  | ind n ih =>
    subst size
    by_cases ends : t = ['\\']
    · subst ends
      cases after with
      | nil => exact ⟨[], [.plain '\\'], [.plain '\\'], rfl, rfl, .inr ⟨rfl, rfl⟩⟩
      | cons c after =>
        have here : hidden.read (hidden.spell ['\\', c] ++ after) = some ['\\', c] := rfl
        exact ⟨[], .hit ['\\', c] :: hidden.scan after, [.plain '\\'],
          Recogniser.scan_spell_append here, rfl, .inr ⟨rfl, rfl⟩⟩
    · cases t with
      | nil => exact ⟨[], hidden.scan after, [], rfl, rfl, .inl ⟨rfl, rfl⟩⟩
      | cons c t =>
        have front : hidden.read (c :: t ++ after) = hidden.read (c :: t) :=
          readHidden_append foreign (by simp) ends
        rcases Recogniser.scan_cons (r := hidden) c t with
          ⟨a, rest, read, split, shorter, scan⟩ | ⟨read, scan⟩
        · obtain ⟨s, u, v, long, short, rel⟩ := ih _ shorter rest rfl
          refine ⟨.hit a :: s, u, v, ?_, by rw [scan, short, List.cons_append], rel⟩
          rw [split, List.append_assoc] at front
          rw [split, List.append_assoc, Recogniser.scan_spell_append (front.trans (split ▸ read)),
            long, List.cons_append]
        · obtain ⟨s, u, v, long, short, rel⟩ := ih t.length (by simp) t rfl
          refine ⟨.plain c :: s, u, v, ?_, by rw [scan, short, List.cons_append], rel⟩
          have step : hidden.scan (c :: (t ++ after)) = .plain c :: hidden.scan (t ++ after) :=
            Recogniser.scan_of_not_read (front.trans read)
          rw [List.cons_append, step, long, List.cons_append]

/-! ### Both searches for a token -/

/-- A place seen in a longer text. -/
def extend (place : Place) (after : Text) : Place := { place with after := place.after ++ after }

/-- A token keeps to its part, of which the given text is left, if it is not found behind the part
when it is not in it, and if it does not touch a name character outside at the edges of the part. -/
def KeepsTo (token : Token) (previous outer : Option Char) (rest after : Text) : Prop :=
  match ofToken? token previous rest with
  | none => ofToken? token (previous.or outer) (rest ++ after) = none
  | some place =>
    (∃ onId value, token = .attributeValue onId value) ∨
      (place.before = [] → startsName token.text (previous.or outer)) ∧
        (place.after = [] → ¬ after.head?.any Text.isNameChar)

theorem span_eq_iff {onId : Bool} {value : Text} {s before rest : List (Segment NamedAttribute)}
    {a : NamedAttribute} :
    s.span (fun segment => !isNamed onId value segment) = (before, .hit a :: rest) ↔
      s = before ++ .hit a :: rest ∧ isNamed onId value (.hit a) ∧
        ∀ segment ∈ before, !isNamed onId value segment := by
  rw [List.span_eq_takeWhile_dropWhile, Prod.mk.injEq]
  constructor
  · rintro ⟨take, drop⟩
    refine ⟨?_, ?_, ?_⟩
    · rw [← take, ← drop, List.takeWhile_append_dropWhile]
    · have stops := List.head_dropWhile_not (fun segment => !isNamed onId value segment) (l := s)
        (by rw [drop]; simp)
      simpa [drop] using stops
    · intro segment mem
      rw [← take] at mem
      exact List.mem_takeWhile_imp (p := fun segment => !isNamed onId value segment) mem
  · rintro ⟨rfl, hit, misses⟩
    rw [List.takeWhile_append_of_pos misses, List.dropWhile_append_of_pos misses]
    simp [hit]

theorem ofValue?_append {onId : Bool} {value t : Text} {place : Place}
    (h : ofValue? onId value t = some place) (after : Text) :
    ofValue? onId value (t ++ after) = some (place.extend after) := by
  unfold ofValue? at h ⊢
  dsimp only at h ⊢
  split at h
  next before a rest cut =>
    obtain ⟨whole, hit, misses⟩ := span_eq_iff.1 cut
    cases h
    rw [span_eq_iff.2 ⟨NamedAttribute.scan_append_of_hit after whole, hit, misses⟩]
    simp only [extend, Recogniser.spellAll_scan]
  next => cases h

theorem hidden_head {t h : Text} (read : readHidden t = some h) :
    ∃ c u, h = c :: u ∧ Text.isNameChar c = false := by
  unfold readHidden at read
  split at read
  next c _ =>
    cases read
    exact ⟨'\\', [c], rfl, by decide⟩
  next =>
    split at read
    next =>
      cases read
      exact ⟨_, _, rfl, by decide⟩
    next => cases read

/-- A name that segments follow ends exactly if the text they spell starts with no name character. -/
theorem endsName_iff {s : List (Segment Text)} {t : Text} (scanned : s ⊆ hidden.scan t) :
    endsName s ↔ ¬ (hidden.spellAll s).head?.any Text.isNameChar := by
  cases s with
  | nil => simp [endsName]
  | cons segment s =>
    cases segment with
    | plain c => simp [endsName, Recogniser.spellSegment]
    | hit h =>
      obtain ⟨u, -, read⟩ := Recogniser.exists_read_of_mem_scan (scanned List.mem_cons_self)
      obtain ⟨c, v, rfl, none⟩ := hidden_head read
      have spelled : hidden.spellSegment (.hit (c :: v)) = c :: v := rfl
      simp [endsName, spelled, none]

theorem startsName_of_or {name : Text} {previous outer : Option Char}
    (h : startsName name (previous.or outer)) : startsName name previous := by
  cases previous with
  | none => simp [startsName]
  | some c => exact h

/-- Where a name is found no name character touches it: at the front of the text the character before it
decides. -/
theorem apart_of_ofName? {name : Text} {previous : Option Char} {t : Text} {place : Place}
    (found : ofName? name previous t = some place) :
    (place.before = [] → startsName name previous) ∧ ¬ place.after.head?.any Text.isNameChar := by
  obtain ⟨⟨before, after⟩, there, rfl⟩ := Option.map_eq_some_iff.1 found
  obtain ⟨cut, ends, starts⟩ := cut_of_findName ⟨none, 0, previous⟩ there
  have scanned : before ⊆ hidden.scan t := by
    rw [cut, List.append_assoc]
    exact List.subset_append_left _ _
  have scanned' : after ⊆ hidden.scan t := by
    rw [cut]
    exact List.subset_append_right _ _
  exact ⟨fun none => starts ((Recogniser.spellAll_eq_nil_iff scanned).1 none),
    (endsName_iff scanned').1 ends⟩

/-- A name without backslashes stands before the backslash that may end the text. -/
theorem exists_behind_name {name : Text} (nonempty : name ≠ []) (solid : '\\' ∉ name)
    {s v before after : List (Segment Text)} (last : v = [] ∨ v = [.plain '\\'])
    (cut : s ++ v = before ++ name.map Segment.plain ++ after) : ∃ rest, after = rest ++ v := by
  rcases last with rfl | rfl
  · exact ⟨after, (List.append_nil _).symm⟩
  · rcases List.eq_nil_or_concat after with rfl | ⟨rest, segment, rfl⟩
    · obtain ⟨front, c, rfl⟩ := (List.eq_nil_or_concat name).resolve_left nonempty
      rw [List.concat_eq_append, List.map_append, List.append_nil, ← List.append_assoc] at cut
      cases (List.append_inj' cut rfl).2
      simp at solid
    · rw [List.concat_eq_append] at cut ⊢
      have same := (List.append_inj' (cut.trans (List.append_assoc _ _ _).symm) rfl).2
      exact ⟨rest, by rw [same]⟩

/-- A name is found in the list where it is found in the part, if no name character touches it. -/
theorem ofName?_append {name : Text} {previous outer : Option Char} {rest after : Text}
    {place : Place} (foreign : ∀ c ∈ after.head?, c ∉ Mark.comment) (nonempty : name ≠ [])
    (solid : '\\' ∉ name) (found : ofName? name previous rest = some place)
    (starts : place.before = [] → startsName name (previous.or outer))
    (stops : place.after = [] → ¬ after.head?.any Text.isNameChar) :
    ofName? name (previous.or outer) (rest ++ after) = some (place.extend after) := by
  obtain ⟨⟨b, a⟩, alone, rfl⟩ := Option.map_eq_some_iff.1 found
  obtain ⟨s, u, v, long, short, rel⟩ := scan_hidden_append foreign rest
  have spelled : hidden.spellAll u = hidden.spellAll v ++ after := by
    have whole := hidden.spellAll_scan (rest ++ after)
    rw [long, ← hidden.spellAll_scan rest, short] at whole
    simpa using whole
  rw [short] at alone
  obtain ⟨a', rfl⟩ := exists_behind_name nonempty solid (rel.imp And.left And.left)
    (cut_of_findName ⟨none, 0, previous⟩ alone).1
  have starts' : b = [] → startsName name (previous.or outer) := fun none => starts (by rw [none]; rfl)
  have stops' : a' = [] → endsName u := by
    intro none
    rcases rel with ⟨rfl, rfl⟩ | ⟨rfl, ends⟩
    · rw [endsName_iff (List.Subset.refl _), Recogniser.spellAll_scan]
      exact stops (by simp [none])
    · exact ends
  have closed : endsName v := by
    rcases rel with ⟨rfl, -⟩ | ⟨rfl, -⟩ <;> rfl
  rw [ofName?, long, findName_replace nonempty alone startsName_of_or starts' stops' closed,
    Option.map_some, extend]
  simp [spelled]

theorem ofName?_append_iff {name : Text} {previous outer : Option Char} {rest after : Text}
    {place : Place} (foreign : ∀ c ∈ after.head?, c ∉ Mark.comment) (nonempty : name ≠ [])
    (solid : '\\' ∉ name) (found : ofName? name previous rest = some place) :
    ofName? name (previous.or outer) (rest ++ after) = some (place.extend after) ↔
      (place.before = [] → startsName name (previous.or outer)) ∧
        (place.after = [] → ¬ after.head?.any Text.isNameChar) := by
  constructor
  · intro context
    obtain ⟨starts, stops⟩ := apart_of_ofName? context
    refine ⟨starts, fun none => ?_⟩
    rwa [extend, none] at stops
  · exact fun ⟨starts, stops⟩ => ofName?_append foreign nonempty solid found starts stops

/-- Tokens that are renamed are looked for by the value of an attribute, or by a text that holds
characters, but no backslash. -/
def IsSought (token : Token) : Prop :=
  (∃ onId value, token = .attributeValue onId value) ∨ token.text ≠ [] ∧ '\\' ∉ token.text

/-- A token is found in the list where it is found in its part exactly if it keeps to the part. -/
theorem ofToken?_append_iff {token : Token} {previous outer : Option Char} {rest after : Text}
    (foreign : ∀ c ∈ after.head?, c ∉ Mark.comment) (sought : IsSought token) :
    ofToken? token (previous.or outer) (rest ++ after) =
        (ofToken? token previous rest).map (·.extend after) ↔
      KeepsTo token previous outer rest after := by
  unfold KeepsTo
  cases found : ofToken? token previous rest with
  | none => exact Iff.rfl
  | some place =>
    rw [Option.map_some]
    by_cases byValue : ∃ onId value, token = .attributeValue onId value
    · obtain ⟨onId, value, rfl⟩ := byValue
      exact iff_of_true (ofValue?_append found after) (.inl ⟨onId, value, rfl⟩)
    · obtain ⟨nonempty, solid⟩ := sought.resolve_left byValue
      have byName (q : Option Char) (t : Text) : ofToken? token q t = ofName? token.text q t := by
        unfold ofToken?
        split
        next onId value => exact absurd ⟨onId, value, rfl⟩ byValue
        next => rfl
      rw [byName] at found ⊢
      exact (ofName?_append_iff foreign nonempty solid found).trans (or_iff_right byValue).symm

end Place
end ScopedCss
