import ScopedCss.Proofs.Selector.Locality

/-!
# The first open place of a name

The search for a name goes through a text segment by segment and keeps three things in mind: the
quote of the string it is in, how many brackets are open, and the character before
(`Place.Reading`).  A name *stands open* at a place of the text if the reading that comes to the
place admits the name there.  What the search answers is the first such place
(`Place.ofName?_eq_some_iff`): the place is described by the text alone, without the search.
-/
namespace ScopedCss

namespace Text
variable {c : Char}

theorem isNameChar_of_isIdentChar (ident : isIdentChar c) : isNameChar c := by
  rw [isIdentChar, isWordChar, Bool.or_eq_true, beq_iff_eq] at ident
  simp only [isNameChar, Bool.or_eq_true, beq_iff_eq, decide_eq_true_eq]
  split at ident
  next =>
    rw [Bool.or_eq_true, beq_iff_eq] at ident
    tauto
  next large => exact .inr (by omega)

/-- A name character is none of the signs that open, close or hide something. -/
theorem no_sign_of_isNameChar (letter : isNameChar c) :
    isQuote c = false ∧ c ≠ '[' ∧ c ≠ ']' ∧ c ≠ '\\' ∧ c ≠ '%' := by
  have other {d : Char} (none : isNameChar d = false) : c ≠ d := by
    rintro rfl
    rw [letter] at none
    cases none
  exact ⟨isQuote_of_isNameChar letter, other (by decide), other (by decide), other (by decide),
    other (by decide)⟩

end Text

namespace Place

namespace Reading

/-- A name stands open between segments, if the search starts with a given reading. -/
def StandsOpen (reading : Reading) (name : Text) (before after : List (Segment Text)) : Prop :=
  (before.foldl pass reading).Admits name after

/-- The first place in segments where a name stands open. -/
structure FirstOpen (reading : Reading) (name : Text) (segments before after : List (Segment Text)) :
    Prop where
  cut : segments = before ++ name.map Segment.plain ++ after
  here : reading.StandsOpen name before after
  first : ∀ before' after', segments = before' ++ name.map Segment.plain ++ after' →
    reading.StandsOpen name before' after' → before.length ≤ before'.length

end Reading

/-- A name starts with a character that opens and closes nothing. -/
def StartsPlainly (name : Text) : Prop :=
  ∃ c rest, name = c :: rest ∧ Text.isQuote c = false ∧ c ≠ '[' ∧ c ≠ ']'

/-- A name that starts plainly and in which nothing is hidden. -/
structure IsPlain (name : Text) : Prop where
  starts : StartsPlainly name
  solid : ∀ c ∈ name, c ≠ '\\' ∧ c ≠ '%'

open Reading

variable {name : Text} {reading : Reading} {segments before after : List (Segment Text)}

/-- Name characters behind a sign that opens, closes and hides nothing are a plain name. -/
theorem IsPlain.cons {c : Char} (plain : Text.isQuote c = false ∧ c ≠ '[' ∧ c ≠ ']' ∧ c ≠ '\\' ∧ c ≠ '%')
    (letters : ∀ d ∈ name, Text.isNameChar d) : IsPlain (c :: name) := by
  obtain ⟨quote, opens, closes, solid⟩ := plain
  refine ⟨⟨c, name, rfl, quote, opens, closes⟩, fun d mem => ?_⟩
  rcases List.mem_cons.1 mem with rfl | mem
  · exact solid
  · exact (Text.no_sign_of_isNameChar (letters d mem)).2.2.2

/-- A plain name is scanned by itself. -/
theorem IsPlain.scan_append (plain : IsPlain name) (after : Text) :
    hidden.scan (name ++ after) = name.map Segment.plain ++ hidden.scan after := by
  refine Recogniser.scan_append_of_plain (fun c mem t => ?_) after
  obtain ⟨solid, noMark⟩ := plain.solid c mem
  show readHidden (c :: t) = none
  rw [readHidden_of_ne_backslash solid, if_neg]
  rw [List.isPrefixOf_iff_prefix]
  rintro ⟨u, same⟩
  exact noMark (List.cons.inj same).1.symm

/-- At a place that admits the name the search ends. -/
theorem findName_of_admits (plainly : StartsPlainly name) (admits : reading.Admits name after) :
    findName name reading.quote reading.depth reading.previous (name.map Segment.plain ++ after) =
      some ([], after) := by
  obtain ⟨c, rest, rfl, flat⟩ := plainly
  rcases findName_cons (c :: rest) reading (.plain c) (rest.map Segment.plain ++ after) with
    ⟨after', cut, -, -, ends⟩ | ⟨bars, -⟩
  · have same : (c :: rest).map Segment.plain ++ after = (c :: rest).map Segment.plain ++ after' := cut
    exact ends.trans (by rw [List.append_cancel_left same])
  · exact absurd admits (bars after rfl flat)

/-- At every other place it goes on to the next segment. -/
theorem findName_of_not_admits (segment : Segment Text)
    (closed : ∀ after, segment :: segments = name.map Segment.plain ++ after →
      ¬ reading.Admits name after) :
    findName name reading.quote reading.depth reading.previous (segment :: segments) =
      findName.step segment (findName name (reading.pass segment).quote (reading.pass segment).depth
        (reading.pass segment).previous segments) := by
  rcases findName_cons name reading segment segments with ⟨after, cut, -, admits, -⟩ | ⟨-, goes⟩
  · exact absurd admits (closed after cut)
  · exact goes

/-- A place one segment further on is the first open place if no place before it is. -/
theorem Reading.firstOpen_cons_iff (segment : Segment Text)
    (closed : ∀ after, segment :: segments = name.map Segment.plain ++ after →
      ¬ reading.Admits name after) :
    reading.FirstOpen name (segment :: segments) before after ↔
      ∃ rest, before = segment :: rest ∧
        (reading.pass segment).FirstOpen name segments rest after := by
  constructor
  · intro found
    cases before with
    | nil => exact absurd found.here (closed after found.cut)
    | cons other rest =>
      obtain ⟨rfl, cut⟩ := List.cons.inj found.cut
      refine ⟨rest, rfl, cut, found.here, ?_⟩
      intro before' after' cut' here'
      have bound := found.first (segment :: before') after' (by rw [cut']; rfl) here'
      simpa using bound
  · rintro ⟨rest, rfl, found⟩
    refine ⟨by rw [found.cut]; rfl, found.here, ?_⟩
    intro before' after' cut' here'
    cases before' with
    | nil => exact absurd here' (closed after' cut')
    | cons other rest' =>
      obtain ⟨rfl, later⟩ := List.cons.inj cut'
      have bound := found.first rest' after' later here'
      simpa using bound

/-- The search answers the first open place of the name. -/
theorem findName_eq_some_iff (plainly : StartsPlainly name) (reading : Reading) :
    findName name reading.quote reading.depth reading.previous segments = some (before, after) ↔
      reading.FirstOpen name segments before after := by
  induction segments generalizing reading before with
  | nil =>
    obtain ⟨c, rest, rfl, -⟩ := plainly
    refine iff_of_false (by simp [findName]) ?_
    rintro ⟨cut, -, -⟩
    simp at cut
  | cons segment segments ih =>
    by_cases place : ∃ rest, segment :: segments = name.map Segment.plain ++ rest ∧
        reading.Admits name rest
    · obtain ⟨rest, cut, admits⟩ := place
      rw [cut, findName_of_admits plainly admits]
      constructor
      · intro same
        cases same
        exact ⟨rfl, admits, fun _ _ _ _ => Nat.zero_le _⟩
      · intro found
        -- The first open place is not behind this one, so it is this one.
        have bound := found.first [] rest rfl admits
        obtain rfl : before = [] := List.length_eq_zero_iff.1 (Nat.le_zero.1 bound)
        have same := found.cut
        rw [List.nil_append] at same
        rw [List.append_cancel_left same]
    · have closed : ∀ rest, segment :: segments = name.map Segment.plain ++ rest →
          ¬ reading.Admits name rest := fun rest cut admits => place ⟨rest, cut, admits⟩
      rw [findName_of_not_admits segment closed, step_eq_some_iff, firstOpen_cons_iff segment closed]
      constructor
      · rintro ⟨rest, found, rfl⟩
        exact ⟨rest, rfl, (ih _).1 found⟩
      · rintro ⟨rest, rfl, found⟩
        exact ⟨rest, (ih _).2 found, rfl⟩

/-! ### Open places of a text -/

/-- A name stands open in a text, between what stands before it and after it, where the character
before the text is given. -/
def StandsOpen (name : Text) (previous : Option Char) (s t : Text) : Prop :=
  ∃ before after, hidden.scan (s ++ name ++ t) = before ++ name.map Segment.plain ++ after ∧
    hidden.spellAll before = s ∧ Reading.StandsOpen ⟨none, 0, previous⟩ name before after

/-- A name stands open in a text, and nowhere earlier in it. -/
def StandsFirst (name : Text) (previous : Option Char) (s t : Text) : Prop :=
  StandsOpen name previous s t ∧
    ∀ s' t', s' ++ name ++ t' = s ++ name ++ t → StandsOpen name previous s' t' →
      s.length ≤ s'.length

variable {previous : Option Char} {s t text : Text}

/-- A name that stands open has a first place where it does. -/
theorem exists_standsFirst (open_ : StandsOpen name previous s t) :
    ∃ s' t', s' ++ name ++ t' = s ++ name ++ t ∧ s'.length ≤ s.length ∧
      StandsFirst name previous s' t' := by
  induction size : s.length using Nat.strongRecOn generalizing s t with
  | ind n ih =>
    subst size
    by_cases first : ∀ s' t', s' ++ name ++ t' = s ++ name ++ t →
        StandsOpen name previous s' t' → s.length ≤ s'.length
    · exact ⟨s, t, rfl, Nat.le_refl _, open_, first⟩
    · push Not at first
      obtain ⟨s', t', whole, open', shorter⟩ := first
      obtain ⟨s'', t'', whole', shorter', first'⟩ := ih s'.length shorter open' rfl
      exact ⟨s'', t'', whole'.trans whole, by omega, first'⟩

/-- Of two fronts of a scan the one with fewer segments spells the shorter text. -/
theorem length_spellAll_le_iff {r : List (Segment Text)} {before before' : List (Segment Text)}
    (front : before <+: r) (front' : before' <+: r) (scanned : r ⊆ hidden.scan text) :
    (hidden.spellAll before).length ≤ (hidden.spellAll before').length ↔
      before.length ≤ before'.length := by
  constructor
  · intro shorter
    by_contra longer
    obtain ⟨more, rfl⟩ := List.prefix_of_prefix_length_le front' front (by omega)
    have known : more ⊆ hidden.scan text := fun a mem =>
      scanned (front.subset (List.mem_append_right _ mem))
    have none : hidden.spellAll more = [] := by
      rw [Recogniser.spellAll_append, List.length_append] at shorter
      exact List.length_eq_zero_iff.1 (by omega)
    rw [(Recogniser.spellAll_eq_nil_iff known).1 none] at longer
    simp at longer
  · intro shorter
    obtain ⟨more, rfl⟩ := List.prefix_of_prefix_length_le front front' shorter
    simp

/-- What the search for a name answers in a text is the first place where the name stands open. -/
theorem ofName?_eq_some_iff (plainly : StartsPlainly name) :
    ofName? name previous (s ++ name ++ t) = some ⟨s, name, [], t⟩ ↔
      StandsFirst name previous s t := by
  have search (before after : List (Segment Text)) :
      findName name none 0 previous (hidden.scan (s ++ name ++ t)) = some (before, after) ↔
        Reading.FirstOpen ⟨none, 0, previous⟩ name (hidden.scan (s ++ name ++ t)) before after :=
    findName_eq_some_iff plainly ⟨none, 0, previous⟩
  have front {before after : List (Segment Text)}
      (cut : hidden.scan (s ++ name ++ t) = before ++ name.map Segment.plain ++ after) :
      before <+: hidden.scan (s ++ name ++ t) := ⟨name.map Segment.plain ++ after, by rw [cut]; simp⟩
  constructor
  · intro answer
    obtain ⟨⟨before, after⟩, found, same⟩ := Option.map_eq_some_iff.1 answer
    have spelled : hidden.spellAll before = s := congrArg Place.before same
    obtain ⟨cut, here, first⟩ := (search before after).1 found
    refine ⟨⟨before, after, cut, spelled, here⟩, ?_⟩
    rintro s' t' whole ⟨before', after', cut', rfl, here'⟩
    rw [whole] at cut'
    rw [← spelled, length_spellAll_le_iff (front cut) (front cut') (List.Subset.refl _)]
    exact first before' after' cut' here'
  · rintro ⟨⟨before, after, cut, spelled, here⟩, first⟩
    have whole := hidden.spellAll_scan (s ++ name ++ t)
    rw [cut, Recogniser.spellAll_append, Recogniser.spellAll_append, spelled,
      Recogniser.spellAll_map_plain] at whole
    have behind : hidden.spellAll after = t := List.append_cancel_left whole
    have found := (search before after).2 ⟨cut, here, fun before' after' cut' here' => ?_⟩
    · rw [ofName?, found, Option.map_some]
      simp only [spelled, behind]
    · have whole' := hidden.spellAll_scan (s ++ name ++ t)
      rw [cut', Recogniser.spellAll_append, Recogniser.spellAll_append,
        Recogniser.spellAll_map_plain] at whole'
      rw [← length_spellAll_le_iff (front cut) (front cut') (List.Subset.refl _), spelled]
      exact first _ _ whole' ⟨before', after', by rw [whole', cut'], rfl, here'⟩

end Place
end ScopedCss
