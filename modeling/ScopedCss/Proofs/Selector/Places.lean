import Mathlib.Data.List.TakeDrop
import ScopedCss.Proofs.Text.Scanning
import ScopedCss.Selector.Scope

/-!
# Places cut a text, cursors move over it

A place that is found in a text is a cut of it: what stands before it, what stands there, what is
kept and what stands behind make up the text (`Place.spell_ofToken?`).  So a token that is scoped
never touches the text behind the cursor, and the cursor only moves forward: the text after it is
an end of what it was before.

The end of a part is kept as an offset into a text that grows and shrinks.  Seen from the cursor it
is `Cursor.ahead`, and that number only ever loses what the cursor has passed
(`Cursor.ahead_replace`): no replacement moves the end of a part relative to the text after it.
-/
namespace ScopedCss

namespace Place

/-- The text that a place cuts. -/
def spell (place : Place) : Text := place.before ++ place.old ++ place.closing ++ place.after

theorem isPrefixOf?_map_eq_some_iff {name : Text} {segments after : List (Segment Text)} :
    (name.map Segment.plain).isPrefixOf? segments = some after ↔
      segments = name.map Segment.plain ++ after := by
  rw [List.isPrefixOf?_eq_some_iff_append_eq, eq_comm]

theorem step_eq_some_iff {segment : Segment Text} {found}
    {before after : List (Segment Text)} :
    findName.step segment found = some (before, after) ↔
      ∃ rest, found = some (rest, after) ∧ before = segment :: rest := by
  simp only [findName.step, Option.map_eq_some_iff, Prod.mk.injEq, Prod.exists]
  constructor
  · rintro ⟨b, a, found, rfl, rfl⟩
    exact ⟨b, found, rfl⟩
  · rintro ⟨rest, found, rfl⟩
    exact ⟨rest, after, found, rfl, rfl⟩

/-- What a search for a name remembers of the text it has read. -/
structure Reading where
  /-- The quote of the open string. -/
  quote : Option Char
  /-- The number of open brackets. -/
  depth : Nat
  /-- The last character. -/
  previous : Option Char

/-- The reading after one more segment. -/
def Reading.pass (reading : Reading) : Segment Text → Reading
  | .hit h => { reading with previous := h.getLast? }
  | .plain c =>
    match reading.quote with
    | some quote => ⟨if c = quote then none else some quote, reading.depth, some c⟩
    | none =>
      if Text.isQuote c then ⟨some c, reading.depth, some c⟩
      else if c = '[' then ⟨none, reading.depth + 1, some c⟩
      else if c = ']' then ⟨none, reading.depth - 1, some c⟩
      else ⟨none, reading.depth, some c⟩

/-- Behind a segment it no longer matters what stood before it. -/
theorem Reading.pass_previous (reading : Reading) (previous : Option Char) (segment : Segment Text) :
    { reading with previous }.pass segment = reading.pass segment := by
  cases segment <;> rfl

/-- Whether a name may start here, with the given segments behind it: outside strings and brackets,
and as a name of its own. -/
def Reading.Admits (reading : Reading) (name : Text) (after : List (Segment Text)) : Prop :=
  reading.quote = none ∧ reading.depth = 0 ∧ endsName after ∧ startsName name reading.previous

/-- A character that opens and closes nothing. -/
def IsFlat : Segment Text → Prop
  | .hit _ => False
  | .plain c => Text.isQuote c = false ∧ c ≠ '[' ∧ c ≠ ']'

/-- **One step of a search.**  At a place that admits the name the search ends, and from every other place
it goes on to the next segment. -/
theorem findName_cons (name : Text) (reading : Reading) (segment : Segment Text)
    (segments : List (Segment Text)) :
    (∃ after, segment :: segments = name.map Segment.plain ++ after ∧ IsFlat segment ∧
        reading.Admits name after ∧
        findName name reading.quote reading.depth reading.previous (segment :: segments) =
          some ([], after)) ∨
      (∀ after, segment :: segments = name.map Segment.plain ++ after → IsFlat segment →
        ¬ reading.Admits name after) ∧
      findName name reading.quote reading.depth reading.previous (segment :: segments) =
        findName.step segment (findName name (reading.pass segment).quote
          (reading.pass segment).depth (reading.pass segment).previous segments) := by
  cases segment with
  | hit h => exact .inr ⟨fun _ _ flat => flat.elim, by rw [findName, Reading.pass]⟩
  | plain c =>
    obtain ⟨quote, depth, previous⟩ := reading
    cases quote with
    | some quote =>
      refine .inr ⟨fun _ _ _ admits => ?_, by rw [findName, Reading.pass]⟩
      cases admits.1
    | none =>
      simp only [findName, Reading.pass]
      by_cases quotes : Text.isQuote c
      · rw [if_pos quotes, if_pos quotes]
        exact .inr ⟨fun _ _ flat => absurd quotes (by simp [flat.1]), rfl⟩
      by_cases opens : c = '['
      · rw [if_neg quotes, if_neg quotes, if_pos opens, if_pos opens]
        exact .inr ⟨fun _ _ flat => absurd opens flat.2.1, rfl⟩
      by_cases closes : c = ']'
      · rw [if_neg quotes, if_neg quotes, if_neg opens, if_neg opens, if_pos closes, if_pos closes]
        exact .inr ⟨fun _ _ flat => absurd closes flat.2.2, rfl⟩
      rw [if_neg quotes, if_neg quotes, if_neg opens, if_neg opens, if_neg closes, if_neg closes]
      cases here : (name.map Segment.plain).isPrefixOf? (.plain c :: segments) with
      | none =>
        refine .inr ⟨fun after cut _ _ => ?_, rfl⟩
        rw [isPrefixOf?_map_eq_some_iff.2 cut] at here
        cases here
      | some after =>
        have cut := isPrefixOf?_map_eq_some_iff.1 here
        by_cases open_ : depth = 0 ∧ endsName after ∧ startsName name previous
        · exact .inl ⟨after, cut, ⟨by simpa using quotes, opens, closes⟩, ⟨rfl, open_⟩, if_pos open_⟩
        · refine .inr ⟨fun after' cut' _ admits => open_ ?_, if_neg open_⟩
          rw [List.append_cancel_left (cut.symm.trans cut')]
          exact admits.2

/-- The name stands between what is answered for it, and it is a name of its own there. -/
theorem cut_of_findName {name : Text} (reading : Reading) {segments before after : List (Segment Text)}
    (h : findName name reading.quote reading.depth reading.previous segments = some (before, after)) :
    segments = before ++ name.map Segment.plain ++ after ∧ endsName after ∧
      (before = [] → startsName name reading.previous) := by
  induction segments generalizing reading before with
  | nil => simp [findName] at h
  | cons segment segments ih =>
    rcases findName_cons name reading segment segments with ⟨rest, cut, -, admits, ends⟩ | ⟨-, goes⟩
    · rw [ends] at h
      cases h
      exact ⟨cut, admits.2.2.1, fun _ => admits.2.2.2⟩
    · rw [goes] at h
      obtain ⟨rest, found, rfl⟩ := step_eq_some_iff.1 h
      obtain ⟨cut, ends, -⟩ := ih _ found
      exact ⟨by rw [cut, List.cons_append, List.cons_append], ends, nofun⟩

theorem spell_ofName? {name : Text} {previous : Option Char} {t : Text} {place : Place}
    (h : ofName? name previous t = some place) : place.spell = t := by
  obtain ⟨⟨before, after⟩, found, rfl⟩ := Option.map_eq_some_iff.1 h
  have whole := hidden.spellAll_scan t
  rw [(cut_of_findName ⟨none, 0, previous⟩ found).1] at whole
  simpa [spell] using whole

theorem spell_ofValue? {onId : Bool} {value t : Text} {place : Place}
    (h : ofValue? onId value t = some place) : place.spell = t := by
  simp only [ofValue?, List.span_eq_takeWhile_dropWhile] at h
  split at h
  next before a after split =>
    cases h
    obtain ⟨rfl, here⟩ := Prod.mk.inj split
    have named : isNamed onId value (.hit a) := by
      have found := List.head_dropWhile_not (fun segment => !isNamed onId value segment)
        (l := NamedAttribute.recogniser.scan t) (by simp [here])
      simpa [here] using found
    have same : a.value = value := by
      simp only [isNamed, Bool.and_eq_true, beq_iff_eq] at named
      exact named.2
    have whole := NamedAttribute.recogniser.spellAll_scan t
    rw [← List.takeWhile_append_dropWhile (p := fun segment => !isNamed onId value segment)
      (l := NamedAttribute.recogniser.scan t), here, Recogniser.spellAll_append,
      Recogniser.spellAll_cons] at whole
    have cut : NamedAttribute.recogniser.spellSegment (.hit a) =
        a.opening ++ a.value ++ a.closing := rfl
    refine Eq.trans ?_ whole
    rw [cut, ← same]
    simp [spell]
  next => cases h

/-- Only the values of attributes are not looked for by name. -/
theorem ofToken?_of_name {token : Token} (byName : ∀ onId value, token ≠ .attributeValue onId value) :
    ofToken? token = ofName? token.text := by
  funext previous t
  unfold ofToken?
  split
  next onId value => exact absurd rfl (byName onId value)
  next => rfl

/-- A place that is found cuts the text in which it is found. -/
theorem spell_ofToken? {token : Token} {previous : Option Char} {t : Text} {place : Place}
    (h : ofToken? token previous t = some place) : place.spell = t := by
  unfold ofToken? at h
  split at h
  next => exact spell_ofValue? h
  next => exact spell_ofName? h

end Place

namespace Selector

/-! ### Cursors move forward -/

namespace Cursor

/-- The number of bytes from the cursor to the end of the part, if that is still ahead. -/
def ahead (cursor : Cursor) : Nat := cursor.partEnd - cursor.done.bytes

/-- A cursor has moved over a text: what it has passed stood in front of what is left, and the end
of the part has come nearer by as much. -/
structure Passed (start stop : Cursor) (used : Text) : Prop where
  rest : start.rest = used ++ stop.rest
  ahead : stop.ahead = start.ahead - used.bytes

theorem Passed.refl (cursor : Cursor) : Passed cursor cursor [] := ⟨rfl, rfl⟩

theorem Passed.trans {start middle stop : Cursor} {used used' : Text}
    (h : Passed start middle used) (h' : Passed middle stop used') :
    Passed start stop (used ++ used') where
  rest := by rw [h.rest, h'.rest, List.append_assoc]
  ahead := by rw [h'.ahead, h.ahead, Text.bytes_append, Nat.sub_add_eq]

/-- A replacement moves the end of the part and the cursor by the same number of bytes, so that only
what was passed counts. -/
theorem ahead_replace (cursor : Cursor) (place : Place) (replacement : Text) :
    (cursor.replace place replacement).ahead =
      cursor.ahead - (place.before ++ place.old ++ place.closing).bytes := by
  simp only [ahead, replace, Text.bytes_append]
  omega

theorem passed_replace {cursor : Cursor} {place : Place} (h : place.spell = cursor.rest)
    (replacement : Text) :
    Passed cursor (cursor.replace place replacement)
      (place.before ++ place.old ++ place.closing) where
  rest := h.symm
  ahead := ahead_replace cursor place replacement

/-- The next part is looked for where the part ends, or from the cursor, or from the end of the
text, whichever comes later, later and first. -/
theorem resume_eq (cursor : Cursor) :
    cursor.resume = cursor.done.bytes + min cursor.ahead cursor.rest.bytes := by
  simp only [resume, text, ahead, Text.bytes_append]
  omega

end Cursor

variable (scheme : Scheme) (part : Text)

theorem passed_scopeToken (state : Ledger × Cursor) (token : Token) :
    ∃ used, Cursor.Passed state.2 (scopeToken scheme part state token).2 used := by
  unfold scopeToken
  split
  next ledger cursor =>
    split
    next => exact ⟨[], .refl _⟩
    next token _ =>
      split
      next => exact ⟨[], .refl _⟩
      next r _ =>
        dsimp only
        split
        next place found => exact ⟨_, Cursor.passed_replace (Place.spell_ofToken? found) _⟩
        next => exact ⟨[], .refl _⟩

/-- Scoping tokens one after the other moves the cursor forward. -/
theorem passed_foldl_scopeToken (state : Ledger × Cursor) (tokens : List Token) :
    ∃ used, Cursor.Passed state.2 (tokens.foldl (scopeToken scheme part) state).2 used := by
  induction tokens generalizing state with
  | nil => exact ⟨[], .refl _⟩
  | cons token tokens ih =>
    obtain ⟨used, here⟩ := passed_scopeToken scheme part state token
    obtain ⟨used', later⟩ := ih (scopeToken scheme part state token)
    exact ⟨used ++ used', here.trans later⟩

end Selector
end ScopedCss
