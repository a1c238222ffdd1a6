import ScopedCss.Proofs.Selector.ByteSearch
import ScopedCss.Proofs.Selector.Upkeep

/-!
# Replacing between offsets

A selector list can be scoped with offsets into its bytes alone: a token is looked for from an offset on,
what stands between two offsets is replaced, and the cursor and the end of the part move by as much as the
text has grown.  A replacement fails if one of its offsets lies inside a character (`Text.replaceRange?`).

None ever fails.  The range of a token is that of a place that cuts the text (`exists_place_of_range`), so
that exactly the token or the value is replaced, and the cursor comes to stand where the place ends.  For
the tokens of a part the place is the one that `Place.ofToken?` answers, and the whole run with offsets is
`scopeFrom` (`spliceFrom?_eq`).
-/
namespace ScopedCss

namespace Text

/-- The text with what stands between two offsets replaced.  There is none if one of them lies inside a
character or behind the end, or if the second comes before the first. -/
def replaceRange? (t : Text) (start stop : Nat) (new : Text) : Option Text := do
  let before ← t.slice? 0 start
  let _ ← t.slice? start stop
  let after ← t.slice? stop t.bytes
  return before ++ (new ++ after)

theorem replaceRange?_append (s old u new : Text) :
    replaceRange? (s ++ (old ++ u)) s.bytes (s.bytes + old.bytes) new = some (s ++ (new ++ u)) := by
  have behind := slice?_end (s ++ old) u
  rw [List.append_assoc, bytes_append] at behind
  rw [replaceRange?, slice?_front, slice?_append, behind]
  rfl

end Text

namespace Place

/-! ### Ranges -/

/-- Offsets at which something is replaced. -/
structure Range where
  start : Nat
  stop : Nat
  /-- The offset behind what belongs to the place: for the value of an attribute, behind the bracket. -/
  behind : Nat
deriving DecidableEq

/-- An offset behind a range moves by as much as the text grows when what stands there is replaced. -/
def Range.shift (range : Range) (new : Text) (offset : Nat) : Nat :=
  offset + new.bytes - (range.stop - range.start)

/-- The offsets of a place behind a front. -/
def range (place : Place) (done : Text) : Range where
  start := (done ++ place.before).bytes
  stop := (done ++ place.before ++ place.old).bytes
  behind := (done ++ place.before ++ place.old ++ place.closing).bytes

/-- An attribute selector ends behind where the search for it starts. -/
theorem left_lt_of_first? {text done rest before after : Text} {a : NamedAttribute} {offset : Nat}
    (cut : text.splitAtByte? offset = some (done, rest))
    (found : NamedAttribute.recogniser.first? rest = some (before, a, after)) :
    text.bytes - (offset + (before ++ a.spell).bytes) < text.bytes - offset := by
  obtain ⟨rfl, rfl⟩ := Text.splitAtByte?_eq_some_iff.1 cut
  obtain ⟨rfl, filled⟩ := Recogniser.append_of_first? found
  change a.spell ≠ [] at filled
  have pos : 0 < a.spell.bytes := Nat.pos_of_ne_zero (mt Text.bytes_eq_zero_iff.1 filled)
  have whole : NamedAttribute.recogniser.spell a = a.spell := rfl
  simp only [Text.bytes_append, whole]
  omega

/-- The range of the value in the first attribute selector on ids, or else on classes, that has a given
value and starts at or behind an offset. -/
def valueRange? (onId : Bool) (value text : Text) (offset : Nat) : Option Range :=
  match _ : text.splitAtByte? offset with
  | none => none
  | some (_, rest) =>
    match _ : NamedAttribute.recogniser.first? rest with
    | none => none
    | some (before, a, _) =>
      if a.onId = onId ∧ a.value = value then
        some {
          start := offset + (before ++ a.opening).bytes
          stop := offset + (before ++ a.opening ++ a.value).bytes
          behind := offset + (before ++ a.spell).bytes }
      else valueRange? onId value text (offset + (before ++ a.spell).bytes)
termination_by text.bytes - offset
decreasing_by exact left_lt_of_first? ‹_› ‹_›

variable {onId : Bool} {value t u : Text}

theorem valueRange?_of_none {offset : Nat} {text done rest : Text}
    (cut : text.splitAtByte? offset = some (done, rest))
    (absent : NamedAttribute.recogniser.first? rest = none) : valueRange? onId value text offset = none := by
  rw [valueRange?]
  split
  next => rfl
  next there =>
    cases cut.symm.trans there
    split
    next => rfl
    next found => cases absent.symm.trans found

theorem valueRange?_of_some {offset : Nat} {text done rest before after : Text} {a : NamedAttribute}
    (cut : text.splitAtByte? offset = some (done, rest))
    (found : NamedAttribute.recogniser.first? rest = some (before, a, after)) :
    valueRange? onId value text offset =
      if a.onId = onId ∧ a.value = value then
        some {
          start := offset + (before ++ a.opening).bytes
          stop := offset + (before ++ a.opening ++ a.value).bytes
          behind := offset + (before ++ a.spell).bytes }
      else valueRange? onId value text (offset + (before ++ a.spell).bytes) := by
  rw [valueRange?]
  split
  next none => cases cut.symm.trans none
  next there =>
    cases cut.symm.trans there
    split
    next none => cases found.symm.trans none
    next here =>
      cases found.symm.trans here
      rfl

theorem isNamed_hit_iff {a : NamedAttribute} :
    isNamed onId value (.hit a) ↔ a.onId = onId ∧ a.value = value := by
  rw [isNamed, Bool.and_eq_true, beq_iff_eq, beq_iff_eq]

theorem ofValue?_of_plain (scanned : NamedAttribute.recogniser.scan t = u.map .plain) :
    ofValue? onId value t = none := by
  have all : ∀ segment ∈ u.map Segment.plain, !isNamed onId value segment := by
    intro segment mem
    obtain ⟨c, -, rfl⟩ := List.mem_map.1 mem
    rfl
  rw [ofValue?, scanned, List.span_eq_takeWhile_dropWhile, List.dropWhile_eq_nil_iff.2 all]

/-- The value is that of the first attribute selector, or it is looked for behind it. -/
theorem ofValue?_of_hit {a : NamedAttribute} {rest : List (Segment NamedAttribute)}
    (scanned : NamedAttribute.recogniser.scan t = u.map .plain ++ .hit a :: rest) :
    ofValue? onId value t =
      if a.onId = onId ∧ a.value = value then
        some ⟨u ++ a.opening, value, a.closing, NamedAttribute.recogniser.spellAll rest⟩
      else (ofValue? onId value (NamedAttribute.recogniser.spellAll rest)).map fun place =>
        { place with before := u ++ a.spell ++ place.before } := by
  have all : ∀ segment ∈ u.map Segment.plain, !isNamed onId value segment := by
    intro segment mem
    obtain ⟨c, -, rfl⟩ := List.mem_map.1 mem
    rfl
  have behind : NamedAttribute.recogniser.scan (NamedAttribute.recogniser.spellAll rest) = rest := by
    rw [List.append_cons] at scanned
    exact Recogniser.scan_spellAll scanned
  split
  next named =>
    have cut := span_eq_iff.2 ⟨scanned, isNamed_hit_iff.2 named, all⟩
    rw [ofValue?, cut]
    simp
  next other =>
    have misses : ∀ segment ∈ u.map Segment.plain ++ [.hit a], !isNamed onId value segment := by
      intro segment mem
      rcases List.mem_append.1 mem with mem | mem
      · exact all segment mem
      · rw [List.mem_singleton.1 mem, Bool.not_eq_true', ← Bool.not_eq_true, isNamed_hit_iff]
        exact other
    rw [ofValue?, scanned, List.append_cons, ofValue?, behind]
    rw [List.span_eq_takeWhile_dropWhile, List.span_eq_takeWhile_dropWhile,
      List.takeWhile_append_of_pos misses, List.dropWhile_append_of_pos misses]
    split
    next before b after cut =>
      obtain ⟨rfl, later⟩ := Prod.mk.inj cut
      rw [later]
      simp [Recogniser.spellSegment, NamedAttribute.recogniser]
    next no =>
      split
      next before b after cut =>
        obtain ⟨rfl, later⟩ := Prod.mk.inj cut
        exact (no _ b after (by rw [later])).elim
      next => rfl

/-- The range of a value is that of the place of the value. -/
theorem valueRange?_eq (onId : Bool) (value done t : Text) :
    valueRange? onId value (done ++ t) done.bytes = (ofValue? onId value t).map (·.range done) := by
  induction size : t.length using Nat.strongRecOn generalizing done t with
  | ind n ih =>
    have cut : (done ++ t).splitAtByte? done.bytes = some (done, t) :=
      Text.splitAtByte?_eq_some_iff.2 ⟨rfl, rfl⟩
    rcases Segment.exists_first (NamedAttribute.recogniser.scan t) with ⟨u, scanned⟩ | ⟨u, a, rest, scanned⟩
    · rw [valueRange?_of_none cut (Recogniser.first?_of_plain scanned), ofValue?_of_plain scanned]
      rfl
    · have found := Recogniser.first?_of_hit scanned
      obtain ⟨whole, filled⟩ := Recogniser.append_of_first? found
      rw [valueRange?_of_some cut found, ofValue?_of_hit scanned]
      split
      next named =>
        obtain ⟨-, rfl⟩ := named
        simp [range, NamedAttribute.spell, Nat.add_assoc]
      next =>
        change t = u ++ (a.spell ++ _) at whole
        change a.spell ≠ [] at filled
        have shorter := List.length_pos_iff.2 filled
        have later := ih (NamedAttribute.recogniser.spellAll rest).length (by grind) (done ++ (u ++ a.spell)) _ rfl
        rw [Text.bytes_append, List.append_assoc, List.append_assoc, ← whole] at later
        rw [later, Option.map_map]
        refine congrArg (Option.map · _) (funext fun place => ?_)
        simp only [Function.comp_apply, range, List.append_assoc]

end Place

/-! ### The range of a token -/

namespace NamedAttribute

/-- An attribute selector ends with its closing bracket. -/
theorem exists_closing {t : Text} {a : NamedAttribute} (found : read t = some a) :
    ∃ front, a.closing = front ++ [']'] := by
  have last {t value closing : Text} (valued : readValue t = some (value, closing)) :
      ∃ front, closing = front ++ [']'] := by
    unfold readValue at valued
    dsimp only at valued
    split at valued
    next =>
      cases valued
      exact ⟨_, rfl⟩
    next =>
      split at valued
      next =>
        cases valued
        exact ⟨_, rfl⟩
      next => cases valued
    next => cases valued
  unfold read at found
  split at found
  next t =>
    simp only [Option.bind_eq_bind, Option.bind_eq_some_iff, Option.some.injEq, Prod.exists] at found
    obtain ⟨_, _, _, _, _, _, _, value, closing, valued, rfl⟩ := found
    exact last valued
  next => cases found

end NamedAttribute

namespace Token

/-- What is replaced of a token: the value of an attribute, or else the whole text. -/
def target : Token → Text
  | attributeValue _ value => value
  | token => token.text

/-- The first range of a token at or behind an offset. -/
def range? (token : Token) (text : Text) (offset : Nat) : Option Place.Range :=
  match token with
  | .attributeValue onId value => Place.valueRange? onId value text offset
  | token =>
    (Place.Search.find text.utf8 token.text.utf8 ⟨none, 0, offset⟩).map fun i =>
      ⟨i, i + token.text.bytes, i + token.text.bytes⟩

end Token

namespace Place

/-- How a place of a token ends: with the closing bracket of the attribute, or with the text of the token. -/
def ClosesAs (place : Place) : Token → Prop
  | .attributeValue _ _ => ∃ front, place.closing = front ++ [']']
  | _ => place.closing = []

theorem closes_of_ofValue? {onId : Bool} {value t : Text} {place : Place}
    (found : ofValue? onId value t = some place) :
    place.old = value ∧ place.ClosesAs (.attributeValue onId value) := by
  unfold ofValue? at found
  dsimp only at found
  split at found
  next before a after cut =>
    cases found
    obtain ⟨whole, -, -⟩ := span_eq_iff.1 cut
    obtain ⟨u, -, read⟩ := Recogniser.exists_read_of_mem_scan
      (r := NamedAttribute.recogniser) (t := t) (a := a) (by rw [whole]; simp)
    exact ⟨rfl, NamedAttribute.exists_closing read⟩
  next => cases found

theorem range?_of_name {token : Token} (byName : ∀ onId value, token ≠ .attributeValue onId value)
    (text : Text) (offset : Nat) :
    token.range? text offset =
      (Search.find text.utf8 token.text.utf8 ⟨none, 0, offset⟩).map fun i =>
        ⟨i, i + token.text.bytes, i + token.text.bytes⟩ := by
  unfold Token.range?
  split
  next onId value => exact absurd rfl (byName onId value)
  next => rfl

/-- **A range is that of a place** that cuts the text, and what stands there is what is to be replaced. -/
theorem exists_place_of_range {token : Token} (nonempty : token.text ≠ []) {done t : Text} {range : Range}
    (found : token.range? (done ++ t) done.bytes = some range) :
    ∃ place : Place, place.spell = t ∧ place.old = token.target ∧ place.ClosesAs token ∧
      range = place.range done := by
  by_cases byValue : ∃ onId value, token = .attributeValue onId value
  · obtain ⟨onId, value, rfl⟩ := byValue
    rw [Token.range?, valueRange?_eq] at found
    obtain ⟨place, here, rfl⟩ := Option.map_eq_some_iff.1 found
    obtain ⟨old, closes⟩ := closes_of_ofValue? here
    exact ⟨place, spell_ofValue? here, old, closes, rfl⟩
  · have byName : ∀ onId value, token ≠ .attributeValue onId value := fun onId value same =>
      byValue ⟨onId, value, same⟩
    rw [range?_of_name byName] at found
    obtain ⟨i, here, rfl⟩ := Option.map_eq_some_iff.1 found
    obtain ⟨before, after, rfl, rfl, -, -⟩ := Search.exists_place_of_find nonempty here
    refine ⟨⟨before, token.text, [], after⟩, by simp [spell], ?_, ?_, ?_⟩
    · unfold Token.target
      split
      next onId value => exact absurd rfl (byName onId value)
      next => rfl
    · unfold ClosesAs
      split
      next onId value => exact absurd rfl (byName onId value)
      next => rfl
    · rw [range]
      simp [Nat.add_assoc]

end Place

namespace Selector

/-! ### Replacing in place -/

/-- A selector list while one of its parts is scoped, with offsets in place of cut texts. -/
structure Offsets where
  text : Text
  /-- The offset of the cursor. -/
  cursor : Nat
  /-- The offset at which the part ends. -/
  partEnd : Nat
deriving DecidableEq

/-- The offsets of a cursor. -/
def Cursor.offsets (cursor : Cursor) : Offsets := ⟨cursor.text, cursor.done.bytes, cursor.partEnd⟩

namespace Offsets

/-- The offset from which the next part is looked for. -/
def resume (offsets : Offsets) : Nat := min (max offsets.cursor offsets.partEnd) offsets.text.bytes

/-- A token replaced at its first range behind the cursor, if it has one.  There is nothing if what stands
in the range cannot be replaced. -/
def splice? (offsets : Offsets) (token : Token) (new : Text) : Option Offsets :=
  match token.range? offsets.text offsets.cursor with
  | none => some offsets
  | some range =>
    (offsets.text.replaceRange? range.start range.stop new).map fun text =>
      ⟨text, range.shift new range.behind, range.shift new offsets.partEnd⟩

/-- A token replaced by its new name, if it gets one. -/
def rename? (scheme : Scheme) (asterisks : Nat) (offsets : Offsets) (token : Token) : Option Offsets :=
  match token.renaming? scheme asterisks with
  | none => some offsets
  | some r => offsets.splice? token (token.replacement r.scopedName)

end Offsets

variable {scheme : Scheme} {part : Text} {token : Token}

theorem Offsets.splice?_of_none (offsets : Offsets)
    (absent : token.range? offsets.text offsets.cursor = none) (new : Text) :
    offsets.splice? token new = some offsets := by
  rw [splice?, absent]

theorem Offsets.splice?_of_some (offsets : Offsets) {range : Place.Range}
    (found : token.range? offsets.text offsets.cursor = some range) (new : Text) :
    offsets.splice? token new =
      (offsets.text.replaceRange? range.start range.stop new).map fun text =>
        ⟨text, range.shift new range.behind, range.shift new offsets.partEnd⟩ := by
  rw [splice?, found]

/-- What stands at a place can be replaced, and the cursor moves behind the place. -/
theorem splice?_of_range {cursor : Cursor} {place : Place} (whole : place.spell = cursor.rest)
    (found : token.range? cursor.text cursor.done.bytes = some (place.range cursor.done)) (new : Text) :
    cursor.offsets.splice? token new = some (cursor.replace place new).offsets := by
  have text : cursor.text = cursor.done ++ place.before ++ (place.old ++ (place.closing ++ place.after)) := by
    rw [Cursor.text, ← whole, Place.spell]
    simp only [List.append_assoc]
  have replaced : cursor.text.replaceRange? (place.range cursor.done).start (place.range cursor.done).stop new =
      some (cursor.replace place new).text := by
    rw [text, Place.range, Text.bytes_append _ place.old, Text.replaceRange?_append]
    simp [Cursor.replace, Cursor.text]
  have length : (place.range cursor.done).stop - (place.range cursor.done).start = place.old.bytes := by
    simp only [Place.range, Text.bytes_append]
    omega
  have behind : (place.range cursor.done).shift new (place.range cursor.done).behind =
      (cursor.replace place new).done.bytes := by
    rw [Place.Range.shift, length]
    simp only [Place.range, Cursor.replace, Text.bytes_append]
    omega
  have partEnd : (place.range cursor.done).shift new cursor.partEnd = (cursor.replace place new).partEnd := by
    rw [Place.Range.shift, length]
    rfl
  rw [Offsets.splice?_of_some cursor.offsets found]
  show Option.map _ (cursor.text.replaceRange? _ _ new) = _
  rw [replaced, Option.map_some, behind]
  exact congrArg (fun stop => some (Offsets.mk _ _ stop)) partEnd

/-- The range of a token that is renamed is that of its first place. -/
theorem range?_eq {asterisks : Nat} (mem : token ∈ tokens part)
    (renamed : (token.renaming? scheme asterisks).isSome) (done t : Text) :
    token.range? (done ++ t) done.bytes =
      (Place.ofToken? token done.getLast? t).map (·.range done) := by
  by_cases byValue : ∃ onId value, token = .attributeValue onId value
  · obtain ⟨onId, value, rfl⟩ := byValue
    exact Place.valueRange?_eq onId value done t
  · have byName : ∀ onId value, token ≠ .attributeValue onId value := fun onId value same =>
      byValue ⟨onId, value, same⟩
    have plain := (isPlain_of_mem_tokens mem renamed).resolve_left byValue
    rw [Place.range?_of_name byName, Place.Search.find_eq_ofName? plain, Place.ofToken?_of_name byName]
    cases found : Place.ofName? token.text done.getLast? t with
    | none => rfl
    | some place =>
      obtain ⟨old, closing, -⟩ := ends_of_ofName? found
      simp [Place.range, old, closing, Nat.add_assoc]

/-- **A token is renamed between offsets** as it is behind the cursor. -/
theorem rename?_eq (mem : token ∈ tokens part) (asterisks : Nat) (cursor : Cursor) :
    cursor.offsets.rename? scheme asterisks token = some (cursor.rename scheme asterisks token).offsets := by
  rw [Offsets.rename?, Cursor.rename]
  cases renamed : token.renaming? scheme asterisks with
  | none => rfl
  | some r =>
    have range := range?_eq mem (by rw [renamed]; rfl) cursor.done cursor.rest
    dsimp only
    cases found : Place.ofToken? token cursor.done.getLast? cursor.rest with
    | none =>
      rw [found] at range
      exact Offsets.splice?_of_none cursor.offsets range _
    | some place =>
      rw [found] at range
      exact splice?_of_range (Place.spell_ofToken? found) range _

/-! ### Runs -/

/-- A token of a part noted in the ledger and renamed between offsets. -/
def spliceToken? (scheme : Scheme) (part : Text) (state : Ledger × Offsets) (token : Token) :
    Option (Ledger × Offsets) :=
  (state.2.rename? scheme state.1.asterisks token).map fun offsets =>
    (state.1.note scheme part token, offsets)

/-- Scopes parts of a list with offsets, one after the other, the first from an offset on.  There is
nothing if a replacement fails. -/
def spliceFrom? (scheme : Scheme) : List Text → Ledger → Text → Nat → Option (Except Fault (Ledger × Text))
  | [], ledger, text, _ => some (.ok (ledger, text))
  | part :: parts, ledger, text, offset =>
    match text.splitAtByte? offset with
    | none => some (.error (.insideCharacter offset))
    | some (done, rest) => do
      let part := NamedAttribute.normalise part
      let (ledger, offsets) ←
        (tokens part).foldlM (spliceToken? scheme part) (ledger, (Cursor.seek done rest part).offsets)
      spliceFrom? scheme parts ledger offsets.text offsets.resume

theorem spliceToken?_eq (mem : token ∈ tokens part) (ledger : Ledger) (cursor : Cursor) :
    spliceToken? scheme part (ledger, cursor.offsets) token =
      some ((scopeToken scheme part (ledger, cursor) token).map id Cursor.offsets) := by
  rw [spliceToken?, scopeToken_eq, rename?_eq mem]
  rfl

theorem foldlM_spliceToken?_eq (scheme : Scheme) {todo : List Token} (known : todo ⊆ tokens part) (state : Ledger × Cursor) :
    todo.foldlM (spliceToken? scheme part) (state.map id Cursor.offsets) =
      some ((todo.foldl (scopeToken scheme part) state).map id Cursor.offsets) := by
  induction todo generalizing state with
  | nil => rfl
  | cons token todo ih =>
    obtain ⟨here, later⟩ := List.cons_subset.1 known
    rw [List.foldlM_cons, List.foldl_cons, ← ih later]
    exact congrArg (Option.bind · _) (spliceToken?_eq here state.1 state.2)

/-- **No replacement fails**, and the run with offsets answers what the run over cut texts answers. -/
theorem spliceFrom?_eq (scheme : Scheme) (parts : List Text) (ledger : Ledger) (text : Text) (offset : Nat) :
    spliceFrom? scheme parts ledger text offset = some (scopeFrom scheme parts ledger text offset) := by
  induction parts generalizing ledger text offset with
  | nil => rfl
  | cons part parts ih =>
    rw [spliceFrom?, scopeFrom]
    cases text.splitAtByte? offset with
    | none => rfl
    | some cut =>
      obtain ⟨done, rest⟩ := cut
      have run := foldlM_spliceToken?_eq scheme
        (List.Subset.refl (tokens (NamedAttribute.normalise part)))
        (ledger, Cursor.seek done rest (NamedAttribute.normalise part))
      dsimp only
      change Option.bind (List.foldlM _ (Prod.map id Cursor.offsets (ledger, _)) _) _ = _
      rw [run, Option.bind_some]
      exact ih _ _ _

/-! ### All replacements are exact -/

theorem splice?_cases (cursor : Cursor) (named : token.text ≠ []) (new : Text) :
    token.range? cursor.text cursor.done.bytes = none ∧
        cursor.offsets.splice? token new = some cursor.offsets ∨
      ∃ place : Place, place.spell = cursor.rest ∧ place.old = token.target ∧ place.ClosesAs token ∧
        token.range? cursor.text cursor.done.bytes = some (place.range cursor.done) ∧
        cursor.offsets.splice? token new = some (cursor.replace place new).offsets := by
  cases found : token.range? cursor.text cursor.done.bytes with
  | none => exact .inl ⟨rfl, Offsets.splice?_of_none cursor.offsets found new⟩
  | some range =>
    obtain ⟨place, whole, old, closes, rfl⟩ := Place.exists_place_of_range named found
    exact .inr ⟨place, whole, old, closes, rfl, splice?_of_range whole found new⟩

/-- The offsets of a place are boundaries of the text, and the text between them is what stands there. -/
theorem boundaries_range (place : Place) (done : Text) :
    (done ++ place.spell).slice? (place.range done).start (place.range done).stop = some place.old ∧
      (done ++ place.spell).IsBoundary (place.range done).start ∧
      (done ++ place.spell).IsBoundary (place.range done).stop ∧
      (done ++ place.spell).IsBoundary (place.range done).behind := by
  have slice := Text.slice?_append (done ++ place.before) place.old (place.closing ++ place.after)
  rw [← Text.bytes_append] at slice
  have whole : done ++ place.spell =
      done ++ place.before ++ (place.old ++ (place.closing ++ place.after)) := by simp [Place.spell]
  rw [whole]
  exact ⟨slice, ⟨_, _, rfl, rfl⟩, ⟨_, place.closing ++ place.after, by simp, rfl⟩,
    ⟨_, place.after, by simp, rfl⟩⟩

theorem find_exact {text name : Text} {start i : Nat} (boundary : text.IsBoundary start)
    (nonempty : name ≠ []) (found : Place.Search.find text.utf8 name.utf8 ⟨none, 0, start⟩ = some i) :
    start ≤ i ∧ text.slice? i (i + name.bytes) = some name ∧
      text.IsBoundary i ∧ text.IsBoundary (i + name.bytes) ∧
      (∀ byte ∈ text.utf8[i + name.bytes]?, Text.isNameByte byte = false) ∧
      Place.Search.LiesOpen text start i := by
  obtain ⟨done, t, rfl, rfl⟩ := boundary
  obtain ⟨before, after, rfl, rfl, ends, opens⟩ := Place.Search.exists_place_of_find nonempty found
  have whole : done ++ (before ++ (name ++ after)) = done ++ before ++ name ++ after := by simp
  refine ⟨by simp, ?_, ⟨_, name ++ after, by simp, rfl⟩, ⟨_, after, whole, Text.bytes_append _ name⟩, ?_, opens⟩
  · have slice := Text.slice?_append (done ++ before) name after
    rwa [List.append_assoc] at slice
  · intro byte mem
    rw [whole, ← Text.bytes_append, ← List.head?_drop, Text.drop_utf8] at mem
    have last := Text.any_head?_utf8 after
    rw [Option.mem_def.1 mem, Option.any_some] at last
    rw [last]
    simpa using ends

theorem valueRange?_exact {onId : Bool} {value text : Text} {start : Nat} {range : Place.Range}
    (found : Place.valueRange? onId value text start = some range) :
    start ≤ range.start ∧ range.stop < range.behind ∧
      text.slice? range.start range.stop = some value ∧
      text.IsBoundary range.start ∧ text.IsBoundary range.stop ∧ text.IsBoundary range.behind ∧
      text.slice? (range.behind - 1) range.behind = some [']'] := by
  obtain ⟨done, t, rfl, rfl⟩ : text.IsBoundary start := by
    rw [Place.valueRange?] at found
    split at found
    next => cases found
    next cut =>
      obtain ⟨whole, size⟩ := Text.splitAtByte?_eq_some_iff.1 cut
      exact ⟨_, _, whole, size⟩
  rw [Place.valueRange?_eq] at found
  obtain ⟨place, here, rfl⟩ := Option.map_eq_some_iff.1 found
  obtain rfl := Place.spell_ofValue? here
  obtain ⟨rfl, front, closing⟩ := Place.closes_of_ofValue? here
  have behind : (place.range done).behind = (done ++ place.before ++ place.old ++ front).bytes + 1 := by
    rw [Place.range, closing, ← List.append_assoc, Text.bytes_append _ [']']]
    rfl
  have last : Text.slice? (done ++ place.before ++ place.old ++ front ++ ([']'] ++ place.after)) _
      ((done ++ place.before ++ place.old ++ front).bytes + 1) = some [']'] :=
    Text.slice?_append (done ++ place.before ++ place.old ++ front) [']'] place.after
  obtain ⟨slice, starts, stops, ends⟩ := boundaries_range place done
  refine ⟨?_, ?_, slice, starts, stops, ends, ?_⟩
  · simp [Place.range]
  · simp only [Place.range, closing, Text.bytes_append]
    exact Nat.lt_add_of_pos_right (Nat.add_pos_right _ (by decide))
  · have split : done ++ place.spell = done ++ place.before ++ place.old ++ front ++ ([']'] ++ place.after) := by
      simp [Place.spell, closing]
    rw [split, behind, Nat.add_sub_cancel]
    exact last

/-- **Replacements are exact**, in every text and wherever the search for them starts.  An offset at which a
name is found is not before the start, stands between two characters and holds exactly the name; no name
byte follows, and read from the start the offset lies outside strings, brackets, marks of comments and
escapes.  The range of an attribute's value holds exactly the value and ends before the bracket that closes
the attribute, behind which the third offset stands.  So a token is either not found, and nothing changes,
or exactly its text or its value is replaced, and the cursor comes to stand behind the new text, and for a
value behind the bracket.  With all replacements made between offsets none of them fails, and the scoping of
parts answers the same. -/
theorem splices_exact :
    (∀ (text name : Text) (start i : Nat), text.IsBoundary start → name ≠ [] →
        Place.Search.find text.utf8 name.utf8 ⟨none, 0, start⟩ = some i →
        start ≤ i ∧ text.slice? i (i + name.bytes) = some name ∧
          text.IsBoundary i ∧ text.IsBoundary (i + name.bytes) ∧
          (∀ byte ∈ text.utf8[i + name.bytes]?, Text.isNameByte byte = false) ∧
          Place.Search.LiesOpen text start i) ∧
      (∀ (onId : Bool) (value text : Text) (start : Nat) (range : Place.Range),
        Place.valueRange? onId value text start = some range →
        start ≤ range.start ∧ range.stop < range.behind ∧
          text.slice? range.start range.stop = some value ∧
          text.IsBoundary range.start ∧ text.IsBoundary range.stop ∧ text.IsBoundary range.behind ∧
          text.slice? (range.behind - 1) range.behind = some [']']) ∧
      (∀ (cursor : Cursor) (token : Token) (new : Text), token.text ≠ [] →
        token.range? cursor.text cursor.done.bytes = none ∧
            cursor.offsets.splice? token new = some cursor.offsets ∨
          ∃ place : Place, place.spell = cursor.rest ∧ place.old = token.target ∧ place.ClosesAs token ∧
            token.range? cursor.text cursor.done.bytes = some (place.range cursor.done) ∧
            cursor.offsets.splice? token new = some (cursor.replace place new).offsets) ∧
      ∀ (scheme : Scheme) (parts : List Text) (ledger : Ledger) (text : Text) (offset : Nat),
        spliceFrom? scheme parts ledger text offset = some (scopeFrom scheme parts ledger text offset) :=
  ⟨fun _ _ _ _ => find_exact, fun _ _ _ _ _ => valueRange?_exact,
    fun cursor _ new named => splice?_cases cursor named new, spliceFrom?_eq⟩

/-- Behind a backslash the search comes to a byte inside a character; it passes over a name that goes on,
brackets, a string and the mark of a comment.  The value of an attribute holds a space. -/
theorem splices_exact_hidden :
    let text : Text := "\\é.éa[x=.é]\".é\"%COMMENT%.é".toList
    let styled : Cursor := ⟨"é".toList, "[class~=\"é \"]é".toList, 18⟩
    let token : Token := .attributeValue false "é ".toList
    text.slice? 28 31 = some ".é".toList ∧ Place.Search.LiesOpen text 0 28 ∧
      styled.text.slice? 11 14 = some "é ".toList ∧ styled.text.IsBoundary 16 ∧
      ∃ place : Place, place.spell = styled.rest ∧ place.old = "é ".toList ∧ place.ClosesAs token ∧
        place.range styled.done = ⟨11, 14, 16⟩ ∧
        styled.offsets.splice? token "é__1".toList = some (styled.replace place "é__1".toList).offsets := by
  intro text styled token
  obtain ⟨names, values, splices, -⟩ := splices_exact
  have found : Place.Search.find text.utf8 (Text.utf8 ".é".toList) ⟨none, 0, 0⟩ = some 28 := by
    decide +kernel
  have valued : Place.valueRange? false "é ".toList styled.text 2 = some ⟨11, 14, 16⟩ := by decide +kernel
  obtain ⟨-, slice, -, -, -, opens⟩ := names text ".é".toList 0 28 (Text.isBoundary_zero _) (by decide) found
  obtain ⟨-, -, value, -, -, behind, -⟩ := values false "é ".toList styled.text 2 ⟨11, 14, 16⟩ valued
  refine ⟨slice, opens, value, behind, ?_⟩
  rcases splices styled token "é__1".toList (by decide) with ⟨absent, -⟩ | ⟨place, whole, old, closes, range, spliced⟩
  · cases valued.symm.trans absent
  · exact ⟨place, whole, old, closes, (Option.some.inj (valued.symm.trans range)).symm, spliced⟩

end Selector
end ScopedCss
