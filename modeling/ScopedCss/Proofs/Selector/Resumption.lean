import ScopedCss.Proofs.Runs
import ScopedCss.Proofs.Selector.Places

/-!
# When the next part of a selector list can be looked for

Between two parts of a list the scoping has come to an offset into the text, and it can only go on
if the offset stands between two characters.  This module says exactly when it does
(`isBoundary_scopePart_iff`).

A part that is found again is no danger: whatever its tokens did, its end or the cursor is where a
character ends.  A part that is not found again is measured off from the cursor all the same.  The
scoping is *stranded* if that measure ends inside a character of the text that is left, and no token
of the part was found as far as that.
-/
namespace ScopedCss

namespace Text

/-- An offset stands between two characters of a text, or at one of its ends. -/
def IsBoundary (t : Text) (n : Nat) : Prop := ∃ before after, t = before ++ after ∧ before.bytes = n

/-- An offset stands inside a character of a text. -/
def InsideChar (t : Text) (n : Nat) : Prop := n < t.bytes ∧ ¬ t.IsBoundary n

theorem bytes_eq_zero_iff {t : Text} : t.bytes = 0 ↔ t = [] := by
  cases t with
  | nil => simp
  | cons c t => have := c.utf8Size_pos; simp; omega

/-- Of two fronts of one text the shorter is a front of the longer. -/
theorem exists_of_append_eq_append {s t u v : Text} (h : s ++ t = u ++ v)
    (size : u.bytes ≤ s.bytes) : ∃ x, s = u ++ x ∧ v = x ++ t := by
  rcases List.append_eq_append_iff.1 h with ⟨x, rfl, rfl⟩ | ⟨x, rfl, rfl⟩
  · have none : x = [] := by
      rw [bytes_append] at size
      exact bytes_eq_zero_iff.1 (by omega)
    exact ⟨[], by simp [none], by simp [none]⟩
  · exact ⟨x, rfl, rfl⟩

/-- Two cuts of one text at the same offset are the same cut. -/
theorem append_inj_of_bytes {s t u v : Text} (h : s ++ t = u ++ v) (size : s.bytes = u.bytes) :
    s = u ∧ t = v := by
  obtain ⟨x, rfl, rfl⟩ := exists_of_append_eq_append h (Nat.le_of_eq size.symm)
  have none : x = [] := by
    rw [bytes_append] at size
    exact bytes_eq_zero_iff.1 (by omega)
  simp [none]

theorem isBoundary_zero (t : Text) : t.IsBoundary 0 := ⟨[], t, rfl, rfl⟩

theorem isBoundary_bytes (t : Text) : t.IsBoundary t.bytes := ⟨t, [], by simp, rfl⟩

/-- A boundary behind a front is a boundary of what follows the front. -/
theorem isBoundary_append {s t : Text} {n : Nat} :
    (s ++ t).IsBoundary (s.bytes + n) ↔ t.IsBoundary n := by
  constructor
  · rintro ⟨before, after, split, size⟩
    obtain ⟨x, rfl, rfl⟩ := exists_of_append_eq_append split.symm (by omega)
    rw [bytes_append] at size
    exact ⟨x, after, rfl, by omega⟩
  · rintro ⟨before, after, rfl, rfl⟩
    exact ⟨s ++ before, after, by simp, by simp⟩

theorem splitAtByte?_eq_none_iff {t : Text} {n : Nat} :
    t.splitAtByte? n = none ↔ ¬ t.IsBoundary n := by
  constructor
  · rintro none ⟨before, after, split, size⟩
    rw [splitAtByte?_eq_some_iff.2 ⟨split, size⟩] at none
    cases none
  · intro inside
    cases h : t.splitAtByte? n with
    | none => rfl
    | some cut =>
      obtain ⟨split, size⟩ := splitAtByte?_eq_some_iff.1 h
      exact absurd ⟨_, _, split, size⟩ inside

end Text

namespace Selector

/-- How far the scoping of a list has come: the ledger, the text of the whole list, and the offset
from which the next part is looked for. -/
structure Progress where
  ledger : Ledger
  text : Text
  offset : Nat

/-- The ledger and the cursor after a part was scoped in a text of which the front is finished. -/
def scopedPart (scheme : Scheme) (ledger : Ledger) (done rest part : Text) : Ledger × Cursor :=
  (tokens part).foldl (scopeToken scheme part) (ledger, Cursor.seek done rest part)

/-- One part scoped. -/
def scopePart (scheme : Scheme) (progress : Progress) (part : Text) : Except Fault Progress :=
  match progress.text.splitAtByte? progress.offset with
  | none => .error (.insideCharacter progress.offset)
  | some (done, rest) =>
    let (ledger, cursor) :=
      scopedPart scheme progress.ledger done rest (NamedAttribute.normalise part)
    .ok ⟨ledger, cursor.text, cursor.resume⟩

/-- The scoping of a list before its first part. -/
def Progress.start (list : Text) (ledger : Ledger) : Progress :=
  ⟨ledger, NamedAttribute.normalise list, 0⟩

variable {scheme : Scheme} {progress : Progress} {done rest part : Text}

/-- Scoping parts is scoping one part after the other. -/
theorem scopeFrom_eq_foldlM (parts : List Text) (progress : Progress) :
    scopeFrom scheme parts progress.ledger progress.text progress.offset =
      (parts.foldlM (scopePart scheme) progress).map fun progress =>
        (progress.ledger, progress.text) := by
  induction parts generalizing progress with
  | nil => rfl
  | cons part parts ih =>
    rw [List.foldlM_cons, scopeFrom, scopePart]
    cases progress.text.splitAtByte? progress.offset with
    | none => rfl
    | some cut =>
      obtain ⟨done, rest⟩ := cut
      exact ih ⟨(scopedPart scheme progress.ledger done rest (NamedAttribute.normalise part)).1,
        (scopedPart scheme progress.ledger done rest (NamedAttribute.normalise part)).2.text,
        (scopedPart scheme progress.ledger done rest (NamedAttribute.normalise part)).2.resume⟩

theorem scopeParts_eq_foldlM (list : Text) (parts : List Text) (ledger : Ledger) :
    scopeParts scheme list parts ledger =
      (parts.foldlM (scopePart scheme) (.start list ledger)).map fun progress =>
        (progress.ledger, progress.text) :=
  scopeFrom_eq_foldlM parts (.start list ledger)

theorem scopePart_of_cut (text : progress.text = done ++ rest)
    (offset : done.bytes = progress.offset) :
    scopePart scheme progress part =
      let state := scopedPart scheme progress.ledger done rest (NamedAttribute.normalise part)
      .ok ⟨state.1, state.2.text, state.2.resume⟩ := by
  rw [scopePart, Text.splitAtByte?_eq_some_iff.2 ⟨text, offset⟩]

/-- A part can be scoped exactly if it is looked for from a boundary on. -/
theorem scopePart_isOk_iff :
    (∃ next, scopePart scheme progress part = .ok next) ↔
      progress.text.IsBoundary progress.offset := by
  constructor
  · rintro ⟨next, ok⟩
    by_contra inside
    rw [scopePart, Text.splitAtByte?_eq_none_iff.2 inside] at ok
    cases ok
  · rintro ⟨done, rest, text, offset⟩
    exact ⟨_, scopePart_of_cut text offset⟩

/-- The next part is looked for in the text, not beyond it. -/
theorem offset_le_of_scopePart {next : Progress} (h : scopePart scheme progress part = .ok next) :
    next.offset ≤ next.text.bytes := by
  obtain ⟨done, rest, text, offset⟩ := scopePart_isOk_iff.1 ⟨next, h⟩
  rw [scopePart_of_cut text offset] at h
  cases h
  exact Nat.min_le_right _ _

/-- Scoping a part strands the scoping of the list: the part does not stand in the text that is
left, and measured off from where that text starts it ends inside a character, with all that its
tokens used up of the text ending before that. -/
def Strands (scheme : Scheme) (progress : Progress) (part : Text) : Prop :=
  ∃ done rest used, progress.text = done ++ rest ∧ done.bytes = progress.offset ∧
    Text.breakAt? (NamedAttribute.normalise part) rest = none ∧
    rest = used ++
      (scopedPart scheme progress.ledger done rest (NamedAttribute.normalise part)).2.rest ∧
    used.bytes < (NamedAttribute.normalise part).bytes ∧
    rest.InsideChar (NamedAttribute.normalise part).bytes

theorem passed_scopedPart (scheme : Scheme) (ledger : Ledger) (done rest part : Text) :
    ∃ used, Cursor.Passed (Cursor.seek done rest part)
      (scopedPart scheme ledger done rest part).2 used :=
  passed_foldl_scopeToken scheme part (ledger, Cursor.seek done rest part) (tokens part)

/-- The offset after a part is a boundary exactly if what is ahead of the cursor ends at one. -/
theorem isBoundary_resume_iff (cursor : Cursor) :
    cursor.text.IsBoundary cursor.resume ↔
      cursor.rest.IsBoundary (min cursor.ahead cursor.rest.bytes) := by
  rw [Cursor.resume_eq, Cursor.text, Text.isBoundary_append]

theorem isBoundary_of_found {before after used : Text} {cursor : Cursor}
    (passed : Cursor.Passed ⟨done ++ before, part ++ after, (done ++ before).bytes + part.bytes⟩
      cursor used) : cursor.text.IsBoundary cursor.resume := by
  have ahead : cursor.ahead = part.bytes - used.bytes := by
    rw [passed.ahead, Cursor.ahead, Nat.add_sub_cancel_left]
  rw [isBoundary_resume_iff, ahead]
  rcases Nat.le_total part.bytes used.bytes with beyond | inner
  · rw [Nat.sub_eq_zero_of_le beyond, Nat.zero_min]
    exact Text.isBoundary_zero _
  · obtain ⟨x, rfl, split⟩ := Text.exists_of_append_eq_append passed.rest inner
    rw [split, Text.bytes_append, Nat.add_sub_cancel_left, Text.bytes_append,
      Nat.min_eq_left (Nat.le_add_right _ _)]
    exact ⟨x, after, rfl, rfl⟩

theorem isBoundary_of_not_found {used : Text} {cursor : Cursor}
    (passed : Cursor.Passed ⟨done, rest, done.bytes + part.bytes⟩ cursor used) :
    cursor.text.IsBoundary cursor.resume ↔
      ¬ (used.bytes < part.bytes ∧ rest.InsideChar part.bytes) := by
  have ahead : cursor.ahead = part.bytes - used.bytes := by
    rw [passed.ahead, Cursor.ahead, Nat.add_sub_cancel_left]
  have split : rest = used ++ cursor.rest := passed.rest
  have size : rest.bytes = used.bytes + cursor.rest.bytes := by rw [split, Text.bytes_append]
  rw [isBoundary_resume_iff, ahead]
  rcases Nat.lt_or_ge used.bytes part.bytes with inner | beyond
  · rcases Nat.lt_or_ge part.bytes rest.bytes with short | long
    · rw [Nat.min_eq_left (by omega), ← Text.isBoundary_append (s := used), ← split,
        Nat.add_sub_cancel' (Nat.le_of_lt inner)]
      simp [Text.InsideChar, inner, short]
    · rw [Nat.min_eq_right (by omega)]
      exact iff_of_true (Text.isBoundary_bytes _) fun h => absurd h.2.1 (by omega)
  · rw [Nat.sub_eq_zero_of_le beyond, Nat.zero_min]
    exact iff_of_true (Text.isBoundary_zero _) fun h => absurd h.1 (by omega)

/-- After a part the scoping stands at a boundary again unless the part strands it. -/
theorem isBoundary_scopePart_iff {next : Progress}
    (h : scopePart scheme progress part = .ok next) :
    next.text.IsBoundary next.offset ↔ ¬ Strands scheme progress part := by
  obtain ⟨done, rest, text, offset⟩ := scopePart_isOk_iff.1 ⟨next, h⟩
  rw [scopePart_of_cut text offset] at h
  cases h
  obtain ⟨used, passed⟩ := passed_scopedPart scheme progress.ledger done rest
    (NamedAttribute.normalise part)
  cases found : Text.breakAt? (NamedAttribute.normalise part) rest with
  | some cut =>
    obtain ⟨before, after⟩ := cut
    refine iff_of_true ?_ ?_
    · rw [Cursor.seek, found] at passed
      exact isBoundary_of_found passed
    · rintro ⟨done', rest', _, text', offset', none, _⟩
      obtain ⟨-, rfl⟩ := Text.append_inj_of_bytes (text.symm.trans text') (by omega)
      rw [none] at found
      cases found
  | none =>
    rw [Cursor.seek, found] at passed
    refine (isBoundary_of_not_found passed).trans (not_congr ⟨?_, ?_⟩)
    · rintro ⟨inner, inside⟩
      exact ⟨done, rest, used, text, offset, found, passed.rest, inner, inside⟩
    · rintro ⟨done', rest', used', text', offset', _, split, inner, inside⟩
      obtain ⟨rfl, rfl⟩ := Text.append_inj_of_bytes (text.symm.trans text') (by omega)
      have same : used = used' := List.append_cancel_right (passed.rest.symm.trans split)
      exact ⟨same ▸ inner, inside⟩

/-! ### The parts that a list comes to -/

variable {list : Text} {parts : List Text} {ledger : Ledger}

/-- The scoping of a list comes to a part with other parts to follow. -/
def ComesTo (scheme : Scheme) (list : Text) (parts : List Text) (ledger : Ledger)
    (progress : Progress) (part : Text) (later : List Text) : Prop :=
  ∃ earlier, parts = earlier ++ part :: later ∧
    earlier.foldlM (scopePart scheme) (.start list ledger) = .ok progress

/-- What a list comes to is its first part, or comes after a part that it came to. -/
theorem comesTo_cases {later : List Text}
    (h : ComesTo scheme list parts ledger progress part later) :
    progress = .start list ledger ∨ ∃ previous before,
      ComesTo scheme list parts ledger before previous (part :: later) ∧
        scopePart scheme before previous = .ok progress := by
  obtain ⟨earlier, split, reached⟩ := h
  rcases List.eq_nil_or_concat earlier with rfl | ⟨front, previous, rfl⟩
  · cases reached
    exact .inl rfl
  · rw [List.concat_eq_append] at reached split
    rw [List.foldlM_append] at reached
    cases before : front.foldlM (scopePart scheme) (.start list ledger) with
    | error e => rw [before] at reached; cases reached
    | ok progress' =>
      rw [before] at reached
      refine .inr ⟨previous, progress', ⟨front, by rw [split]; simp, before⟩, ?_⟩
      have step : (scopePart scheme progress' previous >>= fun p => pure p) = .ok progress := reached
      rwa [bind_pure] at step

/-- After a part that can be scoped the list comes to the next. -/
theorem comesTo_next {progress after : Progress} {part next : Text} {later : List Text}
    (h : ComesTo scheme list parts ledger progress part (next :: later))
    (ok : scopePart scheme progress part = .ok after) :
    ComesTo scheme list parts ledger after next later := by
  obtain ⟨earlier, split, reached⟩ := h
  refine ⟨earlier ++ [part], by rw [split]; simp, ?_⟩
  rw [List.foldlM_append, reached]
  show (scopePart scheme progress part >>= fun p => pure p) = .ok after
  rw [bind_pure, ok]

/-- A list has a result exactly if every part it comes to is looked for from a boundary on. -/
theorem scopeParts_isOk_iff :
    (∃ result, scopeParts scheme list parts ledger = .ok result) ↔
      ∀ progress part later, ComesTo scheme list parts ledger progress part later →
        progress.text.IsBoundary progress.offset := by
  rw [scopeParts_eq_foldlM, isOk_map_iff, foldlM_isOk_iff]
  constructor
  · rintro all progress part later ⟨earlier, split, reached⟩
    exact scopePart_isOk_iff.1 (all earlier part later progress split reached)
  · intro all earlier part later progress split reached
    exact scopePart_isOk_iff.2 (all progress part later ⟨earlier, split, reached⟩)

/-- Every part is looked for from a boundary on exactly if no part strands the ones after it. -/
theorem boundaries_iff_not_strands :
    (∀ progress part later, ComesTo scheme list parts ledger progress part later →
        progress.text.IsBoundary progress.offset) ↔
      ∀ progress part next later,
        ComesTo scheme list parts ledger progress part (next :: later) →
          ¬ Strands scheme progress part := by
  constructor
  · intro all progress part next later comes
    obtain ⟨after, ok⟩ := scopePart_isOk_iff.2 (all _ _ _ comes)
    exact (isBoundary_scopePart_iff ok).1 (all _ _ _ (comesTo_next comes ok))
  · intro none progress part later comes
    rcases comesTo_cases comes with rfl | ⟨previous, before, came, ok⟩
    · exact Text.isBoundary_zero _
    · exact (isBoundary_scopePart_iff ok).2 (none _ _ _ _ came)

theorem offset_le_of_comesTo {later : List Text}
    (h : ComesTo scheme list parts ledger progress part later) :
    progress.offset ≤ progress.text.bytes := by
  rcases comesTo_cases h with rfl | ⟨_, _, _, ok⟩
  · exact Nat.zero_le _
  · exact offset_le_of_scopePart ok

end Selector
end ScopedCss
