import Mathlib.Data.List.Basic
import Mathlib.Data.List.TakeDrop
import Mathlib.Data.List.TakeWhile
import ScopedCss.Text.Scan

/-!
# Scanning a text in two goes

A scan may be cut where nothing that is recognised reaches over the cut: the segments of `s ++ t`
are those of `s` and then those of `t` (`scan_append`).  The condition is about `s` alone being read
the same with `t` behind it, at every place of `s`.  Two extremes are used throughout: characters at
which nothing starts (`scan_append_of_plain`), and a text that is recognised as a whole
(`scan_of_read`).

What is recognised in one scan does not overlap (`hit_unique`).
-/
namespace ScopedCss.Recogniser

section Spelling
variable {α : Type} (r : Recogniser α)

@[simp] theorem spellAll_nil : r.spellAll [] = [] := rfl

@[simp] theorem spellAll_cons (segment : Segment α) (segments : List (Segment α)) :
    r.spellAll (segment :: segments) = r.spellSegment segment ++ r.spellAll segments := rfl

@[simp] theorem spellAll_append (s t : List (Segment α)) :
    r.spellAll (s ++ t) = r.spellAll s ++ r.spellAll t := List.flatMap_append

@[simp] theorem spellAll_map_plain (t : Text) : r.spellAll (t.map Segment.plain) = t := by
  induction t with
  | nil => rfl
  | cons c t ih => simpa [spellSegment] using ih

/-- Respelling everything as it is spelled changes nothing. -/
theorem substitute_spell (t : Text) : r.substitute r.spell t = t := r.spellAll_scan t

end Spelling

variable {α : Type} {r : Recogniser α}

/-- Two ways to respell a text are related if a plain character in front keeps the relation, and so do
the two spellings of whatever is recognised. -/
theorem substitute_rel {R : Text → Text → Prop} {f g : α → Text} (nil : R [] [])
    (plain : ∀ c s t, R s t → R (c :: s) (c :: t)) (hit : ∀ a s t, R s t → R (f a ++ s) (g a ++ t))
    (t : Text) : R (r.substitute f t) (r.substitute g t) := by
  rw [substitute, substitute]
  induction r.scan t with
  | nil => exact nil
  | cons segment segments ih =>
    cases segment with
    | hit a => exact hit a _ _ ih
    | plain c => exact plain c _ _ ih

theorem scan_cons (c : Char) (t : Text) :
    (∃ a rest, r.read (c :: t) = some a ∧ c :: t = r.spell a ++ rest ∧
      rest.length < (c :: t).length ∧ r.scan (c :: t) = .hit a :: r.scan rest) ∨
    (r.read (c :: t) = none ∧ r.scan (c :: t) = .plain c :: r.scan t) := by
  cases h : r.read (c :: t) with
  | none => exact .inr ⟨rfl, scan_of_not_read h⟩
  | some a =>
    obtain ⟨rest, split⟩ := r.spell_front h
    refine .inl ⟨a, rest, rfl, split.symm, ?_, ?_⟩
    · have pos := List.length_pos_iff.2 (r.spell_ne_nil h)
      rw [← split, List.length_append]
      omega
    · rw [scan_of_read h, ← split, List.drop_left]

/-- The segments of a text that starts with something recognised. -/
theorem scan_spell_append {a : α} {t : Text} (h : r.read (r.spell a ++ t) = some a) :
    r.scan (r.spell a ++ t) = .hit a :: r.scan t := by
  rw [scan_of_read h, List.drop_left]

/-- A text is scanned by itself if nothing behind it changes what is read in it. -/
theorem scan_append {s t : Text}
    (alone : ∀ u, u <:+ s → u ≠ [] → r.read (u ++ t) = r.read u) :
    r.scan (s ++ t) = r.scan s ++ r.scan t := by
  induction size : s.length using Nat.strongRecOn generalizing s with
  | ind n ih =>
    subst size
    cases s with
    | nil => rfl
    | cons c s =>
      have front := alone (c :: s) List.suffix_rfl (by simp)
      rcases scan_cons (r := r) c s with ⟨a, rest, read, split, shorter, scan⟩ | ⟨read, scan⟩
      · have inside : rest <:+ c :: s := ⟨r.spell a, split.symm⟩
        have later := ih _ shorter (fun u mem => alone u (mem.trans inside)) rfl
        have here : r.read (r.spell a ++ (rest ++ t)) = some a := by
          rw [← List.append_assoc, ← split]
          exact front.trans read
        rw [scan, split, List.append_assoc, scan_spell_append here, later, List.cons_append]
      · rw [read] at front
        rw [scan, List.cons_append, List.cons_append,
          ← ih s.length (by simp) (fun u mem => alone u (mem.trans (List.suffix_cons c s))) rfl]
        exact scan_of_not_read front

/-- Characters at which nothing is recognised are plain. -/
theorem scan_append_of_plain {s : Text} (plain : ∀ c ∈ s, ∀ t, r.read (c :: t) = none) (t : Text) :
    r.scan (s ++ t) = s.map Segment.plain ++ r.scan t := by
  induction s with
  | nil => rfl
  | cons c s ih =>
    rw [List.cons_append, scan_of_not_read (plain c List.mem_cons_self _),
      ih fun d mem => plain d (List.mem_cons_of_mem c mem)]
    rfl

/-- What a scan recognises stands somewhere in the text. -/
theorem exists_read_of_mem_scan {a : α} {t : Text} (mem : .hit a ∈ r.scan t) :
    ∃ u, u <:+ t ∧ r.read u = some a := by
  induction size : t.length using Nat.strongRecOn generalizing t with
  | ind n ih =>
    subst size
    cases t with
    | nil => cases mem
    | cons c t =>
      rcases scan_cons (r := r) c t with ⟨b, rest, read, split, shorter, scan⟩ | ⟨read, scan⟩
      · rw [scan] at mem
        rcases List.mem_cons.1 mem with same | later
        · cases same
          exact ⟨c :: t, List.suffix_rfl, read⟩
        · obtain ⟨u, inside, found⟩ := ih _ shorter later rfl
          exact ⟨u, inside.trans ⟨r.spell b, split.symm⟩, found⟩
      · rw [scan] at mem
        have later : .hit a ∈ r.scan t := by simpa using mem
        obtain ⟨u, inside, found⟩ := ih t.length (by simp) later rfl
        exact ⟨u, inside.trans (List.suffix_cons c t), found⟩

/-- What the last segments of a scan spell is scanned as these segments. -/
theorem scan_spellAll {t : Text} {before after : List (Segment α)} (h : r.scan t = before ++ after) :
    r.scan (r.spellAll after) = after := by
  induction before generalizing t with
  | nil => rw [← show r.scan t = after from h, spellAll_scan]
  | cons segment before ih =>
    cases t with
    | nil => cases h
    | cons c t =>
      rcases scan_cons (r := r) c t with ⟨a, rest, -, -, -, scan⟩ | ⟨-, scan⟩
      · exact ih (List.cons.inj (scan.symm.trans h)).2
      · exact ih (List.cons.inj (scan.symm.trans h)).2

/-- At a plain character nothing is recognised. -/
theorem exists_not_read_of_mem_scan {c : Char} {t : Text} (mem : .plain c ∈ r.scan t) :
    ∃ u, r.read (c :: u) = none := by
  obtain ⟨before, after, split⟩ := List.append_of_mem mem
  have again : r.scan (c :: r.spellAll after) = .plain c :: after := scan_spellAll split
  rcases scan_cons (r := r) c (r.spellAll after) with ⟨a, rest, -, -, -, scan⟩ | ⟨unread, -⟩
  · cases scan.symm.trans again
  · exact ⟨_, unread⟩

/-- Only no segments of a scan have no characters. -/
theorem spellAll_eq_nil_iff {s : List (Segment α)} {t : Text} (scanned : s ⊆ r.scan t) :
    r.spellAll s = [] ↔ s = [] := by
  cases s with
  | nil => simp [spellAll]
  | cons segment s =>
    refine iff_of_false (fun none => ?_) (by simp)
    have blank : r.spellSegment segment = [] := (List.append_eq_nil_iff.1 none).1
    cases segment with
    | plain c => cases blank
    | hit a =>
      obtain ⟨u, -, read⟩ := exists_read_of_mem_scan (scanned List.mem_cons_self)
      exact r.spell_ne_nil read blank

/-- Of two things recognised in one scan, one stands before the other, or they are the same. -/
theorem hit_trichotomy {before after before' after' : List (Segment α)} {a a' : α}
    (same : before ++ .hit a :: after = before' ++ .hit a' :: after') :
    (∃ mid, before' = before ++ .hit a :: mid ∧ after = mid ++ .hit a' :: after') ∨
      (before = before' ∧ a = a' ∧ after = after') ∨
      ∃ mid, before = before' ++ .hit a' :: mid ∧ after' = mid ++ .hit a :: after := by
  rcases List.append_eq_append_iff.1 same with ⟨mid, split, rest⟩ | ⟨mid, split, rest⟩
  · cases mid with
    | nil =>
      obtain ⟨hit, rfl⟩ := List.cons.inj rest
      exact .inr (.inl ⟨by simpa using split.symm, Segment.hit.inj hit, rfl⟩)
    | cons segment mid =>
      obtain ⟨rfl, later⟩ := List.cons.inj rest
      exact .inl ⟨mid, split, later⟩
  · cases mid with
    | nil =>
      obtain ⟨hit, rfl⟩ := List.cons.inj rest
      exact .inr (.inl ⟨by simpa using split, (Segment.hit.inj hit).symm, rfl⟩)
    | cons segment mid =>
      obtain ⟨rfl, later⟩ := List.cons.inj rest
      exact .inr (.inr ⟨mid, split, later⟩)

theorem length_spellAll_append_hit (before mid : List (Segment α)) (a : α) :
    (r.spellAll (before ++ .hit a :: mid)).length =
      (r.spellAll before).length + (r.spell a).length + (r.spellAll mid).length := by
  rw [spellAll_append, spellAll_cons, List.length_append, List.length_append, Nat.add_assoc]
  rfl

/-- Two things recognised in one scan that overlap are the same. -/
theorem hit_unique {before after before' after' : List (Segment α)} {a a' : α}
    (same : before ++ .hit a :: after = before' ++ .hit a' :: after')
    (left : (r.spellAll before).length < (r.spellAll before').length + (r.spell a').length)
    (right : (r.spellAll before').length < (r.spellAll before).length + (r.spell a).length) :
    before = before' ∧ a = a' ∧ after = after' := by
  rcases hit_trichotomy same with ⟨mid, rfl, -⟩ | same | ⟨mid, rfl, -⟩
  · rw [length_spellAll_append_hit] at right
    omega
  · exact same
  · rw [length_spellAll_append_hit] at left
    omega

/-- Something recognised in a scan that starts behind something else recognised there follows it. -/
theorem hit_behind {before after before' after' : List (Segment α)} {a a' : α}
    (same : before ++ .hit a :: after = before' ++ .hit a' :: after')
    (behind : (r.spellAll before).length + (r.spell a).length <
      (r.spellAll before').length + (r.spell a').length) :
    ∃ mid, before' = before ++ .hit a :: mid ∧ after = mid ++ .hit a' :: after' := by
  rcases hit_trichotomy same with later | ⟨rfl, rfl, -⟩ | ⟨mid, rfl, -⟩
  · exact later
  · omega
  · rw [length_spellAll_append_hit] at behind
    omega

variable {respell : α → Text}

theorem substitute_append {s t : Text}
    (alone : ∀ u, u <:+ s → u ≠ [] → r.read (u ++ t) = r.read u) :
    r.substitute respell (s ++ t) = r.substitute respell s ++ r.substitute respell t := by
  rw [substitute, scan_append alone, List.flatMap_append]
  rfl

theorem substitute_append_of_plain {s : Text} (plain : ∀ c ∈ s, ∀ t, r.read (c :: t) = none)
    (t : Text) : r.substitute respell (s ++ t) = s ++ r.substitute respell t := by
  rw [substitute, scan_append_of_plain plain, List.flatMap_append]
  refine congrArg (· ++ r.substitute respell t) ?_
  rw [List.flatMap_map]
  exact List.flatMap_singleton' s

theorem substitute_spell_append {a : α} {t : Text} (h : r.read (r.spell a ++ t) = some a) :
    r.substitute respell (r.spell a ++ t) = respell a ++ r.substitute respell t := by
  rw [substitute, scan_spell_append h]
  rfl

theorem substitute_of_not_read {c : Char} {t : Text} (h : r.read (c :: t) = none) :
    r.substitute respell (c :: t) = c :: r.substitute respell t := by
  rw [substitute, scan_of_not_read h]
  rfl

end ScopedCss.Recogniser

namespace ScopedCss.Segment
variable {α : Type}

/-- Segments are plain, or plain up to the first thing recognised. -/
theorem exists_first (segments : List (Segment α)) :
    (∃ u : Text, segments = u.map .plain) ∨
      ∃ (u : Text) (a : α) (rest : List (Segment α)), segments = u.map .plain ++ .hit a :: rest := by
  induction segments with
  | nil => exact .inl ⟨[], rfl⟩
  | cons segment segments ih =>
    cases segment with
    | hit a => exact .inr ⟨[], a, segments, rfl⟩
    | plain c =>
      rcases ih with ⟨u, rfl⟩ | ⟨u, a, rest, rfl⟩
      · exact .inl ⟨c :: u, rfl⟩
      · exact .inr ⟨c :: u, a, rest, rfl⟩

theorem runs_map_plain_append (u : Text) (segments : List (Segment α)) :
    runs (u.map .plain ++ segments) = (u ++ (runs segments).1, (runs segments).2) := by
  induction u with
  | nil => rfl
  | cons c u ih =>
    rw [List.map_cons, List.cons_append, runs, ih]
    rfl

end ScopedCss.Segment

namespace ScopedCss.Recogniser
variable {α : Type} {r : Recogniser α} {t u : Text}

theorem isNone_of_mem_map_plain (u : Text) :
    ∀ segment ∈ u.map (Segment.plain (α := α)), segment.hit?.isNone := by
  intro segment mem
  obtain ⟨c, -, rfl⟩ := List.mem_map.1 mem
  rfl

theorem first?_of_plain (scanned : r.scan t = u.map .plain) : r.first? t = none := by
  rw [first?, scanned, List.span_eq_takeWhile_dropWhile,
    List.dropWhile_eq_nil_iff.2 (isNone_of_mem_map_plain u)]

theorem first?_of_hit {a : α} {rest : List (Segment α)} (scanned : r.scan t = u.map .plain ++ .hit a :: rest) :
    r.first? t = some (u, a, r.spellAll rest) := by
  rw [first?, scanned, List.span_eq_takeWhile_dropWhile,
    List.takeWhile_append_of_pos (isNone_of_mem_map_plain u),
    List.dropWhile_append_of_pos (isNone_of_mem_map_plain u)]
  simp [Segment.hit?]

/-- What is recognised first stands in the text. -/
theorem append_of_first? {before after : Text} {a : α} (found : r.first? t = some (before, a, after)) :
    t = before ++ (r.spell a ++ after) ∧ r.spell a ≠ [] := by
  rcases Segment.exists_first (r.scan t) with ⟨u, scanned⟩ | ⟨u, b, rest, scanned⟩
  · rw [first?_of_plain scanned] at found
    cases found
  · rw [first?_of_hit scanned] at found
    cases found
    obtain ⟨v, -, read⟩ := exists_read_of_mem_scan (r := r) (t := t) (a := a) (by rw [scanned]; simp)
    have whole := r.spellAll_scan t
    rw [scanned, spellAll_append, spellAll_map_plain, spellAll_cons] at whole
    exact ⟨whole.symm, r.spell_ne_nil read⟩

end ScopedCss.Recogniser
