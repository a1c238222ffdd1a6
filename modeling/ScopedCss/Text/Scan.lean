import ScopedCss.Text.Basic

/-!
# Scanning a text for what is recognised

Most rules of the library have one shape: go through a text from left to right, recognise something
at some places, and keep every other character.  A `Recogniser` says what can stand at the front of
a text and how it is spelled; `scan` cuts a text into what was recognised and the plain characters
between.

* Two recognised things never overlap, and a place is tried only if nothing recognised covers it:
  `scan_of_read`, `scan_of_not_read`.
* Nothing is lost: spelling the segments out gives the text back (`spellAll_scan`).
-/
namespace ScopedCss

/-- What can be recognised at the front of a text.  The spelling of what is recognised is never
empty and stands at the front of the text it was read from. -/
structure Recogniser (α : Type) where
  /-- What stands at the front of the text, if it is recognised. -/
  read : Text → Option α
  /-- The characters something recognised consists of. -/
  spell : α → Text
  spell_front : ∀ {t a}, read t = some a → spell a <+: t
  spell_ne_nil : ∀ {t a}, read t = some a → spell a ≠ []

/-- A segment of a scanned text is something recognised or one plain character. -/
inductive Segment (α : Type) where
  | hit (a : α)
  | plain (c : Char)
deriving DecidableEq

namespace Segment

/-- What is recognised in the segment. -/
def hit? {α : Type} : Segment α → Option α
  | hit a => some a
  | plain _ => none

/-- Segments as the plain text before the first thing recognised, and each thing recognised with the
plain text after it. -/
def runs {α : Type} : List (Segment α) → Text × List (α × Text)
  | [] => ([], [])
  | plain c :: segments =>
    let (first, rest) := runs segments
    (c :: first, rest)
  | hit a :: segments =>
    let (first, rest) := runs segments
    ([], (a, first) :: rest)

end Segment

namespace Recogniser
variable {α : Type} (r : Recogniser α)

/-- The characters of a segment. -/
def spellSegment : Segment α → Text
  | .hit a => r.spell a
  | .plain c => [c]

/-- The characters of segments in a row. -/
def spellAll (segments : List (Segment α)) : Text :=
  segments.flatMap r.spellSegment

/-- The segments of a text, of which the first characters to be skipped belong to something already
recognised. -/
def scanFrom : Nat → Text → List (Segment α)
  | _, [] => []
  | skip + 1, _ :: t => scanFrom skip t
  | 0, c :: t =>
    match r.read (c :: t) with
    | some a => .hit a :: scanFrom ((r.spell a).length - 1) t
    | none => .plain c :: scanFrom 0 t

/-- The segments of a text. -/
def scan (t : Text) : List (Segment α) := r.scanFrom 0 t

/-- The text with everything recognised in it respelled. -/
def substitute (respell : α → Text) (t : Text) : Text :=
  (r.scan t).flatMap fun
    | .hit a => respell a
    | .plain c => [c]

/-- The first thing recognised in the text, with the text before and after it. -/
def first? (t : Text) : Option (Text × α × Text) :=
  match (r.scan t).span fun s => s.hit?.isNone with
  | (before, .hit a :: after) => some (r.spellAll before, a, r.spellAll after)
  | _ => none

theorem scanFrom_eq_scan_drop (skip : Nat) (t : Text) :
    r.scanFrom skip t = r.scan (t.drop skip) := by
  induction t generalizing skip with
  | nil => cases skip <;> simp [scan, scanFrom]
  | cons c t ih =>
    cases skip with
    | zero => rfl
    | succ skip => simp [scanFrom, ih]

@[simp] theorem scan_nil : r.scan [] = [] := rfl

variable {r} in
/-- What is recognised at the front is a segment, and the scan goes on after it. -/
theorem scan_of_read {t : Text} {a : α} (h : r.read t = some a) :
    r.scan t = .hit a :: r.scan (t.drop (r.spell a).length) := by
  cases t with
  | nil => exact absurd (List.prefix_nil.1 (r.spell_front h)) (r.spell_ne_nil h)
  | cons c t =>
    obtain ⟨n, len⟩ : ∃ n, (r.spell a).length = n + 1 :=
      Nat.exists_eq_succ_of_ne_zero (by simpa using r.spell_ne_nil h)
    rw [scan, scanFrom, h]
    simp [scanFrom_eq_scan_drop, len]

variable {r} in
/-- Where nothing is recognised the first character is plain, and the scan goes on after it. -/
theorem scan_of_not_read {c : Char} {t : Text} (h : r.read (c :: t) = none) :
    r.scan (c :: t) = .plain c :: r.scan t := by
  rw [scan, scanFrom, h]
  rfl

/-- A scan loses nothing. -/
theorem spellAll_scan (t : Text) : r.spellAll (r.scan t) = t := by
  induction h : t.length using Nat.strongRecOn generalizing t with
  | ind n ih =>
    subst h
    cases t with
    | nil => rfl
    | cons c t =>
      match h : r.read (c :: t) with
      | none =>
        rw [scan_of_not_read h]
        simpa [spellAll, spellSegment] using ih t.length (by simp) t rfl
      | some a =>
        rw [scan_of_read h]
        obtain ⟨rest, split⟩ := r.spell_front h
        have pos := List.length_pos_iff.2 (r.spell_ne_nil h)
        have len : (r.spell a).length + rest.length = (c :: t).length := by
          rw [← split, List.length_append]
        have go := ih rest.length (by omega) rest rfl
        rw [← split, List.drop_left]
        simpa [spellAll, spellSegment] using go

end Recogniser

/-- The recogniser of one nonempty word. -/
def Recogniser.word (w : Text) (nonempty : w ≠ []) : Recogniser Unit where
  read t := if w.isPrefixOf t then some () else none
  spell _ := w
  spell_front h := by
    split at h
    next front => exact List.isPrefixOf_iff_prefix.1 front
    next => cases h
  spell_ne_nil _ := nonempty

/-- The text with every occurrence of a pattern replaced, from left to right.  The empty pattern
stands before every character and at the end. -/
def Text.replaceAll (pattern replacement t : Text) : Text :=
  if nonempty : pattern ≠ [] then
    (Recogniser.word pattern nonempty).substitute (fun _ => replacement) t
  else
    replacement ++ t.flatMap fun c => c :: replacement

end ScopedCss
