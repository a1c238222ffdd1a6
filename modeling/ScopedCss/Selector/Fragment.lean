import ScopedCss.Mark
import ScopedCss.Selector.Token
import ScopedCss.Text.Bytes
import ScopedCss.Text.Search
import ScopedCss.Text.WordChar

/-!
# Fragments of a selector

Between combinators and other separators a selector consists of fragments: the mark of a comment,
anything in brackets, a class or id, a pseudo-class or pseudo-element, a word, or `*`.  A fragment
is as long as its form allows.

The functions `:nth-…()`, `:lang()` and `:dir()` take no selectors, so that their argument belongs
to the fragment.  Other functions end before their parenthesis, and their arguments are fragments of
their own.
-/
namespace ScopedCss.Fragment

/-- The run of characters with a property at the front, unless it is empty. -/
def readRun (p : Char → Bool) (t : Text) : Option Text :=
  match t.takeWhile p with
  | [] => none
  | run => some run

/-- Whether a pseudo-class takes an argument that holds no selectors. -/
def takesPlainArgument (name : Text) : Bool :=
  name = "lang".toList || name = "dir".toList ||
    ("nth-".toList.isPrefixOf name && "nth-".toList.length < name.length)

/-- Reads, after the colon, a pseudo-class with an argument that holds no selectors. -/
def readFunction (t : Text) : Option Text :=
  let name := t.takeWhile Text.isIdentChar
  match t.dropWhile Text.isIdentChar with
  | '(' :: rest =>
    if takesPlainArgument name ∧ ')' ∈ rest then
      some (name ++ '(' :: rest.takeWhile (· != ')') ++ [')'])
    else none
  | _ => none

/-- Reads, after the colon, the name of a pseudo-class, or a second colon and the name of a
pseudo-element. -/
def readPseudo : Text → Option Text
  | ':' :: t => (readRun Text.isIdentChar t).map (':' :: ·)
  | t => readRun Text.isIdentChar t

/-- Reads the fragment at the front of a text. -/
def read : Text → Option Text
  | '%' :: t => if Mark.comment.isPrefixOf ('%' :: t) then some Mark.comment else none
  | '[' :: t => if ']' ∈ t then some ('[' :: t.takeWhile (· != ']') ++ [']']) else none
  | '.' :: t => (readRun Text.isIdentChar t).map ('.' :: ·)
  | '#' :: t => (readRun Text.isIdentChar t).map ('#' :: ·)
  | ':' :: t => ((readFunction t).or (readPseudo t)).map (':' :: ·)
  | '*' :: _ => some ['*']
  | t => readRun Text.isWordChar t

theorem front_of_readRun {p : Char → Bool} {t run : Text} (h : readRun p t = some run) :
    run <+: t ∧ run ≠ [] := by
  unfold readRun at h
  split at h
  next => cases h
  next nonempty =>
    cases h
    exact ⟨⟨t.dropWhile p, List.takeWhile_append_dropWhile⟩, nonempty⟩

/-- What stands before the first occurrence of a character, with the character, is a front. -/
theorem takeWhile_ne_append_front {c : Char} {t : Text} (h : c ∈ t) :
    t.takeWhile (· != c) ++ [c] <+: t := by
  induction t with
  | nil => cases h
  | cons d t ih =>
    by_cases same : d = c
    · subst same
      exact ⟨t, by simp⟩
    · have later : c ∈ t := by simpa [show c ≠ d from fun e => same e.symm] using h
      obtain ⟨rest, split⟩ := ih later
      exact ⟨rest, by simpa [same] using split⟩

theorem front_of_readFunction {t f : Text} (h : readFunction t = some f) : f <+: t := by
  have whole : t.takeWhile Text.isIdentChar ++ t.dropWhile Text.isIdentChar = t :=
    List.takeWhile_append_dropWhile
  unfold readFunction at h
  simp only at h
  split at h
  next rest opens =>
    split at h
    next closed =>
      cases h
      obtain ⟨after, split⟩ := takeWhile_ne_append_front closed.2
      refine ⟨after, ?_⟩
      conv => rhs; rw [← whole, opens, ← split]
      simp
    next => cases h
  next => cases h

theorem front_of_readPseudo {t f : Text} (h : readPseudo t = some f) : f <+: t := by
  unfold readPseudo at h
  split at h
  next =>
    obtain ⟨run, found, rfl⟩ := Option.map_eq_some_iff.1 h
    exact List.cons_prefix_cons.2 ⟨rfl, (front_of_readRun found).1⟩
  next => exact (front_of_readRun h).1

theorem front_of_read {t f : Text} (h : read t = some f) : f <+: t ∧ f ≠ [] := by
  unfold read at h
  split at h
  next t =>
    split at h
    next front =>
      cases h
      exact ⟨List.isPrefixOf_iff_prefix.1 front, by decide⟩
    next => cases h
  next t =>
    split at h
    next closed =>
      cases h
      exact ⟨List.cons_prefix_cons.2 ⟨rfl, takeWhile_ne_append_front closed⟩, by simp⟩
    next => cases h
  next t =>
    obtain ⟨run, found, rfl⟩ := Option.map_eq_some_iff.1 h
    exact ⟨List.cons_prefix_cons.2 ⟨rfl, (front_of_readRun found).1⟩, by simp⟩
  next t =>
    obtain ⟨run, found, rfl⟩ := Option.map_eq_some_iff.1 h
    exact ⟨List.cons_prefix_cons.2 ⟨rfl, (front_of_readRun found).1⟩, by simp⟩
  next t =>
    obtain ⟨f, found, rfl⟩ := Option.map_eq_some_iff.1 h
    refine ⟨List.cons_prefix_cons.2 ⟨rfl, ?_⟩, by simp⟩
    rcases Option.or_eq_some_iff.1 found with function | ⟨_, pseudo⟩
    · exact front_of_readFunction function
    · exact front_of_readPseudo pseudo
  next t =>
    cases h
    exact ⟨⟨t, rfl⟩, by simp⟩
  next => exact front_of_readRun h

/-- Recognises fragments, each as its text. -/
def recogniser : Recogniser Text where
  read := read
  spell := id
  spell_front h := (front_of_read h).1
  spell_ne_nil h := (front_of_read h).2

/-- A fragment with the offset at which it stands in a text, in bytes. -/
structure Match where
  start : Nat
  text : Text
deriving DecidableEq

/-- The offset behind the fragment. -/
def Match.stop (m : Match) : Nat := m.start + m.text.bytes

/-- The first fragment of a text at an offset or behind it. -/
def next? (t : Text) (offset : Nat) : Option Match := do
  let (_, rest) ← t.splitAtByte? offset
  let (before, text, _) ← recogniser.first? rest
  return { start := offset + before.bytes, text }

/-- Whether a fragment is never scoped: the mark of a comment, anything in brackets, a number. -/
def isSkipped (f : Text) : Bool :=
  f = Mark.comment || f.head? = some '[' || f.head?.any Char.isDigit

/-- The tokens of a text that holds no attribute selector on classes or ids. -/
def tokens (t : Text) : List Token :=
  (((recogniser.scan t).filterMap Segment.hit?).filter fun f => !isSkipped f).map Token.ofText

end ScopedCss.Fragment
