import Mathlib.Data.List.TakeDrop
import Mathlib.Data.List.TakeWhile
import ScopedCss.CommaList
import ScopedCss.Proofs.Text.Occurrences
import ScopedCss.Proofs.Text.Scanning
import ScopedCss.Selector.Attribute

/-!
# The pieces of a selector list

A selector list is cut at its separating commas, its pieces are trimmed, and the spelling of its
attribute selectors is normalised first.  None of this disturbs the rest of it: the pieces with commas
between them are the list, and a piece of the normalised list is the normalised piece
(`split_normalise`), because no attribute selector that is respelled reaches over a comma or over
the spaces at the end of a piece (`readExactClass_append`).

A piece starts, after its spaces, neither with a space nor with a comma.  So in front of the piece
there is no place where the piece could begin too early, and a search for it stops where it stands
(`Text.breakAt?_of_head`).
-/
namespace ScopedCss

namespace Text

theorem trimStart_eq_nil_iff {t : Text} : trimStart t = [] ↔ ∀ c ∈ t, isSpace c :=
  List.dropWhile_eq_nil_iff

/-- A text is what stands before its trimmed middle, the middle, and what stands after it. -/
theorem trim_append (t : Text) : leading t ++ (trim t ++ trailing (trimStart t)) = t := by
  rw [trim, trimEnd_append, trimStart_append]

theorem leading_spaces (t : Text) : ∀ c ∈ leading t, isSpace c :=
  fun _ mem => List.mem_takeWhile_imp mem

theorem trailing_spaces (t : Text) : ∀ c ∈ trailing t, isSpace c :=
  fun _ mem => List.mem_takeWhile_imp (List.mem_reverse.1 mem)

theorem trimStart_append_of_spaces {s : Text} (spaces : ∀ c ∈ s, isSpace c) (t : Text) :
    trimStart (s ++ t) = trimStart t := List.dropWhile_append_of_pos spaces

theorem leading_append_of_spaces {s : Text} (spaces : ∀ c ∈ s, isSpace c) (t : Text) :
    leading (s ++ t) = s ++ leading t := List.takeWhile_append_of_pos spaces

theorem trimStart_cons_of_not_space {c : Char} (h : isSpace c = false) (t : Text) :
    trimStart (c :: t) = c :: t := by simp [trimStart, h]

theorem leading_cons_of_not_space {c : Char} (h : isSpace c = false) (t : Text) :
    leading (c :: t) = [] := by simp [leading, h]

/-- Every text is spaces alone, or spaces before a first character that is no space. -/
theorem spaces_cases (t : Text) :
    (∀ c ∈ t, isSpace c) ∨
      ∃ s c u, t = s ++ c :: u ∧ (∀ c ∈ s, isSpace c) ∧ isSpace c = false := by
  cases h : trimStart t with
  | nil => exact .inl (trimStart_eq_nil_iff.1 h)
  | cons c u =>
    refine .inr ⟨leading t, c, u, ?_, leading_spaces t, ?_⟩
    · rw [← h, trimStart_append]
    · have := List.head_dropWhile_not isSpace (l := t) (by rw [trimStart] at h; simp [h])
      simpa [← trimStart.eq_def, h] using this

/-- Unless a text is blank, what stands behind it changes neither its spaces nor that anything follows
them. -/
theorem trimStart_append_cases (t rest : Text) :
    (trimStart t = [] ∧ trimStart (t ++ rest) = trimStart rest) ∨
      ∃ c u, trimStart t = c :: u ∧ trimStart (t ++ rest) = c :: u ++ rest ∧
        leading (t ++ rest) = leading t := by
  rcases spaces_cases t with spaces | ⟨s, c, u, rfl, spaces, solid⟩
  · exact .inl ⟨trimStart_eq_nil_iff.2 spaces, trimStart_append_of_spaces spaces rest⟩
  · refine .inr ⟨c, u, ?_, ?_, ?_⟩
    · rw [trimStart_append_of_spaces spaces, trimStart_cons_of_not_space solid]
    · rw [List.append_assoc, List.cons_append, trimStart_append_of_spaces spaces,
        trimStart_cons_of_not_space solid]
    · rw [List.append_assoc, List.cons_append, leading_append_of_spaces spaces,
        leading_append_of_spaces spaces, leading_cons_of_not_space solid,
        leading_cons_of_not_space solid]

/-- What is trimmed does not start with a space. -/
theorem head_trim_not_space {t u : Text} {c : Char} (h : trim t = c :: u) : isSpace c = false := by
  rcases spaces_cases t with spaces | ⟨s, d, v, rfl, spaces, solid⟩
  · rw [trim, trimStart_eq_nil_iff.2 spaces] at h
    cases h
  · rw [trim, trimStart_append_of_spaces spaces, trimStart_cons_of_not_space solid] at h
    have whole := trimEnd_append (d :: v)
    rw [h, List.cons_append] at whole
    rw [(List.cons.inj whole).1]
    exact solid

/-- Whether a text has a pattern in front does not depend on what follows the text, if what follows
starts with no character of the pattern. -/
theorem isPrefixOf?_append {p rest : Text} (foreign : ∀ c ∈ rest.head?, c ∉ p) (t : Text) :
    p.isPrefixOf? (t ++ rest) = (p.isPrefixOf? t).map (· ++ rest) := by
  induction p generalizing t with
  | nil => rfl
  | cons c p ih =>
    have later : ∀ d ∈ rest.head?, d ∉ p := fun d mem h => foreign d mem (List.mem_cons_of_mem c h)
    cases t with
    | nil =>
      cases rest with
      | nil => rfl
      | cons d rest =>
        have other : c ≠ d := fun h => foreign d rfl (h ▸ List.mem_cons_self)
        simp [List.isPrefixOf?, other]
    | cons d t =>
      rw [List.cons_append, List.isPrefixOf?, List.isPrefixOf?, ih later]
      split <;> rfl

end Text

namespace CommaList

theorem splitFrom_cons (n : Int) (c : Char) (t : Text) :
    splitFrom n (c :: t) =
      if c = ',' ∧ n = 0 then ([], (splitFrom (level n c) t).1 :: (splitFrom (level n c) t).2)
      else (c :: (splitFrom (level n c) t).1, (splitFrom (level n c) t).2) := rfl

/-- A text starts with its first piece, and each piece after it follows a comma. -/
theorem splitFrom_append (n : Int) (t : Text) :
    (splitFrom n t).1 ++ (splitFrom n t).2.flatMap (',' :: ·) = t := by
  induction t generalizing n with
  | nil => rfl
  | cons c t ih =>
    have rest := ih (level n c)
    rw [splitFrom_cons]
    split
    next comma =>
      rw [comma.1] at rest ⊢
      exact congrArg (',' :: ·) rest
    next => exact congrArg (c :: ·) rest

/-- Joined pieces are the first piece and every other piece behind a comma. -/
theorem join_cons (piece : Text) (pieces : List Text) :
    join (piece :: pieces) = piece ++ pieces.flatMap (',' :: ·) := by
  induction pieces generalizing piece with
  | nil => simp [join, Text.joinWith]
  | cons next pieces ih =>
    rw [join, Text.joinWith_cons_cons, ← join, ih, List.flatMap_cons]
    rfl

theorem join_split (t : Text) : join (split t) = t :=
  (join_cons _ _).trans (splitFrom_append 0 t)

/-- Characters that are no commas and no parentheses belong to the first piece. -/
theorem splitFrom_append_of_inert {s : Text} (inert : ∀ c ∈ s, c ≠ ',' ∧ c ≠ '(' ∧ c ≠ ')')
    (n : Int) (t : Text) :
    splitFrom n (s ++ t) = (s ++ (splitFrom n t).1, (splitFrom n t).2) := by
  induction s with
  | nil => rfl
  | cons c s ih =>
    obtain ⟨comma, opens, closes⟩ := inert c List.mem_cons_self
    have same : level n c = n := by simp [level, opens, closes]
    rw [List.cons_append, splitFrom_cons, same, ih fun d mem => inert d (List.mem_cons_of_mem c mem)]
    simp [comma]

/-- A piece does not start with a comma, nor does it after spaces. -/
theorem trimStart_piece (n : Int) (t : Text) :
    (n = 0 → ∀ u, Text.trimStart (splitFrom n t).1 ≠ ',' :: u) ∧
      ∀ piece ∈ (splitFrom n t).2, ∀ u, Text.trimStart piece ≠ ',' :: u := by
  induction t generalizing n with
  | nil => simp [splitFrom, Text.trimStart]
  | cons c t ih =>
    obtain ⟨first, later⟩ := ih (level n c)
    rw [splitFrom_cons]
    split
    next comma =>
      have zero : level n c = 0 := by simp [level, comma.1, comma.2]
      refine ⟨fun _ u => by simp [Text.trimStart], ?_⟩
      intro piece mem
      rcases List.mem_cons.1 mem with rfl | mem
      · exact first zero
      · exact later piece mem
    next inside =>
      refine ⟨?_, later⟩
      rintro rfl u h
      cases space : Text.isSpace c with
      | true =>
        have zero : level 0 c = 0 := by
          have opens : c ≠ '(' := by rintro rfl; cases space
          have closes : c ≠ ')' := by rintro rfl; cases space
          simp [level, opens, closes]
        refine first zero u ?_
        simpa [Text.trimStart, space] using h
      | false =>
        rw [Text.trimStart_cons_of_not_space space] at h
        cases h
        exact inside ⟨rfl, rfl⟩

/-- What may follow a piece: spaces, and then a comma or the end. -/
def EndsPiece (t : Text) : Prop := Text.trimStart t = [] ∨ ∃ u, Text.trimStart t = ',' :: u

theorem endsPiece_append {s t : Text} (spaces : ∀ c ∈ s, Text.isSpace c) (h : EndsPiece t) :
    EndsPiece (s ++ t) := by
  rwa [EndsPiece, Text.trimStart_append_of_spaces spaces]

theorem endsPiece_nil : EndsPiece [] := .inl rfl

theorem endsPiece_cons (t : Text) : EndsPiece (',' :: t) := .inr ⟨t, rfl⟩

/-- What may follow a piece starts with a space or with a comma. -/
theorem head_of_endsPiece {t : Text} (h : EndsPiece t) {c : Char} (first : c ∈ t.head?) :
    Text.isSpace c ∨ c = ',' := by
  cases t with
  | nil => cases first
  | cons d t =>
    cases first
    cases space : Text.isSpace c with
    | true => exact .inl rfl
    | false =>
      rw [EndsPiece, Text.trimStart_cons_of_not_space space] at h
      rcases h with none | ⟨u, same⟩
      · cases none
      · exact .inr (List.cons.inj same).1

theorem endsPiece_flatMap (pieces : List Text) : EndsPiece (pieces.flatMap (',' :: ·)) := by
  cases pieces with
  | nil => exact endsPiece_nil
  | cons piece pieces => exact endsPiece_cons _

end CommaList

namespace NamedAttribute
open CommaList

theorem readExactClass_of_ne_bracket {c : Char} (h : c ≠ '[') (t : Text) :
    readExactClass (c :: t) = none := by
  unfold readExactClass
  split
  next same => exact absurd (List.cons.inj same).1 h
  next => rfl

/-- Whether a class attribute is compared as a whole is read off its brackets alone, up to the end of
a piece. -/
theorem readExactClass_append {rest : Text} (ends : EndsPiece rest) {t : Text} (nonempty : t ≠ []) :
    readExactClass (t ++ rest) = readExactClass t := by
  have foreign : ∀ c ∈ rest.head?, c ∉ "class".toList := by
    intro c first
    rcases head_of_endsPiece ends first with space | rfl
    · rintro mem
      have : c = 'c' ∨ c = 'l' ∨ c = 'a' ∨ c = 's' := by simpa using mem
      rcases this with rfl | rfl | rfl | rfl <;> cases space
    · decide
  have stop (c : Char) (solid : c ≠ ',') (u : Text) : Text.trimStart rest ≠ c :: u := by
    rcases ends with none | ⟨v, comma⟩
    · simp [none]
    · rw [comma]
      exact fun h => solid (List.cons.inj h).1.symm
  obtain ⟨c, t, rfl⟩ := List.exists_cons_of_ne_nil nonempty
  by_cases bracket : c = '['
  · subst bracket
    simp only [List.cons_append, readExactClass]
    rcases Text.trimStart_append_cases t rest with ⟨blank, behind⟩ | ⟨c, u, start, behind, spaces⟩
    · rw [blank, behind]
      split
      next inside found => exact absurd (Text.append_of_isPrefixOf? found) (stop 'c' (by decide) _)
      next => rfl
    · rw [start, behind, spaces, Text.isPrefixOf?_append foreign]
      cases "class".toList.isPrefixOf? (c :: u) with
      | none => rfl
      | some inside =>
        simp only [Option.map_some]
        rcases Text.trimStart_append_cases inside rest with ⟨blank, behind⟩ | ⟨d, v, start, behind, spaces⟩
        · rw [blank, behind]
          split
          next u found => exact absurd found (stop '=' (by decide) u)
          next => rfl
        · rw [start, behind, spaces]
          by_cases equals : d = '='
          · subst equals
            rfl
          · split
            next found => exact absurd (List.cons.inj found).1 equals
            next => split <;> simp_all
  · rw [List.cons_append, readExactClass_of_ne_bracket bracket, readExactClass_of_ne_bracket bracket]

/-- Text is normalised piece by piece. -/
theorem normalise_append {rest : Text} (ends : EndsPiece rest) (t : Text) :
    normalise (t ++ rest) = normalise t ++ normalise rest :=
  Recogniser.substitute_append fun _ _ nonempty => readExactClass_append ends nonempty

/-- Without brackets there is nothing to normalise. -/
theorem normalise_append_of_no_bracket {s : Text} (h : '[' ∉ s) (t : Text) :
    normalise (s ++ t) = s ++ normalise t :=
  Recogniser.substitute_append_of_plain
    (fun _ mem => readExactClass_of_ne_bracket fun same => h (same ▸ mem)) t

theorem normalise_of_no_bracket {s : Text} (h : '[' ∉ s) : normalise s = s := by
  have := normalise_append_of_no_bracket h []
  simpa [normalise, Recogniser.substitute] using this

theorem no_bracket_of_spaces {s : Text} (spaces : ∀ c ∈ s, Text.isSpace c) : '[' ∉ s :=
  fun mem => absurd (spaces _ mem) (by decide)

/-- The spaces around a piece stay, and what they surround is normalised. -/
theorem normalise_eq_surround (t : Text) :
    normalise t = Text.leading t ++
      (normalise (Text.trim t) ++ Text.trailing (Text.trimStart t)) := by
  have spaces := Text.trailing_spaces (Text.trimStart t)
  have ends : EndsPiece (Text.trailing (Text.trimStart t)) :=
    .inl (Text.trimStart_eq_nil_iff.2 spaces)
  conv => lhs; rw [← Text.trim_append t]
  rw [normalise_append_of_no_bracket (no_bracket_of_spaces (Text.leading_spaces t)),
    normalise_append ends, normalise_of_no_bracket (no_bracket_of_spaces spaces)]

theorem normalise_cons (c : Char) (t : Text) : ∃ u, normalise (c :: t) = c :: u := by
  rcases Recogniser.scan_cons (r := exactClass) c t with ⟨inside, rest, _, split, _, scan⟩ | ⟨_, scan⟩
  · have same : c = '[' := (List.cons.inj split).1
    refine ⟨inside ++ ['~', '='] ++ normalise rest, ?_⟩
    rw [normalise, Recogniser.substitute, scan, same]
    simp [normalise, Recogniser.substitute]
  · refine ⟨normalise t, ?_⟩
    rw [normalise, Recogniser.substitute, scan]
    rfl

/-- What stands between `[` and `=` where a class attribute is compared as a whole is its name and
spaces. -/
theorem mem_of_readExactClass {t inside : Text} (h : readExactClass t = some inside) {c : Char}
    (mem : c ∈ inside) : Text.isSpace c ∨ c ∈ "class".toList := by
  unfold readExactClass at h
  split at h
  next t =>
    split at h
    next rest found =>
      split at h
      next =>
        cases h
        rcases List.mem_append.1 mem with front | back
        · rcases List.mem_append.1 front with space | name
          · exact .inl (Text.leading_spaces _ _ space)
          · exact .inr name
        · exact .inl (Text.leading_spaces _ _ back)
      next => cases h
    next => cases h
  next => cases h

theorem inert_of_readExactClass {t inside : Text} (h : readExactClass t = some inside) {c : Char}
    (mem : c ∈ inside) : c ≠ ',' ∧ c ≠ '(' ∧ c ≠ ')' := by
  rcases mem_of_readExactClass h mem with space | name
  · refine ⟨?_, ?_, ?_⟩ <;> rintro rfl <;> cases space
  · refine ⟨?_, ?_, ?_⟩ <;> rintro rfl <;> revert name <;> decide

/-- What follows the first piece does not matter for reading what is in front of it. -/
theorem readExactClass_append_first (n : Int) {s : Text} (nonempty : s ≠ []) (t : Text) :
    readExactClass (s ++ (splitFrom n t).1) = readExactClass (s ++ t) := by
  have cut := readExactClass_append (endsPiece_flatMap (splitFrom n t).2)
    (t := s ++ (splitFrom n t).1) (by simp [nonempty])
  rw [List.append_assoc, splitFrom_append] at cut
  exact cut.symm

/-- Neither the brackets of a class attribute that is compared as a whole nor what becomes of them
separates pieces. -/
theorem inert_of_exactClass {t inside : Text} (read : readExactClass t = some inside) :
    (∀ d ∈ exactClass.spell inside, d ≠ ',' ∧ d ≠ '(' ∧ d ≠ ')') ∧
      ∀ d ∈ '[' :: inside ++ ['~', '='], d ≠ ',' ∧ d ≠ '(' ∧ d ≠ ')' := by
  constructor
  · intro d mem
    simp only [exactClass, List.cons_append, List.mem_cons, List.mem_append, List.not_mem_nil,
      or_false] at mem
    rcases mem with rfl | mem | rfl
    · decide
    · exact inert_of_readExactClass read mem
    · decide
  · intro d mem
    simp only [List.cons_append, List.mem_cons, List.mem_append, List.not_mem_nil, or_false] at mem
    rcases mem with rfl | mem | rfl | rfl
    · decide
    · exact inert_of_readExactClass read mem
    · decide
    · decide

/-- The pieces of a normalised text are the normalised pieces. -/
theorem splitFrom_normalise (n : Int) (t : Text) :
    splitFrom n (normalise t) =
      (normalise (splitFrom n t).1, (splitFrom n t).2.map normalise) := by
  induction size : t.length using Nat.strongRecOn generalizing t n with
  | ind m ih =>
    subst size
    cases t with
    | nil => rfl
    | cons c t =>
      rcases Recogniser.scan_cons (r := exactClass) c t with
        ⟨inside, rest, read, split, shorter, scan⟩ | ⟨read, scan⟩
      · obtain ⟨inert, inert'⟩ := inert_of_exactClass read
        rw [split] at read ⊢
        have first : normalise (exactClass.spell inside ++ rest) =
            ('[' :: inside ++ ['~', '=']) ++ normalise rest :=
          Recogniser.substitute_spell_append read
        have front : exactClass.read (exactClass.spell inside ++ (splitFrom n rest).1) =
            some inside :=
          (readExactClass_append_first n (s := exactClass.spell inside) (List.cons_ne_nil _ _) rest).trans
            read
        have piece : normalise (exactClass.spell inside ++ (splitFrom n rest).1) =
            ('[' :: inside ++ ['~', '=']) ++ normalise (splitFrom n rest).1 :=
          Recogniser.substitute_spell_append front
        rw [first, splitFrom_append_of_inert inert', splitFrom_append_of_inert inert,
          ih _ shorter n rest rfl, piece]
      · have first : normalise (c :: t) = c :: normalise t :=
          Recogniser.substitute_of_not_read read
        have piece : normalise (c :: (splitFrom (level n c) t).1) =
            c :: normalise (splitFrom (level n c) t).1 :=
          Recogniser.substitute_of_not_read
            ((readExactClass_append_first (level n c) (s := [c]) (by simp) t).trans read)
        rw [first, splitFrom_cons, splitFrom_cons, ih t.length (by simp) (level n c) t rfl]
        split
        next => rfl
        next => rw [piece]

theorem split_normalise (t : Text) : split (normalise t) = (split t).map normalise := by
  simp only [split, splitFrom_normalise, List.map_cons]

end NamedAttribute
end ScopedCss
