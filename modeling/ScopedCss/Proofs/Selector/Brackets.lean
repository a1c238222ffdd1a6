import ScopedCss.Proofs.Selector.Locality
import ScopedCss.Selector.Fragment

/-!
# Fragments before an attribute selector

What an attribute selector changes of the fragments of the text before it.  It ends with its first closing
bracket (`exists_body`), and fragments end before a bracket, but for two kinds: a bracket that is still
open, which then ends where the attribute selector does, and a function whose argument is still open,
which takes the attribute selector up into its argument (`Fragment.meets`).
-/
namespace ScopedCss

/-! ### Attribute selectors -/

namespace NamedAttribute

theorem not_mem_leading (t : Text) : ']' ∉ Text.leading t := fun mem => by
  have := List.mem_takeWhile_imp mem
  exact absurd this (by decide)

theorem not_mem_run (t : Text) : ']' ∉ t.takeWhile isValueChar := fun mem => by
  have := List.mem_takeWhile_imp mem
  exact absurd this (by decide)

theorem not_mem_of_readName {t name rest : Text} {onId : Bool} (h : readName t = some (onId, name, rest)) :
    ']' ∉ name := by
  unfold readName at h
  split at h
  next => cases h; decide
  next =>
    obtain ⟨_, _, same⟩ := Option.map_eq_some_iff.1 h
    cases same
    decide

theorem not_mem_of_readOperator {t operator rest : Text} (h : readOperator t = some (operator, rest)) :
    ']' ∉ operator := by
  unfold readOperator at h
  split at h
  next => cases h; decide
  next c _ _ =>
    split at h
    next known =>
      cases h
      revert known
      simp only [List.mem_cons, List.not_mem_nil, or_false]
      rintro (rfl | rfl | rfl | rfl | rfl) <;> decide
    next => cases h
  next => cases h

theorem not_mem_splitQuote (t : Text) : ']' ∉ (splitQuote t).1 := by
  unfold splitQuote
  split
  next c t =>
    split
    next isQuote =>
      rw [List.mem_singleton]
      rintro rfl
      cases isQuote
    next => exact List.not_mem_nil
  next => exact List.not_mem_nil

/-- A value and what closes it end with the first closing bracket. -/
theorem exists_inside_of_readValue {t value closing : Text} (h : readValue t = some (value, closing)) :
    ∃ inside, value ++ closing = inside ++ [']'] ∧ ']' ∉ inside := by
  unfold readValue at h
  dsimp only at h
  split at h
  next =>
    cases h
    refine ⟨t.takeWhile isValueChar, ?_, not_mem_run t⟩
    rw [← List.append_assoc, Text.trimEnd_append]
  next q rest other _ =>
    split at h
    next =>
      cases h
      refine ⟨t.takeWhile isValueChar ++ q :: Text.leading rest, by simp, ?_⟩
      rw [List.mem_append, List.mem_cons]
      rintro (mem | rfl | mem)
      · exact not_mem_run t mem
      · exact other rfl
      · exact not_mem_leading rest mem
    next => cases h
  next => cases h

/-- An attribute selector ends at its first closing bracket. -/
theorem exists_body {t : Text} {a : NamedAttribute} (h : read t = some a) :
    ∃ body, a.spell = '[' :: (body ++ [']']) ∧ ']' ∉ body := by
  unfold read at h
  split at h
  next t =>
    simp only [Option.bind_eq_bind, Option.bind_eq_some_iff, Option.some.injEq, Prod.exists] at h
    obtain ⟨onId, name, t₁, named, op, t₂, compared, value, closing, found, rfl⟩ := h
    obtain ⟨inside, split, foreign⟩ := exists_inside_of_readValue found
    refine ⟨Text.leading t ++ name ++ Text.leading t₁ ++ op ++ Text.leading t₂ ++
      (splitQuote (Text.trimStart t₂)).1 ++ inside, ?_, ?_⟩
    · have whole := congrArg (('[' :: Text.leading t ++ name ++ Text.leading t₁ ++ op ++
        Text.leading t₂ ++ (splitQuote (Text.trimStart t₂)).1) ++ ·) split
      simpa [spell] using whole
    · simp only [List.mem_append, not_or]
      exact ⟨⟨⟨⟨⟨⟨not_mem_leading _, not_mem_of_readName named⟩, not_mem_leading _⟩,
        not_mem_of_readOperator compared⟩, not_mem_leading _⟩, not_mem_splitQuote _⟩, foreign⟩
  next => cases h

end NamedAttribute

/-! ### Fragments at an attribute selector -/

namespace Fragment

theorem takeWhile_append_bracket {p : Char → Bool} (stops : p '[' = false) (u x : Text) :
    (u ++ '[' :: x).takeWhile p = u.takeWhile p ∧
      (u ++ '[' :: x).dropWhile p = u.dropWhile p ++ '[' :: x := by
  induction u with
  | nil => simp [stops]
  | cons c u ih =>
    by_cases more : p c
    · simp [more, ih]
    · simp [more]

theorem readRun_append_bracket {p : Char → Bool} (stops : p '[' = false) (u x : Text) :
    readRun p (u ++ '[' :: x) = readRun p u := by
  rw [readRun, readRun, (takeWhile_append_bracket stops u x).1]

theorem readPseudo_append_bracket (u x : Text) : readPseudo (u ++ '[' :: x) = readPseudo u := by
  have stops : Text.isIdentChar '[' = false := by decide
  cases u with
  | nil =>
    show readRun Text.isIdentChar ([] ++ '[' :: x) = readRun Text.isIdentChar []
    exact readRun_append_bracket stops [] x
  | cons c u =>
    by_cases colon : c = ':'
    · subst colon
      exact congrArg (Option.map (':' :: ·)) (readRun_append_bracket stops u x)
    · have run (t : Text) : readPseudo (c :: t) = readRun Text.isIdentChar (c :: t) := by
        rw [readPseudo]
        exact fun _ same => colon (List.cons.inj same).1
      rw [List.cons_append, run, run]
      exact readRun_append_bracket stops (c :: u) x

/-- A function that is open where an attribute selector starts, and whose argument ends behind that. -/
structure OpenFunction (u x name argument : Text) : Prop where
  text : u = name ++ '(' :: argument
  ident : ∀ c ∈ name, Text.isIdentChar c
  takes : takesPlainArgument name
  isOpen : ')' ∉ argument
  closes : ')' ∈ x

/-- What follows decides whether a function is one, if its argument is still open. -/
theorem readFunction_append_bracket (u x : Text) :
    readFunction (u ++ '[' :: x) = readFunction u ∨ ∃ name argument, OpenFunction u x name argument := by
  have stops : Text.isIdentChar '[' = false := by decide
  have whole : u.takeWhile Text.isIdentChar ++ u.dropWhile Text.isIdentChar = u :=
    List.takeWhile_append_dropWhile
  obtain ⟨take, drop⟩ := takeWhile_append_bracket stops u x
  unfold readFunction
  simp only [take, drop]
  cases after : u.dropWhile Text.isIdentChar with
  | nil => exact .inl rfl
  | cons c rest =>
    by_cases opens : c = '('
    · subst opens
      by_cases closed : ')' ∈ rest
      · left
        have more : ')' ∈ rest ++ '[' :: x := List.mem_append_left _ closed
        have argument := (Text.run_append_of_mem (p := (· != ')')) closed (by decide) ('[' :: x)).1
        simp only [List.cons_append, closed, more, and_true, argument]
      · by_cases closes : takesPlainArgument (u.takeWhile Text.isIdentChar) ∧ ')' ∈ x
        · refine .inr ⟨_, rest, ?_, fun c mem => List.mem_takeWhile_imp mem, closes.1, closed, closes.2⟩
          rw [← after, whole]
        · left
          have more : ¬ (takesPlainArgument (u.takeWhile Text.isIdentChar) ∧ ')' ∈ rest ++ '[' :: x) := by
            simpa [closed] using closes
          simp only [List.cons_append, if_neg more, closed, and_false, if_false]
    · left
      simp [opens]

/-- **What an attribute selector changes of the fragments before it.**  A fragment is read the same with
an attribute selector behind it, unless it is a bracket or the argument of a function that is open
there. -/
theorem read_append_bracket {u : Text} (nonempty : u ≠ []) (x : Text) :
    read (u ++ '[' :: x) = read u ∨ (∃ w, u = '[' :: w ∧ ']' ∉ w) ∨
      ∃ v name argument, u = ':' :: v ∧ OpenFunction v x name argument := by
  have stops : Text.isIdentChar '[' = false := by decide
  obtain ⟨c, t, rfl⟩ := List.exists_cons_of_ne_nil nonempty
  rw [List.cons_append]
  by_cases percent : c = '%'
  · subst percent
    left
    have front : Mark.comment.isPrefixOf ('%' :: (t ++ '[' :: x)) = Mark.comment.isPrefixOf ('%' :: t) := by
      have foreign : ∀ c ∈ ('[' :: x).head?, c ∉ Mark.comment := by
        rintro c ⟨⟩
        decide
      rw [← List.cons_append, ← List.isSome_isPrefixOf?_eq_isPrefixOf, Text.isPrefixOf?_append foreign,
        Option.isSome_map, List.isSome_isPrefixOf?_eq_isPrefixOf]
    simp only [read, front]
  by_cases bracket : c = '['
  · subst bracket
    by_cases closed : ']' ∈ t
    · left
      have more : ']' ∈ t ++ '[' :: x := List.mem_append_left _ closed
      have inside := (Text.run_append_of_mem (p := (· != ']')) closed (by decide) ('[' :: x)).1
      simp only [read, closed, more, inside]
    · exact .inr (.inl ⟨t, rfl, closed⟩)
  by_cases colon : c = ':'
  · subst colon
    rcases readFunction_append_bracket t x with same | ⟨name, argument, isOpen⟩
    · left
      simp only [read, same, readPseudo_append_bracket]
    · exact .inr (.inr ⟨t, name, argument, rfl, isOpen⟩)
  left
  by_cases dot : c = '.'
  · subst dot
    simp only [read, readRun_append_bracket stops]
  by_cases hash : c = '#'
  · subst hash
    simp only [read, readRun_append_bracket stops]
  by_cases star : c = '*'
  · subst star
    rfl
  have word (t : Text) : read (c :: t) = readRun Text.isWordChar (c :: t) := by
    rw [read]
    all_goals
      rintro _ same
      have here := (List.cons.inj same).1
      contradiction
  rw [word, word]
  exact readRun_append_bracket (by decide) (c :: t) x

theorem read_bracket {inside : Text} (foreign : ']' ∉ inside) (t : Text) :
    read ('[' :: (inside ++ ']' :: t)) = some ('[' :: (inside ++ [']'])) := by
  have closed : ']' ∈ inside ++ ']' :: t := by simp
  have run : (inside ++ ']' :: t).takeWhile (· != ']') = inside := by
    rw [List.takeWhile_append_of_pos fun c mem => by simpa using ne_of_mem_of_not_mem mem foreign,
      List.takeWhile_cons_of_neg (by simp), List.append_nil]
  simp only [read, closed, if_true, run, List.cons_append]

theorem scan_append_of_read {f t : Text} (h : read (f ++ t) = some f) :
    recogniser.scan (f ++ t) = .hit f :: recogniser.scan t :=
  Recogniser.scan_spell_append (r := recogniser) h

theorem scan_bracket {inside : Text} (foreign : ']' ∉ inside) (t : Text) :
    recogniser.scan ('[' :: (inside ++ [']']) ++ t) =
      .hit ('[' :: (inside ++ [']'])) :: recogniser.scan t := by
  refine scan_append_of_read ?_
  rw [List.cons_append, List.append_assoc]
  exact read_bracket foreign t

theorem ne_nil_of_takesPlainArgument {name : Text} (takes : takesPlainArgument name) : name ≠ [] := by
  rintro rfl
  revert takes
  decide

/-- A function whose argument is open ends before its parenthesis, and with more behind it at the next
closing one. -/
theorem read_openFunction {u x name argument : Text} (h : OpenFunction u x name argument) :
    read (':' :: u) = some (':' :: name) ∧
      ∃ more rest, '[' :: x = more ++ rest ∧ more.getLast? = some ')' ∧
        read (':' :: (u ++ '[' :: x)) = some (':' :: (u ++ more)) := by
  have stops : ∀ d ∈ ('(' :: argument).head?, Text.isIdentChar d = false := by
    rintro d ⟨⟩
    decide
  have take (t : Text) : (name ++ '(' :: t).takeWhile Text.isIdentChar = name := by
    rw [List.takeWhile_append_of_pos h.ident, List.takeWhile_cons_of_neg (by decide), List.append_nil]
  have drop (t : Text) : (name ++ '(' :: t).dropWhile Text.isIdentChar = '(' :: t := by
    rw [List.dropWhile_append_of_pos h.ident, List.dropWhile_cons_of_neg (by decide)]
  rw [h.text]
  constructor
  · have none : readFunction (name ++ '(' :: argument) = none := by
      simp [readFunction, take, drop, h.isOpen]
    have run : readPseudo (name ++ '(' :: argument) = some name := by
      obtain ⟨c, rest, split⟩ := List.exists_cons_of_ne_nil (ne_nil_of_takesPlainArgument h.takes)
      have ident := h.ident c (by simp [split])
      have named := take argument
      rw [split] at named ⊢
      rw [List.cons_append, readPseudo]
      · rw [List.cons_append] at named
        rw [readRun, named]
      · rintro t same
        obtain rfl := (List.cons.inj same).1
        revert ident
        decide
    rw [read, none, Option.none_or, run]
    rfl
  · have closes : ')' ∈ '[' :: x := List.mem_cons_of_mem _ h.closes
    obtain ⟨rest, split⟩ := takeWhile_ne_append_front closes
    refine ⟨_, rest, split.symm, List.getLast?_concat, ?_⟩
    have argued : (argument ++ '[' :: x).takeWhile (· != ')') = argument ++ ('[' :: x).takeWhile (· != ')') :=
      List.takeWhile_append_of_pos fun c mem => by simpa using ne_of_mem_of_not_mem mem h.isOpen
    have closed : ')' ∈ argument ++ '[' :: x := List.mem_append_right _ closes
    have found : readFunction (name ++ '(' :: (argument ++ '[' :: x)) =
        some (name ++ '(' :: (argument ++ (('[' :: x).takeWhile (· != ')') ++ [')']))) := by
      simp only [readFunction, take, drop, h.takes, closed, and_self, if_true, argued]
      simp
    rw [List.append_assoc, List.cons_append, read, found]
    simp

/-- How a plain pass comes to an attribute selector that stands behind a text. -/
inductive Meets (g a r : Text) : Prop where
  /-- The attribute selector ends a bracket that is one fragment. -/
  | ends (before : List (Segment Text)) (lead : Text) (text : g = recogniser.spellAll before ++ lead)
      (alone : recogniser.scan g = before ++ recogniser.scan lead)
      (whole : recogniser.scan (g ++ (a ++ r)) = before ++ .hit (lead ++ a) :: recogniser.scan r)
      (bracket : (lead ++ a).head? = some '[')
  /-- The attribute selector starts in the argument of a function. -/
  | inside (before after after' : List (Segment Text)) (name lead more : Text)
      (text : g = recogniser.spellAll before ++ ':' :: lead)
      (alone : recogniser.scan g = before ++ .hit (':' :: name) :: after)
      (whole : recogniser.scan (g ++ (a ++ r)) = before ++ .hit (':' :: (lead ++ more)) :: after')
      (shorter : name.length < lead.length) (last : more.getLast? = some ')')

/-- What the segment in front of a text is, is the same with an attribute selector behind. -/
theorem Meets.behind {g a r f : Text} (h : Meets g a r) (segment : Segment Text)
    (spelled : recogniser.spellSegment segment = f)
    (alone : recogniser.scan (f ++ g) = segment :: recogniser.scan g)
    (whole : recogniser.scan (f ++ g ++ (a ++ r)) = segment :: recogniser.scan (g ++ (a ++ r))) :
    Meets (f ++ g) a r := by
  cases h with
  | ends before lead text alone' whole' bracket =>
    refine .ends (segment :: before) lead ?_ ?_ ?_ bracket
    · rw [Recogniser.spellAll_cons, spelled, List.append_assoc, ← text]
    · rw [alone, alone', List.cons_append]
    · rw [whole, whole', List.cons_append]
  | inside before after after' name lead more text alone' whole' shorter last =>
    refine .inside (segment :: before) after after' name lead more ?_ ?_ ?_ shorter last
    · rw [Recogniser.spellAll_cons, spelled, List.append_assoc, ← text]
    · rw [alone, alone', List.cons_append]
    · rw [whole, whole', List.cons_append]

/-- A plain pass comes to an attribute selector in one of two ways. -/
theorem meets (g : Text) {inside : Text} (foreign : ']' ∉ inside) (r : Text) :
    Meets g ('[' :: (inside ++ [']'])) r := by
  induction size : g.length using Nat.strongRecOn generalizing g with
  | ind n ih =>
    subst size
    cases g with
    | nil => exact .ends [] [] rfl rfl (scan_bracket foreign r) rfl
    | cons c g =>
      have behind : '[' :: (inside ++ [']']) ++ r = '[' :: (inside ++ ']' :: r) := by simp
      rcases read_append_bracket (u := c :: g) (by simp) (inside ++ ']' :: r) with
        same | ⟨w, split, isOpen⟩ | ⟨v, name, argument, split, isOpen⟩
      · rw [← behind] at same
        rcases Recogniser.scan_cons (r := recogniser) c g with
          ⟨f, rest, found, split, shorter, scan⟩ | ⟨none, scan⟩
        · have split : c :: g = f ++ rest := split
          have later := ih rest.length shorter rest rfl
          have here : read (f ++ rest) = some f := split ▸ found
          have there : read (f ++ (rest ++ ('[' :: (inside ++ [']']) ++ r))) = some f := by
            rw [← List.append_assoc, ← split]
            exact same.trans found
          rw [split]
          refine later.behind (.hit f) rfl (scan_append_of_read here) ?_
          rw [List.append_assoc]
          exact scan_append_of_read there
        · have later := ih g.length (by simp) g rfl
          have there : recogniser.read (c :: (g ++ ('[' :: (inside ++ [']']) ++ r))) = .none :=
            same.trans none
          exact later.behind (.plain c) rfl scan (Recogniser.scan_of_not_read there)
      · obtain ⟨rfl, rfl⟩ := List.cons.inj split
        have both : ']' ∉ g ++ '[' :: inside := by simp [isOpen, foreign]
        refine .ends [] ('[' :: g) rfl rfl ?_ rfl
        simpa using scan_bracket both r
      · obtain ⟨rfl, rfl⟩ := List.cons.inj split
        obtain ⟨alone, more, rest, cut, last, whole⟩ := read_openFunction isOpen
        have named : ':' :: g = ':' :: name ++ '(' :: argument := congrArg (':' :: ·) isOpen.text
        have text : ':' :: (g ++ '[' :: (inside ++ ']' :: r)) = ':' :: (g ++ more) ++ rest := by
          rw [cut]
          simp
        rw [named] at alone
        rw [text] at whole
        refine .inside [] (recogniser.scan ('(' :: argument)) (recogniser.scan rest) name g more rfl
          ?_ ?_ ?_ last
        · rw [named]
          exact scan_append_of_read alone
        · rw [behind, List.cons_append, text]
          exact scan_append_of_read whole
        · rw [isOpen.text]
          simp

end Fragment

end ScopedCss
