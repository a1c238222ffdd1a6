import ScopedCss.Proofs.Text.Outside
import ScopedCss.Rule.Frame

/-!
# Texts that keep the blocks of others

What a pass puts in the place of a piece of a text does not change how the text is cut into blocks:
it opens and closes as many of them, from every number of open blocks on (`levelAfter`), it leaves no
block without something in front of it (`headAfter`), and it writes no mark outside strings.  A text
*keeps the blocks* of another if all of this is so wherever it takes its place (`Keeps`).

Replacing a piece of a text is replacing the text (`Keeps.around`), and replacements can be made one
after the other (`Keeps.trans`).  So what a pass does need only be looked at where it does something:
it appends suffixes (`keeps_attach`), and it replaces runs by runs (`keeps_inert`).
-/
namespace ScopedCss.Block

open Quoted ScopedCss.Frame

/-! ### The number of open blocks -/

/-- The number of open blocks behind one more character outside strings.  A brace that closes nothing
changes nothing. -/
def levelStep (depth : Nat) (c : Char) : Nat :=
  if c = '{' then depth + 1 else if c = '}' then depth - 1 else depth

/-- The number of open blocks behind a text without strings, where a number of blocks is open at its
front. -/
def levelAfter (depth : Nat) (t : Text) : Nat := t.foldl levelStep depth

theorem levelAfter_append (depth : Nat) (s t : Text) :
    levelAfter depth (s ++ t) = levelAfter (levelAfter depth s) t := List.foldl_append

theorem levelAfter_of_solid {t : Text} (solid : ∀ c ∈ t, isStructural c = false) (depth : Nat) :
    levelAfter depth t = depth := by
  induction t with
  | nil => rfl
  | cons c t ih =>
    have here := solid c List.mem_cons_self
    have other : c ≠ '{' ∧ c ≠ '}' := by
      constructor <;> rintro rfl <;> cases here
    rw [levelAfter, List.foldl_cons, levelStep, if_neg other.1, if_neg other.2]
    exact ih fun d mem => solid d (.tail c mem)

theorem levelStep_of_isQuote {quote : Char} (isQuote : Text.isQuote quote) (depth : Nat) :
    levelStep depth quote = depth := by
  simp only [Text.isQuote, Bool.or_eq_true, beq_iff_eq] at isQuote
  rcases isQuote with rfl | rfl <;> rfl

/-- The blocks that a text leaves open are opened outside its strings. -/
theorem openFrom_eq {state : Option Char} (isQuote : ∀ q ∈ state, Text.isQuote q) {t : Text}
    (clean : '\\' ∉ t) (depth : Nat) :
    openFrom state depth t = levelAfter depth (outsideFrom state t) := by
  induction t generalizing state depth with
  | nil => cases state <;> rfl
  | cons c t ih =>
    have here : ∀ d u, c = '\\' → t = d :: u → False := fun _ _ same _ =>
      clean (same ▸ List.mem_cons_self)
    have later : '\\' ∉ t := fun mem => clean (.tail c mem)
    cases state with
    | none =>
      rw [openFrom, outsideFrom, levelAfter, List.foldl_cons]
      · exact ih (isQuote_of_mem c) later _
      · exact here
    | some quote =>
      rw [openFrom, outsideFrom]
      · split
        next same =>
          rw [ih isQuote_of_mem_none later, levelAfter, levelAfter, List.foldl_cons, same,
            levelStep_of_isQuote (isQuote quote rfl)]
        next => exact ih isQuote later depth
      · exact here

/-! ### What stands in front of blocks -/

/-- Whether something other than spaces stands behind the last structural character, after one more
character outside strings.  Nothing if that opens a block with nothing in front of it. -/
def headStep (begun : Bool) (c : Char) : Option Bool :=
  if c = '{' then if begun then some false else none
  else if isStructural c then some false
  else some (begun || !Text.isSpace c)

/-- Whether something other than spaces stands behind the last structural character of a text without
strings.  Nothing if a block in it has nothing in front of it. -/
def headAfter (begun : Bool) (t : Text) : Option Bool := t.foldlM headStep begun

/-- Every block of a text has something other than spaces in front of it, and behind the `;` or the
brace before it. -/
def Headed (t : Text) : Prop := (headAfter false (outside t)).isSome

theorem headAfter_cons (begun : Bool) (c : Char) (t : Text) :
    headAfter begun (c :: t) = (headStep begun c).bind fun begun => headAfter begun t := rfl

theorem headAfter_append (begun : Bool) (s t : Text) :
    headAfter begun (s ++ t) = (headAfter begun s).bind fun begun => headAfter begun t :=
  List.foldlM_append

theorem headAfter_of_solid {t : Text} (solid : ∀ c ∈ t, isStructural c = false) (begun : Bool) :
    headAfter begun t = some (begun || t.any fun c => !Text.isSpace c) := by
  induction t generalizing begun with
  | nil => simp [headAfter]
  | cons c t ih =>
    have here := solid c List.mem_cons_self
    have other : c ≠ '{' := by rintro rfl; cases here
    rw [headAfter_cons, headStep, if_neg other, if_neg (by simp [here]), Option.bind_some,
      ih fun d mem => solid d (.tail c mem), List.any_cons, Bool.or_assoc]

/-- What does with nothing in front of it does with something as well. -/
theorem headAfter_mono {begun begun' next : Bool} {t : Text} (more : begun → begun')
    (read : headAfter begun t = some next) :
    ∃ next', headAfter begun' t = some next' ∧ (next → next') := by
  induction t generalizing begun begun' with
  | nil =>
    cases read
    exact ⟨begun', rfl, more⟩
  | cons c t ih =>
    rw [headAfter_cons] at read ⊢
    obtain ⟨middle, step, rest⟩ := Option.bind_eq_some_iff.1 read
    obtain ⟨middle', step', more'⟩ : ∃ middle', headStep begun' c = some middle' ∧
        (middle → middle') := by
      unfold headStep at step ⊢
      split at step
      next opens =>
        split at step
        next headed =>
          cases step
          exact ⟨false, by rw [if_pos opens, if_pos (more headed)], nofun⟩
        next => cases step
      next opens =>
        rw [if_neg opens]
        split at step
        next ends =>
          cases step
          exact ⟨false, by rw [if_pos ends], nofun⟩
        next ends =>
          cases step
          refine ⟨begun' || !Text.isSpace c, by rw [if_neg ends], ?_⟩
          simp only [Bool.or_eq_true]
          exact fun known => known.imp_left more
    rw [step', Option.bind_some]
    exact ih more' rest

/-! ### Texts in the place of others -/

/-- A text into which the word in every mark does not go on. -/
def Ends (t : Text) : Prop := ∀ c ∈ t.head?, c ∉ Mark.word

theorem Ends.outsideFrom {state : Option Char} (isQuote : ∀ q ∈ state, Text.isQuote q) {t : Text}
    (ends : Ends t) : Ends (outsideFrom state t) := by
  intro c mem
  cases state with
  | none =>
    cases t with
    | nil => cases mem
    | cons d t => exact ends c mem
  | some quote =>
    have known := isQuote quote rfl
    rw [eq_of_mem_head?_outsideFrom mem]
    simp only [Text.isQuote, Bool.or_eq_true, beq_iff_eq] at known
    rcases known with rfl | rfl <;> decide

theorem Ends.append {s t : Text} (h : Ends s) (h' : Ends t) : Ends (s ++ t) := by
  cases s with
  | nil => exact h'
  | cons c s => exact h

/-- A text without strings that may take the place of another: it opens and closes as many blocks,
has as much in front of them, and completes no word of marks where the text behind it does not go on
with the word. -/
structure Replaces (s t : Text) : Prop where
  levels : ∀ depth, levelAfter depth t = levelAfter depth s
  heads : ∀ {begun begun' next : Bool}, (begun → begun') → headAfter begun s = some next →
    ∃ next', headAfter begun' t = some next' ∧ (next → next')
  free : ∀ u v, Ends v → WordFree (u ++ (s ++ v)) → WordFree (u ++ (t ++ v))

namespace Replaces
variable {s t u : Text}

theorem refl (t : Text) : Replaces t t where
  levels _ := rfl
  heads more read := headAfter_mono more read
  free _ _ _ free := free

theorem trans (h : Replaces s t) (h' : Replaces t u) : Replaces s u where
  levels depth := (h'.levels depth).trans (h.levels depth)
  heads more read := by
    obtain ⟨middle, read, more⟩ := h.heads more read
    obtain ⟨last, read, more'⟩ := h'.heads (fun known => known) read
    exact ⟨last, read, fun known => more' (more known)⟩
  free a b ends free := h'.free a b ends (h.free a b ends free)

/-- In a text a piece can be replaced. -/
theorem around (h : Replaces s t) (x : Text) {y : Text} (ends : Ends y) :
    Replaces (x ++ (s ++ y)) (x ++ (t ++ y)) where
  levels depth := by
    simp only [levelAfter_append, h.levels]
  heads more read := by
    simp only [headAfter_append] at read ⊢
    obtain ⟨a, first, read⟩ := Option.bind_eq_some_iff.1 read
    obtain ⟨b, second, third⟩ := Option.bind_eq_some_iff.1 read
    obtain ⟨a', first', more⟩ := headAfter_mono more first
    obtain ⟨b', second', more⟩ := h.heads more second
    obtain ⟨c', third', more⟩ := headAfter_mono more third
    exact ⟨c', by rw [first', Option.bind_some, second', Option.bind_some, third'], more⟩
  free u v ends' free := by
    have whole := h.free (u ++ x) (y ++ v) (ends.append ends') (by simpa using free)
    simpa using whole

end Replaces

/-- In a text that starts outside strings, or in the string that a quote opened, a text may take the
place of another.  What is written in strings does not matter. -/
structure Keeps (state : Option Char) (s t : Text) : Prop where
  strings : openAfter state t = openAfter state s
  outside : Replaces (outsideFrom state s) (outsideFrom state t)
  clean : '\\' ∉ s → '\\' ∉ t

namespace Keeps
variable {state : Option Char} {s t u : Text}

theorem refl (t : Text) : Keeps state t t := ⟨rfl, .refl _, id⟩

theorem trans (h : Keeps state s t) (h' : Keeps state t u) : Keeps state s u where
  strings := h'.strings.trans h.strings
  outside := h.outside.trans h'.outside
  clean known := h'.clean (h.clean known)

/-- **Replacing a piece of a text** by one that keeps its blocks keeps the blocks of the text. -/
theorem around (isQuote : ∀ q ∈ state, Text.isQuote q) {x : Text}
    (h : Keeps (openAfter state x) s t) {y : Text} (ends : Ends y) :
    Keeps state (x ++ (s ++ y)) (x ++ (t ++ y)) where
  strings := by
    simp only [openAfter_append, h.strings]
  outside := by
    simp only [outsideFrom_append, h.strings]
    exact h.outside.around _ (ends.outsideFrom
      (isQuote_of_mem_openAfter (isQuote_of_mem_openAfter isQuote)))
  clean known mem := by
    simp only [List.mem_append, not_or] at known mem
    rcases mem with before | here | behind
    · exact known.1 before
    · exact h.clean known.2.1 here
    · exact known.2.2 behind

theorem prepend (isQuote : ∀ q ∈ state, Text.isQuote q) {x : Text}
    (h : Keeps (openAfter state x) s t) : Keeps state (x ++ s) (x ++ t) := by
  have whole := h.around isQuote (y := []) nofun
  rwa [List.append_nil, List.append_nil] at whole

theorem append (isQuote : ∀ q ∈ state, Text.isQuote q) (h : Keeps state s t) {y : Text}
    (ends : Ends y) : Keeps state (s ++ y) (t ++ y) :=
  around (x := []) isQuote (by rwa [openAfter_nil]) ends

theorem headed (h : Keeps none s t) (known : Headed s) : Headed t := by
  obtain ⟨last, read⟩ := Option.isSome_iff_exists.1 known
  obtain ⟨last', read', -⟩ := h.outside.heads id read
  exact Option.isSome_iff_exists.2 ⟨last', read'⟩

theorem wordFree (h : Keeps none s t) (free : WordFree (outsideFrom none s)) :
    WordFree (outsideFrom none t) := by
  have whole := h.outside.free [] [] nofun (by simpa using free)
  simpa using whole

end Keeps

/-- Respelling what is recognised keeps the blocks of a text if each respelling does, whatever text is
behind it. -/
theorem Recogniser.keeps_substitute {α : Type} {r : Recogniser α} {respell : α → Text}
    (each : ∀ (state : Option Char), (∀ q ∈ state, Text.isQuote q) → ∀ a t,
      Keeps state (r.spell a ++ t) (respell a ++ t))
    {state : Option Char} (isQuote : ∀ q ∈ state, Text.isQuote q) (t : Text) :
    Keeps state t (r.substitute respell t) := by
  conv => lhs; rw [← r.substitute_spell t]
  refine Recogniser.substitute_rel (R := fun s t => ∀ state : Option Char,
    (∀ q ∈ state, Text.isQuote q) → Keeps state s t) (fun _ _ => .refl []) ?_ ?_ t state isQuote
  · intro c s t ih state isQuote
    exact (ih _ (isQuote_of_mem_openAfter isQuote)).prepend isQuote (x := [c])
  · intro a s t ih state isQuote
    exact ((ih _ (isQuote_of_mem_openAfter isQuote)).prepend isQuote (x := r.spell a)).trans
      (each state isQuote a t)

/-! ### What a pass replaces -/

variable {state : Option Char}

/-- A character that means nothing to blocks and strings. -/
def isInert (c : Char) : Bool := !isStructural c && !Text.isQuote c && c != '\\'

theorem isInert_iff {c : Char} :
    isInert c ↔ isStructural c = false ∧ Text.isQuote c = false ∧ c ≠ '\\' := by
  simp [isInert, and_assoc]

theorem isInert_of_isNameChar {c : Char} (isName : Text.isNameChar c) : isInert c := by
  by_contra other
  have known : c = ';' ∨ c = '{' ∨ c = '}' ∨ c = '"' ∨ c = '\'' ∨ c = '\\' := by
    simp only [isInert, isStructural, Text.isQuote, Bool.and_eq_true, Bool.not_eq_true', bne_iff_ne,
      Bool.or_eq_false_iff, beq_eq_false_iff_ne] at other
    grind
  rcases known with rfl | rfl | rfl | rfl | rfl | rfl <;> cases isName

/-- The digits of a suffix with the `_` before them are inert. -/
theorem isInert_of_mem_suffix {digits : Text} (alphanum : ∀ c ∈ digits, c.isAlphanum) :
    ∀ c ∈ '_' :: digits, isInert c := by
  intro c mem
  rcases List.mem_cons.1 mem with rfl | mem
  · rfl
  · exact isInert_of_isNameChar (by simp [Text.isNameChar, alphanum c mem])

/-- Outside strings an inert run may take the place of another if there is something other than spaces
in it. -/
theorem replaces_inert {old new : Text} (inert : ∀ c ∈ old, isInert c) (inert' : ∀ c ∈ new, isInert c)
    (inked : ∃ c ∈ new, Text.isSpace c = false)
    (free : ∀ u v, Ends v → WordFree (u ++ (old ++ v)) → WordFree (u ++ (new ++ v))) :
    Replaces old new := by
  have solid : ∀ c ∈ old, isStructural c = false := fun c mem => (isInert_iff.1 (inert c mem)).1
  have solid' : ∀ c ∈ new, isStructural c = false := fun c mem => (isInert_iff.1 (inert' c mem)).1
  refine ⟨fun depth => ?_, fun _ _ => ?_, free⟩
  · rw [levelAfter_of_solid solid', levelAfter_of_solid solid]
  · obtain ⟨c, mem, ink⟩ := inked
    have some : (new.any fun c => !Text.isSpace c) = true :=
      List.any_eq_true.2 ⟨c, mem, by simp [ink]⟩
    exact ⟨true, by rw [headAfter_of_solid solid', some, Bool.or_true], fun _ => rfl⟩

/-- Behind a character that does not stand in the word of marks nothing needs to be known of the text
before. -/
theorem replaces_behind {c : Char} (foreign : c ∉ Mark.word) {old new : Text}
    (inert : ∀ c ∈ old, isInert c) (inert' : ∀ c ∈ new, isInert c)
    (inked : ∃ c ∈ new, Text.isSpace c = false) (free : WordFree old → WordFree new) :
    Replaces (c :: old) (c :: new) := by
  have solid : ∀ c ∈ old, isStructural c = false := fun c mem => (isInert_iff.1 (inert c mem)).1
  have solid' : ∀ c ∈ new, isStructural c = false := fun c mem => (isInert_iff.1 (inert' c mem)).1
  refine ⟨fun depth => ?_, fun more read => ?_, fun u v ends whole => ?_⟩
  · exact (levelAfter_of_solid solid' (levelStep depth c)).trans (levelAfter_of_solid solid _).symm
  · rw [← List.singleton_append, headAfter_append] at read
    obtain ⟨middle, first, -⟩ := Option.bind_eq_some_iff.1 read
    obtain ⟨middle', first', -⟩ := headAfter_mono more first
    obtain ⟨d, mem, ink⟩ := inked
    have some : (new.any fun c => !Text.isSpace c) = true :=
      List.any_eq_true.2 ⟨d, mem, by simp [ink]⟩
    refine ⟨true, ?_, fun _ => rfl⟩
    rw [← List.singleton_append, headAfter_append, first', Option.bind_some,
      headAfter_of_solid solid', some, Bool.or_true]
  · rw [List.cons_append, wordFree_append_cons foreign] at whole ⊢
    refine ⟨whole.1, ?_⟩
    cases v with
    | nil =>
      rw [List.append_nil] at whole ⊢
      exact free whole.2
    | cons d v =>
      have last := ends d rfl
      rw [wordFree_append_cons last] at whole ⊢
      exact ⟨free whole.2.1, whole.2.2⟩

/-- An inert run stands in a string as a whole, or outside. -/
theorem outsideFrom_inert (isQuote : ∀ q ∈ state, Text.isQuote q) {t : Text}
    (inert : ∀ c ∈ t, isInert c) :
    openAfter state t = state ∧ outsideFrom state t = if state.isNone then t else [] :=
  outsideFrom_of_no_quote isQuote fun c mem => (isInert_iff.1 (inert c mem)).2.1

/-- What may take the place of an inert run outside strings may do so everywhere. -/
theorem keeps_inert (isQuote : ∀ q ∈ state, Text.isQuote q) {old new : Text}
    (inert : ∀ c ∈ old, isInert c) (inert' : ∀ c ∈ new, isInert c)
    (inked : ∃ c ∈ new, Text.isSpace c = false)
    (free : ∀ u v, Ends v → WordFree (u ++ (old ++ v)) → WordFree (u ++ (new ++ v))) :
    Keeps state old new := by
  obtain ⟨opens, left⟩ := outsideFrom_inert isQuote inert
  obtain ⟨opens', left'⟩ := outsideFrom_inert isQuote inert'
  refine ⟨opens'.trans opens.symm, ?_, fun _ mem => (isInert_iff.1 (inert' _ mem)).2.2 rfl⟩
  rw [left, left']
  split
  · exact replaces_inert inert inert' inked free
  · exact .refl []

theorem keeps_behind (isQuote : ∀ q ∈ state, Text.isQuote q) {c : Char} (foreign : c ∉ Mark.word)
    {old new : Text} (inert : ∀ c ∈ old, isInert c) (inert' : ∀ c ∈ new, isInert c)
    (inked : ∃ c ∈ new, Text.isSpace c = false) (free : WordFree old → WordFree new) :
    Keeps state (c :: old) (c :: new) := by
  have known := isQuote_of_mem_openAfter (t := [c]) isQuote
  obtain ⟨opens, left⟩ := outsideFrom_inert known inert
  obtain ⟨opens', left'⟩ := outsideFrom_inert known inert'
  have pieces (t : Text) : openAfter state (c :: t) = openAfter (openAfter state [c]) t ∧
      outsideFrom state (c :: t) = outsideFrom state [c] ++ outsideFrom (openAfter state [c]) t :=
    ⟨openAfter_append state [c] t, outsideFrom_append state [c] t⟩
  refine ⟨by rw [(pieces new).1, (pieces old).1, opens, opens'], ?_, fun clean mem => ?_⟩
  · rw [(pieces old).2, (pieces new).2, left, left']
    split
    next outside =>
      have here : outsideFrom state [c] = [c] := by
        cases state with
        | none => rfl
        | some quote =>
          rw [openAfter] at outside
          rw [outsideFrom]
          split at outside
          next same => rw [if_pos same, outsideFrom_nil]
          next => cases outside
      rw [here]
      exact replaces_behind foreign inert inert' inked free
    next => exact .refl _
  · rcases List.mem_cons.1 mem with same | mem
    · exact clean (same ▸ List.mem_cons_self)
    · exact (isInert_iff.1 (inert' _ mem)).2.2 rfl

/-- A suffix may be appended to every text. -/
theorem keeps_attach (isQuote : ∀ q ∈ state, Text.isQuote q) (t : Text) {digits : Text}
    (alphanum : ∀ c ∈ digits, c.isAlphanum) (few : digits.length ≤ 10) :
    Keeps state t (Suffix.attach digits t) := by
  have inert := isInert_of_mem_suffix alphanum
  have solid : ∀ c ∈ '_' :: digits, isStructural c = false := fun c mem =>
    (isInert_iff.1 (inert c mem)).1
  obtain ⟨opens, left⟩ := outsideFrom_inert (isQuote_of_mem_openAfter (t := t) isQuote) inert
  refine ⟨by rw [Suffix.attach, openAfter_append, opens], ?_, fun clean mem => ?_⟩
  · rw [Suffix.attach, outsideFrom_append, left]
    split
    next =>
      refine ⟨fun depth => ?_, fun more read => ?_, fun u v ends free => ?_⟩
      · rw [levelAfter_append, levelAfter_of_solid solid]
      · obtain ⟨next', read', -⟩ := headAfter_mono more read
        refine ⟨true, ?_, fun _ => rfl⟩
        rw [headAfter_append, read', Option.bind_some, headAfter_of_solid solid]
        simp [Text.isSpace]
      · rw [← List.append_assoc] at free
        have whole := wordFree_attach_append free ends alphanum few
        simpa [Suffix.attach] using whole
    next =>
      rw [List.append_nil]
      exact .refl _
  · rcases List.mem_append.1 mem with before | here
    · exact clean before
    · exact (isInert_iff.1 (inert _ here)).2.2 rfl

end ScopedCss.Block
