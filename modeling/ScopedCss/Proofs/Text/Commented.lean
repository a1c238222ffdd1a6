import ScopedCss.Comment
import ScopedCss.Proofs.Rule.Frames
import ScopedCss.Proofs.Text.Outside

/-!
# Texts with marks of comments in them

A comment that stands between rules or between declarations has nothing but spaces and comments between
it and the structural character before it.  Once it is set aside its mark stands there.

A text is related to the same text with such marks in it (`Commented`), character by character: a mark
may only be put where nothing is begun (`Spot`), and so every other word of the text stays in one piece
(`Commented.split_begun`).  Shielding and unshielding strings keep the relation, as no mark stands in a
string.
-/
namespace ScopedCss

open Quoted ScopedCss.Frame

/-! ### Where a comment may stand -/

/-- What a place in a text is in: a string, or no string, and then whether anything other than spaces is
begun behind the last structural character. -/
inductive Spot where
  | inside (quote : Char)
  | outside (begun : Bool)
deriving DecidableEq

namespace Spot

/-- Where nothing is begun. -/
abbrev fresh : Spot := .outside false

/-- Behind one more character. -/
def step : Spot → Char → Spot
  | inside quote, c => if c = quote then outside true else inside quote
  | outside begun, c =>
    if Text.isQuote c then inside c else outside (!isStructural c && (begun || !Text.isSpace c))

/-- Behind a text. -/
def after (spot : Spot) (t : Text) : Spot := t.foldl step spot

/-- The quote of the string that is open. -/
def quote? : Spot → Option Char
  | inside quote => some quote
  | outside _ => none

/-- Whether something is begun. -/
def isBegun : Spot → Bool
  | inside _ => true
  | outside begun => begun

variable {spot : Spot} {c : Char} {s t : Text}

@[simp] theorem after_nil (spot : Spot) : spot.after [] = spot := rfl

theorem after_cons (spot : Spot) (c : Char) (t : Text) : spot.after (c :: t) = (spot.step c).after t :=
  rfl

theorem after_append (spot : Spot) (s t : Text) : spot.after (s ++ t) = (spot.after s).after t :=
  List.foldl_append

theorem quote?_step (spot : Spot) (c : Char) : (spot.step c).quote? = openAfter spot.quote? [c] := by
  cases spot with
  | inside quote =>
    rw [step, quote?, openAfter, openAfter_nil]
    split <;> rfl
  | outside begun =>
    rw [step, quote?, openAfter, openAfter_nil]
    split <;> rfl

theorem quote?_after (spot : Spot) (t : Text) : (spot.after t).quote? = openAfter spot.quote? t := by
  induction t generalizing spot with
  | nil => rw [openAfter_nil, after_nil]
  | cons c t ih =>
    rw [after_cons, ih, quote?_step, ← openAfter_append]
    rfl

/-- What is begun stays so up to the next structural character. -/
theorem isBegun_step (begun : spot.isBegun) (solid : isStructural c = false) : (spot.step c).isBegun := by
  cases spot with
  | inside quote =>
    rw [step]
    split <;> rfl
  | outside more =>
    obtain rfl : more = true := begun
    rw [step]
    split
    · rfl
    · simp [isBegun, solid]

/-- A character other than a space begins something. -/
theorem isBegun_step_of_not_space (ink : Text.isSpace c = false) (solid : isStructural c = false) :
    (spot.step c).isBegun := by
  cases spot with
  | inside quote =>
    rw [step]
    split <;> rfl
  | outside more =>
    rw [step]
    split
    · rfl
    · simp [isBegun, ink, solid]

/-- Nothing is begun behind a structural character outside strings. -/
theorem step_structural (outside : spot.quote? = none) (structural : isStructural c) :
    spot.step c = fresh := by
  cases spot with
  | inside quote => cases outside
  | outside more =>
    have plain : Text.isQuote c = false := by
      simp only [isStructural, Bool.or_eq_true, beq_iff_eq] at structural
      rcases structural with (rfl | rfl) | rfl <;> rfl
    rw [step, plain, structural]
    rfl

/-- Spaces begin nothing. -/
theorem after_spaces (more : Bool) (spaces : ∀ c ∈ t, Text.isSpace c) :
    (Spot.outside more).after t = .outside more := by
  induction t with
  | nil => rfl
  | cons c t ih =>
    have space := spaces c List.mem_cons_self
    have plain : Text.isQuote c = false := by
      by_contra quote
      rw [Bool.not_eq_false, Text.isQuote, Bool.or_eq_true, beq_iff_eq, beq_iff_eq] at quote
      rcases quote with rfl | rfl <;> cases space
    have solid := isStructural_of_isSpace space
    rw [after_cons, step, plain, solid, space]
    simpa using ih fun d mem => spaces d (.tail c mem)

end Spot

/-! ### Marks of comments -/

theorem Mark.isMarkChar_of_mem_comment {c : Char} (mem : c ∈ comment) : isMarkChar c := by
  have all : comment.all isMarkChar := by decide
  exact List.all_eq_true.1 all c mem

theorem Mark.not_mem_comment {c : Char} (foreign : isMarkChar c = false) : c ∉ comment := by
  intro mem
  rw [isMarkChar_of_mem_comment mem] at foreign
  cases foreign

/-- A text, and the same text with a number of marks of comments in it.  They stand where nothing is
begun. -/
inductive Commented : ℕ → Spot → Text → Text → Prop where
  | nil (spot : Spot) : Commented 0 spot [] []
  | plain {n : ℕ} {spot : Spot} {s t : Text} (c : Char) :
    Commented n (spot.step c) s t → Commented n spot (c :: s) (c :: t)
  | mark {n : ℕ} {s t : Text} :
    Commented n .fresh s t → Commented (n + 1) .fresh s (Mark.comment ++ t)

namespace Commented
variable {n m : ℕ} {spot : Spot} {s t u s' t' : Text} {c : Char}

/-! ### Putting texts together -/

theorem refl (spot : Spot) (t : Text) : Commented 0 spot t t := by
  induction t generalizing spot with
  | nil => exact .nil spot
  | cons c t ih => exact .plain c (ih _)

theorem prepend (u : Text) (h : Commented n (spot.after u) s t) : Commented n spot (u ++ s) (u ++ t) := by
  induction u generalizing spot with
  | nil => exact h
  | cons c u ih => exact .plain c (ih h)

theorem append (h : Commented n spot s t) (h' : Commented m (spot.after s) s' t') :
    Commented (n + m) spot (s ++ s') (t ++ t') := by
  induction h with
  | nil spot => rwa [Nat.zero_add]
  | plain c _ ih => exact .plain c (ih h')
  | @mark n s t _ ih =>
    rw [Nat.succ_add, List.append_assoc]
    exact .mark (ih h')

/-! ### What both texts share -/

theorem subset (h : Commented n spot s t) : s ⊆ t := by
  induction h with
  | nil => exact List.Subset.refl _
  | plain c _ ih => exact List.cons_subset_cons c ih
  | mark _ ih => exact List.subset_append_of_subset_right _ ih

theorem mem_or_mem (h : Commented n spot s t) (mem : c ∈ t) : c ∈ s ∨ c ∈ Mark.comment := by
  induction h with
  | nil => cases mem
  | plain d _ ih =>
    rcases List.mem_cons.1 mem with rfl | mem
    · exact .inl List.mem_cons_self
    · exact (ih mem).imp_left (.tail d)
  | mark _ ih => exact (List.mem_append.1 mem).elim .inr ih

theorem no_backslash (h : Commented n spot s t) (clean : '\\' ∉ s) : '\\' ∉ t := fun mem =>
  (h.mem_or_mem mem).elim clean (Mark.not_mem_comment rfl)

theorem length_eq (h : Commented n spot s t) : t.length = s.length + n * Mark.comment.length := by
  induction h with
  | nil => rfl
  | plain c _ ih => rw [List.length_cons, List.length_cons, ih]; omega
  | mark _ ih => rw [List.length_append, ih, Nat.succ_mul]; omega

/-- How many marks there are follows from the texts. -/
theorem count_unique {spot' : Spot} (h : Commented n spot s t) (h' : Commented m spot' s t) : n = m := by
  have same : s.length + n * Mark.comment.length = s.length + m * Mark.comment.length :=
    h.length_eq.symm.trans h'.length_eq
  exact Nat.eq_of_mul_eq_mul_right (by decide) (Nat.add_left_cancel same)

theorem eq_of_zero (h : Commented 0 spot s t) : s = t := by
  generalize zero : 0 = n at h
  induction h with
  | nil => rfl
  | plain c _ ih => rw [ih zero]
  | mark => cases zero

/-! ### Taking texts apart -/

/-- Where something is begun a text stays in one piece up to the next structural character. -/
theorem split_begun (begun : spot.isBegun) (solid : ∀ c ∈ u, isStructural c = false)
    (h : Commented n spot s (u ++ t)) : ∃ s', s = u ++ s' ∧ Commented n (spot.after u) s' t := by
  induction u generalizing spot s with
  | nil => exact ⟨s, rfl, h⟩
  | cons c u ih =>
    generalize whole : c :: u ++ t = v at h
    cases h with
    | nil => cases whole
    | plain d h =>
      cases whole
      obtain ⟨s', rfl, later⟩ := ih (Spot.isBegun_step begun (solid c List.mem_cons_self))
        (fun d mem => solid d (.tail c mem)) h
      exact ⟨s', rfl, later⟩
    | mark h => cases begun

theorem split_begun_left (begun : spot.isBegun) (solid : ∀ c ∈ u, isStructural c = false)
    (h : Commented n spot (u ++ s) t) : ∃ t', t = u ++ t' ∧ Commented n (spot.after u) s t' := by
  induction u generalizing spot t with
  | nil => exact ⟨t, rfl, h⟩
  | cons c u ih =>
    generalize whole : c :: u ++ s = v at h
    cases h with
    | nil => cases whole
    | plain d h =>
      cases whole
      obtain ⟨t', rfl, later⟩ := ih (Spot.isBegun_step begun (solid c List.mem_cons_self))
        (fun d mem => solid d (.tail c mem)) h
      exact ⟨t', rfl, later⟩
    | mark h => cases begun

/-- Where something is begun, what is in one piece stands in front of both texts or of neither. -/
theorem prefix_iff (begun : spot.isBegun) (solid : ∀ c ∈ u, isStructural c = false)
    (h : Commented n spot s t) : u <+: s ↔ u <+: t := by
  constructor
  · rintro ⟨rest, rfl⟩
    obtain ⟨t', rfl, -⟩ := split_begun_left begun solid h
    exact List.prefix_append u t'
  · rintro ⟨rest, rfl⟩
    obtain ⟨s', rfl, -⟩ := split_begun begun solid h
    exact List.prefix_append u s'

/-- Where something is begun, and nothing structural follows, there is no mark. -/
theorem eq_of_begun (begun : spot.isBegun) (solid : ∀ c ∈ t, isStructural c = false)
    (h : Commented n spot s t) : s = t := by
  rw [← List.append_nil t] at h
  obtain ⟨s', rfl, last⟩ := split_begun begun solid h
  generalize none : ([] : Text) = v at last
  generalize spot.after t = final at last
  cases last with
  | nil => exact List.append_nil t
  | plain => cases none
  | mark => cases none

/-- Both texts can be cut at a character that does not stand in marks. -/
theorem exists_cut (foreign : c ∉ Mark.comment) (h : Commented n spot s (t ++ c :: u)) :
    ∃ k m x y, n = k + m ∧ s = x ++ c :: y ∧ Commented k spot x t ∧
      Commented m ((spot.after x).step c) y u := by
  generalize whole : t ++ c :: u = v at h
  induction h generalizing t with
  | nil => simp at whole
  | @plain n spot s v d h ih =>
    cases t with
    | nil =>
      cases whole
      exact ⟨0, n, [], s, by simp, rfl, .nil spot, h⟩
    | cons e t =>
      cases whole
      obtain ⟨k, m, x, y, sum, rfl, first, second⟩ := ih rfl
      exact ⟨k, m, d :: x, y, sum, rfl, .plain d first, second⟩
  | @mark n s v h ih =>
    obtain ⟨front, rfl, rest⟩ : ∃ front, t = Mark.comment ++ front ∧ front ++ c :: u = v := by
      rcases List.append_eq_append_iff.1 whole with ⟨more, split, rest⟩ | ⟨more, split, rest⟩
      · cases more with
        | nil => exact ⟨[], by simpa using split.symm, by simpa using rest⟩
        | cons d more =>
          cases rest
          exact absurd (split ▸ List.mem_append_right _ List.mem_cons_self) foreign
      · exact ⟨more, split, rest.symm⟩
    obtain ⟨k, m, x, y, rfl, rfl, first, second⟩ := ih rest
    exact ⟨k + 1, m, x, y, by omega, rfl, .mark first, second⟩

theorem exists_cut_left (h : Commented n spot (s ++ c :: u) t) :
    ∃ k m x y, n = k + m ∧ t = x ++ c :: y ∧ Commented k spot s x ∧
      Commented m ((spot.after s).step c) u y := by
  generalize whole : s ++ c :: u = v at h
  induction h generalizing s with
  | nil => simp at whole
  | @plain n spot v t d h ih =>
    cases s with
    | nil =>
      cases whole
      exact ⟨0, n, [], t, by simp, rfl, .nil spot, h⟩
    | cons e s =>
      cases whole
      obtain ⟨k, m, x, y, sum, rfl, first, second⟩ := ih rfl
      exact ⟨k, m, d :: x, y, sum, rfl, .plain d first, second⟩
  | @mark n v t h ih =>
    obtain ⟨k, m, x, y, rfl, rfl, first, second⟩ := ih whole
    exact ⟨k + 1, m, Mark.comment ++ x, y, by omega, by simp, .mark first, second⟩

theorem exists_cons (foreign : c ≠ '%') (h : Commented n spot s (c :: t)) :
    ∃ s', s = c :: s' ∧ Commented n (spot.step c) s' t := by
  generalize whole : c :: t = v at h
  cases h with
  | nil => cases whole
  | plain d h =>
    cases whole
    exact ⟨_, rfl, h⟩
  | mark h => exact absurd (List.cons.inj whole).1 foreign

/-- Spaces in front of the text with marks stand in front of the other. -/
theorem split_spaces (spaces : ∀ c ∈ u, Text.isSpace c) (h : Commented n .fresh s (u ++ t)) :
    ∃ s', s = u ++ s' ∧ Commented n .fresh s' t := by
  induction u generalizing s with
  | nil => exact ⟨s, rfl, h⟩
  | cons c u ih =>
    have space := spaces c List.mem_cons_self
    have foreign : c ≠ '%' := by
      rintro rfl
      cases space
    have same : Spot.fresh.step c = .fresh :=
      Spot.after_spaces (t := [c]) false (by simpa using space)
    obtain ⟨s', rfl, later⟩ := h.exists_cons foreign
    obtain ⟨rest, rfl, last⟩ := ih (fun d mem => spaces d (.tail c mem)) (same ▸ later)
    exact ⟨rest, rfl, last⟩

/-- In front of a structural character it does not matter what is begun. -/
theorem respot (outside : spot.quote? = none) (structural : ∀ c ∈ t.head?, isStructural c)
    (h : Commented n .fresh s t) : Commented n spot s t := by
  generalize start : Spot.fresh = spot' at h
  cases h with
  | nil => exact .nil spot
  | plain c h =>
    subst start
    refine .plain c ?_
    rw [Spot.step_structural outside (structural c rfl)]
    rwa [Spot.step_structural rfl (structural c rfl)] at h
  | mark h => cases structural '%' rfl

/-- A text without structural characters starts with spaces, in which the marks stand, and goes on in one
piece. -/
theorem exists_filler (solid : ∀ c ∈ t, isStructural c = false) (h : Commented n .fresh s t) :
    ∃ spaces filler rest, s = spaces ++ rest ∧ t = filler ++ rest ∧ (∀ c ∈ spaces, Text.isSpace c) ∧
      Filler filler ∧ (∀ c ∈ rest.head?, Text.isSpace c = false) ∧ Commented n .fresh spaces filler := by
  generalize start : Spot.fresh = spot at h
  induction h with
  | nil => exact ⟨[], [], [], rfl, rfl, nofun, .nil, nofun, start ▸ .nil _⟩
  | @plain n spot s t c h ih =>
    subst start
    have here := solid c List.mem_cons_self
    have later : ∀ d ∈ t, isStructural d = false := fun d mem => solid d (.tail c mem)
    by_cases space : Text.isSpace c
    · have same : Spot.fresh.step c = .fresh :=
        Spot.after_spaces (t := [c]) false (by simpa using space)
      obtain ⟨spaces, filler, rest, rfl, rfl, blank, fill, ink, lead⟩ := ih later same.symm
      refine ⟨c :: spaces, c :: filler, rest, rfl, rfl, ?_, .space space fill, ink, .plain c (same.symm ▸ lead)⟩
      intro d mem
      rcases List.mem_cons.1 mem with rfl | mem
      · exact space
      · exact blank d mem
    · rw [Bool.not_eq_true] at space
      obtain rfl := eq_of_begun (Spot.isBegun_step_of_not_space space here) later h
      obtain rfl := count_unique h (refl (Spot.fresh.step c) s)
      refine ⟨[], [], c :: s, rfl, rfl, nofun, .nil, ?_, .nil _⟩
      rintro d ⟨⟩
      exact space
  | @mark n s t h ih =>
    obtain ⟨spaces, filler, rest, rfl, rfl, blank, fill, ink, lead⟩ :=
      ih (fun d mem => solid d (List.mem_append_right _ mem)) rfl
    exact ⟨spaces, Mark.comment ++ filler, rest, rfl, by simp, blank, .comment fill, ink, .mark lead⟩

/-! ### Strings -/

theorem after_inside {quote : Char} (absent : quote ∉ t) :
    (Spot.inside quote).after t = .inside quote := by
  induction t with
  | nil => rfl
  | cons c t ih =>
    have other : c ≠ quote := fun same => absent (same ▸ List.mem_cons_self)
    rw [Spot.after_cons, Spot.step, if_neg other]
    exact ih fun mem => absent (.tail c mem)

theorem not_mem_ofChar {quote : Char} (isQuote : Text.isQuote quote) (known : c ∈ Mark.chars) :
    quote ∉ Mark.ofChar c := by
  intro mem
  have foreign := isQuote_of_isMarkChar (Mark.isMarkChar_of_mem known mem)
  rw [isQuote] at foreign
  cases foreign

theorem after_shield_singleton (isQuote : ∀ q ∈ spot.quote?, Text.isQuote q) (clean : c ≠ '\\') :
    spot.after (shieldFrom spot.quote? [c]) = spot.step c := by
  cases spot with
  | outside more =>
    rw [Spot.quote?, shieldFrom_outside clean]
    cases hc : (if Text.isQuote c then some c else none : Option Char) <;> rfl
  | inside quote =>
    rw [Spot.quote?]
    by_cases same : c = quote
    · rw [same, shieldFrom_quote (isQuote quote rfl)]
      rfl
    · rw [shieldFrom_inside clean same, Spot.step, if_neg same]
      have nothing : shieldFrom (some quote) [] = [] := rfl
      rw [nothing, List.append_nil]
      by_cases known : c ∈ Mark.chars
      · exact after_inside (not_mem_ofChar (isQuote quote rfl) known)
      · rw [Mark.ofChar_of_not_mem known]
        exact after_inside fun mem => same (List.mem_singleton.1 mem).symm

/-- Shielding strings leaves the marks where they stand. -/
theorem shield (isQuote : ∀ q ∈ spot.quote?, Text.isQuote q) (clean : '\\' ∉ s)
    (h : Commented n spot s t) :
    Commented n spot (shieldFrom spot.quote? s) (shieldFrom spot.quote? t) := by
  induction h with
  | nil spot =>
    have nothing (state : Option Char) : shieldFrom state [] = [] := by cases state <;> rfl
    rw [nothing]
    exact .nil spot
  | @plain n spot s t c h ih =>
    have here : c ≠ '\\' := fun same => clean (same ▸ List.mem_cons_self)
    have alone : '\\' ∉ [c] := fun mem => here (List.mem_singleton.1 mem).symm
    have split (t : Text) : shieldFrom spot.quote? (c :: t) =
        shieldFrom spot.quote? [c] ++ shieldFrom (spot.step c).quote? t := by
      rw [Spot.quote?_step]
      exact shieldFrom_append isQuote alone t
    rw [split s, split t]
    refine prepend _ ?_
    rw [after_shield_singleton isQuote here]
    refine ih ?_ fun mem => clean (.tail c mem)
    rw [Spot.quote?_step]
    exact isQuote_of_mem_openAfter isQuote
  | @mark n s t h ih =>
    have same : shieldFrom none (Mark.comment ++ t) = Mark.comment ++ shieldFrom none t :=
      shieldFrom_append isQuote_of_mem_none (by decide) t
    show Commented (n + 1) .fresh (shieldFrom none s) (shieldFrom none (Mark.comment ++ t))
    rw [same]
    exact .mark (ih isQuote_of_mem_none clean)

theorem outside_comment_append (t : Text) : outside (Mark.comment ++ t) = Mark.comment ++ outside t := by
  obtain ⟨opens, left⟩ := outsideFrom_of_no_quote isQuote_of_mem_none fun c mem =>
    isQuote_of_isMarkChar (Mark.isMarkChar_of_mem_comment mem)
  rw [outside, outsideFrom_append, opens, left]
  rfl

/-- The mark of a comment stays as it is. -/
theorem unmark_comment_append {d : Char} (known : d ∈ Mark.chars)
    (free : WordFree (outside (Mark.comment ++ t))) :
    unmark (Mark.comment ++ t) d = Mark.comment ++ unmark t d := by
  have suffixes (u : Text) (inside : u <:+ Mark.comment) : unmark (u ++ t) d = u ++ unmark t d := by
    induction u with
    | nil => rfl
    | cons c u ih =>
      obtain ⟨front, split⟩ := inside
      have part : WordFree (outside (c :: u ++ t)) := by
        refine free.part ?_
        obtain ⟨opens, left⟩ := outsideFrom_of_no_quote isQuote_of_mem_none (t := front) fun e mem =>
          isQuote_of_isMarkChar (Mark.isMarkChar_of_mem_comment (split ▸ List.mem_append_left _ mem))
        rw [← split, List.append_assoc]
        show outside _ <:+: outsideFrom none (front ++ _)
        rw [outsideFrom_append, opens]
        exact (List.suffix_append _ _).isInfix
      have first : Quoted.unmark (c :: (u ++ t)) d = c :: Quoted.unmark (u ++ t) d :=
        unmark_cons (no_ofChar_at_front known part)
      exact first.trans (congrArg (c :: ·) (ih ((List.suffix_cons c u).trans ⟨front, split⟩)))
  exact suffixes Mark.comment List.suffix_rfl

theorem ofChar_solid {d : Char} (known : d ∈ Mark.chars) : ∀ c ∈ Mark.ofChar d, isStructural c = false := by
  intro c mem
  by_contra structural
  rw [Bool.not_eq_false, isStructural, Bool.or_eq_true, Bool.or_eq_true, beq_iff_eq, beq_iff_eq,
    beq_iff_eq] at structural
  have written := Mark.isMarkChar_of_mem known mem
  rcases structural with (rfl | rfl) | rfl <;> cases written

/-- A mark of a structural character starts in both texts or in neither. -/
theorem ofChar_front_iff (isQuote : ∀ q ∈ spot.quote?, Text.isQuote q) {d : Char}
    (known : d ∈ Mark.chars) (free : WordFree (outsideFrom spot.quote? s))
    (free' : WordFree (outsideFrom spot.quote? t)) (h : Commented n spot s t) :
    Mark.ofChar d <+: s ↔ Mark.ofChar d <+: t := by
  cases spot with
  | outside more => exact iff_of_false (no_ofChar_at_front known free) (no_ofChar_at_front known free')
  | inside quote => exact h.prefix_iff rfl (ofChar_solid known)

theorem step_inside_of_mem_chars {quote d : Char} (isQuote : Text.isQuote quote)
    (known : d ∈ Mark.chars) : (Spot.inside quote).step d = .inside quote := by
  rw [Spot.step, if_neg]
  rintro rfl
  rcases Mark.mem_chars.1 known with rfl | rfl | rfl | rfl | rfl <;> cases isQuote

/-- Taking up the marks of one structural character leaves the marks of comments where they stand. -/
theorem unmark (isQuote : ∀ q ∈ spot.quote?, Text.isQuote q) {d : Char} (known : d ∈ Mark.chars)
    (free : WordFree (outsideFrom spot.quote? s)) (free' : WordFree (outsideFrom spot.quote? t))
    (h : Commented n spot s t) : Commented n spot (Quoted.unmark s d) (Quoted.unmark t d) := by
  -- One step takes a whole mark, so the induction is on how much of the text is left.
  induction size : t.length using Nat.strongRecOn generalizing n spot s t with
  | ind len ih =>
    subst size
    cases h with
    | nil =>
      rw [unmark_nil]
      exact .nil spot
    | @mark n s t h =>
      rw [unmark_comment_append known free']
      refine .mark (ih t.length ?_ isQuote free (free'.part ?_) h rfl)
      · rw [List.length_append]
        exact Nat.lt_add_of_pos_left (by decide)
      · show outside t <:+: outside (Mark.comment ++ t)
        rw [outside_comment_append]
        exact (List.suffix_append _ _).isInfix
    | @plain n _ s t c h =>
      have whole : Commented n spot (c :: s) (c :: t) := .plain c h
      by_cases front : Mark.ofChar d <+: c :: t
      · cases spot with
        | outside more => exact absurd front (no_ofChar_at_front known free')
        | inside quote =>
          have away := not_mem_ofChar (isQuote quote rfl) known
          have cut (t : Text) := (outsideFrom_mark (isQuote quote rfl)
            (fun e => Mark.isMarkChar_of_mem known) t).2
          obtain ⟨rest, split⟩ := front
          rw [← split] at whole free' ⊢
          obtain ⟨s', split', later⟩ := split_begun rfl (ofChar_solid known) whole
          rw [after_inside away] at later
          rw [split'] at free ⊢
          rw [unmark_ofChar_append, unmark_ofChar_append]
          refine .plain d ?_
          rw [step_inside_of_mem_chars (isQuote quote rfl) known]
          refine ih rest.length ?_ isQuote (cut s' ▸ free) (cut rest ▸ free') later rfl
          rw [← split, List.length_append]
          exact Nat.lt_add_of_pos_left (List.length_pos_iff.2 (Mark.ofChar_ne_nil d))
      · have front' := mt (whole.ofChar_front_iff isQuote known free free').1 front
        have later := wordFree_outsideFrom_tail free
        have later' := wordFree_outsideFrom_tail free'
        have quotes := isQuote_of_mem_openAfter (t := [c]) isQuote
        rw [← Spot.quote?_step] at later later' quotes
        rw [unmark_cons front, unmark_cons front']
        exact .plain c (ih t.length (by simp) quotes later later' h rfl)

/-- Unshielding strings leaves the marks of comments where they stand. -/
theorem unshield (isQuote : ∀ q ∈ spot.quote?, Text.isQuote q)
    (free : WordFree (outsideFrom spot.quote? s)) (free' : WordFree (outsideFrom spot.quote? t))
    (h : Commented n spot s t) : Commented n spot (Quoted.unshield s) (Quoted.unshield t) := by
  rw [unshield_eq_foldl, unshield_eq_foldl]
  have each := List.foldl_rel (l := Mark.chars) (f := Quoted.unmark) (g := Quoted.unmark)
    (r := fun s t => WordFree (outsideFrom spot.quote? s) ∧ WordFree (outsideFrom spot.quote? t) ∧
      Commented n spot s t) ⟨free, free', h⟩ fun d known s t ⟨free, free', h⟩ => by
    refine ⟨?_, ?_, unmark isQuote known free free' h⟩
    · exact (outsideFrom_unmark isQuote known free).2.symm ▸ free
    · exact (outsideFrom_unmark isQuote known free').2.symm ▸ free'
  exact each.2.2

/-- A text has no word that it does not have with marks in it. -/
theorem wordFree (h : Commented n spot s t) (free : WordFree t) : WordFree s := by
  intro inside
  induction h with
  | nil => exact absurd (List.infix_nil.1 inside) (by decide)
  | @plain n spot s t c h ih =>
    rcases List.infix_cons_iff.1 inside with ⟨rest, split⟩ | later
    · -- The first letter begins something, and the rest of the word follows in one piece.
      obtain ⟨rfl, rfl⟩ : c = '_' ∧ s = "IN_PLACEHOLDER".toList ++ rest := by
        have shape : '_' :: ("IN_PLACEHOLDER".toList ++ rest) = c :: s := split
        rw [List.cons.injEq] at shape
        exact ⟨shape.1.symm, shape.2.symm⟩
      have all : ("IN_PLACEHOLDER".toList.all fun d => !isStructural d) = true := by decide
      have solid : ∀ d ∈ "IN_PLACEHOLDER".toList, isStructural d = false := fun d mem => by
        simpa using List.all_eq_true.1 all d mem
      obtain ⟨t', rfl, -⟩ := split_begun_left (Spot.isBegun_step_of_not_space rfl rfl) solid h
      exact free ⟨[], t', rfl⟩
    · exact ih (free.part (List.suffix_cons c t).isInfix) later
  | mark _ ih => exact ih (free.part (List.suffix_append _ _).isInfix) inside

end Commented
end ScopedCss
