import ScopedCss.Proofs.Rule.Niches
import ScopedCss.Proofs.Text.Commented

/-!
# Rules between comments

A comment between rules leaves the rules as they are: with and without its mark the text has the same
blocks (`layoutFrom_commented`), and scanned it has the same selectors and frames (`matched_scan`).

The mark may stand in front of a selector, where it is filler, or behind a block, where it keeps spaces
from the frame of that block (`past_commented`).  Only a run of nothing but filler would take the mark for
its selector; so no selector may be blank.
-/
namespace ScopedCss

open Quoted Block ScopedCss.Frame

/-! ### Blocks -/

namespace Block

theorem layoutFrom_zero_cons {c : Char} (clean : c ≠ '\\') (t : Text) :
    layoutFrom 0 (c :: t) =
      if c = '{' then ([], ⟨[], ((layoutFrom 1 t).1, (layoutFrom 1 t).2.front) :: (layoutFrom 1 t).2.blocks⟩)
      else ([], (layoutFrom 0 t).2.cons c) := by
  rw [layoutFrom]
  exact fun _ _ same => absurd same clean

theorem layoutFrom_succ_cons {c : Char} (clean : c ≠ '\\') (depth : Nat) (t : Text) :
    layoutFrom (depth + 1) (c :: t) =
      if c = '}' ∧ depth = 0 then ([], (layoutFrom 0 t).2.cons '}')
      else (c :: (layoutFrom (if c = '{' then depth + 2 else if c = '}' then depth else depth + 1) t).1,
        (layoutFrom (if c = '{' then depth + 2 else if c = '}' then depth else depth + 1) t).2) := by
  rw [layoutFrom]
  exact fun _ _ same => absurd same clean

/-- The mark of a comment belongs to the text it stands in. -/
theorem layoutFrom_comment_append (t : Text) :
    (layoutFrom 0 (Mark.comment ++ t)).2 = ⟨Mark.comment ++ (layoutFrom 0 t).2.front, (layoutFrom 0 t).2.blocks⟩ ∧
      ∀ depth, layoutFrom (depth + 1) (Mark.comment ++ t) =
        (Mark.comment ++ (layoutFrom (depth + 1) t).1, (layoutFrom (depth + 1) t).2) := by
  have part (u : Text) (inside : u ⊆ Mark.comment) :
      (layoutFrom 0 (u ++ t)).2 = ⟨u ++ (layoutFrom 0 t).2.front, (layoutFrom 0 t).2.blocks⟩ ∧
        ∀ depth, layoutFrom (depth + 1) (u ++ t) = (u ++ (layoutFrom (depth + 1) t).1, (layoutFrom (depth + 1) t).2) := by
    induction u with
    | nil => exact ⟨rfl, fun _ => rfl⟩
    | cons c u ih =>
      obtain ⟨front, content⟩ := ih fun d mem => inside (.tail c mem)
      have written := Mark.isMarkChar_of_mem_comment (inside List.mem_cons_self)
      have other (d : Char) (foreign : Mark.isMarkChar d = false) : c ≠ d := ne_of_isMarkChar written foreign
      have clean := other '\\' rfl
      refine ⟨?_, fun depth => ?_⟩
      · rw [List.cons_append, layoutFrom_zero_cons clean, if_neg (other '{' rfl), front]
        rfl
      · rw [List.cons_append, layoutFrom_succ_cons clean, if_neg fun closes => other '}' rfl closes.1,
          if_neg (other '{' rfl), if_neg (other '}' rfl), content]
        rfl
  exact part Mark.comment (List.Subset.refl _)

/-- A block, and the same block with marks of comments in it and behind it. -/
structure Twins (block block' : Text × Text) : Prop where
  content : ∃ n, Commented n .fresh block.1 block'.1
  behind : ∃ n, Commented n .fresh block.2 block'.2

/-- Texts with marks of comments in them are laid out around the same blocks. -/
theorem layoutFrom_commented {n : ℕ} {spot : Spot} {s t : Text} (h : Commented n spot s t)
    (isQuote : ∀ q ∈ spot.quote?, Text.isQuote q) (clean : '\\' ∉ s)
    (shielded : shieldFrom spot.quote? s = s) :
    ((∃ k, Commented k spot (layoutFrom 0 s).2.front (layoutFrom 0 t).2.front) ∧
        List.Forall₂ Twins (layoutFrom 0 s).2.blocks (layoutFrom 0 t).2.blocks) ∧
      ∀ depth, (∃ k, Commented k spot (layoutFrom (depth + 1) s).1 (layoutFrom (depth + 1) t).1) ∧
        (∃ k, Commented k .fresh (layoutFrom (depth + 1) s).2.front (layoutFrom (depth + 1) t).2.front) ∧
        List.Forall₂ Twins (layoutFrom (depth + 1) s).2.blocks (layoutFrom (depth + 1) t).2.blocks := by
  induction h with
  | nil spot => exact ⟨⟨⟨0, .nil spot⟩, .nil⟩, fun depth => ⟨⟨0, .nil spot⟩, ⟨0, .nil _⟩, .nil⟩⟩
  | @plain n spot s t c h ih =>
    have here : c ≠ '\\' := fun same => clean (same ▸ List.mem_cons_self)
    have alone : '\\' ∉ [c] := fun mem => here (List.mem_singleton.1 mem).symm
    have quotes : ∀ q ∈ (spot.step c).quote?, Text.isQuote q := by
      rw [Spot.quote?_step]
      exact isQuote_of_mem_openAfter isQuote
    have later : shieldFrom (spot.step c).quote? s = s := by
      rw [Spot.quote?_step]
      exact (shielded_append (s := [c]) isQuote alone shielded).2
    -- A brace stands outside strings, and nothing is begun behind it.
    have brace (structural : isStructural c) : spot.step c = .fresh := by
      refine Spot.step_structural ?_ structural
      have outside := openAfter_of_shielded (s := []) isQuote nofun (mem_chars_of_isStructural structural)
        shielded
      rwa [openAfter_nil] at outside
    obtain ⟨⟨⟨k, front⟩, blocks⟩, inside⟩ := ih quotes (fun mem => clean (.tail c mem)) later
    refine ⟨?_, fun depth => ?_⟩
    · rw [layoutFrom_zero_cons here, layoutFrom_zero_cons here]
      by_cases opens : c = '{'
      · obtain ⟨⟨k, content⟩, behind, blocks⟩ := inside 0
        rw [brace (opens ▸ rfl)] at content
        rw [if_pos opens, if_pos opens]
        exact ⟨⟨0, .nil spot⟩, .cons ⟨⟨k, content⟩, behind⟩ blocks⟩
      · rw [if_neg opens, if_neg opens]
        exact ⟨⟨k, .plain c front⟩, blocks⟩
    · rw [layoutFrom_succ_cons here, layoutFrom_succ_cons here]
      by_cases closes : c = '}' ∧ depth = 0
      · rw [if_pos closes, if_pos closes]
        rw [brace (closes.1 ▸ rfl)] at front
        exact ⟨⟨0, .nil spot⟩, ⟨k, .plain '}' front⟩, blocks⟩
      · rw [if_neg closes, if_neg closes]
        obtain ⟨next, deeper⟩ := Nat.exists_eq_succ_of_ne_zero (Nat.ne_of_gt (depth_pos closes))
        obtain ⟨⟨k, content⟩, behind, blocks⟩ := inside next
        rw [deeper]
        exact ⟨⟨k, .plain c content⟩, behind, blocks⟩
  | @mark n s t h ih =>
    obtain ⟨⟨⟨k, front⟩, blocks⟩, inside⟩ := ih isQuote_of_mem_none clean shielded
    obtain ⟨flat, nested⟩ := layoutFrom_comment_append t
    refine ⟨?_, fun depth => ?_⟩
    · rw [flat]
      exact ⟨⟨k + 1, .mark front⟩, blocks⟩
    · obtain ⟨⟨k, content⟩, behind, blocks⟩ := inside depth
      rw [nested]
      exact ⟨⟨k + 1, .mark content⟩, behind, blocks⟩

end Block

/-! ### Selectors -/

namespace Frame
variable {lead run rest : Text}

/-- A selector that starts with a space or with the mark of a comment: that of a run of nothing else. -/
def Blank (selector : Text) : Prop :=
  (∃ c ∈ selector.head?, Text.isSpace c) ∨ Mark.comment <+: selector

instance (selector : Text) : Decidable (Blank selector) :=
  decidable_of_iff (selector.head?.any Text.isSpace ∨ Mark.comment <+: selector)
    (or_congr_left (Option.any_eq_true ..))

theorem Filler.of_spaces (spaces : ∀ c ∈ run, Text.isSpace c) : Filler run := by
  induction run with
  | nil => exact .nil
  | cons c run ih =>
    exact .space (spaces c List.mem_cons_self) (ih fun d mem => spaces d (.tail c mem))

/-- Spaces and marks at the front of a text are filler. -/
theorem filler_append_of_filler (fill : Filler lead) (rest : Text) :
    filler (lead ++ rest) = lead ++ filler rest := by
  induction fill with
  | nil => rfl
  | @space c t space _ ih =>
    have other : c ≠ '%' := by
      rintro rfl
      cases space
    have scan : Mark.commentWord.scan (c :: (t ++ rest)) = .plain c :: Mark.commentWord.scan (t ++ rest) :=
      Recogniser.scan_of_not_read (commentWord_not_read other _)
    rw [filler] at ih
    rw [List.cons_append, filler, scan, List.takeWhile_cons_of_pos (by exact space)]
    exact congrArg (c :: ·) ih
  | @comment t _ ih =>
    have read : Mark.commentWord.read (Mark.comment ++ (t ++ rest)) = some () := rfl
    have scan : Mark.commentWord.scan (Mark.comment ++ (t ++ rest)) =
        .hit () :: Mark.commentWord.scan (t ++ rest) := Recogniser.scan_spell_append read
    rw [filler] at ih
    rw [List.append_assoc, List.append_assoc, filler]
    rw [scan, List.takeWhile_cons_of_pos rfl]
    exact congrArg (Mark.comment ++ ·) ih

/-- Filler in front of a run leads up to its selector. -/
theorem splitRun_filler_append (fill : Filler lead) (more : filler rest ≠ rest) :
    splitRun (lead ++ rest) = (lead ++ (splitRun rest).1, (splitRun rest).2) := by
  have drop : (lead ++ rest).drop (lead ++ filler rest).length = rest.drop (filler rest).length := by
    rw [List.length_append, ← List.drop_drop, List.drop_left]
  have some : (rest.drop (filler rest).length).isEmpty = false := by
    rw [List.isEmpty_eq_false_iff]
    intro none
    have whole := List.prefix_iff_eq_append.1 (filler_front rest)
    rw [none, List.append_nil] at whole
    exact more whole
  unfold splitRun
  simp only [filler_append_of_filler fill, drop, some]
  rfl

/-- Filler ends in a space, or in the mark of a comment. -/
theorem Filler.ends (fill : Filler run) (nonempty : run ≠ []) :
    (∃ before c, run = before ++ [c] ∧ Text.isSpace c) ∨ ∃ before, run = before ++ Mark.comment := by
  induction fill with
  | nil => exact absurd rfl nonempty
  | @space c t space _ ih =>
    by_cases last : t = []
    · subst last
      exact .inl ⟨[], c, rfl, space⟩
    · rcases ih last with ⟨before, d, rfl, space'⟩ | ⟨before, rfl⟩
      · exact .inl ⟨c :: before, d, rfl, space'⟩
      · exact .inr ⟨c :: before, rfl⟩
  | @comment t _ ih =>
    by_cases last : t = []
    · subst last
      exact .inr ⟨[], List.append_nil _⟩
    · rcases ih last with ⟨before, d, rfl, space⟩ | ⟨before, rfl⟩
      · exact .inl ⟨Mark.comment ++ before, d, by simp, space⟩
      · exact .inr ⟨Mark.comment ++ before, by simp⟩

/-- The selector of a run of nothing but filler is blank. -/
theorem blank_of_filler (nonempty : run ≠ []) (whole : filler run = run) : Blank (splitRun run).2.1 := by
  have fill : Filler run := by
    rw [← whole]
    exact filler_spellAll fun s mem => List.mem_takeWhile_imp mem
  have last : (splitRun run).2.1 =
      run.drop (run.length - if run.getLast?.any Text.isSpace then 1 else Mark.comment.length) := by
    simp [splitRun, whole]
  rw [last]
  rcases fill.ends nonempty with ⟨before, c, rfl, space⟩ | ⟨before, rfl⟩
  · rw [List.getLast?_concat, Option.any_some, if_pos space, List.length_append, List.length_singleton,
      Nat.add_sub_cancel, List.drop_left]
    exact .inl ⟨c, rfl, space⟩
  · have solid : (before ++ Mark.comment).getLast?.any Text.isSpace = false := by
      rw [List.getLast?_append_of_ne_nil _ (by decide)]
      rfl
    rw [solid, if_neg (by decide), List.length_append, Nat.add_sub_cancel, List.drop_left]
    exact .inr List.prefix_rfl

/-- A run and the same run with marks in it have the same selector, if that is not blank.  What leads up
to it has the marks. -/
theorem splitRun_commented {n : ℕ} {run' : Text} (spaces : ∀ c ∈ lead, Text.isSpace c)
    (solid : ∀ c ∈ run', isStructural c = false) (nonempty : run' ≠ [])
    (h : Commented n .fresh (lead ++ run) run') (inked : ¬ Blank (splitRun run').2.1) :
    run ≠ [] ∧ (splitRun run).2 = (splitRun run').2 ∧
      ∃ k, Commented k .fresh (lead ++ (splitRun run).1) (splitRun run').1 := by
  obtain ⟨blank, fill, rest, split, rfl, spaces', filler', ink, marks⟩ := h.exists_filler solid
  have more : filler rest ≠ rest := fun whole =>
    inked (blank_of_filler nonempty ((filler_append_of_filler filler' rest).trans (by rw [whole])))
  have some : rest ≠ [] := by
    rintro rfl
    exact more rfl
  obtain ⟨gap, rfl, rfl⟩ : ∃ gap, blank = lead ++ gap ∧ run = gap ++ rest := by
    rcases List.append_eq_append_iff.1 split with ⟨gap, first, second⟩ | ⟨gap, first, second⟩
    · exact ⟨gap, first, second⟩
    · cases gap with
      | nil => exact ⟨[], by simpa using first.symm, by simpa using second.symm⟩
      | cons c gap =>
        have solid := ink c (by rw [second]; rfl)
        rw [spaces c (first ▸ List.mem_append_right _ List.mem_cons_self)] at solid
        cases solid
  have filler : Filler gap := .of_spaces fun c mem => spaces' c (List.mem_append_right _ mem)
  rw [splitRun_filler_append filler more, splitRun_filler_append filler' more]
  refine ⟨by simp [some], rfl, n + 0, ?_⟩
  show Commented (n + 0) .fresh (lead ++ (gap ++ _)) (fill ++ _)
  rw [← List.append_assoc]
  refine marks.append ?_
  rw [Spot.after_spaces false spaces']
  exact .refl _ _

end Frame

theorem Mark.solid_comment : ∀ c ∈ comment, isStructural c = false := by
  have all : (comment.all fun c => !isStructural c) = true := by decide
  exact fun c mem => by simpa using List.all_eq_true.1 all c mem

theorem Frame.Filler.solid {t : Text} (fill : Filler t) : ∀ c ∈ t, isStructural c = false := by
  induction fill with
  | nil => exact nofun
  | space space _ ih =>
    intro c mem
    rcases List.mem_cons.1 mem with rfl | mem
    · exact isStructural_of_isSpace space
    · exact ih c mem
  | comment _ ih => exact fun c mem => (List.mem_append.1 mem).elim (Mark.solid_comment c) (ih c)

theorem Frame.Filler.openAfter_eq {t : Text} (fill : Filler t) : openAfter none t = none := by
  induction fill with
  | nil => rfl
  | @space c t space _ ih =>
    rw [openAfter, Text.isQuote_of_isSpace space]
    exact ih
  | @comment t _ ih =>
    rw [openAfter_append]
    exact ih

/-! ### What stands behind a block -/

namespace Block

theorem closing_brace (t : Text) : closing ('}' :: t) =
    '}' :: (Text.leading t ++ if (Text.trimStart t).head? = some ';' then [';'] else []) := by
  simp [closing]

/-- A `;` behind the spaces behind a block belongs to what closes it. -/
theorem past_of_semicolon {t u : Text} (semicolon : Text.trimStart t = ';' :: u) :
    closing ('}' :: t) = '}' :: (Text.leading t ++ [';']) ∧ past ('}' :: t) = u := by
  have closed : closing ('}' :: t) = '}' :: (Text.leading t ++ [';']) := by
    rw [closing_brace, semicolon]
    rfl
  refine ⟨closed, ?_⟩
  have split := closing_append_past ('}' :: t)
  have whole : '}' :: t = '}' :: (Text.leading t ++ [';']) ++ u := by
    conv => lhs; rw [← Text.trimStart_append t, semicolon]
    simp
  rw [closed] at split
  exact List.append_cancel_left (split.trans whole)

theorem past_of_not_semicolon {t : Text} (other : (Text.trimStart t).head? ≠ some ';') :
    closing ('}' :: t) = '}' :: Text.leading t ∧ past ('}' :: t) = Text.trimStart t := by
  have closed : closing ('}' :: t) = '}' :: Text.leading t := by
    rw [closing_brace, if_neg other, List.append_nil]
  refine ⟨closed, ?_⟩
  have split := closing_append_past ('}' :: t)
  have whole : '}' :: t = '}' :: Text.leading t ++ Text.trimStart t := by
    rw [List.cons_append, Text.trimStart_append]
  rw [closed] at split
  exact List.append_cancel_left (split.trans whole)

/-- No `;` comes behind spaces if none comes behind the marks in them, or comes right at the front. -/
theorem trimStart_commented {n : ℕ} {s t : Text} (h : Commented n .fresh s t)
    (other : t.head? ≠ some ';')
    (inked : ∀ filler rest, t = filler ++ ';' :: rest → Filler filler → filler = []) :
    (Text.trimStart s).head? ≠ some ';' := by
  intro found
  obtain ⟨u, text⟩ := List.head?_eq_some_iff.1 found
  have lead := Text.leading_spaces s
  -- The spaces in front of the `;` would have marks in them, and nothing else.
  rw [← Text.trimStart_append s, text] at h
  obtain ⟨k, m, filler, u', -, whole, front, -⟩ := h.exists_cut_left
  have all : ∀ c ∈ filler, isStructural c = false := fun c mem =>
    (front.mem_or_mem mem).elim (fun mem => isStructural_of_isSpace (lead c mem))
      (Mark.solid_comment c)
  obtain ⟨spaces, fill, ink, first, second, -, filled, solid, -⟩ := front.exists_filler all
  obtain rfl : ink = [] := by
    cases ink with
    | nil => rfl
    | cons c ink =>
      have space := lead c (first ▸ List.mem_append_right _ List.mem_cons_self)
      rw [solid c rfl] at space
      cases space
  rw [List.append_nil] at second
  have none := inked filler u' whole (second ▸ filled)
  rw [whole, none] at other
  exact other rfl

/-- What closes a block takes spaces with it that marks keep back, unless they stand in front of a
`;`. -/
theorem past_commented {n : ℕ} {b b' : Text} (h : Commented n .fresh b b')
    (closed' : b' = [] ∨ b'.head? = some '}')
    (inked : ∀ filler rest, past b' = filler ++ ';' :: rest → Filler filler → filler = []) :
    ∃ lead, (∀ c ∈ lead, Text.isSpace c) ∧ closing b = closing b' ++ lead ∧
      ∃ k, Commented k .fresh (lead ++ past b) (past b') := by
  rcases closed' with rfl | brace'
  · obtain rfl : b = [] := List.subset_nil.1 h.subset
    exact ⟨[], nofun, rfl, 0, .nil _⟩
  obtain ⟨t', rfl⟩ := List.head?_eq_some_iff.1 brace'
  obtain ⟨t, rfl, inside⟩ := h.exists_cons (by decide)
  have blank := Text.leading_spaces t'
  rw [← Text.trimStart_append t'] at inside
  obtain ⟨rest, rfl, later⟩ := inside.split_spaces blank
  by_cases semicolon : (Text.trimStart t').head? = some ';'
  · obtain ⟨u', split⟩ := List.head?_eq_some_iff.1 semicolon
    rw [split] at later
    obtain ⟨u, rfl, last⟩ := later.exists_cons (by decide)
    obtain ⟨leading, trimStart⟩ := Text.trimStart_of_spaces (t := ';' :: u) blank (by rintro c ⟨⟩; rfl)
    obtain ⟨closes, rest⟩ := past_of_semicolon trimStart
    obtain ⟨closes', rest'⟩ := past_of_semicolon split
    rw [closes, closes', rest, rest', leading]
    exact ⟨[], nofun, by simp, n, last⟩
  · obtain ⟨closes', past'⟩ := past_of_not_semicolon semicolon
    rw [past'] at inked
    have lead := Text.leading_spaces rest
    have split : Text.leading rest ++ Text.trimStart rest = rest := Text.trimStart_append rest
    have trimStart : Text.leading (Text.leading t' ++ rest) = Text.leading t' ++ Text.leading rest ∧
        Text.trimStart (Text.leading t' ++ rest) = Text.trimStart rest :=
      ⟨Text.leading_append_of_spaces blank rest, Text.trimStart_append_of_spaces blank rest⟩
    have other := trimStart_commented later semicolon inked
    rw [← trimStart.2] at other
    obtain ⟨closes, past⟩ := past_of_not_semicolon other
    rw [closes, closes', past, past', trimStart.1, trimStart.2]
    exact ⟨Text.leading rest, lead, by simp, n, split.symm ▸ later⟩

end Block
/-! ### Niches -/

/-- A niche, and the same niche with marks of comments in its content and behind it. -/
structure Niche.Twins (niche niche' : Niche) : Prop where
  selector : niche.selector = niche'.selector
  link : niche.link = niche'.link
  content : ∃ n, Commented n .fresh niche.content niche'.content
  behind : ∃ n, Commented n .fresh niche.behind niche'.behind
  /-- A content stands in a block. -/
  opens : (∃ gap, niche.link = gap ++ ['{'] ∧ openAfter none (niche.selector ++ gap) = none) ∨
    niche.content = [] ∧ niche'.content = [] ∧ openAfter none (niche.selector ++ niche.link) = none
  closes : ∀ c ∈ niche'.behind.head?, isStructural c
  ends : niche.behind = [] ∨ openAfter none niche.content = none

/-- Niches in pairs, one behind the other. -/
inductive Aligned : List (Niche × Niche) → Prop where
  | nil : Aligned []
  | cons {niche niche' : Niche} {pairs : List (Niche × Niche)} : niche.Twins niche' →
    (pairs ≠ [] → niche.behind ≠ [] ∧ openAfter none niche.behind = none) → Aligned pairs →
    Aligned ((niche, niche') :: pairs)

/-- Two scanned texts make the same niches, but for marks of comments in the second.  The first lacks
spaces at its front that the second has. -/
def Matched (lead : Text) (segments : List (Segment Frame)) (blocks : List Text)
    (segments' : List (Segment Frame)) (blocks' : List Text) : Prop :=
  ∃ front front' pairs, Framed segments blocks front (pairs.map Prod.fst) ∧
    Framed segments' blocks' front' (pairs.map Prod.snd) ∧
    (∃ n, Commented n .fresh (lead ++ front) front') ∧ Aligned pairs ∧
    (pairs ≠ [] → openAfter none front = none)

theorem Framed.of_nil {blocks : List Text} {front : Text} {niches : List Niche}
    (h : Framed [] blocks front niches) : front = [] ∧ niches = [] := by
  obtain rfl : niches = [] := List.map_eq_nil_iff.1 h.deal.symm
  have whole := h.fill [] rfl
  rw [weave, List.append_nil] at whole
  · exact ⟨whole.symm, rfl⟩
  · rintro niche niches rule rules ⟨⟩

namespace Matched
variable {lead u u' selector gap l l' content content' : Text} {segments segments' : List (Segment Frame)}
  {blocks blocks' : List Text} {n : ℕ}

theorem nil (h : Commented n .fresh (lead ++ u) u') (blocks blocks' : List Text) :
    Matched lead (u.map .plain) blocks (u'.map .plain) blocks' := by
  have framed (u : Text) (blocks : List Text) : Framed (u.map .plain) blocks u [] := by
    have whole := (Framed.nil blocks).plain u
    rwa [List.append_nil, List.append_nil] at whole
  exact ⟨u, u', [], framed u blocks, framed u' blocks', ⟨n, h⟩, .nil, fun some => absurd rfl some⟩

/-- Characters that belong to no frame. -/
theorem plain (h : Commented n .fresh (lead ++ u) u') (fresh : Spot.fresh.after (lead ++ u) = .fresh)
    (outside : openAfter none u = none) (matched : Matched [] segments blocks segments' blocks') :
    Matched lead (u.map .plain ++ segments) blocks (u'.map .plain ++ segments') blocks' := by
  obtain ⟨front, front', pairs, framed, framed', ⟨k, marks⟩, aligned, starts⟩ := matched
  refine ⟨u ++ front, u' ++ front', pairs, framed.plain u, framed'.plain u', ⟨n + k, ?_⟩, aligned,
    fun some => ?_⟩
  · rw [← List.append_assoc]
    exact h.append (fresh.symm ▸ marks)
  · rw [openAfter_append, outside, starts some]

theorem statement (h : Commented n .fresh (lead ++ l) l') (fill : Filler l)
    (starts : openAfter none (selector ++ gap) = none)
    (matched : Matched [] segments blocks segments' blocks') :
    Matched lead (.hit ⟨l, selector, gap, .statement⟩ :: segments) blocks
      (.hit ⟨l', selector, gap, .statement⟩ :: segments') blocks' := by
  obtain ⟨front, front', pairs, framed, framed', ⟨k, marks⟩, aligned, outside⟩ := matched
  refine ⟨l, l', (_, _) :: pairs, framed.statement l selector gap, framed'.statement l' selector gap,
    ⟨n, h⟩, .cons ?_ (fun some => ⟨by simp, outside some⟩) aligned, fun _ => fill.openAfter_eq⟩
  exact {
    selector := rfl
    link := rfl
    content := ⟨0, .nil _⟩
    behind := ⟨k, .plain ';' marks⟩
    opens := .inr ⟨rfl, rfl, starts⟩
    closes := by rintro c ⟨⟩; rfl
    ends := .inr rfl }

theorem after_closing (behind : Text) : Spot.fresh.after (closing behind) = .fresh := by
  have semicolon (p : Prop) [Decidable p] : Spot.fresh.after (if p then [';'] else []) = .fresh := by
    split <;> rfl
  have brace (p : Prop) [Decidable p] : Spot.fresh.after (if p then ['}'] else []) = .fresh := by
    split <;> rfl
  unfold closing
  simp only [Spot.after_append, brace, Spot.after_spaces false (Text.leading_spaces _), semicolon]

theorem block {b b' past : Text} (h : Commented n .fresh (lead ++ l) l') (fill : Filler l)
    (starts : openAfter none (selector ++ gap) = none)
    (inside : ∃ k, Commented k .fresh content content')
    (ends : b = [] ∨ openAfter none content = none) (closed : b' = [] ∨ b'.head? = some '}')
    (closes : closing b = closing b' ++ past)
    (last : b' = [] → segments = [] ∧ segments' = [] ∧ past = [])
    (matched : Matched past segments blocks segments' blocks') :
    Matched lead (.hit ⟨l, selector, gap, .block (closing b)⟩ :: segments) (content :: blocks)
      (.hit ⟨l', selector, gap, .block (closing b')⟩ :: segments') (content' :: blocks') := by
  obtain ⟨front, front', pairs, framed, framed', ⟨k, marks⟩, aligned, outside⟩ := matched
  have behind : Commented k .fresh (closing b ++ front) (closing b' ++ front') := by
    rw [closes, List.append_assoc]
    exact .prepend _ ((after_closing b').symm ▸ marks)
  have none : openAfter Option.none (closing b) = Option.none := by
    have spot := Spot.quote?_after .fresh (closing b)
    rw [after_closing] at spot
    exact spot.symm
  refine ⟨l, l', (_, _) :: pairs, framed.block l selector gap _ content,
    framed'.block l' selector gap _ content', ⟨n, h⟩, .cons ?_ (fun some => ⟨?_, ?_⟩) aligned,
    fun _ => fill.openAfter_eq⟩
  · exact {
      selector := rfl
      link := rfl
      content := inside
      behind := ⟨k, behind⟩
      opens := .inl ⟨gap, rfl, starts⟩
      closes := by
        rcases closed with rfl | brace
        · obtain ⟨-, rfl, -⟩ := last rfl
          obtain ⟨rfl, -⟩ := framed'.of_nil
          exact nofun
        · obtain ⟨t, rfl⟩ := List.head?_eq_some_iff.1 brace
          rw [closing_brace]
          rintro c ⟨⟩
          rfl
      ends := by
        rcases ends with rfl | ends
        · rcases closed with rfl | brace
          · obtain ⟨rfl, -, -⟩ := last rfl
            obtain ⟨rfl, -⟩ := framed.of_nil
            exact .inl rfl
          · obtain ⟨t, rfl⟩ := List.head?_eq_some_iff.1 brace
            rw [closing_brace] at closes
            cases closes
        · exact .inr ends }
  · rcases closed with rfl | brace
    · obtain ⟨rfl, -, -⟩ := last rfl
      obtain ⟨-, none⟩ := framed.of_nil
      exact absurd (List.map_eq_nil_iff.1 none) some
    · obtain ⟨t, rfl⟩ := List.head?_eq_some_iff.1 brace
      rw [closing_brace] at closes
      rw [closes]
      exact nofun
  · show openAfter Option.none (closing b ++ front) = Option.none
    rw [openAfter_append, none, outside some]

end Matched
/-- Spaces in front of a text stand in front of every structural character in it. -/
theorem exists_run {lead before x y : Text} {e : Char} (spaces : ∀ c ∈ lead, Text.isSpace c)
    (structural : isStructural e) (split : lead ++ before = x ++ e :: y) :
    ∃ run, x = lead ++ run ∧ before = run ++ e :: y := by
  rcases List.append_eq_append_iff.1 split with ⟨run, first, second⟩ | ⟨run, first, second⟩
  · exact ⟨run, first, second⟩
  · cases run with
    | nil => exact ⟨[], by simpa using first.symm, by simpa using second.symm⟩
    | cons c run =>
      obtain rfl : e = c := (List.cons.inj second).1
      have solid := isStructural_of_isSpace (spaces e (first ▸ List.mem_append_right _ List.mem_cons_self))
      rw [solid] at structural
      cases structural

theorem deal_plain_append (u : Text) (segments : List (Segment Frame)) (blocks : List Text) :
    Outline.deal (u.map .plain ++ segments) blocks = Outline.deal segments blocks := by
  induction u with
  | nil => rfl
  | cons c u ih => exact ih

/-- Outside strings a selector starts where its run does. -/
theorem openAfter_selector {run : Text} (nonempty : run ≠ []) (outside : openAfter none run = none) :
    openAfter none ((splitRun run).2.1 ++ (splitRun run).2.2) = none := by
  have whole := splitRun_append run
  rw [List.append_assoc] at whole
  rwa [← whole, openAfter_append, (splitRun_spec nonempty).2.1.openAfter_eq] at outside

/-! ### Scanning, run by run -/

section Runs
variable {lead run run' u u' : Text} {e : Char} {n : ℕ}

/-- Nothing is begun behind a structural character outside strings. -/
theorem Spot.step_after (structural : isStructural e) (outside : openAfter none run = none) :
    (Spot.fresh.after run).step e = .fresh :=
  Spot.step_structural (by rw [Spot.quote?_after]; exact outside) structural

/-- The first run of a text with marks is that of the text without them, but for the marks in it. -/
theorem exists_cut_run {before : Text} {blocks : List (Text × Text)} (spaces : ∀ c ∈ lead, Text.isSpace c)
    (structural : isStructural e) (solid' : ∀ c ∈ run', isStructural c = false)
    (proper : Layout.Proper before blocks) (h : Commented n .fresh (lead ++ before) (run' ++ e :: u')) :
    ∃ run u, before = run ++ e :: u ∧ (∀ c ∈ run, isStructural c = false) ∧
      openAfter none run = none ∧ openAfter none (lead ++ run) = none ∧
      (∃ k, Commented k .fresh (lead ++ run) run') ∧ ∃ m, Commented m .fresh u u' := by
  have foreign : e ∉ Mark.comment := fun mem => by
    rw [Mark.solid_comment e mem] at structural
    cases structural
  obtain ⟨k, m, x, u, -, split, first, second⟩ := h.exists_cut foreign
  obtain ⟨run, rfl, rfl⟩ := exists_run spaces structural split
  have outside : openAfter none run = none := proper.openAfter_eq structural
  have outside' : openAfter none (lead ++ run) = none := by
    rw [openAfter_append, (Filler.of_spaces spaces).openAfter_eq, outside]
  rw [Spot.step_after structural outside'] at second
  exact ⟨run, u, rfl, fun c mem => solid' c (first.subset (List.mem_append_right _ mem)), outside, outside',
    ⟨k, first⟩, ⟨m, second⟩⟩

/-- Nothing before a brace that closes nothing belongs to a frame, and no character that ends an empty
run does. -/
theorem Frame.scan_append_bare (structural : isStructural e) (solid : ∀ c ∈ run, isStructural c = false)
    (bare : e = '}' ∨ run = []) (u : Text) :
    recogniser.scan (run ++ e :: u) = (run ++ [e]).map .plain ++ recogniser.scan u := by
  rcases bare with rfl | rfl
  · exact scan_append_brace solid u
  · have none : recogniser.read (e :: u) = none := read_structural structural u
    exact Recogniser.scan_of_not_read none

/-- A block makes a frame with the run in front of it. -/
theorem Frame.scan_rowWith {content behind : Text} {blocks : List (Text × Text)}
    (proper : Layout.Proper run ((content, behind) :: blocks))
    (solid : ∀ c ∈ run, isStructural c = false) :
    recogniser.scan (run ++ Layout.rowWith (fun _ => Mark.block) ((content, behind) :: blocks)) =
      .hit (ofRun run (.block (closing behind))) ::
        recogniser.scan (past behind ++ Layout.rowWith (fun _ => Mark.block) blocks) := by
  have starts : ∀ c ∈ ([] : Text).getLast?, isStructural c := nofun
  have absent : ¬ opening <:+: [] ++ run := fun found => proper.flat (found.subset List.mem_cons_self)
  rw [Layout.rowWith_cons]
  exact scan_block starts solid proper.ne_nil absent (Layout.head_rowWith _ blocks)

/-- Filler up to a `;` is a rule of its own, and a blank one. -/
theorem Frame.exists_blank {fill : Text} (filler : Filler fill) (nonempty : fill ≠ []) (u : Text)
    (contents : List Text) :
    ∃ rule ∈ Outline.deal (recogniser.scan (fill ++ ';' :: u)) contents, Blank rule.selector := by
  have whole := filler_append_of_filler filler []
  rw [List.append_nil, show Frame.filler [] = [] from rfl, List.append_nil] at whole
  rw [scan_append_semicolon nonempty filler.solid]
  exact ⟨_, List.mem_cons_self, blank_of_filler nonempty whole⟩

namespace Matched
variable {blocks blocks' : List Text}

/-- Runs that make no frame with what ends them. -/
theorem bare (structural : isStructural e) (solid : ∀ c ∈ run, isStructural c = false)
    (solid' : ∀ c ∈ run', isStructural c = false) (closes : e = '}' ∨ run = [] ∧ run' = [])
    (outside : openAfter none run = none) (outside' : openAfter none (lead ++ run) = none)
    (h : Commented n .fresh (lead ++ run) run')
    (matched : Matched [] (recogniser.scan u) blocks (recogniser.scan u') blocks') :
    Matched lead (recogniser.scan (run ++ e :: u)) blocks (recogniser.scan (run' ++ e :: u')) blocks' := by
  rw [scan_append_bare structural solid (closes.imp_right And.left),
    scan_append_bare structural solid' (closes.imp_right And.right)]
  refine .plain (n := n + 0) ?_ ?_ ?_ matched
  · rw [← List.append_assoc]
    exact h.append (.refl _ _)
  · rw [← List.append_assoc, Spot.after_append]
    exact Spot.step_after structural outside'
  · rw [openAfter_append, outside, openAfter, isQuote_of_mem_chars (mem_chars_of_isStructural structural)]
    rfl

/-- Runs that a `;` ends. -/
theorem semicolon (spaces : ∀ c ∈ lead, Text.isSpace c) (solid : ∀ c ∈ run, isStructural c = false)
    (solid' : ∀ c ∈ run', isStructural c = false) (nonempty : run' ≠ [])
    (outside : openAfter none run = none) (h : Commented n .fresh (lead ++ run) run')
    (inked : ¬ Blank (splitRun run').2.1)
    (matched : Matched [] (recogniser.scan u) blocks (recogniser.scan u') blocks') :
    Matched lead (recogniser.scan (run ++ ';' :: u)) blocks (recogniser.scan (run' ++ ';' :: u')) blocks' := by
  obtain ⟨some, same, l, leads⟩ := splitRun_commented spaces solid' nonempty h inked
  rw [scan_append_semicolon nonempty solid', scan_append_semicolon some solid, ofRun, ofRun, same]
  refine .statement leads (splitRun_spec some).2.1 ?_ matched
  rw [← same]
  exact openAfter_selector some outside

/-- Runs in front of a block. -/
theorem rowWith {content content' behind behind' : Text} {blocks blocks' : List (Text × Text)}
    {between : Text} (spaces : ∀ c ∈ lead, Text.isSpace c)
    (proper : Layout.Proper run ((content, behind) :: blocks))
    (proper' : Layout.Proper run' ((content', behind') :: blocks'))
    (solid : ∀ c ∈ run, isStructural c = false) (solid' : ∀ c ∈ run', isStructural c = false)
    (h : Commented n .fresh (lead ++ run) run')
    (row : List.Forall₂ Block.Twins ((content, behind) :: blocks) ((content', behind') :: blocks'))
    (inked : ¬ Blank (splitRun run').2.1) (closes : closing behind = closing behind' ++ between)
    (matched : Matched between
      (recogniser.scan (past behind ++ Layout.rowWith (fun _ => Mark.block) blocks))
      (blocks.map Prod.fst)
      (recogniser.scan (past behind' ++ Layout.rowWith (fun _ => Mark.block) blocks'))
      (blocks'.map Prod.fst)) :
    Matched lead
      (recogniser.scan (run ++ Layout.rowWith (fun _ => Mark.block) ((content, behind) :: blocks)))
      (content :: blocks.map Prod.fst)
      (recogniser.scan (run' ++ Layout.rowWith (fun _ => Mark.block) ((content', behind') :: blocks')))
      (content' :: blocks'.map Prod.fst) := by
  obtain ⟨nonempty, same, l, leads⟩ := splitRun_commented spaces solid' proper'.ne_nil h inked
  obtain ⟨twin, twins⟩ := List.forall₂_cons.1 row
  rw [scan_rowWith proper solid, scan_rowWith proper' solid', ofRun, ofRun, same]
  refine .block leads (splitRun_spec nonempty).2.1 ?_ twin.content proper.openAfter_content
    (proper'.closed _ List.mem_cons_self) closes ?_ matched
  · rw [← same]
    exact openAfter_selector nonempty proper.openAfter_before
  · rintro rfl
    obtain rfl : blocks' = [] := proper'.ended.1 rfl
    obtain rfl : blocks = [] := List.forall₂_nil_right_iff.1 twins
    obtain ⟨m, inside⟩ := twin.behind
    obtain rfl : behind = [] := List.subset_nil.1 inside.subset
    exact ⟨rfl, rfl, closes.symm⟩

end Matched
end Runs

/-- **Marks of comments do not change the rules of a text**, if no selector is blank: scanned with and
without them it has the same niches. -/
theorem matched_scan {lead before before' : Text} {blocks blocks' : List (Text × Text)} {n : ℕ}
    (spaces : ∀ c ∈ lead, Text.isSpace c) (h : Commented n .fresh (lead ++ before) before')
    (twins : List.Forall₂ Block.Twins blocks blocks') (proper : Layout.Proper before blocks)
    (proper' : Layout.Proper before' blocks')
    (inked : ∀ rule ∈ Outline.deal
      (recogniser.scan (before' ++ Layout.rowWith (fun _ => Mark.block) blocks')) (blocks'.map Prod.fst),
      ¬ Blank rule.selector) :
    Matched lead (recogniser.scan (before ++ Layout.rowWith (fun _ => Mark.block) blocks))
      (blocks.map Prod.fst)
      (recogniser.scan (before' ++ Layout.rowWith (fun _ => Mark.block) blocks'))
      (blocks'.map Prod.fst) := by
  -- Each step takes a run off the front, up to its `;` or its block.
  induction size : (before' ++ Layout.rowWith (fun _ => []) blocks').length using Nat.strongRecOn
    generalizing n lead before before' blocks blocks' with
  | ind len ih =>
    subst size
    by_cases some : ∃ c ∈ before', isStructural c
    · obtain ⟨run', e, u', rfl, structural, solid'⟩ := exists_first_run some
      obtain ⟨run, u, rfl, solid, outside, outside', ⟨k, first⟩, m, second⟩ :=
        exists_cut_run spaces structural solid' proper h
      have noSpaces : ∀ c ∈ ([] : Text), Text.isSpace c := List.forall_mem_nil _
      -- The rest of the text, once it is known that no rule in it has a blank selector.
      have later (inner : ∀ rule ∈ Outline.deal
          (recogniser.scan (u' ++ Layout.rowWith (fun _ => Mark.block) blocks')) (blocks'.map Prod.fst),
          ¬ Blank rule.selector) :=
        ih (u' ++ Layout.rowWith (fun _ => []) blocks').length (by simp; omega) noSpaces
          (show Commented m .fresh ([] ++ u) u' from second) twins (proper.behind structural)
          (proper'.behind structural) inner rfl
      have text (run u row : Text) : run ++ e :: u ++ row = run ++ e :: (u ++ row) := by simp
      rw [text] at inked ⊢
      rw [text]
      by_cases bare : e = '}' ∨ run' = []
      · rw [scan_append_bare structural solid' bare, deal_plain_append] at inked
        have closes : e = '}' ∨ run = [] ∧ run' = [] := bare.imp_right fun none =>
          ⟨(List.append_eq_nil_iff.1 (List.subset_nil.1 (none ▸ first.subset))).2, none⟩
        exact .bare structural solid solid' closes outside outside' first (later inked)
      · obtain ⟨other, nonempty⟩ := not_or.1 bare
        have kind : e = ';' ∨ e = '{' ∨ e = '}' := by
          simpa [isStructural, or_assoc] using structural
        obtain rfl : e = ';' := kind.resolve_right fun brace =>
          brace.elim (fun opens => proper'.flat (opens ▸ List.mem_append_right _ List.mem_cons_self)) other
        rw [scan_append_semicolon nonempty solid'] at inked
        exact .semicolon spaces solid solid' nonempty outside first (inked _ List.mem_cons_self)
          (later fun rule mem => inked rule (.tail _ mem))
    · have solid' : ∀ c ∈ before', isStructural c = false := fun c mem => by
        by_contra structural
        exact some ⟨c, mem, by simpa using structural⟩
      have solid : ∀ c ∈ before, isStructural c = false := fun c mem =>
        solid' c (h.subset (List.mem_append_right _ mem))
      cases twins with
      | nil =>
        have row (t : Text) : t ++ Layout.rowWith (fun _ => Mark.block) [] = t := List.append_nil t
        rw [row, row, scan_of_solid solid, scan_of_solid solid']
        exact .nil h _ _
      | @cons block block' blocks blocks' twin twins =>
        obtain ⟨content, b⟩ := block
        obtain ⟨content', b'⟩ := block'
        rw [scan_rowWith proper' solid'] at inked
        have rest : ∀ rule ∈ Outline.deal
            (recogniser.scan (past b' ++ Layout.rowWith (fun _ => Mark.block) blocks'))
            (blocks'.map Prod.fst), ¬ Blank rule.selector := fun rule mem => inked rule (.tail _ mem)
        obtain ⟨m, behind⟩ := twin.behind
        -- Behind a block no `;` ends a rule that is nothing but filler.
        obtain ⟨between, blank, closes, j, marks⟩ := past_commented behind
            (proper'.closed _ List.mem_cons_self) fun filler tail split fill => by
          by_contra some
          obtain ⟨rule, mem, blank⟩ := exists_blank fill some
            (tail ++ Layout.rowWith (fun _ => Mark.block) blocks') (blocks'.map Prod.fst)
          refine rest rule ?_ blank
          rwa [split, List.append_assoc]
        have shorter := (List.drop_suffix (closing b').length b').length_le
        have later := ih (past b' ++ Layout.rowWith (fun _ => []) blocks').length (by
            rw [Layout.rowWith_cons]
            simp only [List.length_append, List.length_cons, List.length_nil]
            show List.length (b'.drop _) + _ < _
            omega) blank marks twins proper.past proper'.past rest rfl
        exact .rowWith spaces proper proper' solid solid' h (.cons twin twins) (inked _ List.mem_cons_self)
          closes later

end ScopedCss
