import Mathlib.Data.List.Basic
import ScopedCss.Text.Search

/-!
# The first occurrence

What `breakAt?` answers is the first occurrence of a pattern (`breakAt?_eq_some_iff`): the pattern stands
behind the first part and starts nowhere in it.  What follows the pattern has no say in this, so the
occurrence stays the first one with another text behind it (`breakAt?_append`).  An occurrence is the first
one if nothing in front of it looks like its beginning (`breakAt?_of_head`).
-/
namespace ScopedCss.Text

variable {pattern t before after : Text}

theorem isPrefixOf?_eq_none_iff : pattern.isPrefixOf? t = none ↔ ¬ pattern <+: t := by
  rw [Option.eq_none_iff_forall_ne_some, List.IsPrefix, not_exists]
  refine forall_congr' fun after => not_congr ?_
  exact List.isPrefixOf?_eq_some_iff_append_eq

/-- A pattern is found if it occurs. -/
theorem breakAt?_isSome_iff : (breakAt? pattern t).isSome ↔ pattern <:+: t := by
  constructor
  · intro found
    obtain ⟨⟨before, after⟩, found⟩ := Option.isSome_iff_exists.1 found
    exact ⟨before, after, (eq_of_breakAt? found).symm⟩
  · intro inside
    induction t with
    | nil =>
      rw [breakAt?, if_pos (by simpa using inside)]
      rfl
    | cons c t ih =>
      rw [breakAt?]
      split
      next => rfl
      next absent =>
        rw [Option.isSome_map]
        refine ih ((List.infix_cons_iff.1 inside).resolve_left ?_)
        exact isPrefixOf?_eq_none_iff.1 absent

/-- Nothing in the first part starts the pattern. -/
theorem not_prefix_of_breakAt? (found : breakAt? pattern t = some (before, after)) :
    ∀ u, u <:+ before → u ≠ [] → ¬ pattern <+: u ++ pattern := by
  induction t generalizing before with
  | nil =>
    obtain rfl : before = [] := by
      have whole := eq_of_breakAt? found
      simp_all
    exact fun u behind nonempty => absurd (List.suffix_nil.1 behind) nonempty
  | cons c t ih =>
    have whole := eq_of_breakAt? found
    rw [breakAt?] at found
    split at found
    next =>
      cases found
      exact fun u behind nonempty => absurd (List.suffix_nil.1 behind) nonempty
    next absent =>
      obtain ⟨⟨front, rest⟩, later, same⟩ := Option.map_eq_some_iff.1 found
      cases same
      intro u behind nonempty starts
      rcases List.suffix_cons_iff.1 behind with rfl | inside
      · refine isPrefixOf?_eq_none_iff.1 absent ?_
        rw [whole]
        exact starts.trans (List.prefix_append _ _)
      · exact ih later u inside nonempty starts

/-- **What is found is the first occurrence**: the pattern stands behind the first part, and starts nowhere
in it. -/
theorem breakAt?_eq_some_iff :
    breakAt? pattern t = some (before, after) ↔
      t = before ++ pattern ++ after ∧ ∀ u, u <:+ before → u ≠ [] → ¬ pattern <+: u ++ pattern := by
  refine ⟨fun found => ⟨eq_of_breakAt? found, not_prefix_of_breakAt? found⟩, ?_⟩
  rintro ⟨rfl, first⟩
  induction before with
  | nil =>
    have here : pattern.isPrefixOf? (pattern ++ after) = some after :=
      List.isPrefixOf?_eq_some_iff_append_eq.2 rfl
    rw [List.nil_append]
    cases whole : pattern ++ after with
    | nil =>
      obtain ⟨rfl, rfl⟩ := List.append_eq_nil_iff.1 whole
      rfl
    | cons c t =>
      rw [whole] at here
      rw [breakAt?, here]
  | cons c before ih =>
    -- An occurrence that starts here would end before the one that is known does.
    have absent : ¬ pattern <+: c :: (before ++ pattern ++ after) := fun starts =>
      first (c :: before) List.suffix_rfl (List.cons_ne_nil c before)
        (List.prefix_of_prefix_length_le starts (List.prefix_append _ after) (by simp; omega))
    rw [List.cons_append, List.cons_append, breakAt?, isPrefixOf?_eq_none_iff.2 absent]
    dsimp only
    rw [ih fun u behind => first u (behind.trans (List.suffix_cons c before))]
    rfl

/-- A pattern that is found is found whatever follows it. -/
theorem breakAt?_append (found : breakAt? pattern t = some (before, after)) (u : Text) :
    breakAt? pattern (before ++ (pattern ++ u)) = some (before, u) :=
  breakAt?_eq_some_iff.2 ⟨(List.append_assoc _ _ _).symm, not_prefix_of_breakAt? found⟩

/-- A pattern whose first character does not occur in front of it is found where it stands. -/
theorem breakAt?_of_head {c : Char} {p front : Text} (absent : c ∉ front) (after : Text) :
    breakAt? (c :: p) (front ++ (c :: p ++ after)) = some (front, after) := by
  refine breakAt?_eq_some_iff.2 ⟨(List.append_assoc _ _ _).symm, fun u behind nonempty starts => ?_⟩
  obtain ⟨d, u, rfl⟩ := List.exists_cons_of_ne_nil nonempty
  obtain ⟨rfl, -⟩ := List.cons_prefix_cons.1 starts
  exact absent (behind.subset List.mem_cons_self)

end ScopedCss.Text
