import ScopedCss.Text.Basic

/-!
# Finding one text in another

`breakAt?` cuts a text around the first place where a pattern stands; what it answers makes up the
text again (`eq_of_breakAt?`).  Replacing once and replacing everywhere are built on it.
-/
namespace ScopedCss.Text

/-- The text before and the text after the first occurrence of the pattern.  The empty pattern
stands at the front of every text. -/
def breakAt? (pattern : Text) : Text → Option (Text × Text)
  | [] => if pattern.isEmpty then some ([], []) else none
  | c :: t =>
    match pattern.isPrefixOf? (c :: t) with
    | some after => some ([], after)
    | none => (breakAt? pattern t).map fun (before, after) => (c :: before, after)

/-- The text with the first occurrence of the pattern replaced, if there is one. -/
def replaceFirst (pattern replacement t : Text) : Text :=
  match breakAt? pattern t with
  | some (before, after) => before ++ replacement ++ after
  | none => t

theorem append_of_isPrefixOf? {pattern t after : Text}
    (h : pattern.isPrefixOf? t = some after) : t = pattern ++ after := by
  induction pattern generalizing t with
  | nil => exact Option.some.inj h
  | cons c pattern ih =>
    cases t with
    | nil => cases h
    | cons d t =>
      have step : (if c == d then pattern.isPrefixOf? t else none) = some after := h
      split at step
      next same => rw [ih step, ← eq_of_beq same, List.cons_append]
      next => cases step

/-- The two parts and the pattern between them are the text. -/
theorem eq_of_breakAt? {pattern t before after : Text}
    (h : breakAt? pattern t = some (before, after)) : t = before ++ pattern ++ after := by
  induction t generalizing before with
  | nil =>
    cases pattern <;> simp [breakAt?] at h
    simp [h]
  | cons c t ih =>
    rw [breakAt?] at h
    split at h
    next front =>
      cases h
      simpa using append_of_isPrefixOf? front
    next =>
      simp only [Option.map_eq_some_iff, Prod.mk.injEq, Prod.exists] at h
      obtain ⟨b, a, found, rfl, rfl⟩ := h
      rw [ih found]
      simp

end ScopedCss.Text
