import ScopedCss.Proofs.Selector.Resumption
import ScopedCss.Proofs.Stylesheet.Leaves

/-!
# When a pass gives a result

The only thing that can go wrong in a pass is that a selector list cannot be gone on with, because
the offset from which its next part should be looked for lies inside a character.  A pass gives a
result exactly if this happens at no part it comes to, and that is so exactly if no part but the last
of a list strands the scoping (`scope_isOk_iff`).

Some sheets have no result: in `x-aa,aa,é{}` the type `aa` of the second part is taken by the first,
in which the `aa` behind the hyphen is no name of its own.  The second part then does not stand behind
the cursor, and its two bytes end inside the `é`.
-/
namespace ScopedCss.Stylesheet

/-- A pass comes to a part of the selector list of one of its leaves, with other parts of the list to
follow. -/
def ComesTo (options : Options) (source : Text) (progress : Selector.Progress) (part : Text)
    (later : List Text) : Prop :=
  ∃ before rule after ledger, leaves (walked options source) = before ++ rule :: after ∧
    before.foldlM (scopeLedger (options.schemeFor source)) {} = .ok ledger ∧
    rule.isAtRule = false ∧
    Selector.ComesTo (options.schemeFor source) rule.selector (CommaList.entries rule.selector)
      ledger progress part later

/-- An at-rule can always be scoped, and another rule exactly if its selector list can. -/
theorem scopeLedger_isOk_iff {scheme : Scheme} {ledger : Ledger} {rule : Rule} :
    (∃ next, scopeLedger scheme ledger rule = .ok next) ↔
      (rule.isAtRule = false →
        ∃ result, Selector.scopeList scheme rule.selector ledger = .ok result) := by
  rw [scopeLedger, isOk_map_iff, scopeRule]
  cases at? : rule.isAtRule with
  | true =>
    refine iff_of_true ?_ (by simp)
    simp only [↓reduceIte]
    split
    · split <;> exact ⟨_, rfl⟩
    · split <;> exact ⟨_, rfl⟩
  | false =>
    simp only [Bool.false_eq_true, ↓reduceIte, forall_const]
    cases Selector.scopeList scheme rule.selector ledger with
    | error e => exact iff_of_false (fun ⟨_, h⟩ => by cases h) fun ⟨_, h⟩ => by cases h
    | ok result => exact iff_of_true ⟨_, rfl⟩ ⟨_, rfl⟩

/-- A pass gives a result exactly if the run over its leaves does. -/
theorem isOk_scope_iff_foldlM {options : Options} {source : Text} :
    (∃ result, scope options source = .ok result) ↔
      ∃ ledger, (leaves (walked options source)).foldlM
        (scopeLedger (options.schemeFor source)) {} = .ok ledger := by
  rw [← map_snd_scopeRules, scope_eq_map, isOk_map_iff, isOk_map_iff]

/-- **When a pass gives a result.**  A pass gives a result exactly if every part that it comes to is
looked for from an offset between two characters of the selector list, and exactly if no part
strands the parts after it.  The offset never lies beyond the end of the list. -/
theorem scope_isOk_iff (options : Options) (source : Text) :
    ((∃ result, scope options source = .ok result) ↔
      ∀ progress part later, ComesTo options source progress part later →
        progress.text.IsBoundary progress.offset) ∧
    ((∃ result, scope options source = .ok result) ↔
      ∀ progress part next later, ComesTo options source progress part (next :: later) →
        ¬ Selector.Strands (options.schemeFor source) progress part) ∧
    ∀ progress part later, ComesTo options source progress part later →
      progress.offset ≤ progress.text.bytes := by
  have boundaries : (∃ result, scope options source = .ok result) ↔
      ∀ progress part later, ComesTo options source progress part later →
        progress.text.IsBoundary progress.offset := by
    rw [isOk_scope_iff_foldlM, foldlM_isOk_iff]
    constructor
    · rintro all progress part later ⟨before, rule, after, ledger, split, reached, style, comes⟩
      obtain ⟨result, ok⟩ :=
        scopeLedger_isOk_iff.1 (all before rule after ledger split reached) style
      exact Selector.scopeParts_isOk_iff.1 ⟨result, ok⟩ progress part later comes
    · intro all before rule after ledger split reached
      refine scopeLedger_isOk_iff.2 fun style => Selector.scopeParts_isOk_iff.2 ?_
      intro progress part later comes
      exact all progress part later ⟨before, rule, after, ledger, split, reached, style, comes⟩
  refine ⟨boundaries, boundaries.trans ⟨?_, ?_⟩, ?_⟩
  · rintro all progress part next later ⟨before, rule, after, ledger, split, reached, style, comes⟩
    refine Selector.boundaries_iff_not_strands.1 ?_ progress part next later comes
    exact fun progress part later comes =>
      all progress part later ⟨before, rule, after, ledger, split, reached, style, comes⟩
  · rintro none progress part later ⟨before, rule, after, ledger, split, reached, style, comes⟩
    refine Selector.boundaries_iff_not_strands.2 ?_ progress part later comes
    exact fun progress part next later comes =>
      none progress part next later ⟨before, rule, after, ledger, split, reached, style, comes⟩
  · rintro progress part later ⟨_, _, _, _, _, _, _, comes⟩
    exact Selector.offset_le_of_comesTo comes

/-- Not every sheet has a result: here the list cannot be gone on with before its third part. -/
theorem scope_stranded : ¬ ∃ result, scope {} "x-aa,aa,é{}".toList = .ok result := by
  rintro ⟨result, ok⟩
  have fault : scope {} "x-aa,aa,é{}".toList = .error (.insideCharacter 19) := by decide +kernel
  rw [fault] at ok
  cases ok

end ScopedCss.Stylesheet
