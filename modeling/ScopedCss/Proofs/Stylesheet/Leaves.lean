import ScopedCss.Proofs.Runs
import ScopedCss.Stylesheet

/-!
# The rules that a pass scopes

The first walk of a pass goes into grouping rules, and the rules it scopes are the `leaves` of the
sheet: those that hold no rules, in the order in which they stand, however deeply they are nested.
Which rules these are depends on the text alone.

So a pass is a run over a list: the ledger after the walk is what the leaves make of it, one after
the other (`map_snd_scopeRules`), and the walk fails exactly if one of its leaves does
(`foldlM_isOk_iff`).
-/
namespace ScopedCss

/-- The state after a walk is that of a run over the rules of the text. -/
theorem map_snd_walk {σ ε : Type} (visit : Rule → StateT σ (Except ε) Rule) (t : Text) (s : σ) :
    ((walk visit t).run s).map Prod.snd =
      (rulesOf t).foldlM (fun s rule => ((visit rule).run s).map Prod.snd) s := by
  rw [← map_snd_mapM, walk, StateT.run_bind]
  cases ((rulesOf t).mapM visit).run s <;> rfl

namespace Stylesheet

/-- The text that a pass walks through: what the stages leave, with its comments set aside. -/
def walked (options : Options) (source : Text) : Text :=
  (Comment.extract (options.stage source)).text

/-- What a pass makes of the text and the ledger that its first walk leaves. -/
def resultOf (options : Options) (source t : Text) (ledger : Ledger) : Result where
  css := Block.close (Comment.restore (Comment.extract (options.stage source)).comments
    (renameReferences options.switches ledger.mapping t))
  mapping := ledger.mapping
  warnings := ledger.warnings

/-- A pass is its first walk, and the rest of it cannot fail. -/
theorem scope_eq_map (options : Options) (source : Text) :
    scope options source =
      ((scopeRules (options.schemeFor source) (walked options source)).run {}).map
        fun (t, ledger) => resultOf options source t ledger := by
  have run : StateT.run (scopeRules (options.schemeFor source) (walked options source)) {} =
      scopeRules (options.schemeFor source) (walked options source) { asterisks := 0 } := rfl
  rw [run, scope, scopeFrom, walked]
  simp only [scopeText]
  cases scopeRules (options.schemeFor source) (Comment.extract (options.stage source)).text
    { asterisks := 0 } <;> rfl

/-- The rules of a text that hold no rules, those inside grouping rules included. -/
def leaves (t : Text) : List Rule :=
  (rulesOf t).attach.flatMap fun ⟨rule, _⟩ =>
    if rule.isGrouping then leaves rule.content else [rule]
termination_by weight t
decreasing_by exact weight_content_lt ‹_›

theorem leaves_eq (t : Text) :
    leaves t = (rulesOf t).flatMap fun rule =>
      if rule.isGrouping then leaves rule.content else [rule] := by
  rw [leaves]
  simp [List.flatMap_subtype]

/-- The ledger after a rule was scoped. -/
def scopeLedger (scheme : Scheme) (ledger : Ledger) (rule : Rule) : Except Fault Ledger :=
  (scopeRule scheme rule ledger).map Prod.snd

/-- **A pass is a run over the leaves of the sheet.** -/
theorem map_snd_scopeRules (scheme : Scheme) (t : Text) (ledger : Ledger) :
    ((scopeRules scheme t).run ledger).map Prod.snd =
      (leaves t).foldlM (scopeLedger scheme) ledger := by
  induction size : weight t using Nat.strongRecOn generalizing t ledger with
  | ind n ih =>
    subst size
    rw [scopeRules_eq_walk, leaves_eq, foldlM_flatMap, map_snd_walk]
    refine foldlM_congr_of_mem (fun rule mem ledger => ?_) ledger
    split
    next =>
      rw [← ih _ (weight_content_lt mem) rule.content ledger rfl, StateT.run_bind]
      cases (scopeRules scheme rule.content).run ledger <;> rfl
    next => exact (bind_pure _).symm

end Stylesheet
end ScopedCss
