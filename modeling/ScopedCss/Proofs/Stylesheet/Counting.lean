import ScopedCss.Proofs.Stylesheet.Records

/-!
# Passes one after the other

Sheets that are scoped together share one thing, the number of `*` that were named.  With one name for
`*` nothing depends on this number: a pass that starts further on does the same, and ends as much
further on (`CountsOn`).  So each sheet is scoped as it would be alone (`scopeAll_of_literal`).
-/
namespace ScopedCss

/-- The ledger with a number of `*` named before. -/
def Ledger.after (n : Nat) (ledger : Ledger) : Ledger :=
  { ledger with asterisks := ledger.asterisks + n }

/-- A program does the same however many `*` were named before, and counts on from there. -/
def CountsOn {m : Type → Type} [Monad m] {α : Type} (program : StateT Ledger m α) : Prop :=
  ∀ n ledger, program.run (ledger.after n) =
    (program.run ledger >>= fun result => pure (result.1, result.2.after n))

namespace CountsOn
variable {m : Type → Type} [Monad m] [LawfulMonad m] {α β : Type}

theorem pure (a : α) : CountsOn (Pure.pure a : StateT Ledger m α) := by
  intro n ledger
  simp

theorem bind {program : StateT Ledger m α} {next : α → StateT Ledger m β}
    (first : CountsOn program) (later : ∀ a, CountsOn (next a)) : CountsOn (program >>= next) := by
  intro n ledger
  rw [StateT.run_bind, StateT.run_bind, first, bind_assoc, bind_assoc]
  refine bind_congr fun result => ?_
  rw [pure_bind]
  exact later result.1 n result.2

theorem mapM {visit : β → StateT Ledger m α} {l : List β} (each : ∀ b ∈ l, CountsOn (visit b)) :
    CountsOn (l.mapM visit) := by
  induction l with
  | nil => exact .pure []
  | cons b l ih =>
    rw [List.mapM_cons]
    exact .bind (each b List.mem_cons_self) fun a =>
      .bind (ih fun b mem => each b (List.mem_cons_of_mem _ mem)) fun as => .pure (a :: as)

theorem walk {visit : Rule → StateT Ledger m Rule} {t : Text}
    (each : ∀ rule ∈ rulesOf t, CountsOn (visit rule)) : CountsOn (ScopedCss.walk visit t) :=
  .bind (.mapM each) fun rules => .pure ((Outline.ofText t).withRules rules)

end CountsOn

/-! ### Selectors -/

namespace Ledger
variable {scheme : Scheme}

theorem rename_after (n : Nat) (ledger : Ledger) (token : Token) (r : Renaming) :
    (ledger.after n).rename token r = (ledger.rename token r).after n := by
  unfold rename
  split
  · simp only [after, insert, Nat.add_right_comm]
  · rfl

theorem note_after (fixed : scheme.Fixed) (n : Nat) (part : Text) (ledger : Ledger) (token : Token) :
    (ledger.after n).note scheme part token = (ledger.note scheme part token).after n := by
  by_cases unknown : ∃ text, token = .unknown text
  · obtain ⟨text, rfl⟩ := unknown
    rfl
  · have known (text : Text) : token ≠ .unknown text := fun same => unknown ⟨text, same⟩
    rw [note_of_known scheme part _ known, note_of_known scheme part _ known,
      Token.renaming?_of_fixed fixed (ledger.after n).asterisks,
      Token.renaming?_of_fixed fixed ledger.asterisks]
    cases token.renaming? scheme 0 with
    | none => rfl
    | some r => exact rename_after n ledger token r

theorem foldl_note_after (fixed : scheme.Fixed) (n : Nat) (part : Text) (tokens : List Token)
    (ledger : Ledger) :
    tokens.foldl (note scheme part) (ledger.after n) =
      (tokens.foldl (note scheme part) ledger).after n := by
  induction tokens generalizing ledger with
  | nil => rfl
  | cons token tokens ih => rw [List.foldl_cons, List.foldl_cons, note_after fixed, ih]

end Ledger

variable {scheme : Scheme}

theorem Selector.countsOn_scopeFrom (fixed : scheme.Fixed) (parts : List Text) (text : Text)
    (offset n : Nat) (ledger : Ledger) :
    scopeFrom scheme parts (ledger.after n) text offset =
      (scopeFrom scheme parts ledger text offset).map fun (ledger, text) => (ledger.after n, text) := by
  induction parts generalizing ledger text offset with
  | nil => rfl
  | cons part parts ih =>
    rw [scopeFrom, scopeFrom]
    cases text.splitAtByte? offset with
    | none => rfl
    | some cut =>
      simp only [foldl_scopeToken_eq fixed, Ledger.foldl_note_after fixed]
      exact ih _ _ _

namespace Stylesheet

/-! ### Rules -/

theorem countsOn_scopeFontFace (scheme : Scheme) (content : Text) :
    CountsOn (scopeFontFace scheme content) := by
  have declare (value : Text) (n : Nat) (ledger : Ledger) :
      FontFamily.declare scheme.scope value (ledger.after n) =
        ((FontFamily.declare scheme.scope value ledger).1.after n,
          (FontFamily.declare scheme.scope value ledger).2) := by
    simp only [FontFamily.declare]
    split <;> rfl
  refine .bind (.mapM fun piece _ => ?_) fun pieces => .pure _
  unfold Declaration.editPiece
  split
  next => exact .pure piece
  next declaration _ =>
    refine .bind ?_ fun value => ?_
    · dsimp only
      split
      next =>
        generalize Quoted.unshield declaration.value = value
        intro n ledger
        show (some (FontFamily.declare scheme.scope value (ledger.after n)).2,
            (FontFamily.declare scheme.scope value (ledger.after n)).1) =
          (some (FontFamily.declare scheme.scope value ledger).2,
            (FontFamily.declare scheme.scope value ledger).1.after n)
        rw [declare]
      next => exact .pure none
    · split <;> exact .pure _

theorem countsOn_scopeRule (fixed : scheme.Fixed) (rule : Rule) : CountsOn (scopeRule scheme rule) := by
  intro n ledger
  show scopeRule scheme rule (ledger.after n) = (scopeRule scheme rule ledger).bind _
  unfold scopeRule
  split
  next =>
    split
    next => split <;> rfl
    next =>
      split
      next =>
        rw [countsOn_scopeFontFace]
        rfl
      next => rfl
  next =>
    rw [Selector.scopeList, Selector.scopeParts, Selector.countsOn_scopeFrom fixed]
    rw [Selector.scopeList, Selector.scopeParts]
    cases Selector.scopeFrom scheme (CommaList.entries rule.selector) ledger
      (NamedAttribute.normalise rule.selector) 0 <;> rfl

theorem countsOn_scopeRules (fixed : scheme.Fixed) (t : Text) : CountsOn (scopeRules scheme t) := by
  induction size : weight t using Nat.strongRecOn generalizing t with
  | ind size ih =>
    subst size
    rw [scopeRules_eq_walk]
    refine .walk fun rule mem => ?_
    split
    next =>
      exact .bind (ih _ (weight_content_lt mem) rule.content rfl) fun content =>
        .pure { rule with content }
    next => exact countsOn_scopeRule fixed rule

/-! ### Sheets -/

variable {options : Options} {name : Text}

theorem scopeFrom_of_literal (literal : options.asteriskName = .literal name) (n : Nat)
    (source : Text) :
    scopeFrom options n source =
      (scopeFrom options 0 source).map fun (result, asterisks) => (result, asterisks + n) := by
  have fixed : Scheme.Fixed (options.schemeFor source) := ⟨name, literal⟩
  have counts := countsOn_scopeRules fixed
    (Comment.extract (options.stage source)).text n {}
  have start : Ledger.after n {} = { asterisks := n } := by simp [Ledger.after]
  rw [start] at counts
  simp only [StateT.run] at counts
  simp only [scopeFrom, scopeText]
  rw [counts]
  cases scopeRules (options.schemeFor source) (Comment.extract (options.stage source)).text {} <;> rfl

/-- **With one name for `*` each sheet is scoped as it would be alone.** -/
theorem scopeAll_of_literal (literal : options.asteriskName = .literal name) (sources : List Text) :
    scopeAll options sources = sources.mapM (scope options) := by
  have from_any (n : Nat) :
      ((sources.mapM fun source => (fun n => scopeFrom options n source) :
        StateT Nat (Except Fault) (List Result)).run n).map Prod.fst =
        sources.mapM (scope options) := by
    induction sources generalizing n with
    | nil => rfl
    | cons source sources ih =>
      rw [List.mapM_cons, List.mapM_cons, StateT.run_bind]
      have first : StateT.run (fun n => scopeFrom options n source : StateT Nat (Except Fault) Result) n =
          (scopeFrom options 0 source).map fun (result, asterisks) => (result, asterisks + n) :=
        scopeFrom_of_literal literal n source
      rw [first, scope]
      cases scopeFrom options 0 source with
      | error fault => rfl
      | ok result =>
        obtain ⟨result, asterisks⟩ := result
        have rest (later : StateT Nat (Except Fault) (List Result)) (m : Nat) :
            ((later >>= fun results => pure (result :: results)).run m).map Prod.fst =
              (later.run m).map Prod.fst >>= fun results => pure (result :: results) := by
          rw [StateT.run_bind]
          cases later.run m <;> rfl
        exact (rest _ (asterisks + n)).trans (congrArg (· >>= _) (ih (asterisks + n)))
  exact from_any 0

end Stylesheet
end ScopedCss
