import ScopedCss.Proofs.Rule.CommentedContents
import ScopedCss.Proofs.Rule.CommentedWalks
import ScopedCss.Proofs.Stylesheet.Closing

/-!
# Passes over texts with comments

Over a text in which marks of comments stand and over the same text without them a pass goes alike
(`Agree`): both fail with the same fault, or both end with the same ledger and with texts that differ in
the marks alone.

This holds rule by rule, since a mark does not change a selector, and the contents that are edited are
those of style rules and of `@font-face` rules, in which the comments have to be set apart
(`Rule.SetApart`).
-/
namespace ScopedCss

open Quoted Block ScopedCss.Frame

/-- Two runs that fail alike, or end in the same state with results that are related. -/
inductive Agree {σ ε α β : Type} (R : α → β → Prop) : Except ε (α × σ) → Except ε (β × σ) → Prop where
  | error (e : ε) : Agree R (.error e) (.error e)
  | ok {a : α} {b : β} (s : σ) : R a b → Agree R (.ok (a, s)) (.ok (b, s))

namespace Agree
variable {σ ε α α' β β' : Type} {R : α → β → Prop} {S : α' → β' → Prop}

theorem bind {x : StateT σ (Except ε) α} {y : StateT σ (Except ε) β} {f : α → StateT σ (Except ε) α'}
    {g : β → StateT σ (Except ε) β'} {s : σ} (first : Agree R (x s) (y s))
    (rest : ∀ a b s, R a b → Agree S (f a s) (g b s)) : Agree S ((x >>= f) s) ((y >>= g) s) := by
  show Agree S (x s >>= fun p => f p.1 p.2) (y s >>= fun p => g p.1 p.2)
  generalize x s = left at first
  generalize y s = right at first
  cases first with
  | error e => exact .error e
  | ok s related => exact rest _ _ s related

/-- What is known of the results of each run alone is known of them together. -/
theorem with_each {x : Except ε (α × σ)} {y : Except ε (β × σ)} (h : Agree R x y) {P : α → Prop}
    {Q : β → Prop} (left : ∀ a s, x = .ok (a, s) → P a) (right : ∀ b s, y = .ok (b, s) → Q b) :
    Agree (fun a b => R a b ∧ P a ∧ Q b) x y := by
  cases h with
  | error e => exact .error e
  | ok s related => exact .ok s ⟨related, left _ _ rfl, right _ _ rfl⟩

theorem imp {x : Except ε (α × σ)} {y : Except ε (β × σ)} {P : α → β → Prop} (h : Agree R x y)
    (more : ∀ a b, R a b → P a b) : Agree P x y := by
  cases h with
  | error e => exact .error e
  | ok s related => exact .ok s (more _ _ related)

/-- Runs over the halves of pairs agree if they do at every pair. -/
theorem mapM {π : Type} {f : π → α} {g : π → β} {visit : α → StateT σ (Except ε) α'}
    {visit' : β → StateT σ (Except ε) β'} {R : π → α' → β' → Prop} {pairs : List π}
    (each : ∀ pair ∈ pairs, ∀ s, Agree (R pair) (visit (f pair) s) (visit' (g pair) s)) (s : σ) :
    Agree (fun l l' => ∃ results : List (α' × β'),
        List.Forall₂ (fun pair result => R pair result.1 result.2) pairs results ∧
          l = results.map Prod.fst ∧ l' = results.map Prod.snd)
      (((pairs.map f).mapM visit) s) (((pairs.map g).mapM visit') s) := by
  induction pairs generalizing s with
  | nil => exact .ok s ⟨[], .nil, rfl, rfl⟩
  | cons pair pairs ih =>
    rw [List.map_cons, List.map_cons, List.mapM_cons, List.mapM_cons]
    refine (each pair List.mem_cons_self s).bind fun a b s related => ?_
    refine (ih (fun pair mem => each pair (.tail _ mem)) s).bind fun l l' s rest => ?_
    obtain ⟨results, all, rfl, rfl⟩ := rest
    exact .ok s ⟨(a, b) :: results, .cons related all, rfl, rfl⟩

end Agree

namespace Stylesheet
variable {switches : Switches} {asterisk digits : Text} {rule rule' : Rule} {k n : ℕ} {s t : Text}
  {mapping : Mapping}

/-- A rule whose selector is more than comments, and with contents in which no comment hides a declaration
that a pass edits. -/
structure SetApart (rule : Rule) : Prop where
  selector : ¬ Blank rule.selector
  content : rule.isAtRule = false ∨ isFontFace rule → Declaration.SetApart rule.content

instance : DecidablePred SetApart := fun rule =>
  decidable_of_iff (¬ Blank rule.selector ∧
      (rule.isAtRule = false ∨ isFontFace rule → Declaration.SetApart rule.content))
    ⟨fun h => ⟨h.1, h.2⟩, fun h => ⟨h.selector, h.content⟩⟩

/-! ### Rules -/

theorem silent_declaredValue (scheme : Scheme) : Declaration.Silent (declaredValue scheme) := by
  intro property value answered
  unfold declaredValue at answered
  split at answered
  next family => exact ⟨"font-family".toList, by decide, by rw [family]⟩
  next => cases answered

theorem silent_renameValue (switches : Switches) (mapping : Mapping) :
    Declaration.Silent (renameValue switches mapping) := by
  intro property value answered
  unfold renameValue at answered
  split at answered
  next animation =>
    rw [Bool.and_eq_true] at animation
    exact ⟨_, List.mem_cons_self, List.isPrefixOf_iff_prefix.1 animation.2⟩
  next =>
    split at answered
    next family =>
      rw [Bool.and_eq_true, decide_eq_true_iff] at family
      exact ⟨"font-family".toList, by decide, by rw [family.2]⟩
    next => cases answered

/-- Scoping a rule goes alike with and without marks in its content. -/
theorem agree_scopeRule (quiet : Scheme.Quiet asterisk digits) (same : rule.selector = rule'.selector)
    (marks : Commented n .fresh rule.content rule'.content) (orderly : Orderly rule.content)
    (apart : SetApart rule') (ledger : Ledger) :
    Agree (fun a b => a.selector = b.selector ∧ Commented n .fresh a.content b.content)
      (scopeRule (.suffixed switches asterisk digits) rule ledger)
      (scopeRule (.suffixed switches asterisk digits) rule' ledger) := by
  obtain ⟨selector, content⟩ := rule
  obtain ⟨_, content'⟩ := rule'
  obtain rfl := same
  have at' : Rule.isAtRule ⟨selector, content'⟩ = Rule.isAtRule ⟨selector, content⟩ := rfl
  have frames : isKeyframes ⟨selector, content'⟩ = isKeyframes ⟨selector, content⟩ := rfl
  have face : isFontFace ⟨selector, content'⟩ = isFontFace ⟨selector, content⟩ := rfl
  unfold scopeRule
  rw [at', frames, face]
  split
  next =>
    split
    next =>
      cases KeyframesSelector.ofText? selector with
      | none => exact .ok ledger ⟨rfl, marks⟩
      | some keyframes => exact .ok _ ⟨rfl, marks⟩
    next =>
      split
      next known =>
        rw [Bool.and_eq_true] at known
        have set := apart.content (.inr (face.trans known.1))
        have text (content : Text) :=
          scopeFontFace_eq_pieces (.suffixed switches asterisk digits) content ledger
        have next : ((scopeFontFace (.suffixed switches asterisk digits) content).run ledger).2 =
            ((scopeFontFace (.suffixed switches asterisk digits) content').run ledger).2 := by
          rw [ledger_scopeFontFace, ledger_scopeFontFace]
          rw [Declaration.declaredIn_commented marks orderly set]
        have edited := Declaration.commented_content (silent_declaredValue (.suffixed switches asterisk digits))
          (fun _ _ _ answered _ isQuote =>
            keeps_declaredValue quiet.alphanum quiet.few isQuote answered) marks orderly set
        rw [← text content, ← text content'] at edited
        generalize (scopeFontFace (.suffixed switches asterisk digits) content).run ledger = done at *
        generalize (scopeFontFace (.suffixed switches asterisk digits) content').run ledger = done' at *
        obtain ⟨content, after⟩ := done
        obtain ⟨content', after'⟩ := done'
        obtain rfl : after = after' := next
        exact .ok after ⟨rfl, edited⟩
      next => exact .ok ledger ⟨rfl, marks⟩
  next =>
    show Agree _ ((Selector.scopeList _ selector ledger >>= _)) (Selector.scopeList _ selector ledger >>= _)
    cases Selector.scopeList (.suffixed switches asterisk digits) selector ledger with
    | error fault => exact .error fault
    | ok done => exact .ok _ ⟨rfl, marks⟩

/-- Renaming references in a rule leaves the marks in its content. -/
theorem commented_renameRule (switches : Switches) (alphanum : ∀ c ∈ digits, c.isAlphanum)
    (few : digits.length ≤ 10) (suffixes : Suffixes digits mapping)
    (same : rule.selector = rule'.selector) (marks : Commented n .fresh rule.content rule'.content)
    (orderly : Orderly rule.content) (apart : SetApart rule') :
    (renameRule switches mapping rule).selector = (renameRule switches mapping rule').selector ∧
      Commented n .fresh (renameRule switches mapping rule).content
        (renameRule switches mapping rule').content := by
  obtain ⟨selector, content⟩ := rule
  obtain ⟨_, content'⟩ := rule'
  obtain rfl := same
  have at' : Rule.isAtRule ⟨selector, content'⟩ = Rule.isAtRule ⟨selector, content⟩ := rfl
  unfold renameRule
  rw [at']
  split
  next => exact ⟨rfl, marks⟩
  next style =>
    refine ⟨rfl, ?_⟩
    dsimp only
    rw [Declaration.editAll_pure, Declaration.editAll_pure]
    exact Declaration.commented_content (silent_renameValue switches mapping)
      (fun _ _ _ answered _ isQuote => keeps_renameValue alphanum few suffixes isQuote answered) marks
      orderly (apart.content (.inl (at'.trans (by simpa using style))))

/-! ### Walks -/

/-- A text whose blocks a walk puts together again. -/
structure Sound (t : Text) : Prop where
  clean : '\\' ∉ t
  headed : Headed t
  free : WordFree (outside t)

theorem Sound.orderly (h : Sound t) : Orderly (shield t) := .of_shield h.clean h.headed h.free

/-- So are the contents of its rules. -/
theorem Sound.content (h : Sound t) (mem : rule ∈ rulesOf t) : Sound rule.content :=
  have whole := (tame_of_mem_rulesOf h.orderly mem).2
  ⟨whole.clean, whole.headed, whole.free⟩

theorem Sound.keeps (h : Sound s) (kept : Keeps none s t) : Sound t :=
  ⟨kept.clean h.clean, kept.headed h.headed, kept.wordFree h.free⟩

/-- A rule that holds rules is at least an at-word. -/
theorem not_blank_of_isGrouping (grouping : rule.isGrouping) : ¬ Blank rule.selector := by
  have at' := Rule.isAtRule_of_isGrouping grouping
  rw [Rule.isAtRule, decide_eq_true_iff] at at'
  obtain ⟨t, split⟩ := List.head?_eq_some_iff.1 at'
  rw [split]
  rintro (⟨c, ⟨⟩, space⟩ | mark)
  · cases space
  · exact absurd (List.cons_prefix_cons.1 mark).1 (by decide)

/-- No selector of a rule is blank if the leaves are set apart. -/
theorem inked_of_setApart (apart : ∀ leaf ∈ leaves t, SetApart leaf) :
    ∀ rule ∈ rulesOf t, ¬ Blank rule.selector := by
  intro rule mem
  by_cases grouping : rule.isGrouping
  · exact not_blank_of_isGrouping grouping
  · refine (apart rule (mem_leaves mem ?_)).selector
    rw [if_neg grouping]
    exact List.mem_cons_self

/-- A rule, and the same rule with marks of comments in its content. -/
structure Twins (rule rule' : Rule) : Prop where
  selector : rule.selector = rule'.selector
  content : ∃ k, Commented k .fresh rule.content rule'.content

theorem Twins.isGrouping_eq (twins : Twins rule rule') : rule.isGrouping = rule'.isGrouping := by
  rw [Rule.isGrouping, Rule.isGrouping, Rule.atName?, Rule.atName?, Rule.isAtRule, Rule.isAtRule,
    twins.selector]

/-- **A sheet has the same leaves with and without comments**, but for the comments in them. -/
theorem forall₂_leaves (h : Commented n .fresh s t) (sound : Sound s) (sound' : Sound t)
    (apart : ∀ leaf ∈ leaves t, SetApart leaf) : List.Forall₂ Twins (leaves s) (leaves t) := by
  induction size : weight t using Nat.strongRecOn generalizing n s t with
  | ind len ih =>
    subst size
    obtain ⟨pairs, rules, rules', twins, -⟩ := commented_withRules h sound.clean sound.headed
      sound'.headed sound.free sound'.free (inked_of_setApart apart)
    have each (pair : Niche × Niche) (mem : pair ∈ pairs) : List.Forall₂ Twins
        (if pair.1.rule.isGrouping then leaves pair.1.rule.content else [pair.1.rule])
        (if pair.2.rule.isGrouping then leaves pair.2.rule.content else [pair.2.rule]) := by
      have inside : pair.1.rule ∈ rulesOf s := rules ▸ List.mem_map_of_mem mem
      have inside' : pair.2.rule ∈ rulesOf t := rules' ▸ List.mem_map_of_mem mem
      have both : Twins pair.1.rule pair.2.rule := ⟨(twins pair mem).selector, (twins pair mem).content⟩
      obtain ⟨k, marks⟩ := both.content
      rw [both.isGrouping_eq]
      split
      next grouping =>
        refine ih _ (weight_content_lt inside') marks (sound.content inside) (sound'.content inside')
          (fun leaf known => apart leaf (mem_leaves inside' ?_)) rfl
        rwa [if_pos grouping]
      next => exact .cons both .nil
    rw [leaves_eq, leaves_eq, rules, rules']
    clear rules rules' twins
    induction pairs with
    | nil => exact .nil
    | cons pair pairs more =>
      exact List.rel_append (each pair List.mem_cons_self) (more fun pair mem => each pair (.tail _ mem))

/-- Joining the words of class attributes does not depend on comments. -/
theorem joinsFreely_of_twins {leaves leaves' : List Rule} (same : List.Forall₂ Twins leaves leaves')
    (joined : JoinsFreely leaves') : JoinsFreely leaves := by
  induction same with
  | nil => exact joined
  | @cons leaf leaf' leaves leaves' first _ ih =>
    intro rule mem style
    rcases List.mem_cons.1 mem with rfl | mem
    · rw [Rule.isAtRule, first.selector] at style
      rw [first.selector]
      exact joined leaf' List.mem_cons_self style
    · exact ih (fun rule mem => joined rule (.tail _ mem)) rule mem style

/-- The first walk keeps the blocks of every rule. -/
theorem Sound.kept_scopeVisit (sound : Sound t) (quiet : Scheme.Quiet asterisk digits)
    (joined : JoinsFreely (leaves t)) (mem : rule ∈ rulesOf t) {ledger after : Ledger}
    (ok : scopeVisit (.suffixed switches asterisk digits) rule ledger = .ok (rule', after)) :
    rule.Kept rule' := by
  have inner := sound.content mem
  exact Stylesheet.kept_scopeVisit quiet (tame_of_mem_rulesOf sound.orderly mem).1
    (fun leaf inside => joined leaf (mem_leaves mem inside))
    (fun _ _ _ _ joined done => keeps_scopeRules quiet inner.clean inner.headed inner.free joined done) ok

/-- And so does the second. -/
theorem Sound.kept_renameVisit (sound : Sound t) (switches : Switches)
    (alphanum : ∀ c ∈ digits, c.isAlphanum) (few : digits.length ≤ 10)
    (suffixes : Suffixes digits mapping) (mem : rule ∈ rulesOf t) :
    rule.Kept (renameVisit switches mapping rule) := by
  have inner := sound.content mem
  unfold renameVisit
  split
  next =>
    exact ⟨fun _ _ => .refl _,
      keeps_renameRules switches alphanum few suffixes inner.clean inner.headed inner.free⟩
  next => exact kept_renameRule switches alphanum few suffixes (tame_of_mem_rulesOf sound.orderly mem).1

/-- **The first walk goes alike** with and without comments. -/
theorem agree_scopeRules (quiet : Scheme.Quiet asterisk digits) (h : Commented n .fresh s t)
    (sound : Sound s) (sound' : Sound t) (joined : JoinsFreely (leaves t))
    (apart : ∀ leaf ∈ leaves t, SetApart leaf) (ledger : Ledger) :
    Agree (Commented n .fresh) (scopeRules (.suffixed switches asterisk digits) s ledger)
      (scopeRules (.suffixed switches asterisk digits) t ledger) := by
  induction size : weight t using Nat.strongRecOn generalizing n s t ledger with
  | ind len ih =>
    subst size
    have joins := joinsFreely_of_twins (forall₂_leaves h sound sound' apart) joined
    obtain ⟨pairs, rules, rules', twins, woven⟩ := commented_withRules h sound.clean sound.headed
      sound'.headed sound.free sound'.free (inked_of_setApart apart)
    have each (pair : Niche × Niche) (mem : pair ∈ pairs) (ledger : Ledger) :
        Agree (fun a b => Rewritten pair (a, b) ∧ pair.2.rule.Kept b)
          (scopeVisit (.suffixed switches asterisk digits) pair.1.rule ledger)
          (scopeVisit (.suffixed switches asterisk digits) pair.2.rule ledger) := by
      have inside : pair.1.rule ∈ rulesOf s := rules ▸ List.mem_map_of_mem mem
      have inside' : pair.2.rule ∈ rulesOf t := rules' ▸ List.mem_map_of_mem mem
      have both : Twins pair.1.rule pair.2.rule := ⟨(twins pair mem).selector, (twins pair mem).content⟩
      obtain ⟨k, marks⟩ := both.content
      have visited : Agree (fun a b => a.selector = b.selector ∧ Commented k .fresh a.content b.content)
          (scopeVisit (.suffixed switches asterisk digits) pair.1.rule ledger)
          (scopeVisit (.suffixed switches asterisk digits) pair.2.rule ledger) := by
        unfold scopeVisit
        rw [both.isGrouping_eq]
        split
        next grouping =>
          have known (leaf : Rule) (mem : leaf ∈ leaves pair.2.rule.content) : leaf ∈ leaves t :=
            mem_leaves inside' (by rwa [if_pos grouping])
          refine (ih _ (weight_content_lt inside') marks (sound.content inside) (sound'.content inside')
            (fun leaf mem => joined leaf (known leaf mem)) (fun leaf mem => apart leaf (known leaf mem))
            ledger rfl).bind fun content content' next done => ?_
          exact .ok next ⟨both.selector, done⟩
        next leaf =>
          refine agree_scopeRule quiet both.selector marks (tame_of_mem_rulesOf sound.orderly inside).2
            (apart _ (mem_leaves inside' ?_)) ledger
          rw [if_neg leaf]
          exact List.mem_cons_self
      have kept := visited.with_each
        (fun _ _ ok => sound.kept_scopeVisit quiet joins inside ok)
        (fun _ _ ok => sound'.kept_scopeVisit quiet joined inside' ok)
      exact kept.imp fun a b known => ⟨⟨known.1.1, ⟨k, marks, known.1.2⟩, known.2.1⟩, known.2.2⟩
    rw [scopeRules_eq, scopeRules_eq, walk, walk, rules, rules']
    refine (Agree.mapM each ledger).bind fun l l' next done => ?_
    obtain ⟨results, all, rfl, rfl⟩ := done
    refine .ok next (woven results (all.imp fun _ _ known => known.1) ?_)
    rw [rules', List.forall₂_map_left_iff, List.forall₂_map_right_iff]
    exact all.imp fun _ _ known => known.2

/-- **The second walk leaves the marks of comments in a text.** -/
theorem commented_renameRules (switches : Switches) (alphanum : ∀ c ∈ digits, c.isAlphanum)
    (few : digits.length ≤ 10) (suffixes : Suffixes digits mapping) (h : Commented n .fresh s t)
    (sound : Sound s) (sound' : Sound t) (apart : ∀ leaf ∈ leaves t, SetApart leaf) :
    Commented n .fresh (renameRules switches mapping s) (renameRules switches mapping t) := by
  induction size : weight t using Nat.strongRecOn generalizing n s t with
  | ind len ih =>
    subst size
    obtain ⟨pairs, rules, rules', twins, woven⟩ := commented_withRules h sound.clean sound.headed
      sound'.headed sound.free sound'.free (inked_of_setApart apart)
    have each (pair : Niche × Niche) (mem : pair ∈ pairs) :
        Rewritten pair (renameVisit switches mapping pair.1.rule, renameVisit switches mapping pair.2.rule) := by
      have inside : pair.1.rule ∈ rulesOf s := rules ▸ List.mem_map_of_mem mem
      have inside' : pair.2.rule ∈ rulesOf t := rules' ▸ List.mem_map_of_mem mem
      have both : Twins pair.1.rule pair.2.rule := ⟨(twins pair mem).selector, (twins pair mem).content⟩
      obtain ⟨k, marks⟩ := both.content
      have visited : (renameVisit switches mapping pair.1.rule).selector =
            (renameVisit switches mapping pair.2.rule).selector ∧
          Commented k .fresh (renameVisit switches mapping pair.1.rule).content
            (renameVisit switches mapping pair.2.rule).content := by
        unfold renameVisit
        rw [both.isGrouping_eq]
        split
        next grouping =>
          refine ⟨both.selector, ih _ (weight_content_lt inside') marks (sound.content inside)
            (sound'.content inside') (fun leaf mem => apart leaf (mem_leaves inside' ?_)) rfl⟩
          rwa [if_pos grouping]
        next leaf =>
          refine commented_renameRule switches alphanum few suffixes both.selector marks
            (tame_of_mem_rulesOf sound.orderly inside).2 (apart _ (mem_leaves inside' ?_))
          rw [if_neg leaf]
          exact List.mem_cons_self
      exact ⟨visited.1, ⟨k, marks, visited.2⟩, sound.kept_renameVisit switches alphanum few suffixes inside⟩
    have whole := woven (pairs.map fun pair =>
      (renameVisit switches mapping pair.1.rule, renameVisit switches mapping pair.2.rule))
    rw [renameRules_eq, renameRules_eq, rules, rules']
    simp only [List.map_map] at whole ⊢
    refine whole ?_ ?_
    · rw [List.forall₂_map_right_iff]
      exact List.forall₂_same.2 each
    · rw [rules', List.forall₂_map_left_iff, List.forall₂_map_right_iff]
      exact List.forall₂_same.2 fun pair mem =>
        sound'.kept_renameVisit switches alphanum few suffixes (rules' ▸ List.mem_map_of_mem mem)

end Stylesheet
end ScopedCss
