import ScopedCss.Proofs.Rule.CommentedRules

/-!
# Walks through texts with comments

A walk that does the same to the rules of a text with and without marks of comments makes texts that
differ in as many marks as before (`commented_withRules`).  The rules go into niches that match in pairs
(`commented_weave`); where nothing is left of a content, what is behind it still goes on with the
structural character that ends it.
-/
namespace ScopedCss

open Quoted Block ScopedCss.Frame

namespace Niche.Twins
variable {niche niche' : Niche}

/-- What stands behind a content goes on with the same characters. -/
theorem behind_eq_nil {j : ℕ} (twins : niche.Twins niche')
    (behind : Commented j .fresh niche.behind niche'.behind) (none : niche.behind = []) : niche'.behind = [] := by
  cases split : niche'.behind with
  | nil => rfl
  | cons c t =>
    have structural := twins.closes c (by rw [split]; rfl)
    rcases behind.mem_or_mem (split ▸ List.mem_cons_self) with mem | mem
    · rw [none] at mem
      cases mem
    · rw [Mark.solid_comment c mem] at structural
      cases structural

/-- Rules woven into two niches, in front of what is woven into the next ones.  It does not matter what
the rules are, as long as they open and close the same strings. -/
theorem commented {selector content content' rest rest' : Text} {k j m : ℕ} {more : Prop} {spot : Spot}
    (twins : niche.Twins niche') (behind : Commented j .fresh niche.behind niche'.behind)
    (counted : Commented k .fresh niche.content niche'.content)
    (selected : openAfter none selector = openAfter none niche.selector)
    (closed : openAfter none content = openAfter none niche.content)
    (marks : Commented k .fresh content content')
    (later : ∀ spot : Spot, (more → spot.quote? = none) → Commented m spot rest rest')
    (some : more → niche.behind ≠ [] ∧ openAfter none niche.behind = none) (outside : spot.quote? = none) :
    Commented (k + (j + m)) spot (selector ++ (niche.link ++ (content ++ (niche.behind ++ rest))))
      (selector ++ (niche'.link ++ (content' ++ (niche'.behind ++ rest')))) := by
  rw [← twins.link]
  refine .prepend selector (.prepend niche.link ?_)
  have gap (u : Text) : ((spot.after selector).after u).quote? = openAfter none (niche.selector ++ u) := by
    rw [Spot.quote?_after, Spot.quote?_after, outside, selected, ← openAfter_append]
  obtain ⟨opened, first⟩ : ((spot.after selector).after niche.link).quote? = none ∧
      Commented k ((spot.after selector).after niche.link) content content' := by
    rcases twins.opens with ⟨before, split, starts⟩ | ⟨bare, bare', starts⟩
    · have fresh : (spot.after selector).after niche.link = .fresh := by
        rw [split, Spot.after_append]
        exact Spot.step_structural ((gap before).trans starts) rfl
      rw [fresh]
      exact ⟨rfl, marks⟩
    · rw [bare, bare'] at counted
      obtain rfl := counted.count_unique (.refl .fresh [])
      obtain rfl := marks.eq_of_zero
      exact ⟨(gap niche.link).trans starts, .refl _ _⟩
  refine first.append ?_
  have inside (nonempty : niche.behind ≠ []) :
      (((spot.after selector).after niche.link).after content).quote? = none := by
    rw [Spot.quote?_after, opened, closed]
    exact twins.ends.resolve_left nonempty
  refine Commented.append ?_ (later _ fun known => ?_)
  · by_cases nonempty : niche.behind = []
    · have none := twins.behind_eq_nil behind nonempty
      rw [nonempty, none] at behind ⊢
      obtain rfl := behind.count_unique (.refl .fresh [])
      exact .nil _
    · exact behind.respot (inside nonempty) twins.closes
  · rw [Spot.quote?_after, inside (some known).1]
    exact (some known).2

end Niche.Twins

theorem Aligned.twins {pairs : List (Niche × Niche)} (aligned : Aligned pairs) :
    ∀ pair ∈ pairs, pair.1.Twins pair.2 := by
  induction aligned with
  | nil => exact nofun
  | cons twins _ _ ih =>
    intro pair mem
    rcases List.mem_cons.1 mem with rfl | mem
    · exact twins
    · exact ih pair mem

/-- What the rules in two niches become: the same, but for the marks in their contents, of which none gets
lost. -/
structure Rewritten (pair : Niche × Niche) (result : Rule × Rule) : Prop where
  selector : result.1.selector = result.2.selector
  content : ∃ n, Commented n .fresh pair.1.content pair.2.content ∧
    Commented n .fresh result.1.content result.2.content
  kept : pair.1.rule.Kept result.1

/-- Woven into the niches of both texts the rules make the same text, but for as many marks as before. -/
theorem commented_weave {pairs : List (Niche × Niche)} (aligned : Aligned pairs) {results : List (Rule × Rule)}
    (rewritten : List.Forall₂ Rewritten pairs results) :
    ∃ n, ∀ spot : Spot, (pairs ≠ [] → spot.quote? = none) →
      Commented n spot (weave (pairs.map Prod.fst) (pairs.map fun pair => pair.1.rule))
        (weave (pairs.map Prod.snd) (pairs.map fun pair => pair.2.rule)) ∧
      Commented n spot (weave (pairs.map Prod.fst) (results.map Prod.fst))
        (weave (pairs.map Prod.snd) (results.map Prod.snd)) := by
  induction aligned generalizing results with
  | nil =>
    cases rewritten
    exact ⟨0, fun spot _ => ⟨.nil spot, .nil spot⟩⟩
  | @cons niche niche' pairs twins some _ ih =>
    obtain ⟨⟨rule, rule'⟩, results, first, later, rfl⟩ := List.forall₂_cons_left_iff.1 rewritten
    obtain ⟨m, rest⟩ := ih later
    obtain ⟨j, behind⟩ := twins.behind
    obtain ⟨k, counted, marks⟩ := first.content
    refine ⟨k + (j + m), fun spot outside => ?_⟩
    have known := outside (by simp)
    have old := twins.commented behind counted rfl rfl counted
      (fun spot outside => (rest spot outside).1) some known
    have selected := (first.kept.selector none isQuote_of_mem_none).strings
    have new := twins.commented behind counted selected first.kept.content.strings marks
      (fun spot outside => (rest spot outside).2) some known
    refine ⟨?_, ?_⟩
    · have same : niche.selector = niche'.selector := twins.selector
      simpa [weave, Niche.rule, same] using old
    · have same : rule.selector = rule'.selector := first.selector
      simpa [weave, same] using new

/-- **A walk leaves the marks of comments in a text**, if it does the same to its rules with and without
them. -/
theorem commented_withRules {n : ℕ} {s t : Text} (h : Commented n .fresh s t) (clean : '\\' ∉ s)
    (headed : Headed s) (headed' : Headed t) (free : WordFree (outside s)) (free' : WordFree (outside t))
    (inked : ∀ rule ∈ rulesOf t, ¬ Blank rule.selector) :
    ∃ pairs : List (Niche × Niche), rulesOf s = pairs.map (fun pair => pair.1.rule) ∧
      rulesOf t = pairs.map (fun pair => pair.2.rule) ∧ (∀ pair ∈ pairs, pair.1.Twins pair.2) ∧
      ∀ results, List.Forall₂ Rewritten pairs results →
        List.Forall₂ Rule.Kept (rulesOf t) (results.map Prod.snd) →
        Commented n .fresh ((Outline.ofText s).withRules (results.map Prod.fst))
          ((Outline.ofText t).withRules (results.map Prod.snd)) := by
  have orderly := Orderly.of_shield clean headed free
  have orderly' := Orderly.of_shield (h.no_backslash clean) headed' free'
  have shielded : Commented n .fresh (shield s) (shield t) := h.shield isQuote_of_mem_none clean
  obtain ⟨⟨⟨k, front⟩, blocks⟩, -⟩ :=
    layoutFrom_commented shielded isQuote_of_mem_none orderly.clean orderly.shielded
  have segments (t : Text) : (Outline.ofText t).segments = recogniser.scan ((layout (shield t)).front ++
      Layout.rowWith (fun _ => Mark.block) (layout (shield t)).blocks) := by
    rw [Outline.ofText, cut_eq]
    rfl
  have rules (t : Text) : rulesOf t = Outline.deal (Outline.ofText t).segments
      ((layout (shield t)).blocks.map Prod.fst) := by
    rw [rulesOf, Outline.rules, Outline.ofText, cut_eq]
    rfl
  rw [rules t, segments t] at inked
  have start : Commented k .fresh ([] ++ (layout (shield s)).front) (layout (shield t)).front := front
  have noSpaces : ∀ c ∈ ([] : Text), Text.isSpace c := List.forall_mem_nil _
  have matched : Matched [] (Outline.ofText s).segments ((layout (shield s)).blocks.map Prod.fst)
      (Outline.ofText t).segments ((layout (shield t)).blocks.map Prod.fst) := by
    rw [segments, segments]
    exact matched_scan noSpaces start blocks (.layout orderly) (.layout orderly') inked
  obtain ⟨before, before', pairs, framed, framed', ⟨m, marks⟩, aligned, starts⟩ := matched
  have dealt : rulesOf s = pairs.map fun pair => pair.1.rule := by
    rw [rules, framed.deal, List.map_map]
    rfl
  have dealt' : rulesOf t = pairs.map fun pair => pair.2.rule := by
    rw [rules, framed'.deal, List.map_map]
    rfl
  refine ⟨pairs, dealt, dealt', aligned.twins, fun results rewritten kept' => ?_⟩
  have kept : List.Forall₂ Rule.Kept (rulesOf s) (results.map Prod.fst) := by
    rw [dealt, List.forall₂_map_left_iff, List.forall₂_map_right_iff]
    exact rewritten.imp fun _ _ both => both.kept
  obtain ⟨w, woven⟩ := commented_weave aligned rewritten
  obtain ⟨old, new⟩ := woven (Spot.fresh.after before) fun some => by
    rw [Spot.quote?_after]
    exact starts some
  have same : m + w = n := by
    have whole := marks.append old
    rw [List.nil_append, ← framed.fill _ (by simp), ← framed'.fill _ (by simp), ← dealt, ← dealt',
      fill_of_orderly orderly, fill_of_orderly orderly'] at whole
    exact whole.count_unique shielded
  have filled := marks.append new
  have size := rewritten.length_eq
  rw [List.nil_append, ← framed.fill _ (by simp [size]), ← framed'.fill _ (by simp [size]), same] at filled
  exact filled.unshield isQuote_of_mem_none ((keeps_filled orderly kept).wordFree orderly.free)
    ((keeps_filled orderly' kept').wordFree orderly'.free)

end ScopedCss
