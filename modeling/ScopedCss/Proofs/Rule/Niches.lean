import ScopedCss.Proofs.Rule.Walks

/-!
# Rules and what stands between them

Seen from its rules, a text is some text in front, and then for each rule a *niche*: its selector, a link,
its content, and what stands behind it up to the next selector.  Putting other rules into the frames of
the text is weaving them into the niches (`Framed`).
-/
namespace ScopedCss

open Quoted Block ScopedCss.Frame

/-- A rule with what stands between its selector and its content, and behind its content. -/
structure Niche where
  selector : Text
  /-- Spaces, and the brace of a block. -/
  link : Text
  content : Text
  /-- The text up to the next selector, or to the end. -/
  behind : Text

/-- The rule in a niche. -/
def Niche.rule (niche : Niche) : Rule := ⟨niche.selector, niche.content⟩

/-- Rules woven into niches, first into first. -/
def weave : List Niche → List Rule → Text
  | niche :: niches, rule :: rules =>
    rule.selector ++ (niche.link ++ (rule.content ++ (niche.behind ++ weave niches rules)))
  | _, _ => []

/-- Segments to which contents are dealt make a text in front, and niches. -/
structure Framed (segments : List (Segment Frame)) (blocks : List Text) (front : Text)
    (niches : List Niche) : Prop where
  deal : Outline.deal segments blocks = niches.map Niche.rule
  fill : ∀ rules : List Rule, rules.length = niches.length →
    Outline.fill segments rules = front ++ weave niches rules

namespace Framed
variable {segments : List (Segment Frame)} {blocks : List Text} {front : Text} {niches : List Niche}

theorem nil (blocks : List Text) : Framed [] blocks [] [] := ⟨rfl, fun _ _ => rfl⟩

theorem plain (h : Framed segments blocks front niches) (u : Text) :
    Framed (u.map .plain ++ segments) blocks (u ++ front) niches := by
  induction u with
  | nil => exact h
  | cons c u ih =>
    exact ⟨ih.deal, fun rules size => congrArg (c :: ·) (ih.fill rules size)⟩

theorem statement (h : Framed segments blocks front niches) (lead selector gap : Text) :
    Framed (.hit ⟨lead, selector, gap, .statement⟩ :: segments) blocks lead
      (⟨selector, gap, [], ';' :: front⟩ :: niches) where
  deal := congrArg (List.cons (⟨selector, []⟩ : Rule)) h.deal
  fill rules size := by
    cases rules with
    | nil => cases size
    | cons rule rules =>
      rw [Outline.fill, h.fill rules (Nat.succ.inj size), weave]
      simp [around, Ending.around]

theorem block (h : Framed segments blocks front niches) (lead selector gap closing content : Text) :
    Framed (.hit ⟨lead, selector, gap, .block closing⟩ :: segments) (content :: blocks) lead
      (⟨selector, gap ++ ['{'], content, closing ++ front⟩ :: niches) where
  deal := congrArg (List.cons (⟨selector, content⟩ : Rule)) h.deal
  fill rules size := by
    cases rules with
    | nil => cases size
    | cons rule rules =>
      rw [Outline.fill, h.fill rules (Nat.succ.inj size), weave]
      simp [around, Ending.around]

end Framed

/-! ### Scanning runs -/

namespace Frame
variable {run u : Text}

/-- A run that a closing brace ends makes no frame. -/
theorem scan_append_brace (solid : ∀ c ∈ run, isStructural c = false) (u : Text) :
    recogniser.scan (run ++ '}' :: u) = (run ++ ['}']).map .plain ++ recogniser.scan u := by
  induction run with
  | nil =>
    have none : read ('}' :: u) = none := read_structural rfl u
    exact Recogniser.scan_of_not_read none
  | cons c run ih =>
    have nonempty : c :: run ≠ [] := by simp
    have none : recogniser.read (c :: (run ++ '}' :: u)) = none := read_run nonempty solid rfl u
    rw [List.cons_append, Recogniser.scan_of_not_read none, ih fun d mem => solid d (.tail c mem)]
    rfl

/-- Nor does a run that ends the text. -/
theorem scan_of_solid (solid : ∀ c ∈ run, isStructural c = false) :
    recogniser.scan run = run.map .plain := by
  induction run with
  | nil => rfl
  | cons c run ih =>
    rw [Recogniser.scan_of_not_read (read_of_solid solid), ih fun d mem => solid d (.tail c mem)]
    rfl

/-- A run that a `;` ends makes a frame with it. -/
theorem scan_append_semicolon (nonempty : run ≠ []) (solid : ∀ c ∈ run, isStructural c = false)
    (u : Text) :
    recogniser.scan (run ++ ';' :: u) = .hit (ofRun run .statement) :: recogniser.scan u := by
  have text : (ofRun run .statement).spell ++ u = run ++ ';' :: u := by
    rw [spell, ofRun_around]
    simp [ofRun, Ending.around, Ending.content]
  have read : recogniser.read ((ofRun run .statement).spell ++ u) = some (ofRun run .statement) := by
    rw [text]
    exact read_run nonempty solid rfl u
  rw [← text]
  exact Recogniser.scan_spell_append read

end Frame

/-! ### Texts around their blocks -/

namespace Block.Layout
variable {before content : Text} {blocks : List (Text × Text)} {run u : Text} {c : Char}

/-- An orderly text in front of blocks that are laid out as they are cut. -/
structure Proper (before : Text) (blocks : List (Text × Text)) : Prop where
  orderly : Orderly (before ++ rowWith id blocks)
  flat : '{' ∉ before
  flatBehind : ∀ block ∈ blocks, '{' ∉ block.2
  closed : ∀ block ∈ blocks, block.2 = [] ∨ block.2.head? = some '}'
  ended : Ended blocks

namespace Proper

theorem layout {t : Text} (orderly : Orderly t) : Proper (layout t).front (layout t).blocks where
  orderly := by
    have whole := text_layout t
    rw [text] at whole
    rwa [whole]
  flat := (no_brace_layoutFrom 0 orderly.clean).1
  flatBehind := (no_brace_layoutFrom 0 orderly.clean).2
  closed := (head_layoutFrom 0 t).2
  ended := (ended_layoutFrom 0 t).2

/-- A structural character stands outside strings. -/
theorem openAfter_eq (h : Proper (run ++ c :: u) blocks) (structural : isStructural c) :
    openAfter none run = none := by
  have orderly := h.orderly
  rw [List.append_assoc] at orderly
  exact Orderly.openAfter_eq orderly (mem_chars_of_isStructural structural)

theorem behind (h : Proper (run ++ c :: u) blocks) (structural : isStructural c) : Proper u blocks where
  orderly := by
    have orderly := h.orderly
    rw [List.append_assoc] at orderly
    exact (Orderly.behind orderly structural).1
  flat mem := h.flat (List.mem_append_right _ (.tail c mem))
  flatBehind := h.flatBehind
  closed := h.closed
  ended := h.ended

theorem openAfter_before (h : Proper before ((content, u) :: blocks)) : openAfter none before = none := by
  have orderly := h.orderly
  rw [rowWith_cons] at orderly
  exact orderly.openAfter_eq (by decide)

/-- Something stands in front of a block. -/
theorem ne_nil (h : Proper before ((content, u) :: blocks)) : before ≠ [] := by
  rintro rfl
  have orderly := h.orderly
  rw [rowWith_cons] at orderly
  have begun := (orderly.behind rfl).2 rfl
  cases begun

/-- A block that is closed closes its strings. -/
theorem openAfter_content (h : Proper before ((content, u) :: blocks)) :
    u = [] ∨ openAfter none content = none := by
  rcases h.closed _ List.mem_cons_self with none | brace
  · exact .inl none
  · obtain ⟨tail, rfl⟩ := List.head?_eq_some_iff.1 brace
    have orderly := h.orderly
    rw [rowWith_cons] at orderly
    have inner := (orderly.behind rfl).1
    exact .inr (inner.openAfter_eq (by decide))

/-- What stands past a block, up to the next one. -/
theorem past (h : Proper before ((content, u) :: blocks)) : Proper (past u) blocks := by
  have later : Orderly (Block.past u ++ rowWith id blocks) := by
    rcases h.closed _ List.mem_cons_self with none | brace
    · have last := h.ended.1 none
      rw [show u = [] from none, last]
      exact ⟨nofun, rfl, rfl, wordFree_nil⟩
    · have cases := past_cases (.inr brace)
      obtain ⟨tail, rfl⟩ := List.head?_eq_some_iff.1 brace
      have orderly := h.orderly
      have text : before ++ rowWith id ((content, '}' :: tail) :: blocks) =
          before ++ '{' :: content ++ '}' :: (Text.leading tail ++
            (Text.trimStart tail ++ rowWith id blocks)) := by
        conv => lhs; rw [← Text.trimStart_append tail]
        simp
      rw [text] at orderly
      have inner := (orderly.behind rfl).1.past_spaces (Text.leading_spaces tail)
      rw [List.tail_cons] at cases
      rcases cases with same | same
      · rwa [same]
      · rw [same] at inner
        exact (Orderly.behind (s := []) inner rfl).1
  refine ⟨later, fun mem => ?_, fun block mem => h.flatBehind block (.tail _ mem),
    fun block mem => h.closed block (.tail _ mem), h.ended.2⟩
  exact h.flatBehind _ List.mem_cons_self ((List.drop_suffix _ u).subset mem)

end Proper
end Block.Layout
end ScopedCss
