import ScopedCss.Proofs.Rule.Losses
import ScopedCss.Proofs.Rule.Upkeep

/-!
# Walks keep blocks

A walk over a text without backslashes in which no block is bare puts the text together again around
whatever becomes of its rules.  So if each rule becomes one that keeps its blocks, then so does the
text (`keeps_walk`): every selector and every content stands in it where it stood.

That no block is bare follows if each has something in front of it (`Headed`), and this is inherited by
the contents of blocks.
-/
namespace ScopedCss

open Quoted Block ScopedCss.Frame

/-! ### Cut blocks -/

namespace Block.Layout

/-- Only at the end of a text is a block not closed. -/
def Ended : List (Text × Text) → Prop
  | [] => True
  | (_, behind) :: blocks => (behind = [] → blocks = []) ∧ Ended blocks

end Block.Layout

namespace Block

theorem ended_layoutFrom (depth : Nat) (t : Text) :
    (0 < depth → (layoutFrom depth t).2.front = [] → (layoutFrom depth t).2.blocks = []) ∧
      Layout.Ended (layoutFrom depth t).2.blocks := by
  fun_induction layoutFrom depth t with
  | case1 => exact ⟨fun _ _ => rfl, trivial⟩
  | case2 c t ih => exact ⟨fun inside => absurd inside (Nat.lt_irrefl 0), ih.2⟩
  | case3 depth c t laid ih => exact ih
  | case4 t laid _ ih =>
    exact ⟨fun inside => absurd inside (Nat.lt_irrefl 0), ih.1 Nat.one_pos, ih.2⟩
  | case5 c t _ _ ih => exact ⟨fun inside => absurd inside (Nat.lt_irrefl 0), ih.2⟩
  | case6 depth c t _ _ ih => exact ⟨fun _ none => absurd none (List.cons_ne_nil _ _), ih.2⟩
  | case7 depth c t _ other laid ih => exact ⟨fun _ => ih.1 (depth_pos other), ih.2⟩

/-- Without backslashes no brace opens outside of blocks. -/
theorem no_brace_layoutFrom (depth : Nat) {t : Text} (clean : '\\' ∉ t) :
    '{' ∉ (layoutFrom depth t).2.front ∧ ∀ block ∈ (layoutFrom depth t).2.blocks, '{' ∉ block.2 := by
  fun_induction layoutFrom depth t with
  | case1 => exact ⟨List.not_mem_nil, List.forall_mem_nil _⟩
  | case2 c t ih => exact absurd List.mem_cons_self clean
  | case3 depth c t laid ih => exact absurd List.mem_cons_self clean
  | case4 t laid _ ih =>
    obtain ⟨front, blocks⟩ := ih fun mem => clean (.tail _ mem)
    refine ⟨List.not_mem_nil, fun block mem => ?_⟩
    rcases List.mem_cons.1 mem with rfl | mem
    · exact front
    · exact blocks block mem
  | case5 c t _ other ih =>
    obtain ⟨front, blocks⟩ := ih fun mem => clean (.tail _ mem)
    refine ⟨fun mem => ?_, blocks⟩
    rcases List.mem_cons.1 mem with rfl | mem
    · exact other rfl
    · exact front mem
  | case6 depth c t _ closes ih =>
    obtain ⟨front, blocks⟩ := ih fun mem => clean (.tail _ mem)
    refine ⟨fun mem => ?_, blocks⟩
    rcases List.mem_cons.1 mem with same | mem
    · cases same
    · exact front mem
  | case7 depth c t _ other laid ih => exact ih fun mem => clean (.tail _ mem)

end Block

/-! ### Sealed texts -/

/-- In a text whose blocks are cut out, a block is closed unless it ends the text. -/
def Frame.Sealed (t : Text) : Prop :=
  ∀ x y, t = x ++ (opening ++ y) → y = [] ∨ y.head? = some '}'

namespace Frame

theorem Sealed.behind {s t : Text} (h : Sealed (s ++ t)) : Sealed t := fun x y split =>
  h (s ++ x) y (by rw [split, List.append_assoc])

theorem sealed_rowWith {before : Text} {blocks : List (Text × Text)} (clean : '{' ∉ before)
    (clean' : ∀ block ∈ blocks, '{' ∉ block.2)
    (known : ∀ block ∈ blocks, block.2 = [] ∨ block.2.head? = some '}') (ended : Layout.Ended blocks) :
    Sealed (before ++ Layout.rowWith (fun _ => Mark.block) blocks) := by
  intro x y split
  induction blocks generalizing before x with
  | nil =>
    have brace : '{' ∈ before ++ Layout.rowWith (fun _ => Mark.block) [] := by
      rw [split]
      simp [opening]
    exact absurd (by simpa [Layout.rowWith] using brace) clean
  | cons block blocks ih =>
    obtain ⟨content, behind⟩ := block
    have here : '{' :: (Mark.block ++ (behind ++ Layout.rowWith (fun _ => Mark.block) blocks)) =
        '{' :: (Mark.block ++ y) → y = [] ∨ y.head? = some '}' := by
      intro same
      have rest : behind ++ Layout.rowWith (fun _ => Mark.block) blocks = y := by simpa using same
      rw [← rest]
      rcases known _ List.mem_cons_self with none | brace
      · have last := ended.1 none
        rw [last, show behind = [] from none]
        exact .inl rfl
      · obtain ⟨u, closes⟩ := List.head?_eq_some_iff.1 brace
        rw [show behind = '}' :: u from closes]
        exact .inr rfl
    rw [Layout.rowWith_cons] at split
    rcases List.append_eq_append_iff.1 split with ⟨u, rfl, rest⟩ | ⟨u, rfl, rest⟩
    · cases u with
      | nil => exact here rest
      | cons c u =>
        have front : '{' ∉ Mark.block ++ behind := by
          rw [List.mem_append, not_or]
          exact ⟨by decide, clean' _ List.mem_cons_self⟩
        refine ih front (fun block mem => clean' block (.tail _ mem))
          (fun block mem => known block (.tail _ mem)) ended.2 (x := u) ?_
        · rw [List.append_assoc]
          exact (List.cons.inj rest).2
    · cases u with
      | nil => exact here rest.symm
      | cons c u =>
        obtain rfl : '{' = c := (List.cons.inj rest).1
        exact absurd (List.mem_append_right _ List.mem_cons_self) clean

/-! ### Frames that are scanned -/

/-- A frame is that of a run and of what ends it. -/
theorem exists_run_of_read {t : Text} {frame : Frame} (found : read t = some frame) :
    ∃ run rest, t = run ++ rest ∧ run ≠ [] ∧ (∀ c ∈ run, isStructural c = false) ∧
      readEnding rest = some frame.ending ∧ frame = ofRun run frame.ending := by
  have whole : t.takeWhile (fun c => !isStructural c) ++ t.dropWhile (fun c => !isStructural c) = t :=
    List.takeWhile_append_dropWhile
  unfold read at found
  split at found
  next => cases found
  next c run here =>
    obtain ⟨ending, ends, rfl⟩ := Option.map_eq_some_iff.1 found
    refine ⟨c :: run, _, by rw [← here, whole], by simp, fun d mem => ?_, ends, rfl⟩
    rw [← here] at mem
    simpa using List.mem_takeWhile_imp mem

theorem exists_of_readEnding {t closes : Text} (found : readEnding t = some (.block closes)) :
    ∃ after, t = opening ++ after ∧ closing after = closes := by
  unfold readEnding at found
  split at found
  next => cases found
  next t =>
    obtain ⟨after, front, same⟩ := Option.map_eq_some_iff.1 found
    cases same
    exact ⟨after, congrArg ('{' :: ·) (Text.append_of_isPrefixOf? front), rfl⟩
  next => cases found

theorem closing_ne_nil {t : Text} (brace : t.head? = some '}') : closing t ≠ [] := by
  simp [closing, brace]

/-- Behind the selector of a frame stand spaces, and what closes its block is no part of a mark. -/
structure Enclosed (frame : Frame) : Prop where
  spaced : ∀ c ∈ frame.gap, Text.isSpace c
  closes : ∀ closes, frame.ending = .block closes → Ends closes

/-- The space behind a selector, or what ends its rule if there is none, is no part of a mark. -/
theorem Enclosed.ends_gap {frame : Frame} (h : Enclosed frame) {c : Char} (foreign : c ∉ Mark.word)
    (t : Text) : Ends (frame.gap ++ c :: t) := by
  have spaced := h.spaced
  intro d first
  cases gap : frame.gap with
  | nil =>
    rw [gap] at first
    cases first
    exact foreign
  | cons e gap' =>
    rw [gap] at first spaced
    cases first
    exact not_mem_word (Mark.isMarkChar_of_isSpace (spaced _ List.mem_cons_self))

theorem enclosed_of_read {t : Text} {frame : Frame} (found : read t = some frame) :
    Enclosed frame := by
  obtain ⟨run, rest, -, some, -, ends, made⟩ := exists_run_of_read found
  constructor
  · rw [made]
    exact (splitRun_spec some).2.2
  · intro closes ending
    obtain ⟨after, -, rfl⟩ := exists_of_readEnding (ends.trans (congrArg Option.some ending))
    intro c first
    have mem := List.mem_of_mem_head? first
    simp only [closing, List.mem_append] at mem
    rcases mem with (brace | space) | semicolon
    · rw [List.mem_singleton.1 (List.mem_ite_nil_right.1 brace).2]
      decide
    · exact not_mem_word (Mark.isMarkChar_of_isSpace (Text.leading_spaces _ c space))
    · rw [List.mem_singleton.1 (List.mem_ite_nil_right.1 semicolon).2]
      decide

/-- Each block in segments is closed, but for one at their end. -/
def Closes : List (Segment Frame) → Prop
  | [] => True
  | .plain _ :: segments => Closes segments
  | .hit frame :: segments => (frame.ending = .block [] → segments = []) ∧ Closes segments

theorem closes_scan {t : Text} (sealed : Sealed t) : Closes (recogniser.scan t) := by
  induction size : t.length using Nat.strongRecOn generalizing t with
  | ind n ih =>
    subst size
    cases t with
    | nil => trivial
    | cons c t =>
      rcases Recogniser.scan_cons (r := recogniser) c t with
        ⟨frame, rest, found, split, shorter, scan⟩ | ⟨-, scan⟩
      · rw [scan]
        refine ⟨fun ending => ?_, ih _ shorter (Sealed.behind (split ▸ sealed)) rfl⟩
        obtain ⟨run, tail, text, -, -, ends, made⟩ := exists_run_of_read found
        obtain ⟨after, opens, none⟩ := exists_of_readEnding (ends.trans (congrArg some ending))
        have spelled : recogniser.spell frame = run ++ opening := by
          have around := ofRun_around run frame.ending Mark.block
          rw [← made, ending] at around
          refine Eq.trans (b := frame.around frame.selector Mark.block) ?_ ?_
          · show frame.around frame.selector frame.ending.content = _
            rw [ending]
            rfl
          · rw [around]
            simp [Ending.around, opening]
        have same : rest = after := by
          rw [split, spelled, opens, List.append_assoc] at text
          exact List.append_cancel_left (List.append_cancel_left text)
        have closed := sealed run after (by rw [text, opens])
        rcases closed with ended | brace
        · rw [same, ended]
          rfl
        · exact absurd none (closing_ne_nil brace)
      · rw [scan]
        exact ih t.length (by simp) (Sealed.behind (s := [c]) sealed) rfl

end Frame

/-! ### Rules in their frames -/

namespace Outline

/-- The parts of a rule stand in the text that it fills: its selector, and its content behind a
brace. -/
theorem part_of_mem_deal {rule : Rule} {segments : List (Segment Frame)} {blocks : List Text}
    (mem : rule ∈ deal segments blocks) :
    rule.selector <:+: fill segments (deal segments blocks) ∧
      (rule.content = [] ∨ '{' :: rule.content <:+: fill segments (deal segments blocks)) := by
  fun_induction deal segments blocks with
  | case1 => cases mem
  | case2 c segments blocks ih =>
    have behind := List.suffix_cons c (fill segments (deal segments blocks))
    exact (ih mem).imp (·.trans behind.isInfix) fun content => content.imp_right (·.trans behind.isInfix)
  | case3 frame segments blocks statement ih =>
    rw [fill]
    rcases List.mem_cons.1 mem with rfl | mem
    · exact ⟨⟨frame.lead, _, by simp [around]; rfl⟩, .inl rfl⟩
    · have behind := List.suffix_append (frame.around frame.selector [])
        (fill segments (deal segments blocks))
      exact (ih mem).imp (·.trans behind.isInfix) fun content =>
        content.imp_right (·.trans behind.isInfix)
  | case4 frame segments blocks closing block ih =>
    rw [fill]
    rcases List.mem_cons.1 mem with rfl | mem
    · exact ⟨⟨frame.lead, _, by simp [around]; rfl⟩, .inr
        ⟨frame.lead ++ frame.selector ++ frame.gap, _, by simp [around, block, Ending.around]; rfl⟩⟩
    · have behind := List.suffix_append (frame.around frame.selector (blocks.headD []))
        (fill segments (deal segments blocks.tail))
      exact (ih mem).imp (·.trans behind.isInfix) fun content =>
        content.imp_right (·.trans behind.isInfix)

/-- A rule in its frame may be replaced, and so may what follows it. -/
theorem keeps_around {rule rule' : Rule} (kept : rule.Kept rule') {state : Option Char}
    (isQuote : ∀ q ∈ state, Text.isQuote q) {lead link tail rest rest' : Text}
    (clean : '\\' ∉ lead ++ (rule.selector ++ (link ++ (rule.content ++ (tail ++ rest)))))
    (shielded : shieldFrom state (lead ++ (rule.selector ++ (link ++ (rule.content ++ (tail ++ rest))))) =
      lead ++ (rule.selector ++ (link ++ (rule.content ++ (tail ++ rest)))))
    (starts : openAfter state (lead ++ rule.selector ++ link) = none)
    (ends : Ends (link ++ (rule.content ++ (tail ++ rest')))) (ends' : Ends (tail ++ rest'))
    (later : ∀ {state : Option Char}, (∀ q ∈ state, Text.isQuote q) → '\\' ∉ rest →
      shieldFrom state rest = rest → Keeps state rest rest') :
    Keeps state (lead ++ (rule.selector ++ (link ++ (rule.content ++ (tail ++ rest)))))
      (lead ++ (rule'.selector ++ (link ++ (rule'.content ++ (tail ++ rest'))))) := by
  have first : Keeps state (lead ++ (rule.selector ++ (link ++ (rule.content ++ (tail ++ rest)))))
      (lead ++ (rule.selector ++ (link ++ (rule.content ++ (tail ++ rest'))))) := by
    have split (t : Text) : lead ++ (rule.selector ++ (link ++ (rule.content ++ (tail ++ t)))) =
        lead ++ rule.selector ++ link ++ rule.content ++ tail ++ t := by simp
    rw [split] at clean shielded
    rw [split, split]
    rw [List.mem_append, not_or] at clean
    exact (later (isQuote_of_mem_openAfter isQuote) clean.2
      (shielded_append isQuote clean.1 shielded).2).prepend isQuote
  have selector := kept.selector (openAfter state lead) (isQuote_of_mem_openAfter isQuote)
  have starts' : openAfter state (lead ++ rule'.selector ++ link) = none := by
    rw [← starts]
    simp only [openAfter_append, selector.strings]
  have third : Keeps state (lead ++ (rule'.selector ++ (link ++ (rule.content ++ (tail ++ rest')))))
      (lead ++ (rule'.selector ++ (link ++ (rule'.content ++ (tail ++ rest'))))) := by
    have inside : Keeps (openAfter state (lead ++ rule'.selector ++ link)) rule.content rule'.content :=
      starts' ▸ kept.content
    simpa using inside.around isQuote ends'
  exact first.trans ((selector.around isQuote ends).trans third)

section Rows
variable {frame : Frame} {rule : Rule} {state : Option Char} {rest rest' : Text}

/-- What ends a rule stands outside strings. -/
theorem openAfter_gap (isQuote : ∀ q ∈ state, Text.isQuote q) {c : Char} (known : c ∈ Mark.chars)
    {t : Text} (clean : '\\' ∉ frame.lead ++ (frame.selector ++ (frame.gap ++ c :: t)))
    (shielded : shieldFrom state (frame.lead ++ (frame.selector ++ (frame.gap ++ c :: t))) =
      frame.lead ++ (frame.selector ++ (frame.gap ++ c :: t))) :
    openAfter state (frame.lead ++ frame.selector ++ frame.gap) = none := by
  rw [← List.append_assoc, ← List.append_assoc] at clean shielded
  exact openAfter_of_shielded isQuote (fun mem => clean (List.mem_append_left _ mem)) known shielded

theorem keeps_statement (enclosed : frame.Enclosed) (statement : frame.ending = .statement)
    (kept : Rule.Kept ⟨frame.selector, []⟩ rule) (isQuote : ∀ q ∈ state, Text.isQuote q)
    (clean : '\\' ∉ frame.around frame.selector [] ++ rest)
    (shielded : shieldFrom state (frame.around frame.selector [] ++ rest) =
      frame.around frame.selector [] ++ rest)
    (later : ∀ {state : Option Char}, (∀ q ∈ state, Text.isQuote q) → '\\' ∉ rest →
      shieldFrom state rest = rest → Keeps state rest rest') :
    Keeps state (frame.around frame.selector [] ++ rest)
      (frame.around rule.selector rule.content ++ rest') := by
  have text (rule : Rule) (t : Text) : frame.around rule.selector rule.content ++ t =
      frame.lead ++ (rule.selector ++ (frame.gap ++ (rule.content ++ ([';'] ++ t)))) := by
    simp [around, statement, Ending.around]
  rw [text ⟨frame.selector, []⟩] at clean shielded ⊢
  rw [text rule]
  exact keeps_around kept isQuote clean shielded
    (openAfter_gap isQuote (by decide) clean shielded) (enclosed.ends_gap (by decide) _)
    (by rintro d ⟨⟩; decide) later

theorem keeps_block (enclosed : frame.Enclosed) {closing content : Text}
    (block : frame.ending = .block closing) (closed : closing = [] → rest' = [])
    (kept : Rule.Kept ⟨frame.selector, content⟩ rule) (isQuote : ∀ q ∈ state, Text.isQuote q)
    (clean : '\\' ∉ frame.around frame.selector content ++ rest)
    (shielded : shieldFrom state (frame.around frame.selector content ++ rest) =
      frame.around frame.selector content ++ rest)
    (later : ∀ {state : Option Char}, (∀ q ∈ state, Text.isQuote q) → '\\' ∉ rest →
      shieldFrom state rest = rest → Keeps state rest rest') :
    Keeps state (frame.around frame.selector content ++ rest)
      (frame.around rule.selector rule.content ++ rest') := by
  have text (rule : Rule) (t : Text) : frame.around rule.selector rule.content ++ t =
      frame.lead ++ (rule.selector ++ ((frame.gap ++ ['{']) ++ (rule.content ++ (closing ++ t)))) := by
    simp [around, block, Ending.around]
  rw [text ⟨frame.selector, content⟩] at clean shielded ⊢
  rw [text rule]
  have starts : openAfter state (frame.lead ++ frame.selector ++ (frame.gap ++ ['{'])) = none := by
    rw [List.append_assoc frame.gap] at clean shielded
    rw [← List.append_assoc, openAfter_append, openAfter_gap isQuote (by decide) clean shielded]
    rfl
  have ends : Ends (closing ++ rest') := by
    cases closing with
    | nil =>
      rw [closed rfl]
      rintro d ⟨⟩
    | cons c closing => exact fun d first => enclosed.closes _ block d first
  refine keeps_around kept isQuote clean shielded starts ?_ ends later
  rw [List.append_assoc]
  exact enclosed.ends_gap (by decide) _

end Rows

/-- **Filling frames with rules that keep their blocks** keeps the blocks of the text. -/
theorem keeps_fill {segments : List (Segment Frame)} {blocks : List Text}
    (enclosed : ∀ frame, .hit frame ∈ segments → frame.Enclosed)
    (closed : Frame.Closes segments) {rules : List Rule}
    (kept : List.Forall₂ Rule.Kept (deal segments blocks) rules) {state : Option Char}
    (isQuote : ∀ q ∈ state, Text.isQuote q) (clean : '\\' ∉ fill segments (deal segments blocks))
    (shielded : shieldFrom state (fill segments (deal segments blocks)) =
      fill segments (deal segments blocks)) :
    Keeps state (fill segments (deal segments blocks)) (fill segments rules) := by
  induction segments generalizing blocks rules state with
  | nil => exact .refl _
  | cons segment segments ih =>
    have enclosed' := fun frame mem => enclosed frame (.tail segment mem)
    cases segment with
    | plain c =>
      have behind := shielded_append (s := [c]) isQuote (fun mem => clean (by
        rw [List.mem_singleton.1 mem]
        exact List.mem_cons_self)) shielded
      exact (ih enclosed' closed kept (isQuote_of_mem_openAfter isQuote)
        (fun mem => clean (.tail _ mem)) behind.2).prepend isQuote (x := [c])
    | hit frame =>
      cases ending : frame.ending with
      | statement =>
        rw [deal, ending] at kept clean shielded ⊢
        obtain ⟨rule, rules, first, later, rfl⟩ := List.forall₂_cons_left_iff.1 kept
        exact keeps_statement (enclosed frame List.mem_cons_self) ending first isQuote clean shielded
          (ih enclosed' closed.2 later)
      | block closing =>
        rw [deal, ending] at kept clean shielded ⊢
        obtain ⟨rule, rules, first, later, rfl⟩ := List.forall₂_cons_left_iff.1 kept
        have last (unclosed : closing = []) : fill segments rules = [] := by
          rw [closed.1 (ending.trans (congrArg _ unclosed))]
          rfl
        exact keeps_block (enclosed frame List.mem_cons_self) ending last first isQuote clean shielded
          (ih enclosed' closed.2 later)

end Outline

/-! ### Orderly texts -/

namespace Block

/-- A shielded text without backslashes in which every block has something in front of it, and no mark
is written outside strings. -/
structure Orderly (t : Text) : Prop where
  clean : '\\' ∉ t
  shielded : shield t = t
  headed : Headed t
  free : WordFree (outside t)

theorem mem_chars_of_isStructural {c : Char} (structural : isStructural c) : c ∈ Mark.chars := by
  simp only [isStructural, Bool.or_eq_true, beq_iff_eq] at structural
  rcases structural with (rfl | rfl) | rfl <;> decide

/-- Nothing stands behind a structural character yet, and something stands in front of a block. -/
theorem headStep_structural {begun next : Bool} {c : Char} (structural : isStructural c)
    (step : headStep begun c = some next) : next = false ∧ (c = '{' → begun = true) := by
  rw [headStep, if_pos structural] at step
  split at step
  next =>
    split at step
    next begun => exact ⟨(Option.some.inj step).symm, fun _ => begun⟩
    next => cases step
  next other => exact ⟨(Option.some.inj step).symm, fun same => absurd same other⟩

theorem isQuote_of_mem_chars {c : Char} (known : c ∈ Mark.chars) : Text.isQuote c = false := by
  rcases Mark.mem_chars.1 known with rfl | rfl | rfl | rfl | rfl <;> rfl

namespace Orderly
variable {s t : Text} {c : Char}

/-- A text is orderly once its strings are shielded. -/
theorem of_shield (clean : '\\' ∉ t) (headed : Headed t) (free : WordFree (outside t)) :
    Orderly (shield t) := by
  have same : outside (shield t) = outside t := (outsideFrom_shieldFrom isQuote_of_mem_none clean).2
  refine ⟨no_backslash_shield clean, shield_shield t, ?_, same ▸ free⟩
  rw [Headed, same]
  exact headed

theorem front (h : Orderly (s ++ t)) : Orderly s where
  clean mem := h.clean (List.mem_append_left t mem)
  shielded := (shielded_append isQuote_of_mem_none (fun mem => h.clean (List.mem_append_left t mem))
    h.shielded).1
  headed := by
    have whole := h.headed
    rw [Headed, outside, outsideFrom_append, headAfter_append] at whole
    exact Option.isSome_of_isSome_bind whole
  free := by
    have whole := h.free
    rw [outside, outsideFrom_append] at whole
    exact whole.part (List.prefix_append _ _).isInfix

/-- A structural character stands outside strings. -/
theorem openAfter_eq (h : Orderly (s ++ c :: t)) (known : c ∈ Mark.chars) : openAfter none s = none :=
  openAfter_of_shielded isQuote_of_mem_none (fun mem => h.clean (List.mem_append_left _ mem)) known
    h.shielded

theorem outside_eq (h : Orderly (s ++ c :: t)) (known : c ∈ Mark.chars) :
    outside (s ++ c :: t) = outside s ++ c :: outside t := by
  rw [outside, outsideFrom_append, h.openAfter_eq known, outsideFrom, isQuote_of_mem_chars known]
  rfl

/-- What stands behind a structural character is orderly, and there is something in front of a
block. -/
theorem behind (h : Orderly (s ++ c :: t)) (structural : isStructural c) :
    Orderly t ∧ (c = '{' → headAfter false (outside s) = some true) := by
  have known := mem_chars_of_isStructural structural
  have cut := h.outside_eq known
  have headed := h.headed
  rw [Headed, cut, headAfter_append] at headed
  obtain ⟨last, whole⟩ := Option.isSome_iff_exists.1 headed
  obtain ⟨begun, first, rest⟩ := Option.bind_eq_some_iff.1 whole
  rw [headAfter_cons] at rest
  obtain ⟨next, step, rest⟩ := Option.bind_eq_some_iff.1 rest
  obtain ⟨rfl, opens⟩ := headStep_structural structural step
  refine ⟨⟨fun mem => h.clean (List.mem_append_right s (.tail c mem)), ?_, ?_, ?_⟩, fun same => ?_⟩
  · have text : s ++ c :: t = (s ++ [c]) ++ t := by simp
    have clean := h.clean
    have shielded := h.shielded
    rw [text] at clean shielded
    have later := (shielded_append isQuote_of_mem_none
      (fun mem => clean (List.mem_append_left t mem)) shielded).2
    rwa [openAfter_append, h.openAfter_eq known, openAfter, isQuote_of_mem_chars known] at later
  · exact Option.isSome_iff_exists.2 ⟨last, rest⟩
  · have free := h.free
    rw [cut] at free
    exact free.part ((List.suffix_cons c _).trans (List.suffix_append _ _)).isInfix
  · rw [first, opens same]

/-- Spaces at the front may be left off. -/
theorem past_spaces (h : Orderly (s ++ t)) (spaces : ∀ c ∈ s, Text.isSpace c) : Orderly t := by
  obtain ⟨opens, left⟩ := outsideFrom_of_no_quote isQuote_of_mem_none
    fun c mem => Text.isQuote_of_isSpace (spaces c mem)
  have cut : outside (s ++ t) = s ++ outside t := by
    rw [outside, outsideFrom_append, opens, left]
    rfl
  have blank : headAfter false s = some false := by
    rw [headAfter_of_solid fun c mem => isStructural_of_isSpace (spaces c mem)]
    simpa using spaces
  have headed := h.headed
  have free := h.free
  rw [Headed, cut, headAfter_append, blank] at headed
  rw [cut] at free
  have later := (shielded_append isQuote_of_mem_none
    (fun mem => h.clean (List.mem_append_left t mem)) h.shielded).2
  rw [opens] at later
  exact ⟨fun mem => h.clean (List.mem_append_right s mem), later, headed,
    free.part (List.suffix_append s _).isInfix⟩

/-- The content of a block is orderly. -/
theorem content {x y content : Text} (h : Orderly (x ++ '{' :: (content ++ y))) : Orderly content :=
  (h.behind rfl).1.front

/-- No block of an orderly text is bare. -/
theorem not_bare {before : Text} {blocks : List (Text × Text)}
    (h : Orderly (before ++ Layout.rowWith id blocks))
    (known : ∀ block ∈ blocks, block.2 = [] ∨ block.2.head? = some '}')
    (ended : Layout.Ended blocks) : ∀ place ∈ Layout.placesFrom before blocks, ¬ Bare place.1 := by
  induction blocks generalizing before with
  | nil => nofun
  | cons block blocks ih =>
    obtain ⟨content, behind⟩ := block
    rw [Layout.rowWith_cons] at h
    intro place mem
    rcases List.mem_cons.1 mem with rfl | mem
    · -- A structural character right in front of the block would leave nothing begun.
      have begun := (h.behind rfl).2 rfl
      intro bare
      rcases List.eq_nil_or_concat before with rfl | ⟨front, c, rfl⟩
      · cases begun
      · rw [List.concat_eq_append] at *
        have structural : isStructural c := bare c (by simp)
        rw [h.front.outside_eq (mem_chars_of_isStructural structural), headAfter_append] at begun
        obtain ⟨middle, -, last⟩ := Option.bind_eq_some_iff.1 begun
        obtain ⟨next, step, same⟩ := Option.bind_eq_some_iff.1 last
        obtain ⟨rfl, -⟩ := headStep_structural structural step
        cases same
    · rcases known _ List.mem_cons_self with none | brace
      · have last := ended.1 none
        rw [last] at mem
        cases mem
      · obtain ⟨tail, rfl⟩ := List.head?_eq_some_iff.1 brace
        refine ih ?_ (fun block mem => known block (.tail _ mem)) ended.2 place mem
        have text : before ++ '{' :: (id content ++ ('}' :: tail ++ Layout.rowWith id blocks)) =
            before ++ '{' :: content ++ '}' :: (Text.leading tail ++
              (Text.trimStart tail ++ Layout.rowWith id blocks)) := by
          conv => lhs; rw [← Text.trimStart_append tail]
          simp
        rw [text] at h
        exact (h.behind rfl).1.past_spaces (Text.leading_spaces tail)

end Orderly

end Block

/-! ### Walks -/

/-- The blocks of a text are put together again if it is orderly. -/
theorem fill_of_orderly {t : Text} (orderly : Orderly (shield t)) :
    Outline.fill (Outline.ofText t).segments (rulesOf t) = shield t := by
  obtain ⟨front, behind⟩ := no_brace_layoutFrom 0 orderly.clean
  have absent {s : Text} (clean : '{' ∉ s) : ¬ opening <:+: s := fun inside =>
    clean (inside.subset List.mem_cons_self)
  refine fill_rulesOf ⟨absent front, fun block mem => absent (behind block mem)⟩ ?_
  refine Orderly.not_bare ?_ (head_layoutFrom 0 (shield t)).2 (ended_layoutFrom 0 (shield t)).2
  rw [← text_layout (shield t)] at orderly
  exact orderly

/-- The rules of an orderly text. -/
theorem tame_of_mem_rulesOf {t : Text} (orderly : Orderly (shield t)) {rule : Rule}
    (mem : rule ∈ rulesOf t) : rule.Tame ∧ Orderly rule.content := by
  obtain ⟨selector, content⟩ := Outline.part_of_mem_deal mem
  have whole : Outline.fill (Outline.ofText t).segments
      (Outline.deal (Outline.ofText t).segments (Outline.ofText t).blocks) = shield t :=
    fill_of_orderly orderly
  rw [whole] at selector content
  have inner : Orderly rule.content := by
    rcases content with none | ⟨x, y, split⟩
    · rw [none]
      exact ⟨nofun, rfl, rfl, wordFree_nil⟩
    · rw [← split] at orderly
      exact Orderly.content (x := x) (y := y) (by simpa using orderly)
  refine ⟨⟨fun c inside => ⟨?_, ?_⟩, inner.shielded, inner.clean, inner.free⟩, inner⟩
  · obtain ⟨⟨frame, scanned, same⟩, -⟩ := Outline.mem_deal mem
    obtain ⟨u, -, found⟩ := Recogniser.exists_read_of_mem_scan scanned
    obtain ⟨run, -, -, -, solid, -, made⟩ := exists_run_of_read found
    have split := splitRun_append run
    refine solid c ?_
    rw [← split]
    rw [same, made] at inside
    exact List.mem_append_left _ (List.mem_append_right _ inside)
  · rintro rfl
    exact orderly.clean (selector.subset inside)

/-- Filling the frames of a text with rules keeps the blocks of the shielded text. -/
theorem keeps_filled {t : Text} (orderly : Orderly (shield t)) {rules : List Rule}
    (kept : List.Forall₂ Rule.Kept (rulesOf t) rules) :
    Keeps none (shield t) (Outline.fill (Outline.ofText t).segments rules) := by
  have whole := fill_of_orderly orderly
  rw [← whole]
  refine Outline.keeps_fill (fun frame mem => ?_) ?_ kept
    isQuote_of_mem_none (whole ▸ orderly.clean) (whole ▸ orderly.shielded)
  · obtain ⟨u, -, found⟩ := Recogniser.exists_read_of_mem_scan mem
    exact enclosed_of_read found
  · obtain ⟨front, behind⟩ := no_brace_layoutFrom 0 orderly.clean
    rw [Outline.ofText, cut_eq]
    exact closes_scan (sealed_rowWith front behind (head_layoutFrom 0 (shield t)).2
      (ended_layoutFrom 0 (shield t)).2)

/-- **A walk keeps blocks** if each rule becomes one that does. -/
theorem keeps_walk {t : Text} (clean : '\\' ∉ t) (headed : Headed t) (free : WordFree (outside t))
    {rules : List Rule} (kept : List.Forall₂ Rule.Kept (rulesOf t) rules) :
    Keeps none t ((Outline.ofText t).withRules rules) := by
  have orderly := Orderly.of_shield clean headed free
  have shielding : Keeps none t (shield t) := by
    obtain ⟨opens, left⟩ := outsideFrom_shieldFrom isQuote_of_mem_none clean
    exact ⟨opens, left ▸ .refl _, no_backslash_shield⟩
  have filled := keeps_filled orderly kept
  exact shielding.trans (filled.trans (Declaration.keeps_unshield isQuote_of_mem_none
    (filled.wordFree orderly.free)))

end ScopedCss
