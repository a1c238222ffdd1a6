import ScopedCss.Proofs.Text.Shielding

/-!
# Flat and balanced texts

What stands outside strings is what a text holds once its strings are shielded.  A *flat* text has no
structural character there, a *balanced* one closes there what it opens; both close their strings.
Such texts are built up piece by piece.

A balanced text between braces is cut out as one block, whatever stands in it (`cut_block`), and
leaves no block open (`openAtEnd_eq_zero`).
-/
namespace ScopedCss

namespace Quoted

/-- A property of the characters outside strings and of the marks inside. -/
theorem forall_shield_append {s : Text} (closed : Closed s) {t : Text} {p : Char → Prop} :
    (∀ c ∈ shield (s ++ t), p c) ↔ (∀ c ∈ shield s, p c) ∧ ∀ c ∈ shield t, p c := by
  rw [shield_append closed, List.forall_mem_append]

theorem mem_shieldFrom {state : Option Char} {t : Text} {c : Char} (mem : c ∈ shieldFrom state t) :
    c ∈ t ∨ Mark.isMarkChar c := by
  fun_induction shieldFrom state t with
  | case1 => exact .inl mem
  | case2 state d t ih =>
    simp only [List.mem_cons] at mem ⊢
    rcases mem with here | here | later
    · exact .inl (.inl here)
    · exact .inl (.inr (.inl here))
    · exact (ih later).imp_left fun mem => .inr (.inr mem)
  | case3 quote t clean ih =>
    rcases List.mem_cons.1 mem with here | later
    · exact .inl (List.mem_cons.2 (.inl here))
    · exact (ih later).imp_left (List.mem_cons_of_mem quote)
  | case4 quote d t clean other ih =>
    rcases List.mem_append.1 mem with here | later
    · by_cases known : d ∈ Mark.chars
      · exact .inr (Mark.isMarkChar_of_mem known here)
      · rw [Mark.ofChar_of_not_mem known] at here
        exact .inl (List.mem_cons.2 (.inl (List.mem_singleton.1 here)))
    · exact (ih later).imp_left (List.mem_cons_of_mem d)
  | case5 d t clean ih =>
    rcases List.mem_cons.1 mem with here | later
    · exact .inl (List.mem_cons.2 (.inl here))
    · exact (ih later).imp_left (List.mem_cons_of_mem d)

/-- Shielding brings no backslash with it. -/
theorem no_backslash_shield {t : Text} (clean : '\\' ∉ t) : '\\' ∉ shield t := fun mem =>
  (mem_shieldFrom mem).elim clean (by decide)

theorem isStructural_ofChar (c : Char) : ∀ d ∈ Mark.ofChar c, Frame.isStructural d = false := by
  intro d mem
  by_cases known : c ∈ Mark.chars
  · have mark := Mark.isMarkChar_of_mem known mem
    simp [Frame.isStructural, ne_of_isMarkChar mark (d := ';') rfl,
      ne_of_isMarkChar mark (d := '{') rfl, ne_of_isMarkChar mark (d := '}') rfl]
  · rw [Mark.ofChar_of_not_mem known] at mem
    cases List.mem_singleton.1 mem
    simp only [Mark.mem_chars, not_or] at known
    simp [Frame.isStructural, known.2.1, known.2.2.1, known.2.2.2.1]

/-- A text that closes its strings and has no structural character outside them. -/
structure Flat (t : Text) : Prop where
  closed : Closed t
  plain : ∀ c ∈ shield t, Frame.isStructural c = false

theorem Flat.append {s t : Text} (h : Flat s) (h' : Flat t) : Flat (s ++ t) where
  closed := h.closed.append h'.closed
  plain := (forall_shield_append h.closed).2 ⟨h.plain, h'.plain⟩

theorem Flat.nil : Flat [] := ⟨.nil, by simp [shield, shieldFrom]⟩

theorem isStructural_of_isQuote {quote : Char} (isQuote : Text.isQuote quote) :
    Frame.isStructural quote = false := by
  simp only [Text.isQuote, Bool.or_eq_true, beq_iff_eq] at isQuote
  rcases isQuote with rfl | rfl <;> rfl

/-- Text without quotes is flat if it has no structural character. -/
theorem flat_of_no_quote {t : Text} (unquoted : ∀ c ∈ t, Text.isQuote c = false) (clean : '\\' ∉ t)
    (plain : ∀ c ∈ t, Frame.isStructural c = false) : Flat t where
  closed := closed_of_no_quote unquoted clean
  plain := (shield_of_no_quote unquoted clean).symm ▸ plain

/-- A string is flat, whatever it holds. -/
theorem flat_quoted {quote : Char} {t : Text} (isQuote : Text.isQuote quote) (inside : quote ∉ t)
    (clean : '\\' ∉ t) : Flat (quote :: (t ++ [quote])) where
  closed := closed_quoted isQuote inside clean
  plain := by
    rw [shield_quoted isQuote inside clean]
    intro c mem
    rcases List.mem_cons.1 mem with rfl | mem
    · exact isStructural_of_isQuote isQuote
    · rcases List.mem_append.1 mem with mem | mem
      · obtain ⟨d, -, there⟩ := List.mem_flatMap.1 mem
        exact isStructural_ofChar d c there
      · exact List.mem_singleton.1 mem ▸ isStructural_of_isQuote isQuote

theorem Flat.joinWith {c : Char} (flat : Flat [c]) {pieces : List Text}
    (all : ∀ piece ∈ pieces, Flat piece) : Flat (Text.joinWith [c] pieces) := by
  induction pieces with
  | nil => exact .nil
  | cons piece pieces ih =>
    have first := all piece List.mem_cons_self
    cases pieces with
    | nil => simpa [Text.joinWith] using first
    | cons next pieces =>
      rw [Text.joinWith_cons_cons]
      exact first.append (flat.append (ih fun p mem => all p (List.mem_cons_of_mem piece mem)))

end Quoted

namespace Block
open Quoted

/-- The number of open blocks behind one more character.  Nothing if it closes a block that is not
open. -/
def depthStep (depth : Nat) (c : Char) : Option Nat :=
  if c = '{' then some (depth + 1)
  else if c = '}' then if depth = 0 then none else some (depth - 1)
  else some depth

/-- The number of blocks open behind a text, where a number of blocks is open at its front. -/
def depthAfter (depth : Nat) (t : Text) : Option Nat := t.foldlM depthStep depth

theorem depthAfter_cons (depth : Nat) (c : Char) (t : Text) :
    depthAfter depth (c :: t) = (depthStep depth c).bind fun depth => depthAfter depth t := rfl

theorem depthAfter_append (depth : Nat) (s t : Text) :
    depthAfter depth (s ++ t) = (depthAfter depth s).bind fun depth => depthAfter depth t :=
  List.foldlM_append

theorem depthStep_add {depth next : Nat} {c : Char} (h : depthStep depth c = some next) (more : Nat) :
    depthStep (depth + more) c = some (next + more) := by
  unfold depthStep at h ⊢
  split at h
  next opens =>
    cases h
    rw [if_pos opens, Nat.add_right_comm]
  next opens =>
    rw [if_neg opens]
    split at h
    next closes =>
      split at h
      next => cases h
      next inside =>
        cases h
        rw [if_pos closes, if_neg (by omega)]
        exact congrArg some (by omega)
    next closes =>
      cases h
      rw [if_neg closes]

/-- Blocks that are open before stay open. -/
theorem depthAfter_add {depth stop : Nat} {t : Text} (h : depthAfter depth t = some stop)
    (more : Nat) : depthAfter (depth + more) t = some (stop + more) := by
  induction t generalizing depth with
  | nil =>
    cases h
    rfl
  | cons c t ih =>
    rw [depthAfter_cons] at h ⊢
    obtain ⟨next, step, rest⟩ := Option.bind_eq_some_iff.1 h
    rw [depthStep_add step, Option.bind_some]
    exact ih rest

theorem depthAfter_of_no_brace {t : Text} (plain : ∀ c ∈ t, c ≠ '{' ∧ c ≠ '}') (depth : Nat) :
    depthAfter depth t = some depth := by
  induction t with
  | nil => rfl
  | cons c t ih =>
    obtain ⟨opens, closes⟩ := plain c List.mem_cons_self
    rw [depthAfter_cons, depthStep, if_neg opens, if_neg closes, Option.bind_some]
    exact ih fun d mem => plain d (List.mem_cons_of_mem c mem)

/-- A text that closes its strings and, outside them, exactly the blocks that it opens. -/
structure Balanced (t : Text) : Prop where
  closed : Closed t
  even : depthAfter 0 (shield t) = some 0

theorem Balanced.nil : Balanced [] := ⟨.nil, rfl⟩

theorem Balanced.append {s t : Text} (h : Balanced s) (h' : Balanced t) : Balanced (s ++ t) where
  closed := h.closed.append h'.closed
  even := by rw [shield_append h.closed, depthAfter_append, h.even, Option.bind_some, h'.even]

/-- Text without braces outside strings is balanced. -/
theorem balanced_of_no_brace {t : Text} (closed : Closed t)
    (plain : ∀ c ∈ shield t, c ≠ '{' ∧ c ≠ '}') : Balanced t :=
  ⟨closed, depthAfter_of_no_brace plain 0⟩

theorem no_brace {c : Char} (plain : Frame.isStructural c = false) : c ≠ '{' ∧ c ≠ '}' := by
  constructor <;> rintro rfl <;> cases plain

theorem Balanced.of_flat {t : Text} (flat : Flat t) : Balanced t :=
  balanced_of_no_brace flat.closed fun c mem => no_brace (flat.plain c mem)

/-- A block of a balanced text is balanced. -/
theorem Balanced.block {t : Text} (h : Balanced t) : Balanced ('{' :: (t ++ ['}'])) where
  closed := by
    have brace (c : Char) (plain : Text.isQuote c = false) (clean : c ≠ '\\') : Closed [c] :=
      closed_of_no_quote (fun d mem => List.mem_singleton.1 mem ▸ plain)
        fun mem => clean (List.mem_singleton.1 mem).symm
    exact (brace '{' rfl (by decide)).append (h.closed.append (brace '}' rfl (by decide)))
  even := by
    have opens : shield ('{' :: (t ++ ['}'])) = '{' :: shield (t ++ ['}']) := rfl
    have inside := depthAfter_add h.even 1
    rw [opens, depthAfter_cons, depthStep, if_pos rfl, Option.bind_some, shield_append h.closed,
      depthAfter_append, inside]
    rfl

/-! ### Cutting -/

/-- Text without braces is no part of a block. -/
theorem cutFrom_append_of_no_brace {s : Text} (clean : '\\' ∉ s) (plain : ∀ c ∈ s, c ≠ '{')
    (t : Text) : (cut (s ++ t)).text = s ++ (cut t).text ∧ (cut (s ++ t)).blocks = (cut t).blocks := by
  induction s with
  | nil => exact ⟨rfl, rfl⟩
  | cons c s ih =>
    have here : c ≠ '\\' := fun same => clean (same ▸ List.mem_cons_self)
    obtain ⟨text, blocks⟩ := ih (fun mem => clean (List.mem_cons_of_mem c mem))
      fun d mem => plain d (List.mem_cons_of_mem c mem)
    have step : cut (c :: (s ++ t)) = ⟨[], c :: (cut (s ++ t)).text, (cut (s ++ t)).blocks⟩ := by
      rw [cut, cutFrom, if_neg (plain c List.mem_cons_self)]
      · rfl
      · exact fun _ _ same => absurd same here
    rw [List.cons_append, step, text, blocks]
    exact ⟨rfl, rfl⟩

/-- Inside a block, text that closes no more than it opens belongs to the block. -/
theorem cutFrom_append {depth stop : Nat} {s : Text} (clean : '\\' ∉ s)
    (even : depthAfter depth s = some stop) (t : Text) :
    cutFrom (depth + 1) (s ++ t) =
      { cutFrom (stop + 1) t with inside := s ++ (cutFrom (stop + 1) t).inside } := by
  induction s generalizing depth with
  | nil =>
    cases even
    rfl
  | cons c s ih =>
    have here : c ≠ '\\' := fun same => clean (same ▸ List.mem_cons_self)
    have later := fun mem => clean (List.mem_cons_of_mem c mem)
    rw [depthAfter_cons] at even
    obtain ⟨next, step, rest⟩ := Option.bind_eq_some_iff.1 even
    have goes : cutFrom (depth + 1) (c :: (s ++ t)) =
        { cutFrom (next + 1) (s ++ t) with inside := c :: (cutFrom (next + 1) (s ++ t)).inside } := by
      unfold depthStep at step
      rw [cutFrom]
      · split at step
        next opens =>
          cases step
          rw [if_neg (fun h => absurd (opens ▸ h.1) (by decide)), if_pos opens]
        next opens =>
          split at step
          next closes =>
            split at step
            next => cases step
            next inside =>
              cases step
              rw [if_neg fun h => inside h.2, if_neg opens, if_pos closes,
                Nat.sub_add_cancel (Nat.pos_of_ne_zero inside)]
          next closes =>
            cases step
            rw [if_neg fun h => closes h.1, if_neg opens, if_neg closes]
      · exact fun _ _ same => absurd same here
    rw [List.cons_append, goes, ih later rest]
    rfl

/-- A balanced content between braces is cut out as one block. -/
theorem cut_block {content : Text} (h : Balanced content) (t : Text) :
    (cut ('{' :: (shield content ++ '}' :: t))).text =
        '{' :: (Mark.block ++ '}' :: (cut t).text) ∧
      (cut ('{' :: (shield content ++ '}' :: t))).blocks = shield content :: (cut t).blocks := by
  have opens (u : Text) :
      cut ('{' :: u) = ⟨[], '{' :: (cutFrom 1 u).text, (cutFrom 1 u).inside :: (cutFrom 1 u).blocks⟩ := by
    rw [cut, cutFrom, if_pos rfl]
    exact fun _ _ same => absurd same (by decide)
  have closes : cutFrom 1 ('}' :: t) = ⟨[], Mark.block ++ '}' :: (cut t).text, (cut t).blocks⟩ := by
    rw [cutFrom, if_pos ⟨rfl, rfl⟩]
    · rfl
    · exact fun _ _ same => absurd same (by decide)
  have inside := cutFrom_append (no_backslash_shield h.closed.no_backslash) h.even ('}' :: t)
  rw [opens, inside, closes]
  exact ⟨rfl, by rw [List.append_nil]⟩

/-! ### What is left open -/

theorem depthStep_of_isQuote {quote : Char} (isQuote : Text.isQuote quote) (depth : Nat) :
    depthStep depth quote = some depth := by
  simp only [Text.isQuote, Bool.or_eq_true, beq_iff_eq] at isQuote
  rcases isQuote with rfl | rfl <;> rfl

/-- The blocks that a text leaves open are those that it leaves open once it is shielded. -/
theorem openFrom_append {state : Option Char} (isQuote : ∀ q ∈ state, Text.isQuote q) {s : Text}
    (clean : '\\' ∉ s) {depth stop : Nat} (even : depthAfter depth (shieldFrom state s) = some stop)
    (t : Text) : openFrom state depth (s ++ t) = openFrom (openAfter state s) stop t := by
  induction s generalizing state depth with
  | nil =>
    cases state <;> cases even <;> rfl
  | cons c s ih =>
    have here : c ≠ '\\' := fun same => clean (same ▸ List.mem_cons_self)
    have later : '\\' ∉ s := fun mem => clean (List.mem_cons_of_mem c mem)
    cases state with
    | none =>
      rw [shieldFrom_outside here, depthAfter_cons] at even
      obtain ⟨next, step, rest⟩ := Option.bind_eq_some_iff.1 even
      have goes : openFrom none depth (c :: (s ++ t)) =
          openFrom (if Text.isQuote c then some c else none) next (s ++ t) := by
        rw [openFrom]
        · unfold depthStep at step
          split at step
          next opens =>
            cases step
            rw [if_pos opens]
          next opens =>
            rw [if_neg opens]
            split at step
            next closes =>
              rw [if_pos closes]
              split at step
              next => cases step
              next => cases step; rfl
            next closes =>
              cases step
              rw [if_neg closes]
        · exact fun _ _ same => absurd same here
      rw [List.cons_append, goes, ih (isQuote_of_mem c) later rest]
      rfl
    | some quote =>
      have goes : openFrom (some quote) depth (c :: (s ++ t)) =
          openFrom (if c = quote then none else some quote) depth (s ++ t) := by
        rw [openFrom]
        exact fun _ _ same => absurd same here
      rw [List.cons_append, goes, openAfter]
      by_cases same : c = quote
      · subst same
        rw [shieldFrom_quote (isQuote c rfl), depthAfter_cons,
          depthStep_of_isQuote (isQuote c rfl)] at even
        rw [if_pos rfl, ih isQuote_of_mem_none later even]
      · rw [shieldFrom_inside here same, depthAfter_append,
          depthAfter_of_no_brace fun d mem => no_brace (isStructural_ofChar c d mem)] at even
        rw [if_neg same, ih isQuote later even]

/-- A balanced text leaves no block open. -/
theorem openAtEnd_eq_zero {t : Text} (h : Balanced t) : openAtEnd t = 0 := by
  have whole := openFrom_append isQuote_of_mem_none h.closed.no_backslash h.even []
  rw [List.append_nil, h.closed.closes] at whole
  exact whole

end Block
end ScopedCss
