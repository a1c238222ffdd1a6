import ScopedCss.Proofs.Rule.Balance
import ScopedCss.Proofs.Text.Patches
import ScopedCss.Text.Bytes

/-!
# Going down into contents

What a walk hands over as the content of a rule was cut out of a text whose strings are shielded, and
a visitor that goes into grouping rules walks through it in turn, shielding it once more.  That does no
harm: to the scan for strings and to the scan for blocks a backslash protects the same characters, so a
block starts and ends outside strings, and its content is a part of the text, shielded by itself
(`Block.cutsParts`).

So a content is shielded already, it is smaller than the shielded text, and no descent goes on for ever
although shielding makes texts longer.  As long as no mark can be mistaken for text, a content and the
part of the text that it stands for are walked through alike (`walk_descends`).
-/
namespace ScopedCss

open Quoted

namespace Block
variable {state : Option Char}

/-! ### One character at a time -/

/-- A character that is no brace and protects nothing stays where it is. -/
theorem cutFrom_cons {c : Char} {t : Text} (alone : c = '\\' → t = []) (opens : c ≠ '{')
    (closes : c ≠ '}') (depth : Nat) :
    (cutFrom depth (c :: t)).blocks = (cutFrom depth t).blocks ∧
      (0 < depth → (cutFrom depth (c :: t)).inside = c :: (cutFrom depth t).inside) := by
  have single : ∀ d u, c = '\\' → t = d :: u → False := by
    rintro d u rfl rfl
    cases alone rfl
  cases depth with
  | zero =>
    rw [cutFrom, if_neg opens]
    · exact ⟨rfl, fun inside => absurd inside (Nat.lt_irrefl 0)⟩
    · exact single
  | succ depth =>
    rw [cutFrom, if_neg (fun h => closes h.1), if_neg opens, if_neg closes]
    · exact ⟨rfl, fun _ => rfl⟩
    · exact single

/-- An opening brace goes one block deeper, and starts a block where none was open. -/
theorem cutFrom_opening (depth : Nat) (t : Text) :
    (cutFrom depth ('{' :: t)).blocks =
        (if depth = 0 then [(cutFrom 1 t).inside] else []) ++ (cutFrom (depth + 1) t).blocks ∧
      (0 < depth → (cutFrom depth ('{' :: t)).inside = '{' :: (cutFrom (depth + 1) t).inside) := by
  have solid : ∀ d u, '{' = '\\' → t = d :: u → False := fun _ _ same => absurd same (by decide)
  cases depth with
  | zero =>
    rw [cutFrom, if_pos rfl]
    · exact ⟨rfl, fun inside => absurd inside (Nat.lt_irrefl 0)⟩
    · exact solid
  | succ depth =>
    rw [cutFrom, if_neg (fun h => absurd h.1 (by decide)), if_pos rfl]
    · exact ⟨rfl, fun _ => rfl⟩
    · exact solid

/-- A closing brace belongs to a block that is open, unless it closes the outermost one. -/
theorem cutFrom_closing (depth : Nat) (t : Text) :
    (cutFrom depth ('}' :: t)).blocks = (cutFrom (depth - 1) t).blocks ∧
      (cutFrom depth ('}' :: t)).inside =
        if depth ≤ 1 then [] else '}' :: (cutFrom (depth - 1) t).inside := by
  have solid : ∀ d u, '}' = '\\' → t = d :: u → False := fun _ _ same => absurd same (by decide)
  match depth with
  | 0 =>
    rw [cutFrom, if_neg (by decide)]
    · exact ⟨rfl, rfl⟩
    · exact solid
  | 1 =>
    rw [cutFrom, if_pos ⟨rfl, rfl⟩]
    · exact ⟨rfl, rfl⟩
    · exact solid
  | depth + 2 =>
    rw [cutFrom, if_neg (by simp), if_neg (by decide), if_pos rfl]
    · exact ⟨rfl, (if_neg (by omega)).symm⟩
    · exact solid

/-- Inside a string nothing opens or closes a block, as every brace there is marked. -/
theorem cutFrom_ofChar_append {c : Char} {t : Text} (alone : c = '\\' → t = []) (depth : Nat) :
    (cutFrom depth (Mark.ofChar c ++ t)).blocks = (cutFrom depth t).blocks ∧
      (0 < depth →
        (cutFrom depth (Mark.ofChar c ++ t)).inside = Mark.ofChar c ++ (cutFrom depth t).inside) := by
  by_cases known : c ∈ Mark.chars
  · have written : ∀ d ∈ Mark.ofChar c, Mark.isMarkChar d := fun d mem =>
      Mark.isMarkChar_of_mem known mem
    generalize Mark.ofChar c = mark at written
    induction mark with
    | nil => exact ⟨rfl, fun _ => rfl⟩
    | cons d mark ih =>
      have here := written d List.mem_cons_self
      obtain ⟨blocks, inside⟩ := ih fun e mem => written e (List.mem_cons_of_mem d mem)
      obtain ⟨blocks', inside'⟩ := cutFrom_cons (t := mark ++ t)
        (fun same => absurd same (ne_of_isMarkChar here rfl)) (ne_of_isMarkChar here rfl)
        (ne_of_isMarkChar here rfl) depth
      rw [List.cons_append]
      refine ⟨blocks'.trans blocks, fun deep => ?_⟩
      rw [inside' deep, inside deep]
      rfl
  · have plain := known
    simp only [Mark.mem_chars, not_or] at plain
    rw [Mark.ofChar_of_not_mem known]
    exact cutFrom_cons alone plain.2.2.1 plain.2.2.2.1 depth

/-! ### Blocks of a shielded text -/

/-- What is cut out of a shielded text are parts of it, shielded by themselves: the front of the text, in the
state at the front, if a block is open there, and the contents of the blocks that open in it. -/
structure CutsParts (state : Option Char) (depth : Nat) (t : Text) : Prop where
  inside : 0 < depth → ∃ s, s <+: t ∧ (cutFrom depth (shieldFrom state t)).inside = shieldFrom state s
  blocks : ∀ block ∈ (cutFrom depth (shieldFrom state t)).blocks, ∃ s, s <:+: t ∧ block = shield s

namespace CutsParts
variable {state' : Option Char} {depth : Nat} {t : Text}

theorem nil (state : Option Char) (depth : Nat) : CutsParts state depth [] where
  inside _ := ⟨[], List.nil_prefix, by cases depth <;> cases state <;> rfl⟩
  blocks block mem := by
    cases depth <;> cases state <;> cases mem

/-- Text in front that neither opens nor closes a block is only put in front of what is cut out. -/
theorem append (front written : Text) (cuts : CutsParts state' depth t)
    (shielded : ∀ s, s <+: t → shieldFrom state (front ++ s) = written ++ shieldFrom state' s)
    (passed : (cutFrom depth (written ++ shieldFrom state' t)).blocks =
        (cutFrom depth (shieldFrom state' t)).blocks ∧
      (0 < depth → (cutFrom depth (written ++ shieldFrom state' t)).inside =
        written ++ (cutFrom depth (shieldFrom state' t)).inside)) :
    CutsParts state depth (front ++ t) where
  inside deep := by
    obtain ⟨s, before, inside⟩ := cuts.inside deep
    refine ⟨front ++ s, (List.prefix_append_right_inj front).2 before, ?_⟩
    rw [shielded t List.prefix_rfl, passed.2 deep, inside, shielded s before]
  blocks block mem := by
    rw [shielded t List.prefix_rfl, passed.1] at mem
    obtain ⟨s, part, same⟩ := cuts.blocks block mem
    exact ⟨s, part.trans (List.suffix_append front t).isInfix, same⟩

/-- Where a block opens, its content is what is open at the front behind the brace. -/
theorem opening (cuts : CutsParts none (depth + 1) t) : CutsParts none depth ('{' :: t) := by
  obtain ⟨all, goes⟩ := cutFrom_opening depth (shieldFrom none t)
  obtain ⟨s, before, inside⟩ := cuts.inside (Nat.succ_pos depth)
  have behind : t <:+: '{' :: t := (List.suffix_cons '{' t).isInfix
  constructor
  · intro deep
    refine ⟨'{' :: s, by simpa using before, ?_⟩
    rw [shieldFrom_outside (by decide), shieldFrom_outside (by decide)]
    exact (goes deep).trans (congrArg ('{' :: ·) inside)
  · intro block mem
    rw [shieldFrom_outside (by decide)] at mem
    rcases List.mem_append.1 (all ▸ mem) with first | later
    · split at first
      next zero =>
        subst zero
        exact ⟨s, before.isInfix.trans behind, (List.mem_singleton.1 first).trans inside⟩
      next => cases first
    · obtain ⟨s, part, same⟩ := cuts.blocks block later
      exact ⟨s, part.trans behind, same⟩

theorem closing (cuts : CutsParts none (depth - 1) t) : CutsParts none depth ('}' :: t) := by
  obtain ⟨same, goes⟩ := cutFrom_closing depth (shieldFrom none t)
  constructor
  · intro deep
    rw [shieldFrom_outside (by decide)]
    by_cases last : depth ≤ 1
    · exact ⟨[], List.nil_prefix, goes.trans (if_pos last)⟩
    · obtain ⟨s, before, inside⟩ := cuts.inside (by omega)
      refine ⟨'}' :: s, by simpa using before, ?_⟩
      rw [shieldFrom_outside (by decide)]
      exact (goes.trans (if_neg last)).trans (congrArg ('}' :: ·) inside)
  · intro block mem
    rw [shieldFrom_outside (by decide)] at mem
    obtain ⟨s, part, content⟩ := cuts.blocks block (same ▸ mem)
    exact ⟨s, part.trans (List.suffix_cons '}' t).isInfix, content⟩

end CutsParts

/-- A character that a backslash protects belongs where the backslash does. -/
theorem cutFrom_escape (c : Char) (depth : Nat) (t : Text) :
    (cutFrom depth ('\\' :: c :: t)).blocks = (cutFrom depth t).blocks ∧
      (0 < depth → (cutFrom depth ('\\' :: c :: t)).inside = '\\' :: c :: (cutFrom depth t).inside) := by
  cases depth with
  | zero => exact ⟨rfl, fun deep => absurd deep (Nat.lt_irrefl 0)⟩
  | succ depth => exact ⟨rfl, fun _ => rfl⟩

/-- **The blocks of a shielded text are parts of the text, shielded by themselves.** -/
theorem cutsParts (isQuote : ∀ q ∈ state, Text.isQuote q) (depth : Nat) (t : Text) :
    CutsParts state depth t := by
  -- A backslash that protects nothing ends the text.
  have last {c : Char} {t : Text} (clean : ∀ d u, c = '\\' → t = d :: u → False) :
      (c = '\\' → t = []) ∧ ∀ s, s <+: t → ∀ d u, c = '\\' → s = d :: u → False := by
    have none (back : c = '\\') : t = [] := by
      cases t with
      | nil => rfl
      | cons d t => exact absurd rfl (clean d t back)
    refine ⟨none, fun s before d u back some => ?_⟩
    rw [none back, some] at before
    cases List.prefix_nil.1 before
  have nil (state : Option Char) : shieldFrom state [] = [] := by cases state <;> rfl
  fun_induction shieldFrom state t generalizing depth with
  | case1 state => exact .nil state depth
  | case2 state c t ih =>
    refine (ih isQuote depth).append ['\\', c] ['\\', c] (fun s _ => ?_)
      (cutFrom_escape c depth _)
    rw [List.cons_append, List.singleton_append, shieldFrom]
    rfl
  | case3 quote t clean ih =>
    have known := isQuote quote rfl
    exact (ih isQuote_of_mem_none depth).append [quote] [quote]
      (fun s _ => shieldFrom_quote known s)
      (cutFrom_cons (fun back => absurd back (ne_backslash_of_isQuote known))
        (by rintro rfl; cases known) (by rintro rfl; cases known) depth)
  | case4 quote c t clean other ih =>
    obtain ⟨alone, front⟩ := last clean
    refine (ih isQuote depth).append [c] (Mark.ofChar c) (fun s before => ?_)
      (cutFrom_ofChar_append (fun back => by rw [alone back, nil]) depth)
    rw [List.singleton_append, shieldFrom, if_neg other]
    exact front s before
  | case5 c t clean ih =>
    obtain ⟨alone, front⟩ := last clean
    by_cases opens : c = '{'
    · subst opens
      exact (ih isQuote_of_mem_none (depth + 1)).opening
    by_cases closes : c = '}'
    · subst closes
      exact (ih isQuote_of_mem_none (depth - 1)).closing
    have ends (back : c = '\\') : shieldFrom (if Text.isQuote c then some c else none) t = [] := by
      rw [alone back, nil]
    refine (ih (isQuote_of_mem c) depth).append [c] [c] (fun s before => ?_)
      (cutFrom_cons ends opens closes depth)
    rw [List.singleton_append, shieldFrom]
    · rfl
    · exact front s before

end Block

/-! ### Descents -/

/-- **The content of a rule is a part of the text, shielded by itself.** -/
theorem exists_of_mem_rulesOf {rule : Rule} {t : Text} (mem : rule ∈ rulesOf t) :
    ∃ s, s <:+: t ∧ rule.content = shield s := by
  rcases content_of_mem_deal mem with none | block
  · exact ⟨[], List.nil_infix, none⟩
  · exact (Block.cutsParts isQuote_of_mem_none 0 t).blocks _ block

/-- The content of a rule is smaller than the shielded text, in characters and in bytes. -/
theorem content_smaller {rule : Rule} {t : Text} (mem : rule ∈ rulesOf t) :
    rule.content.length < (shield t).length ∧ rule.content.bytes < (shield t).bytes := by
  rcases content_of_mem_deal mem with none | block
  · have nonempty : shield t ≠ [] := by
      intro empty
      rw [rulesOf, Outline.ofText, empty] at mem
      cases mem
    obtain ⟨c, u, whole⟩ := List.exists_cons_of_ne_nil nonempty
    rw [none, whole]
    exact ⟨Nat.succ_pos _, Nat.add_pos_left c.utf8Size_pos _⟩
  · obtain ⟨before, after, whole⟩ := (Block.infix_of_mem_cutFrom 0 _).2 _ block
    rw [← whole]
    refine ⟨?_, ?_⟩
    · simp only [List.length_append, List.length_cons]
      omega
    · have brace := '{'.utf8Size_pos
      simp only [Text.bytes_append, Text.bytes_cons]
      omega

/-- A text is the content of one of the outermost rules of another.  A walk that goes into rules goes
from a text to such contents. -/
def IsContentOf (content t : Text) : Prop := ∃ rule ∈ rulesOf t, rule.content = content

/-- A text is walked through as its shielded form is. -/
theorem walk_congr {m : Type → Type} [Monad m] {s t : Text} (same : shield s = shield t)
    (visit : Rule → m Rule) : walk visit s = walk visit t := by
  rw [walk, walk, rulesOf, rulesOf, Outline.ofText, Outline.ofText, same]

/-- **Going down into contents ends, and loses nothing.**  There is no endless chain of contents of
contents.  Every content is shielded already, and smaller than the shielded text, whether its block is
closed or not.  Where the word in every mark does not occur, a content stands for a part of the text:
the part is what the content is without its marks, is shielded to the content, and has the same rules,
so that every visitor sees the same of both and makes the same of both. -/
theorem walk_descends :
    WellFounded IsContentOf ∧
      ∀ t, ∀ rule ∈ rulesOf t,
        shield rule.content = rule.content ∧
          rule.content.length < (shield t).length ∧ rule.content.bytes < (shield t).bytes ∧
          (WordFree t →
            unshield rule.content <:+: t ∧ shield (unshield rule.content) = rule.content ∧
              rulesOf rule.content = rulesOf (unshield rule.content) ∧
              ∀ (m : Type → Type) [Monad m] (visit : Rule → m Rule),
                walk visit rule.content = walk visit (unshield rule.content)) := by
  refine ⟨?_, fun t rule mem => ?_⟩
  · refine Subrelation.wf (fun {content t} h => ?_) (measure fun t => (shield t).length).wf
    obtain ⟨rule, mem, rfl⟩ := h
    obtain ⟨s, -, content⟩ := exists_of_mem_rulesOf mem
    show (shield rule.content).length < (shield t).length
    rw [content, shield_shield, ← content]
    exact (content_smaller mem).1
  · obtain ⟨s, inside, content⟩ := exists_of_mem_rulesOf mem
    have once : shield rule.content = rule.content := by rw [content, shield_shield]
    obtain ⟨fewer, smaller⟩ := content_smaller mem
    refine ⟨once, fewer, smaller, fun free => ?_⟩
    have back : unshield rule.content = s := by rw [content, unshield_shield (free.part inside)]
    have same : shield rule.content = shield (unshield rule.content) := by rw [once, back, content]
    refine ⟨back ▸ inside, same.symm.trans once, ?_, fun m _ visit => walk_congr same visit⟩
    rw [rulesOf, rulesOf, Outline.ofText, Outline.ofText, same]

/-- Here the content of the rule is longer than the whole text, as a brace in a string of it is marked.
It is smaller than the shielded text nonetheless. -/
theorem walk_descends_markedBrace :
    let t := "@media x\x7ba\x7bb:\"\x7b\"\x7d\x7d".toList
    let content := shield "a\x7bb:\"\x7b\"\x7d".toList
    IsContentOf content t ∧ WordFree t ∧ t.length < content.length ∧
      content.length < (shield t).length ∧ shield content = content ∧ unshield content <:+: t ∧
      rulesOf content = rulesOf (unshield content) := by
  intro t content
  have mem : (⟨"@media x".toList, content⟩ : Rule) ∈ rulesOf t := by decide +kernel
  have free : WordFree t := by unfold WordFree; decide +kernel
  obtain ⟨once, fewer, -, alike⟩ := walk_descends.2 t _ mem
  obtain ⟨part, -, same, -⟩ := alike free
  exact ⟨⟨_, mem, rfl⟩, free, by decide, fewer, once, part, same⟩

end ScopedCss
