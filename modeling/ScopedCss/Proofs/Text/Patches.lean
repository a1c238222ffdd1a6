import ScopedCss.Comment
import ScopedCss.Proofs.Stylesheet.Leaves
import ScopedCss.Proofs.Text.Scanning
import ScopedCss.Proofs.Text.Shielding

/-!
# Texts with marks in them

On its way to the selectors of a sheet a text is *patched*: marks take the place of comments, of the
structural characters in strings and of the contents of blocks, and a `~` goes in front of some `=`.

Patches start with `%` or `~`.  So a run without these two, behind a character that patches do not
consist of, was there before the text was patched (`Patched.of_part`).  This is passed on from text
to text (`Derived.trans`) down to the selectors of the sheet, however deeply their rules are nested
(`derived_of_mem_leaves`): whatever follows a `.` or `#` in them follows it in the sheet.
-/
namespace ScopedCss

/-- The characters that patches start with. -/
def startsPatch (c : Char) : Bool := c == '%' || c == '~'

/-- The second text is the first with patches in place of parts of it.  They consist of characters of
one kind. -/
inductive Patched (isPatch : Char → Bool) : Text → Text → Prop where
  | nil : Patched isPatch [] []
  | keep (c : Char) {s t : Text} : Patched isPatch s t → Patched isPatch (c :: s) (c :: t)
  | patch (old : Text) {p : Char} {new s t : Text} (starts : startsPatch p)
    (chars : ∀ c ∈ p :: new, isPatch c) :
    Patched isPatch s t → Patched isPatch (old ++ s) (p :: new ++ t)

namespace Patched
variable {isPatch : Char → Bool}

theorem refl : ∀ t : Text, Patched isPatch t t
  | [] => .nil
  | c :: t => .keep c (refl t)

theorem append {s t s' t' : Text} (h : Patched isPatch s t) (h' : Patched isPatch s' t') :
    Patched isPatch (s ++ s') (t ++ t') := by
  induction h with
  | nil => exact h'
  | keep c _ ih => exact .keep c ih
  | patch old starts chars _ ih =>
    rw [List.append_assoc, List.append_assoc]
    exact .patch old starts chars ih

/-- A mark takes the place of a text. -/
theorem mark (old : Text) {m : Text} (shape : m.head? = some '%')
    (chars : ∀ c ∈ m, Mark.isMarkChar c) {s t : Text} (h : Patched Mark.isMarkChar s t) :
    Patched Mark.isMarkChar (old ++ s) (m ++ t) := by
  obtain ⟨new, rfl⟩ := List.head?_eq_some_iff.1 shape
  exact .patch old rfl chars h

variable {s t u : Text}

/-- What stands at the front of a patched text, with nothing that starts a patch in it, stood there
before. -/
theorem of_front (patched : Patched isPatch s t) (clean : ∀ c ∈ u, startsPatch c = false) (front : u <+: t) :
    u <+: s := by
  induction patched generalizing u with
  | nil => exact front
  | keep c _ ih =>
    cases u with
    | nil => exact List.nil_prefix
    | cons d u =>
      obtain ⟨rfl, rest⟩ := List.cons_prefix_cons.1 front
      exact List.cons_prefix_cons.2 ⟨rfl, ih (fun c mem => clean c (.tail d mem)) rest⟩
  | patch old starts _ _ _ =>
    cases u with
    | nil => exact List.nil_prefix
    | cons d u =>
      obtain ⟨rfl, -⟩ := List.cons_prefix_cons.1 front
      exact absurd starts (by simp [clean d List.mem_cons_self])

/-- What starts with a character does not start in a text without it. -/
theorem infix_of_infix_append {c : Char} {v t : Text} (absent : c ∉ v) (inside : c :: u <:+: v ++ t) :
    c :: u <:+: t := by
  induction v with
  | nil => exact inside
  | cons d v ih =>
    rcases List.infix_cons_iff.1 inside with here | later
    · exact absurd ((List.cons_prefix_cons.1 here).1 ▸ List.mem_cons_self) absent
    · exact ih (fun mem => absent (.tail d mem)) later

/-- So did what stands behind a character that patches do not consist of. -/
theorem of_part {c : Char} (patched : Patched isPatch s t) (plain : isPatch c = false)
    (clean : ∀ c ∈ u, startsPatch c = false) (inside : c :: u <:+: t) : c :: u <:+: s := by
  induction patched with
  | nil => exact inside
  | keep d patched ih =>
    rcases List.infix_cons_iff.1 inside with here | later
    · obtain ⟨rfl, front⟩ := List.cons_prefix_cons.1 here
      exact (List.cons_prefix_cons.2 ⟨rfl, patched.of_front clean front⟩).isInfix
    · exact (ih later).trans (List.suffix_cons _ _).isInfix
  | patch old _ chars _ ih =>
    have absent : c ∉ _ := fun mem => absurd (chars c mem) (by simp [plain])
    exact (ih (infix_of_infix_append absent inside)).trans (List.suffix_append _ _).isInfix

end Patched

/-! ### What patches a text -/

/-- Respelling what is recognised patches a text if it patches the spellings. -/
theorem Recogniser.patched_substitute {α : Type} {r : Recogniser α} {respell : α → Text}
    {isPatch : Char → Bool} (each : ∀ a, Patched isPatch (r.spell a) (respell a)) (t : Text) :
    Patched isPatch t (r.substitute respell t) := by
  conv => lhs; rw [← r.substitute_spell t]
  exact substitute_rel .nil (fun c _ _ ih => .keep c ih) (fun a _ _ ih => (each a).append ih) t

/-- Setting comments aside patches a text. -/
theorem Comment.patched_extract (t : Text) : Patched Mark.isMarkChar t (extract t).text := by
  refine Recogniser.patched_substitute (fun a => ?_) t
  have marked := Patched.mark a (m := Mark.comment) (by decide) (List.all_eq_true.1 (by decide)) .nil
  rwa [List.append_nil, List.append_nil] at marked

/-- Shielding strings patches a text. -/
theorem Quoted.patched_shield (t : Text) : Patched Mark.isMarkChar t (shield t) := by
  have cells (l : List (Char × Bool)) :
      Patched Mark.isMarkChar (l.map Prod.fst) (spell Mark.chars l) := by
    induction l with
    | nil => exact .nil
    | cons cell l ih =>
      rcases spell_cons Mark.chars cell l with ⟨kept, -⟩ | ⟨known, -, -, marked⟩
      · rw [kept]
        exact .keep cell.1 ih
      · obtain ⟨inside, shape, -⟩ := Mark.ofChar_shape known
        rw [marked]
        exact .mark [cell.1] (by rw [shape]; rfl) (fun d => Mark.isMarkChar_of_mem known) ih
  have whole := cells (cellsFrom none t)
  rwa [map_fst_cellsFrom, spell_cellsFrom] at whole

/-- Looking for words in class attributes patches a selector. -/
theorem NamedAttribute.patched_normalise (t : Text) : Patched (· == '~') t (normalise t) := by
  refine Recogniser.patched_substitute (fun inside => ?_) t
  have only : ∀ c ∈ ['~'], (c == '~') = true := by simp
  have tilde : Patched (· == '~') ['='] ['~', '='] := .patch [] rfl only (.refl ['='])
  exact (Patched.refl ('[' :: inside)).append tilde

/-- Cutting blocks out patches a text.  The mark of the block that is open where the text starts
takes the place of what stands inside it. -/
theorem Block.patched_cutFrom (depth : Nat) (t : Text) :
    (depth = 0 → Patched Mark.isMarkChar t (cutFrom depth t).text) ∧
      (0 < depth → ∃ s rest, t = (cutFrom depth t).inside ++ s ∧
        (cutFrom depth t).text = Mark.block ++ rest ∧ Patched Mark.isMarkChar s rest) := by
  fun_induction cutFrom depth t with
  | case1 => exact ⟨fun _ => .nil, by simp⟩
  | case2 => exact ⟨by simp, fun _ => ⟨[], [], rfl, rfl, .nil⟩⟩
  | case3 c t cut ih => exact ⟨fun _ => .keep _ (.keep c (ih.1 rfl)), by simp⟩
  | case4 depth c t cut ih =>
    obtain ⟨s, rest, split, text, patched⟩ := ih.2 (Nat.succ_pos _)
    exact ⟨by simp, fun _ => ⟨s, rest, congrArg (_ :: _ :: ·) split, text, patched⟩⟩
  | case5 t cut _ ih =>
    obtain ⟨s, rest, split, text, patched⟩ := ih.2 Nat.one_pos
    refine ⟨fun _ => .keep _ ?_, by simp⟩
    rw [text]
    conv => lhs; rw [split]
    exact .mark _ (by decide) (List.all_eq_true.1 (by decide)) patched
  | case6 c t _ h cut ih => exact ⟨fun _ => .keep c (ih.1 rfl), by simp⟩
  | case7 depth c t _ h cut ih =>
    refine ⟨by simp, fun _ => ⟨c :: t, '}' :: cut.text, rfl, rfl, ?_⟩⟩
    rw [h.1]
    exact .keep _ (ih.1 rfl)
  | case8 depth c t _ h cut ih =>
    have opened : 0 < if c = '{' then depth + 2 else if c = '}' then depth else depth + 1 := by
      split
      · omega
      · split
        -- The brace closes an inner block, as it is not the one that closes this.
        next brace => exact Nat.pos_of_ne_zero fun zero => h ⟨brace, zero⟩
        next => omega
    obtain ⟨s, rest, split, text, patched⟩ := ih.2 opened
    exact ⟨by simp, fun _ => ⟨s, rest, congrArg (c :: ·) split, text, patched⟩⟩

/-- The contents of blocks are parts of the text they are cut out of, each behind its brace. -/
theorem Block.infix_of_mem_cutFrom (depth : Nat) (t : Text) :
    (cutFrom depth t).inside <+: t ∧ ∀ block ∈ (cutFrom depth t).blocks, '{' :: block <:+: t := by
  have later {c : Char} {block t : Text} (h : block <:+: t) : block <:+: c :: t :=
    h.trans (List.suffix_cons c t).isInfix
  fun_induction cutFrom depth t with
  | case1 => simp
  | case2 => simp
  | case3 c t cut ih => exact ⟨List.nil_prefix, fun block mem => later (later (ih.2 block mem))⟩
  | case4 depth c t cut ih =>
    refine ⟨?_, fun block mem => later (later (ih.2 block mem))⟩
    exact List.cons_prefix_cons.2 ⟨rfl, List.cons_prefix_cons.2 ⟨rfl, ih.1⟩⟩
  | case5 t cut _ ih =>
    refine ⟨List.nil_prefix, fun block mem => ?_⟩
    rcases List.mem_cons.1 mem with rfl | mem
    · exact (List.cons_prefix_cons.2 ⟨rfl, ih.1⟩).isInfix
    · exact later (ih.2 block mem)
  | case6 c t _ h cut ih => exact ⟨List.nil_prefix, fun block mem => later (ih.2 block mem)⟩
  | case7 depth c t _ h cut ih => exact ⟨List.nil_prefix, fun block mem => later (ih.2 block mem)⟩
  | case8 depth c t _ h cut ih =>
    exact ⟨List.cons_prefix_cons.2 ⟨rfl, ih.1⟩, fun block mem => later (ih.2 block mem)⟩

/-! ### Down to the leaves -/

/-- The characters of patches: those of marks, and `~`. -/
def isPatchChar (c : Char) : Bool := Mark.isMarkChar c || c == '~'

/-- Every run of the second text behind a character that patches do not consist of, if there is
nothing in it that starts a patch, is a run of the first. -/
def Derived (s t : Text) : Prop :=
  ∀ c u, isPatchChar c = false → (∀ d ∈ u, startsPatch d = false) → c :: u <:+: t → c :: u <:+: s

theorem derived_of_marked {s t : Text} (patched : Patched Mark.isMarkChar s t) : Derived s t :=
  fun _ _ plain clean inside => patched.of_part (Bool.or_eq_false_iff.1 plain).1 clean inside

theorem derived_normalise (t : Text) : Derived t (NamedAttribute.normalise t) :=
  fun _ _ plain clean inside => (NamedAttribute.patched_normalise t).of_part
    (Bool.or_eq_false_iff.1 plain).2 clean inside

theorem Derived.trans {s t u : Text} (h : Derived s t) (h' : Derived t u) : Derived s u :=
  fun c v plain clean inside => h c v plain clean (h' c v plain clean inside)

theorem derived_of_part {s t : Text} (inside : t <:+: s) : Derived s t :=
  fun _ _ _ _ here => here.trans inside

/-- A rule that is dealt out has the selector of a frame, and a block for its content. -/
theorem Outline.mem_deal {rule : Rule} {segments : List (Segment Frame)} {blocks : List Text}
    (mem : rule ∈ deal segments blocks) :
    (∃ frame, .hit frame ∈ segments ∧ rule.selector = frame.selector) ∧
      (rule.content = [] ∨ rule.content ∈ blocks) := by
  refine ⟨?_, content_of_mem_deal mem⟩
  fun_induction deal segments blocks with
  | case1 => cases mem
  | case2 _ _ _ ih =>
    obtain ⟨frame, inside, same⟩ := ih mem
    exact ⟨frame, .tail _ inside, same⟩
  | case3 frame segments blocks _ ih =>
    rcases List.mem_cons.1 mem with rfl | later
    · exact ⟨frame, List.mem_cons_self, rfl⟩
    · obtain ⟨frame', inside, same⟩ := ih later
      exact ⟨frame', .tail _ inside, same⟩
  | case4 frame segments blocks _ _ ih =>
    rcases List.mem_cons.1 mem with rfl | later
    · exact ⟨frame, List.mem_cons_self, rfl⟩
    · obtain ⟨frame', inside, same⟩ := ih later
      exact ⟨frame', .tail _ inside, same⟩

/-- The selectors and the contents of the rules of a text are derived from it. -/
theorem derived_of_mem_rulesOf {rule : Rule} {t : Text} (mem : rule ∈ rulesOf t) :
    Derived t rule.selector ∧ Derived t rule.content := by
  have shielded : Derived t (Quoted.shield t) := derived_of_marked (Quoted.patched_shield t)
  obtain ⟨⟨frame, scanned, selector⟩, content⟩ := Outline.mem_deal mem
  constructor
  · have cut : Derived (Quoted.shield t) (Block.cut (Quoted.shield t)).text :=
      derived_of_marked ((Block.patched_cutFrom 0 (Quoted.shield t)).1 rfl)
    obtain ⟨u, behind, found⟩ := Recogniser.exists_read_of_mem_scan scanned
    have spelled : frame.spell <:+: (Block.cut (Quoted.shield t)).text :=
      (Frame.recogniser.spell_front found).isInfix.trans behind.isInfix
    have part : frame.selector <:+: frame.spell :=
      ⟨frame.lead, frame.gap ++ frame.ending.around frame.ending.content, by
        simp [Frame.spell, Frame.around]⟩
    rw [selector]
    exact (shielded.trans cut).trans (derived_of_part (part.trans spelled))
  · rcases content with none | block
    · rw [none]
      exact derived_of_part (List.nil_infix)
    · have behind := (Block.infix_of_mem_cutFrom 0 _).2 _ block
      exact shielded.trans (derived_of_part ((List.suffix_cons '{' _).isInfix.trans behind))

namespace Stylesheet

/-- **What follows a character in the selectors of a sheet follows it in the sheet**, if patches do
not consist of the character and nothing in the run behind it starts a patch. -/
theorem derived_of_mem_leaves {rule : Rule} {t : Text} (mem : rule ∈ leaves t) :
    Derived t rule.selector := by
  induction size : weight t using Nat.strongRecOn generalizing t with
  | ind n ih =>
    subst size
    rw [leaves_eq, List.mem_flatMap] at mem
    obtain ⟨outer, outermost, inside⟩ := mem
    have derived := derived_of_mem_rulesOf outermost
    split at inside
    next grouping => exact derived.2.trans (ih _ (weight_content_lt outermost) inside rfl)
    next leaf =>
      rw [List.mem_singleton.1 inside]
      exact derived.1

end Stylesheet

end ScopedCss
