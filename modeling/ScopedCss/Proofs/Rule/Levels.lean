import ScopedCss.Proofs.Rule.Keeping
import ScopedCss.Proofs.Rule.Layout
import ScopedCss.Proofs.Text.Strings

/-!
# Blocks that are left open

Open blocks are counted twice.  `cut` counts them in a text whose strings are shielded and knows nothing of
quotes; `close` counts them in the text as it was written and has to skip the strings.

The count of `cut` is not in its result, so cutting is taken apart into single steps: a `Progress` is what
has come of a cut up to some place of the text, the number of open blocks among it, and a cut is what the
last progress amounts to (`cut_eq_finish`).  One step of both counts after the other then shows that they
agree behind every text (`openLevels_shield`), as a mark has no brace in it and both skip what a backslash
protects.

So `close` appends a brace for every block that is open where the cut reaches the end, and that closes
them unless the text ends in a string or in a backslash that protects what follows (`close_levels`).
-/
namespace ScopedCss.Block

open Quoted

/-! ### Cutting step by step -/

/-- The cut with a character before it.  The character belongs to the block that is open there, if one
is. -/
def Cut.cons : Nat → Char → Cut → Cut
  | 0, c, rest => ⟨[], c :: rest.text, rest.blocks⟩
  | _ + 1, c, rest => ⟨c :: rest.inside, rest.text, rest.blocks⟩

/-- A cut as far as it has come. -/
structure Progress where
  /-- The number of blocks that are open. -/
  depth : Nat := 0
  /-- Whether a backslash protects the next character. -/
  guarded : Bool := false
  /-- The text with marks, up to the outermost block that is open. -/
  text : Text := []
  /-- What has been read of the content of that block. -/
  content : Text := []
  /-- The contents of the blocks that are closed, in order. -/
  blocks : List Text := []
deriving DecidableEq

namespace Progress

/-- A character is kept where it belongs: in the text, or in the content of the block that is open. -/
def put (p : Progress) (c : Char) : Progress :=
  if p.depth = 0 then { p with text := p.text ++ [c] } else { p with content := p.content ++ [c] }

/-- One more character is read. -/
def step (p : Progress) (c : Char) : Progress :=
  if p.guarded then { p.put c with guarded := false }
  else if c = '\\' then { p.put c with guarded := true }
  else if c = '{' ∧ p.depth = 0 then { p with depth := 1, text := p.text ++ [c], content := [] }
  else if c = '}' ∧ p.depth = 1 then
    { p with depth := 0, text := p.text ++ (Mark.block ++ [c]), blocks := p.blocks ++ [p.content] }
  else { p.put c with depth := levelStep p.depth c }

/-- A text is read. -/
def read (p : Progress) (t : Text) : Progress := t.foldl step p

/-- What a cut amounts to at the end of the text.  A block that is open runs to the end. -/
def finish (p : Progress) : Cut :=
  if p.depth = 0 then ⟨[], p.text, p.blocks⟩ else ⟨[], p.text ++ Mark.block, p.blocks ++ [p.content]⟩

/-- What a cut amounts to with the cut of the rest of the text. -/
def followedBy (p : Progress) (rest : Cut) : Cut :=
  ⟨[], p.text ++ rest.text,
    p.blocks ++ if p.depth = 0 then rest.blocks else (p.content ++ rest.inside) :: rest.blocks⟩

variable {p : Progress} {c : Char} {t : Text}

theorem read_cons (p : Progress) (c : Char) (t : Text) : p.read (c :: t) = (p.step c).read t := rfl

theorem read_append (p : Progress) (t u : Text) : p.read (t ++ u) = (p.read t).read u := List.foldl_append

@[simp] theorem depth_put (p : Progress) (c : Char) : (p.put c).depth = p.depth := by
  rw [put]
  split <;> rfl

@[simp] theorem guarded_put (p : Progress) (c : Char) : (p.put c).guarded = p.guarded := by
  rw [put]
  split <;> rfl

@[simp] theorem blocks_put (p : Progress) (c : Char) : (p.put c).blocks = p.blocks := by
  rw [put]
  split <;> rfl

/-- Only a brace that nothing protects opens or closes a block. -/
theorem depth_step (p : Progress) (c : Char) :
    (p.step c).depth = if p.guarded then p.depth else levelStep p.depth c := by
  rw [step]
  split_ifs with guarded back opens closes
  · rw [depth_put]
  · rw [depth_put, back]
    rfl
  · rw [opens.1, opens.2]
    rfl
  · rw [closes.1, closes.2]
    rfl
  · rfl

/-- Only a backslash that nothing protects protects what follows. -/
theorem guarded_step (p : Progress) (c : Char) :
    (p.step c).guarded = (!p.guarded && decide (c = '\\')) := by
  rw [step]
  split_ifs with guarded back opens closes <;> simp_all

theorem step_of_ne_backslash (plain : p.guarded = false) (solid : c ≠ '\\') :
    (p.step c).depth = levelStep p.depth c ∧ (p.step c).guarded = false := by
  rw [depth_step, guarded_step, plain]
  exact ⟨rfl, by simpa using solid⟩

/-- A backslash opens and closes nothing, and protects what follows. -/
theorem step_backslash (plain : p.guarded = false) :
    (p.step '\\').depth = p.depth ∧ (p.step '\\').guarded := by
  rw [depth_step, guarded_step, plain]
  exact ⟨rfl, rfl⟩

/-- A backslash and what it protects open and close nothing. -/
theorem step_pair (plain : p.guarded = false) (c : Char) :
    ((p.step '\\').step c).depth = p.depth ∧ ((p.step '\\').step c).guarded = false := by
  obtain ⟨level, guarded⟩ := step_backslash plain
  refine ⟨?_, by rw [guarded_step, guarded]; rfl⟩
  rw [depth_step, if_pos guarded, level]

/-- A character that neither opens the outermost block nor closes it is kept where it belongs. -/
theorem followedBy_step (opens : c = '{' → p.depth = 0 → p.guarded)
    (closes : c = '}' → p.depth = 1 → p.guarded) (rest : Cut) :
    (p.step c).followedBy rest = p.followedBy (rest.cons p.depth c) := by
  have level : (p.step c).depth = 0 ↔ p.depth = 0 := by
    rw [depth_step]
    split_ifs with guarded
    · exact Iff.rfl
    · rw [levelStep]
      split_ifs with opening closing
      · have deep : p.depth ≠ 0 := fun zero => guarded (opens opening zero)
        exact iff_of_false id deep
      · have more : p.depth ≠ 1 := fun one => guarded (closes closing one)
        omega
      · exact Iff.rfl
  have kept : (p.step c).text = (p.put c).text ∧ (p.step c).content = (p.put c).content ∧
      (p.step c).blocks = p.blocks := by
    rw [step]
    split_ifs with guarded back opening closing
    · exact ⟨rfl, rfl, blocks_put p c⟩
    · exact ⟨rfl, rfl, blocks_put p c⟩
    · exact absurd (opens opening.1 opening.2) guarded
    · exact absurd (closes closing.1 closing.2) guarded
    · exact ⟨rfl, rfl, blocks_put p c⟩
  rw [followedBy, kept.1, kept.2.1, kept.2.2, followedBy]
  simp only [level]
  cases depth : p.depth <;> simp [put, depth, Cut.cons]

/-- What a backslash protects is kept, whatever it is. -/
theorem finish_read_pair (plain : p.guarded = false) (c : Char)
    (goes : ∀ p' : Progress, p'.guarded = false → p'.depth = p.depth →
      (p'.read t).finish = p'.followedBy (cutFrom p.depth t)) :
    (p.read ('\\' :: c :: t)).finish =
      p.followedBy (((cutFrom p.depth t).cons p.depth c).cons p.depth '\\') := by
  obtain ⟨level, guarded⟩ := step_backslash plain
  obtain ⟨same, unguarded⟩ := step_pair plain c
  rw [read_cons, read_cons, goes _ unguarded same, followedBy_step (fun _ _ => guarded) fun _ _ => guarded,
    level, followedBy_step (fun same => absurd same (by decide)) fun same => absurd same (by decide)]

/-- **A cut goes on from where it has come** as if the rest of the text were cut there. -/
theorem finish_read (depth : Nat) (t : Text) :
    ∀ p : Progress, (p.guarded → t = []) → p.depth = depth →
      (p.read t).finish = p.followedBy (cutFrom depth t) := by
  have unguarded {p : Progress} {c : Char} {t : Text} (plain : p.guarded → c :: t = []) :
      p.guarded = false := by simpa using plain
  -- Only a backslash at the end of the text leaves what follows protected.
  have ends {p : Progress} {c : Char} {t : Text} (plain : p.guarded = false)
      (clean : ∀ d u, c = '\\' → t = d :: u → False) : (p.step c).guarded → t = [] := by
    rw [guarded_step, plain]
    intro back
    exact eq_nil_of_unpaired (by simpa using back) clean
  fun_induction cutFrom depth t with
  | case1 =>
    intro p _ level
    simp [read, finish, followedBy, level]
  | case2 =>
    intro p _ level
    simp [read, finish, followedBy, level]
  | case3 c t cut ih =>
    intro p plain level
    rw [finish_read_pair (unguarded plain) c fun p' plain' level' =>
      level ▸ ih p' (by simp [plain']) (level'.trans level), level]
    rfl
  | case4 depth c t cut ih =>
    intro p plain level
    rw [finish_read_pair (unguarded plain) c fun p' plain' level' =>
      level ▸ ih p' (by simp [plain']) (level'.trans level), level]
    rfl
  | case5 t cut _ ih =>
    intro p plain level
    have opened : p.step '{' = { p with depth := 1, text := p.text ++ ['{'], content := [] } := by
      rw [step, unguarded plain, if_neg Bool.false_ne_true, if_neg (by decide), if_pos ⟨rfl, level⟩]
    rw [read_cons, opened, ih _ (by simp [unguarded plain]) rfl]
    simp [followedBy, level, cut]
  | case6 c t clean other cut ih =>
    intro p plain level
    have stays : (p.step c).depth = 0 := by
      rw [depth_step, unguarded plain, level, if_neg Bool.false_ne_true, levelStep, if_neg other]
      split_ifs <;> rfl
    rw [read_cons, ih _ (ends (unguarded plain) clean) stays, followedBy_step, level]
    · rfl
    · exact fun opens => absurd opens other
    · intro _ one
      omega
  | case7 depth c t clean closes cut ih =>
    intro p plain level
    obtain ⟨rfl, rfl⟩ := closes
    have closed : p.step '}' = { p with
        depth := 0, text := p.text ++ (Mark.block ++ ['}']), blocks := p.blocks ++ [p.content] } := by
      rw [step, unguarded plain, if_neg Bool.false_ne_true, if_neg (by decide),
        if_neg (fun opens => absurd opens.1 (by decide)), if_pos ⟨rfl, level⟩]
    rw [read_cons, closed, ih _ (by simp [unguarded plain]) rfl]
    simp [followedBy, level, cut]
  | case8 depth c t clean other cut ih =>
    intro p plain level
    have goes : (p.step c).depth = if c = '{' then depth + 2 else if c = '}' then depth else depth + 1 := by
      rw [depth_step, unguarded plain, level]
      rfl
    rw [read_cons, ih _ (ends (unguarded plain) clean) goes, followedBy_step, level]
    · rfl
    · intro _ zero
      omega
    · intro closing one
      exact absurd ⟨closing, by omega⟩ other

end Progress

/-- **A cut is what reading the whole text amounts to.** -/
theorem cut_eq_finish (t : Text) : cut t = (Progress.read {} t).finish := by
  rw [Progress.finish_read 0 t {} nofun rfl]
  show cut t = Progress.followedBy {} (cut t)
  rw [cut_eq]
  rfl

/-- The number of blocks that are open where the cut of a text reaches its end. -/
def openLevels (t : Text) : Nat := (Progress.read {} t).depth

/-! ### Both counts -/

namespace Progress
variable {p : Progress}

/-- A mark opens and closes nothing, and protects nothing. -/
theorem depth_read_mark (plain : p.guarded = false) {mark : Text}
    (written : ∀ d ∈ mark, Mark.isMarkChar d) :
    (p.read mark).depth = p.depth ∧ (p.read mark).guarded = false := by
  induction mark generalizing p with
  | nil => exact ⟨rfl, plain⟩
  | cons d mark ih =>
    have here := written d List.mem_cons_self
    obtain ⟨level, unguarded⟩ := step_of_ne_backslash plain (ne_of_isMarkChar here rfl)
    rw [levelStep, if_neg (ne_of_isMarkChar here rfl), if_neg (ne_of_isMarkChar here rfl)] at level
    rw [read_cons, ← level]
    exact ih unguarded fun e mem => written e (.tail d mem)

/-- **Both counts agree**: what is open in a shielded text is open in the text, outside its strings. -/
theorem depth_read_shieldFrom {quote : Option Char} (known : ∀ q ∈ quote, Text.isQuote q) (t : Text) :
    ∀ p : Progress, p.guarded = false →
      (p.read (shieldFrom quote t)).depth = openFrom quote p.depth t := by
  -- A backslash that protects nothing stands at the end.
  have last (state : Option Char) {p : Progress} (plain : p.guarded = false) {c : Char} {t : Text}
      (back : c = '\\') (clean : ∀ d u, c = '\\' → t = d :: u → False) :
      (p.read (c :: shieldFrom state t)).depth = openFrom state p.depth (c :: t) := by
    obtain rfl := eq_nil_of_unpaired back clean
    subst back
    cases state <;> exact (step_backslash plain).1
  fun_induction shieldFrom quote t with
  | case1 quote =>
    intro p _
    cases quote <;> rfl
  | case2 quote c t ih =>
    intro p plain
    obtain ⟨level, unguarded⟩ := step_pair plain c
    rw [read_cons, read_cons, ih known _ unguarded, level, openFrom]
  | case3 quote t clean ih =>
    intro p plain
    have isQuote := known quote rfl
    obtain ⟨level, unguarded⟩ := step_of_ne_backslash plain (ne_backslash_of_isQuote isQuote)
    rw [read_cons, ih isQuote_of_mem_none _ unguarded, level, levelStep_of_isQuote isQuote, openFrom,
      if_pos rfl]
    exact clean
  | case4 quote c t clean other ih =>
    intro p plain
    have goes : openFrom (some quote) p.depth (c :: t) = openFrom (some quote) p.depth t := by
      rw [openFrom, if_neg other]
      exact clean
    by_cases mem : c ∈ Mark.chars
    · obtain ⟨level, unguarded⟩ := depth_read_mark plain fun d => Mark.isMarkChar_of_mem mem
      rw [read_append, ih known _ unguarded, level, goes]
    · rw [Mark.ofChar_of_not_mem mem, List.singleton_append]
      by_cases back : c = '\\'
      · exact last (some quote) plain back clean
      · obtain ⟨level, unguarded⟩ := step_of_ne_backslash plain back
        simp only [Mark.mem_chars, not_or] at mem
        rw [levelStep, if_neg mem.2.2.1, if_neg mem.2.2.2.1] at level
        rw [read_cons, ih known _ unguarded, level, goes]
  | case5 c t clean ih =>
    intro p plain
    by_cases back : c = '\\'
    · subst back
      exact last none plain rfl clean
    · obtain ⟨level, unguarded⟩ := step_of_ne_backslash plain back
      rw [read_cons, ih (isQuote_of_mem c) _ unguarded, level, openFrom]
      · rfl
      · exact clean

end Progress

/-- Where the cut of a shielded text reaches the end, as many blocks are open as the text leaves open. -/
theorem openLevels_shield (t : Text) : openLevels (shield t) = openAtEnd t :=
  Progress.depth_read_shieldFrom isQuote_of_mem_none t {} rfl

/-! ### What is closed -/

/-- What is open behind two texts is open behind the second, where the first leaves off. -/
theorem openFrom_append_of_after {quote next : Option Char} (known : ∀ q ∈ quote, Text.isQuote q)
    (known' : ∀ q ∈ next, Text.isQuote q) (depth : Nat) {s : Text}
    (leaves : (⟨quote, false, known⟩ : Standing).after s = ⟨next, false, known'⟩) (t : Text) :
    openFrom quote depth (s ++ t) = openFrom next (openFrom quote depth s) t := by
  -- A backslash at the end of the first text would protect what follows.
  have solid {state : Option Char} {known : ∀ q ∈ state, Text.isQuote q} {c : Char} {s : Text}
      (leaves : (⟨state, false, known⟩ : Standing).after (c :: s) = ⟨next, false, known'⟩)
      (clean : ∀ d u, c = '\\' → s = d :: u → False) : c ≠ '\\' := by
    intro back
    obtain rfl := eq_nil_of_unpaired back clean
    subst back
    cases congrArg Standing.guarded leaves
  fun_induction openFrom quote depth s with
  | case1 quote depth =>
    obtain rfl : quote = next := congrArg Standing.quote leaves
    cases quote <;> rfl
  | case2 quote depth c s ih =>
    rw [List.cons_append, List.cons_append, openFrom]
    exact ih known leaves
  | case3 quote depth c s clean ih =>
    have back := solid leaves clean
    have opens := Standing.openAfter_singleton quote c
    rw [Standing.after_cons, Standing.step_of_openAfter known back opens
      (opens ▸ isQuote_of_mem_openAfter known)] at leaves
    rw [List.cons_append, openFrom, ih _ leaves]
    exact fun _ _ same => absurd same back
  | case4 depth c s clean ih =>
    have back := solid leaves clean
    rw [Standing.after_cons, Standing.step_of_openAfter known back
      (Standing.openAfter_none_singleton c) (isQuote_of_mem c)] at leaves
    rw [List.cons_append, openFrom, ih _ leaves]
    exact fun _ _ same => absurd same back

/-- So many braces close so many blocks. -/
theorem openFrom_replicate (depth : Nat) : openFrom none depth (List.replicate depth '}') = 0 := by
  induction depth with
  | zero => rfl
  | succ depth ih => exact ih

/-- **A brace is appended for every block that is open where the cut reaches the end.**  Unless the text
ends in a string, or in a backslash that protects what follows, the cut of the closed text leaves no block
open, and closing it once more changes nothing. -/
theorem close_levels (t : Text) :
    cut (shield t) = (Progress.read {} (shield t)).finish ∧
      close t = t ++ List.replicate (openLevels (shield t)) '}' ∧
      ((Standing.start.after t).quote = none → (Standing.start.after t).guarded = false →
        openLevels (shield (close t)) = 0 ∧ close (close t) = close t) := by
  refine ⟨cut_eq_finish _, by rw [openLevels_shield, close], fun outside plain => ?_⟩
  have ends : Standing.start.after t = .start := Standing.ext outside plain
  have closed : openAtEnd (close t) = 0 := by
    rw [close, openAtEnd, openFrom_append_of_after isQuote_of_mem_none isQuote_of_mem_none 0 ends]
    exact openFrom_replicate _
  refine ⟨(openLevels_shield _).trans closed, ?_⟩
  rw [close, closed]
  exact List.append_nil _

/-- Two blocks are open behind a brace that closes nothing, a protected brace, and two strings with a brace,
the other quote and a protected quote in them. -/
theorem close_levels_strings :
    let t := "\x7da\\\x7bx\x7bb:\"\x7b'\\\"\";c\x7bd:'\x7d\\\\'".toList
    (Standing.start.after t).quote = none ∧ (Standing.start.after t).guarded = false ∧
      openLevels (shield t) = 2 ∧ close t = t ++ "\x7d\x7d".toList ∧
      openLevels (shield (close t)) = 0 ∧ close (close t) = close t := by
  intro t
  have outside : (Standing.start.after t).quote = none := by decide +kernel
  have plain : (Standing.start.after t).guarded = false := by decide +kernel
  have levels : openLevels (shield t) = 2 := by decide +kernel
  obtain ⟨-, braces, closed⟩ := close_levels t
  rw [levels] at braces
  exact ⟨outside, plain, levels, braces, closed outside plain⟩

end ScopedCss.Block
