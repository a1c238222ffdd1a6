import Mathlib.Data.List.Induction
import Mathlib.Data.List.TakeWhile
import ScopedCss.Proofs.Text.Scanning
import ScopedCss.Rule.Frame

/-!
# Frames in a text

A frame is read off a run and what ends it (`read_run`), so that a text that ends in a structural
character is scanned by itself unless the mark of a block reaches over its end
(`scan_append_of_structural`).

The selector of a frame stands directly before its ending: only spaces and the marks of comments are
around it in its run (`splitRun_spec`).
-/
namespace ScopedCss.Frame

/-- What stands at the front of every block. -/
def opening : Text := '{' :: Mark.block

/-- The frame that a run and an ending make. -/
def ofRun (run : Text) (ending : Ending) : Frame :=
  ⟨(splitRun run).1, (splitRun run).2.1, (splitRun run).2.2, ending⟩

theorem isStructural_of_isSpace {c : Char} (space : Text.isSpace c) : isStructural c = false := by
  by_contra structural
  rw [Bool.not_eq_false] at structural
  simp only [isStructural, Bool.or_eq_true, beq_iff_eq] at structural
  rcases structural with (rfl | rfl) | rfl <;> cases space

/-- The frame of a run keeps the run. -/
theorem ofRun_around (run : Text) (ending : Ending) (content : Text) :
    (ofRun run ending).around (ofRun run ending).selector content = run ++ ending.around content :=
  congrArg (· ++ ending.around content) (splitRun_append run)

/-! ### Reading -/

theorem readEnding_eq_none {u : Text} (absent : ¬ opening <+: '{' :: u) :
    readEnding ('{' :: u) = none := by
  rw [readEnding, Option.map_eq_none_iff, Option.eq_none_iff_forall_ne_some]
  intro rest found
  exact absent ⟨rest, (congrArg ('{' :: ·) (Text.append_of_isPrefixOf? found)).symm⟩

/-- No frame starts with a structural character. -/
theorem read_structural {e : Char} (structural : isStructural e) (u : Text) : read (e :: u) = none := by
  rw [read, List.takeWhile_cons_of_neg (by simp [structural])]

/-- Where nothing structural follows there is no frame. -/
theorem read_of_solid {t : Text} (solid : ∀ c ∈ t, isStructural c = false) : read t = none := by
  have after : t.dropWhile (fun c => !isStructural c) = [] := by
    rw [List.dropWhile_eq_nil_iff]
    intro c mem
    simp [solid c mem]
  unfold read
  rw [after]
  split <;> rfl

/-- The frame of a run is that of its ending. -/
theorem read_run {run : Text} (nonempty : run ≠ []) (solid : ∀ c ∈ run, isStructural c = false)
    {e : Char} (structural : isStructural e) (u : Text) :
    read (run ++ e :: u) = (readEnding (e :: u)).map (ofRun run) := by
  have solid' : ∀ c ∈ run, (!isStructural c) = true := by
    intro c mem
    simp [solid c mem]
  obtain ⟨c, rest, rfl⟩ := List.exists_cons_of_ne_nil nonempty
  rw [read, List.takeWhile_append_of_pos solid', List.dropWhile_append_of_pos solid',
    List.takeWhile_cons_of_neg (by simp [structural]),
    List.dropWhile_cons_of_neg (by simp [structural]), List.append_nil]
  rfl

/-- A text up to its last structural character, and the run behind that. -/
theorem exists_last_run (t : Text) : ∃ front run, t = front ++ run ∧
    (∀ c ∈ front.getLast?, isStructural c) ∧ ∀ c ∈ run, isStructural c = false := by
  induction t using List.reverseRecOn with
  | nil => exact ⟨[], [], rfl, by simp, by simp⟩
  | append_singleton t c ih =>
    by_cases structural : isStructural c
    · exact ⟨t ++ [c], [], by simp, by simp [structural], by simp⟩
    · obtain ⟨front, run, rfl, ends, solid⟩ := ih
      refine ⟨front, run ++ [c], by simp, ends, ?_⟩
      intro d mem
      rcases List.mem_append.1 mem with mem | mem
      · exact solid d mem
      · rw [List.mem_singleton.1 mem]
        simpa using structural

/-- A text with a structural character in it is a run, and what ends it. -/
theorem exists_first_run {t : Text} (some : ∃ c ∈ t, isStructural c) :
    ∃ run e u, t = run ++ e :: u ∧ isStructural e ∧ ∀ c ∈ run, isStructural c = false := by
  induction t with
  | nil =>
    obtain ⟨c, mem, -⟩ := some
    cases mem
  | cons c t ih =>
    by_cases structural : isStructural c
    · exact ⟨[], c, t, rfl, structural, by simp⟩
    · obtain ⟨d, mem, known⟩ := some
      rcases List.mem_cons.1 mem with rfl | mem
      · exact absurd known structural
      · obtain ⟨run, e, u, rfl, isEnd, solid⟩ := ih ⟨d, mem, known⟩
        refine ⟨c :: run, e, u, rfl, isEnd, ?_⟩
        intro d mem
        rcases List.mem_cons.1 mem with rfl | mem
        · simpa using structural
        · exact solid d mem

/-- A text that ends in a structural character is scanned by itself, if no mark of a block reaches
over its end. -/
theorem scan_append_of_structural {s t : Text} (ends : ∀ c ∈ s.getLast?, isStructural c)
    (absent : ∀ u, u <:+ s → u ≠ [] → ¬ opening <+: u ++ t) :
    recogniser.scan (s ++ t) = recogniser.scan s ++ recogniser.scan t := by
  refine Recogniser.scan_append fun u inside nonempty => ?_
  have last : u.getLast? = s.getLast? := by
    obtain ⟨front, rfl⟩ := inside
    rw [List.getLast?_append_of_ne_nil _ nonempty]
  obtain ⟨run, e, v, rfl, structural, solid⟩ : ∃ run e v, u = run ++ e :: v ∧ isStructural e ∧
      ∀ c ∈ run, isStructural c = false :=
    exists_first_run ⟨u.getLast nonempty, List.getLast_mem nonempty,
      ends _ (by rw [← last, List.getLast?_eq_getLast_of_ne_nil nonempty]; rfl)⟩
  rw [List.append_assoc, List.cons_append]
  show read (run ++ e :: (v ++ t)) = read (run ++ e :: v)
  by_cases empty : run = []
  · rw [empty, List.nil_append, List.nil_append, read_structural structural,
      read_structural structural]
  · rw [read_run empty solid structural, read_run empty solid structural]
    have known : e = ';' ∨ e = '{' ∨ e = '}' := by
      simpa [isStructural, or_assoc] using structural
    rcases known with rfl | rfl | rfl
    · rfl
    · have away : ¬ opening <+: '{' :: (v ++ t) :=
        absent ('{' :: v) ((List.suffix_append run _).trans inside) (by simp)
      have away' : ¬ opening <+: '{' :: v := fun front =>
        away (front.trans (List.prefix_append ('{' :: v) t))
      rw [readEnding_eq_none away, readEnding_eq_none away']
    · rfl

/-- A block that is recognised in a text has its opening there. -/
theorem ending_of_mem_scan {t : Text} (absent : ¬ opening <:+: t) {frame : Frame}
    (mem : .hit frame ∈ recogniser.scan t) : frame.ending = .statement := by
  obtain ⟨u, inside, found⟩ := Recogniser.exists_read_of_mem_scan mem
  obtain ⟨rest, spelled⟩ := recogniser.spell_front found
  cases ending : frame.ending with
  | statement => rfl
  | block closing =>
    refine absurd ?_ absent
    have part : opening <:+: frame.spell :=
      ⟨frame.lead ++ frame.selector ++ frame.gap, closing, by
        simp [spell, around, ending, Ending.around, Ending.content, opening]⟩
    exact part.trans ((List.IsPrefix.isInfix ⟨rest, spelled⟩).trans inside.isInfix)

/-! ### Selectors -/

/-- Spaces and the marks of comments. -/
inductive Filler : Text → Prop where
  | nil : Filler []
  | space {c : Char} {t : Text} : Text.isSpace c → Filler t → Filler (c :: t)
  | comment {t : Text} : Filler t → Filler (Mark.comment ++ t)

/-- A selector directly precedes what follows a text: between the two stand only spaces, and before
the selector, back to the last structural character, only spaces and comments. -/
structure Precedes (selector before : Text) : Prop where
  nonempty : selector ≠ []
  solid : ∀ c ∈ selector, isStructural c = false
  placed : ∃ front lead gap, before = front ++ (lead ++ (selector ++ gap)) ∧
    (∀ c ∈ front.getLast?, isStructural c) ∧ Filler lead ∧ ∀ c ∈ gap, Text.isSpace c

theorem filler_spellAll {segments : List (Segment Unit)} (all : ∀ s ∈ segments, isFiller s) :
    Filler (Mark.commentWord.spellAll segments) := by
  induction segments with
  | nil => exact .nil
  | cons segment segments ih =>
    have later := ih fun s mem => all s (List.mem_cons_of_mem segment mem)
    cases segment with
    | hit _ => exact .comment later
    | plain c => exact .space (all (.plain c) List.mem_cons_self) later

/-- A run of nothing but filler ends in a space, or in the mark of a comment. -/
theorem exists_last_filler {run : Text} (nonempty : run ≠ []) (whole : filler run = run) :
    ∃ before last, run = before ++ last ∧ last ≠ [] ∧ Filler before ∧
      last.length = if run.getLast?.any Text.isSpace then 1 else Mark.comment.length := by
  have all : ∀ s ∈ (Mark.commentWord.scan run).takeWhile isFiller, isFiller s := fun s mem =>
    List.mem_takeWhile_imp mem
  rw [filler] at whole
  rcases List.eq_nil_or_concat ((Mark.commentWord.scan run).takeWhile isFiller) with
    none | ⟨before, last, split⟩
  · rw [none] at whole
    exact absurd whole.symm nonempty
  · rw [List.concat_eq_append] at split
    rw [split] at all whole
    have text : run = Mark.commentWord.spellAll before ++ Mark.commentWord.spellSegment last := by
      rw [← whole]
      simp [Recogniser.spellAll]
    have front := filler_spellAll fun s mem => all s (List.mem_append_left _ mem)
    have known := all last (by simp)
    refine ⟨_, _, text, ?_⟩
    rw [text]
    cases last with
    | hit _ =>
      have spelled : Mark.commentWord.spellSegment (.hit ()) = Mark.comment := rfl
      rw [spelled, List.getLast?_append_of_ne_nil _ (by decide)]
      exact ⟨by decide, front, rfl⟩
    | plain c =>
      have space : Text.isSpace c := known
      have spelled : Mark.commentWord.spellSegment (.plain c) = [c] := rfl
      rw [spelled, List.getLast?_concat]
      exact ⟨by simp, front, by simp [space]⟩

/-- What follows the filler of a run starts with a character that is no space. -/
theorem head_drop_filler (run : Text) :
    ∀ c ∈ (run.drop (filler run).length).head?, Text.isSpace c = false := by
  have whole := Mark.commentWord.spellAll_scan run
  rw [← List.takeWhile_append_dropWhile (p := isFiller) (l := Mark.commentWord.scan run),
    Recogniser.spellAll, List.flatMap_append] at whole
  have rest : run.drop (filler run).length =
      Mark.commentWord.spellAll ((Mark.commentWord.scan run).dropWhile isFiller) := by
    exact (congrArg (List.drop (filler run).length) whole.symm).trans List.drop_left
  rw [rest]
  cases split : (Mark.commentWord.scan run).dropWhile isFiller with
  | nil => rintro c ⟨⟩
  | cons segment segments =>
    have other : isFiller segment = false := by
      have first := List.head_dropWhile_not isFiller (l := Mark.commentWord.scan run) (by simp [split])
      simpa [split] using first
    cases segment with
    | hit _ => cases other
    | plain c =>
      rintro d ⟨⟩
      exact other

/-- Only spaces and comments lead up to a selector, only spaces follow it, and it is never empty. -/
theorem splitRun_spec {run : Text} (nonempty : run ≠ []) :
    (splitRun run).2.1 ≠ [] ∧ Filler (splitRun run).1 ∧
      ∀ c ∈ (splitRun run).2.2, Text.isSpace c := by
  have front := List.prefix_iff_eq_append.1 (filler_front run)
  rw [splitRun]
  dsimp only
  split
  next empty =>
    rw [List.isEmpty_iff.1 empty, List.append_nil] at front
    obtain ⟨before, last, text, some, leads, length⟩ := exists_last_filler nonempty front
    have size : run.length - last.length = before.length := by
      rw [text, List.length_append]
      omega
    rw [← length, size, text, List.take_left, List.drop_left]
    exact ⟨some, leads, by simp⟩
  next rest =>
    refine ⟨?_, filler_spellAll fun s mem => List.mem_takeWhile_imp mem, ?_⟩
    · intro trimmed
      obtain ⟨c, t, split⟩ := List.exists_cons_of_ne_nil (by simpa using rest :
        run.drop (filler run).length ≠ [])
      have solid := head_drop_filler run c (by rw [split]; rfl)
      rw [Text.trimEnd, List.reverse_eq_nil_iff, List.dropWhile_eq_nil_iff, split] at trimmed
      rw [trimmed c (by simp)] at solid
      cases solid
    · intro c mem
      rw [Text.trailing, List.mem_reverse] at mem
      exact List.mem_takeWhile_imp mem

/-- The selector of a run directly precedes what ends the run. -/
theorem precedes_ofRun {front run : Text} (ends : ∀ c ∈ front.getLast?, isStructural c)
    (solid : ∀ c ∈ run, isStructural c = false) (nonempty : run ≠ []) (ending : Ending) :
    Precedes (ofRun run ending).selector (front ++ run) := by
  obtain ⟨some, leads, spaces⟩ := splitRun_spec nonempty
  have whole := splitRun_append run
  refine ⟨some, fun c mem => solid c ?_, front, (splitRun run).1, (splitRun run).2.2, ?_, ends, leads,
    spaces⟩
  · rw [← whole]
    exact List.mem_append_left _ (List.mem_append_right _ mem)
  · conv => lhs; rw [← whole]
    rw [List.append_assoc (splitRun run).1]
    rfl

end ScopedCss.Frame
