import ScopedCss.Proofs.Plain.Tokens
import ScopedCss.Proofs.Text.Utf8

/-!
# Every name lies in a fragment

The fragments of a text are looked for one after the other, each from the end of the one before it, until
none is left (`Pass`).  A pass comes to its end, as every fragment takes at least one character, and what it
finds are the fragments that a scan recognises, each at its offset (`pass_placed`).

Where a word character or `*` stands at the front, a fragment is read, if only the word or the `*`
itself (`read_ne_none`).  So none of them is left between two fragments (`holds_of_placed`), and a name gives
no token only if its fragment is passed over (`isSkipped_iff`).  All of this is `pass_covers`.
-/
namespace ScopedCss.Fragment

/-! ### Passes -/

/-- What is found in a text from an offset on, each fragment looked for from the end of the one before
it. -/
inductive Pass (t : Text) : Nat → List Match → Prop where
  | stop {offset : Nat} (absent : next? t offset = none) : Pass t offset []
  | step {offset : Nat} {m : Match} {later : List Match} (found : next? t offset = some m)
      (rest : Pass t m.stop later) : Pass t offset (m :: later)

/-- Whether a fragment stands where a text has a character behind a front. -/
def Match.Holds (m : Match) (front : Text) (c : Char) : Prop :=
  m.start ≤ front.bytes ∧ front.bytes + c.utf8Size ≤ m.stop

/-- Why a fragment is passed over. -/
inductive Skipped : Text → Prop where
  | comment : Skipped Mark.comment
  | bracketed (inside : Text) (closes : ']' ∉ inside) : Skipped ('[' :: (inside ++ [']']))
  | number (digit : Char) (rest : Text) (isDigit : digit.isDigit) (word : ∀ c ∈ rest, Text.isWordChar c) :
      Skipped (digit :: rest)

/-- The fragments in segments that stand at an offset, each with its own offset. -/
def placed : Nat → List (Segment Text) → List Match
  | _, [] => []
  | offset, .plain c :: s => placed (offset + c.utf8Size) s
  | offset, .hit f :: s => ⟨offset, f⟩ :: placed (offset + f.bytes) s

variable {t : Text} {offset : Nat} {s : List (Segment Text)} {m : Match}

/-- A pass finds the same however often it is made. -/
theorem Pass.unique {found found' : List Match} (pass : Pass t offset found) (pass' : Pass t offset found') :
    found' = found := by
  induction pass generalizing found' with
  | stop absent =>
    cases pass' with
    | stop => rfl
    | step found => cases absent.symm.trans found
  | step found rest ih =>
    cases pass' with
    | stop absent => cases absent.symm.trans found
    | step found' rest' =>
      cases found.symm.trans found'
      rw [ih rest']

theorem placed_map_plain_append (u : Text) (offset : Nat) (s : List (Segment Text)) :
    placed offset (u.map .plain ++ s) = placed (offset + u.bytes) s := by
  induction u generalizing offset with
  | nil => rfl
  | cons c u ih =>
    rw [List.map_cons, List.cons_append, placed, ih, Text.bytes_cons, Nat.add_assoc]

/-- **A pass comes to its end** and finds what a scan recognises. -/
theorem pass_placed (front t : Text) :
    Pass (front ++ t) front.bytes (placed front.bytes (recogniser.scan t)) := by
  induction size : t.length using Nat.strongRecOn generalizing front t with
  | ind n ih =>
    subst size
    have cut : (front ++ t).splitAtByte? front.bytes = some (front, t) :=
      Text.splitAtByte?_eq_some_iff.2 ⟨rfl, rfl⟩
    rcases Segment.exists_first (recogniser.scan t) with ⟨u, scanned⟩ | ⟨u, f, rest, scanned⟩
    · have none : placed front.bytes (u.map .plain ++ []) = [] := placed_map_plain_append u _ []
      rw [scanned, ← List.append_nil (u.map _), none]
      refine .stop ?_
      rw [next?, cut]
      simp [Recogniser.first?_of_plain scanned]
    · have first := Recogniser.first?_of_hit scanned
      obtain ⟨split, filled⟩ := Recogniser.append_of_first? first
      have found : next? (front ++ t) front.bytes = some ⟨front.bytes + u.bytes, f⟩ := by
        rw [next?, cut]
        simp [first]
      have ends : recogniser.scan t = (u.map .plain ++ [.hit f]) ++ rest := by simpa using scanned
      have behind := Recogniser.scan_spellAll ends
      -- What is left of the text is shorter by the fragment.
      have shorter : (recogniser.spellAll rest).length < t.length := by
        have pos := List.length_pos_iff.2 filled
        have whole := congrArg List.length split
        rw [List.length_append, List.length_append] at whole
        omega
      have later := ih _ shorter (front ++ u ++ f) _ rfl
      have same : front ++ u ++ f ++ recogniser.spellAll rest = front ++ t := by
        rw [split]
        simp [recogniser]
      rw [behind, same, Text.bytes_append, Text.bytes_append] at later
      rw [scanned, placed_map_plain_append]
      exact .step found later

/-! ### Where fragments stand -/

theorem mem_placed (mem : m ∈ placed offset s) :
    ∃ before after, s = before ++ .hit m.text :: after ∧
      m.start = offset + (recogniser.spellAll before).bytes := by
  induction s generalizing offset with
  | nil => cases mem
  | cons segment s ih =>
    cases segment with
    | plain c =>
      obtain ⟨before, after, rfl, start⟩ := ih mem
      refine ⟨.plain c :: before, after, rfl, ?_⟩
      rw [start, Recogniser.spellAll_cons, Text.bytes_append]
      exact Nat.add_assoc _ _ _
    | hit f =>
      rcases List.mem_cons.1 mem with rfl | later
      · exact ⟨[], s, rfl, rfl⟩
      · obtain ⟨before, after, rfl, start⟩ := ih later
        refine ⟨.hit f :: before, after, rfl, ?_⟩
        rw [start, Recogniser.spellAll_cons, Text.bytes_append]
        exact Nat.add_assoc _ _ _

theorem pairwise_placed (offset : Nat) (s : List (Segment Text)) :
    (placed offset s).Pairwise fun m m' => m.stop ≤ m'.start := by
  induction s generalizing offset with
  | nil => exact .nil
  | cons segment s ih =>
    cases segment with
    | plain c => exact ih _
    | hit f =>
      refine List.pairwise_cons.2 ⟨fun m' later => ?_, ih _⟩
      obtain ⟨before, after, -, start⟩ := mem_placed later
      rw [start]
      exact Nat.le_add_right _ _

/-- Of two fragments in order one ends before the other starts. -/
theorem eq_of_overlap {found : List Match} {m m' : Match}
    (ordered : found.Pairwise fun m m' => m.stop ≤ m'.start) (mem : m ∈ found) (mem' : m' ∈ found)
    (left : m.start < m'.stop) (right : m'.start < m.stop) : m = m' := by
  by_contra other
  have apart : found.Pairwise fun m m' => m.stop ≤ m'.start ∨ m'.stop ≤ m.start := ordered.imp .inl
  have symm : Std.Symm fun m m' : Match => m.stop ≤ m'.start ∨ m'.stop ≤ m.start := ⟨fun _ _ => Or.symm⟩
  rcases apart.forall mem mem' other with before | behind <;> omega

theorem map_text_placed (offset : Nat) (s : List (Segment Text)) :
    (placed offset s).map Match.text = s.filterMap Segment.hit? := by
  induction s generalizing offset with
  | nil => rfl
  | cons segment s ih =>
    cases segment with
    | plain c => exact ih _
    | hit f => exact congrArg (f :: ·) (ih _)

/-- What stands at an offset was read. -/
theorem exists_read_of_placed (mem : m ∈ placed offset (recogniser.scan t)) :
    ∃ u, read u = some m.text := by
  obtain ⟨before, after, split, -⟩ := mem_placed mem
  have hit : .hit m.text ∈ recogniser.scan t := by simp [split]
  obtain ⟨u, -, read⟩ := Recogniser.exists_read_of_mem_scan hit
  exact ⟨u, read⟩

/-- A fragment of a text is not empty and stands there at its offset. -/
theorem slice?_of_placed (mem : m ∈ placed 0 (recogniser.scan t)) :
    m.text ≠ [] ∧ t.slice? m.start m.stop = some m.text := by
  obtain ⟨before, after, split, start⟩ := mem_placed mem
  have whole := recogniser.spellAll_scan t
  rw [split, Recogniser.spellAll_append, Recogniser.spellAll_cons] at whole
  constructor
  · obtain ⟨u, read⟩ := exists_read_of_placed mem
    exact (front_of_read read).2
  · rw [← whole, Match.stop, start, Nat.zero_add]
    exact Text.slice?_append _ m.text _

/-! ### What lies in them -/

/-- A character lies in a fragment unless it is plain. -/
theorem holds_of_placed (offset : Nat) {before after : Text} {c : Char} (absent : .plain c ∉ s)
    (spelled : recogniser.spellAll s = before ++ c :: after) :
    ∃ m ∈ placed offset s, m.start ≤ offset + before.bytes ∧
      offset + before.bytes + c.utf8Size ≤ m.stop := by
  induction s generalizing offset before with
  | nil => simp at spelled
  | cons segment s ih =>
    have absent' : .plain c ∉ s := fun mem => absent (.tail _ mem)
    cases segment with
    | plain d =>
      cases before with
      | nil =>
        obtain ⟨rfl, -⟩ := List.cons.inj spelled
        exact absurd List.mem_cons_self absent
      | cons e before =>
        obtain ⟨rfl, rest⟩ := List.cons.inj spelled
        obtain ⟨m, mem, starts, stops⟩ := ih (offset + d.utf8Size) absent' rest
        refine ⟨m, mem, ?_, ?_⟩ <;> rw [Text.bytes_cons] <;> omega
    | hit f =>
      have split : f ++ recogniser.spellAll s = before ++ c :: after := spelled
      -- The character stands behind the fragment or in it.
      have behind {x : Text} (rest : recogniser.spellAll s = x ++ c :: after) (front : before = f ++ x) :
          ∃ m ∈ placed offset (.hit f :: s), m.start ≤ offset + before.bytes ∧
            offset + before.bytes + c.utf8Size ≤ m.stop := by
        obtain ⟨m, mem, starts, stops⟩ := ih (offset + f.bytes) absent' rest
        refine ⟨m, .tail _ mem, ?_, ?_⟩ <;> rw [front, Text.bytes_append] <;> omega
      rcases List.append_eq_append_iff.1 split with ⟨x, front, rest⟩ | ⟨x, front, rest⟩
      · exact behind rest front
      · cases x with
        | nil => exact behind (x := []) rest.symm (by simpa using front.symm)
        | cons d x =>
          obtain ⟨rfl, -⟩ := List.cons.inj rest
          have size : f.bytes = before.bytes + (c.utf8Size + Text.bytes x) := by
            rw [front, Text.bytes_append, Text.bytes_cons]
          refine ⟨⟨offset, f⟩, List.mem_cons_self, Nat.le_add_right _ _, ?_⟩
          show offset + before.bytes + c.utf8Size ≤ offset + f.bytes
          omega

/-! ### What is read -/

/-- Where a word character stands at the front, the word is read. -/
theorem read_of_isWordChar {c : Char} (word : Text.isWordChar c) (u : Text) :
    read (c :: u) = some (c :: u.takeWhile Text.isWordChar) := by
  have signs : ['%', '[', '.', '#', ':', '*'].all fun c => !Text.isWordChar c := by decide
  have other : c ∉ ['%', '[', '.', '#', ':', '*'] := by
    intro mem
    have sign := List.all_eq_true.1 signs c mem
    rw [word] at sign
    cases sign
  rw [Plain.read_of_word other, readRun, List.takeWhile_cons_of_pos word]

/-- At a word character or `*` a fragment is read. -/
theorem read_ne_none {c : Char} (name : Text.isWordChar c ∨ c = '*') (u : Text) : read (c :: u) ≠ none := by
  rcases name with word | rfl
  · rw [read_of_isWordChar word]
    exact Option.some_ne_none _
  · exact Option.some_ne_none _

/-- A fragment is passed over if it is the mark of a comment, stands in brackets or is a number. -/
theorem isSkipped_iff {u f : Text} (found : read u = some f) : isSkipped f ↔ Skipped f := by
  obtain ⟨⟨rest, rfl⟩, filled⟩ := front_of_read found
  obtain ⟨c, f, rfl⟩ := List.exists_cons_of_ne_nil filled
  constructor
  · intro skipped
    simp only [isSkipped, List.head?_cons, Option.any_some, Bool.or_eq_true, decide_eq_true_eq,
      Option.some.injEq] at skipped
    rcases skipped with (comment | rfl) | digit
    · rw [comment]
      exact .comment
    · rw [List.cons_append, read] at found
      split at found
      · have inside := (List.cons.inj (Option.some.inj found)).2
        rw [← inside]
        exact .bracketed _ fun mem => by simpa using List.mem_takeWhile_imp mem
      · cases found
    · have word : Text.isWordChar c := Text.isWordChar_of_isAlphanum (by simp [Char.isAlphanum, digit])
      rw [List.cons_append, read_of_isWordChar word] at found
      rw [← Option.some.inj found]
      exact .number c _ digit fun d mem => List.mem_takeWhile_imp mem
  · intro skipped
    generalize whole : c :: f = g at skipped
    cases skipped with
    | comment => rfl
    | bracketed inside => simp [isSkipped]
    | number digit rest isDigit => simp [isSkipped, isDigit]

/-! ### The pass -/

/-- **Nothing is dropped.**  Looking for fragments one after the other, each from the end of the one before
it, comes to an end in every text, and always to the same.  The fragments that are found are not empty, stand
at their offsets, in order and without overlap, and the tokens of the text are those that are not passed over,
in order.  Every word character and every `*` lies in exactly one of them.  So a name gives no token only if
it lies in the mark of a comment, in brackets or in a number. -/
theorem pass_covers (t : Text) : ∃ found : List Match,
    (Pass t 0 found ∧ ∀ other, Pass t 0 other → other = found) ∧
      (∀ m ∈ found, m.text ≠ [] ∧ t.slice? m.start m.stop = some m.text) ∧
      found.Pairwise (fun m m' => m.stop ≤ m'.start) ∧
      (tokens t).map Token.text = (found.map Match.text).filter (fun f => !isSkipped f) ∧
      (∀ m ∈ found, isSkipped m.text ↔ Skipped m.text) ∧
      ∀ before c after, t = before ++ c :: after → (Text.isWordChar c ∨ c = '*') →
        ∃! m, m ∈ found ∧ m.Holds before c := by
  have pass := pass_placed [] t
  have ordered := pairwise_placed 0 (recogniser.scan t)
  refine ⟨placed 0 (recogniser.scan t), ⟨pass, fun other => pass.unique⟩, fun m => slice?_of_placed, ordered,
    ?_, ?_, ?_⟩
  · rw [map_text_placed, tokens, List.map_map]
    exact List.map_id'' Token.text_ofText _
  · intro m mem
    obtain ⟨u, read⟩ := exists_read_of_placed mem
    exact isSkipped_iff read
  · intro before c after split name
    have absent : .plain c ∉ recogniser.scan t := by
      intro mem
      obtain ⟨u, unread⟩ := Recogniser.exists_not_read_of_mem_scan mem
      exact read_ne_none name u unread
    obtain ⟨m, mem, starts, stops⟩ := holds_of_placed 0 absent
      ((recogniser.spellAll_scan t).trans split)
    rw [Nat.zero_add] at starts stops
    refine ⟨m, ⟨mem, starts, stops⟩, ?_⟩
    rintro m' ⟨mem', starts', stops'⟩
    have pos := c.utf8Size_pos
    exact eq_of_overlap ordered mem' mem (by omega) (by omega)

/-- A class with a letter outside ASCII, three fragments that are passed over, and a parenthesis that is never
closed. -/
theorem pass_covers_passedOver :
    let t := ".é-b %COMMENT%[x=y]12é*:not(ü".toList
    let found : List Match := [⟨0, ".é-b".toList⟩, ⟨6, Mark.comment⟩, ⟨15, "[x=y]".toList⟩,
      ⟨20, "12é".toList⟩, ⟨24, ['*']⟩, ⟨25, ":not".toList⟩, ⟨30, ['ü']⟩]
    Pass t 0 found ∧ found.Pairwise (fun m m' => m.stop ≤ m'.start) ∧
      (tokens t).map Token.text = [".é-b".toList, ['*'], ":not".toList, ['ü']] ∧ Skipped "12é".toList ∧
      ∃! m, m ∈ found ∧ m.Holds ".é-b %COMMENT%[x=y]12".toList 'é' := by
  intro t found
  obtain ⟨found', ⟨-, only⟩, -, ordered, kept, skipped, covers⟩ := pass_covers t
  have pass : Pass t 0 found := by
    refine .step ?_ (.step ?_ (.step ?_ (.step ?_ (.step ?_ (.step ?_ (.step ?_ (.stop ?_))))))) <;>
      decide +kernel
  obtain rfl := only found pass
  refine ⟨pass, ordered, kept.trans (by decide +kernel), ?_, ?_⟩
  · exact (skipped ⟨20, "12é".toList⟩ (by decide)).1 (by decide)
  · exact covers _ 'é' "*:not(ü".toList (by decide) (.inl (by decide +kernel))

end ScopedCss.Fragment
