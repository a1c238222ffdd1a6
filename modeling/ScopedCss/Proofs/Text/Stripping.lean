import ScopedCss.Proofs.Text.Comments

/-!
# Deleting comments

A comment that is deleted leaves nothing behind, and what stood around it becomes neighbours.  A `/` and a
`*` that were kept apart by comments alone then open a comment if a `*/` is left behind them: the text
*rejoins* there (`Rejoins`).  This is the only way in which a comment can be left, and only then does it
matter how often comments are deleted (`leavesNone_iff`).

An opener that the text had before and that opened no comment is no danger.  Nothing behind it closes one,
so there was no comment behind it either, and nothing there is brought together (`read_strip_cons_iff`).
-/
namespace ScopedCss.Comment

/-- A text starts with comments, of which there is at least one, and a `*` behind them; and a `*/` is left
behind the `*` when comments are deleted. -/
def RejoinsBehind (t : Text) : Prop :=
  ∃ (comments : List Text) (rest : Text), comments ≠ [] ∧ ['*', '/'] <:+: strip rest ∧
    recogniser.scan t = comments.map .hit ++ .plain '*' :: recogniser.scan rest

/-- At some `/` outside comments a comment opens when the comments behind it are deleted. -/
def Rejoins (t : Text) : Prop :=
  ∃ before u, recogniser.scan t = before ++ .plain '/' :: recogniser.scan u ∧ RejoinsBehind u

/-- Deleting comments leaves none, and it makes no difference how often it is listed as a stage. -/
structure LeavesNone (t : Text) : Prop where
  free : Commentless (Stage.stripComments.run t)
  once : ∀ n, Options.stage { stages := List.replicate (n + 1) Stage.stripComments } t =
    Stage.stripComments.run t

variable {c : Char} {t u : Text}

/-! ### What is left in front -/

/-- The first character that is left stood behind comments alone. -/
theorem strip_eq_cons_iff :
    strip t = c :: u ↔ ∃ (comments : List Text) (rest : Text), strip rest = u ∧
      recogniser.scan t = comments.map .hit ++ .plain c :: recogniser.scan rest := by
  constructor
  · intro left
    induction size : t.length using Nat.strongRecOn generalizing t with
    | ind n ih =>
      subst size
      cases t with
      | nil => cases left
      | cons d t =>
        rcases comment_or_plain d t with ⟨comment, behind, -, shorter, scan, -, stripped⟩ | ⟨-, scan, -, stripped⟩
        · obtain ⟨comments, rest, same, later⟩ := ih _ shorter (stripped.symm.trans left) rfl
          exact ⟨comment :: comments, rest, same, by rw [scan, later]; rfl⟩
        · obtain ⟨rfl, same⟩ := List.cons.inj (stripped.symm.trans left)
          exact ⟨[], t, same, scan⟩
  · rintro ⟨comments, rest, rfl, scan⟩
    rw [strip, Recogniser.substitute, scan]
    simp [List.flatMap_map, strip, Recogniser.substitute]

/-- Where there was no comment there is one, with the comments behind deleted, exactly if the text rejoins
there. -/
theorem read_strip_cons_iff (unread : read (c :: t) = none) :
    read (c :: strip t) ≠ none ↔ c = '/' ∧ RejoinsBehind t := by
  constructor
  · intro found
    rw [Ne, read_eq_none_iff] at found
    push Not at found
    obtain ⟨inside, after, opened⟩ := found
    obtain ⟨rfl, star⟩ := List.cons.inj opened
    obtain ⟨comments, rest, left, scan⟩ := strip_eq_cons_iff.1 star
    have closed : ['*', '/'] <:+: strip rest := ⟨inside, after, by rw [left]; simp⟩
    refine ⟨rfl, comments, rest, ?_, closed, scan⟩
    rintro rfl
    -- Without comments between them the `/` and the `*` were an opener, and nothing closed it.
    have split : t = '*' :: rest := by
      rw [← recogniser.spellAll_scan t, scan, ← recogniser.spellAll_scan rest]
      simp [Recogniser.spellSegment, recogniser.spellAll_scan]
    have unclosed : ¬ ['*', '/'] <:+: rest := read_opener_eq_none_iff.1 (split ▸ unread)
    rw [strip_of_commentless (commentless_of_unclosed unclosed)] at closed
    exact unclosed closed
  · rintro ⟨rfl, comments, rest, -, closed, scan⟩
    rw [strip_eq_cons_iff.2 ⟨comments, rest, rfl, scan⟩]
    exact fun unread => read_opener_eq_none_iff.1 unread closed

/-! ### What is left of a text -/

/-- A comment in front is no place to rejoin. -/
theorem rejoins_of_hit {comment : Text} (scan : recogniser.scan t = .hit comment :: recogniser.scan u) :
    Rejoins t ↔ Rejoins u := by
  constructor
  · rintro ⟨before, v, cut, rejoins⟩
    cases before with
    | nil => cases scan.symm.trans cut
    | cons segment before => exact ⟨before, v, (List.cons.inj (scan.symm.trans cut)).2, rejoins⟩
  · rintro ⟨before, v, cut, rejoins⟩
    exact ⟨.hit comment :: before, v, by rw [scan, cut]; rfl, rejoins⟩

/-- A text rejoins at its first character, or behind it. -/
theorem rejoins_of_plain (scan : recogniser.scan (c :: t) = .plain c :: recogniser.scan t) :
    Rejoins (c :: t) ↔ (c = '/' ∧ RejoinsBehind t) ∨ Rejoins t := by
  constructor
  · rintro ⟨before, v, cut, rejoins⟩
    cases before with
    | nil =>
      obtain ⟨same, rest⟩ := List.cons.inj (scan.symm.trans cut)
      obtain rfl : t = v := by
        rw [← recogniser.spellAll_scan t, rest, recogniser.spellAll_scan]
      exact .inl ⟨Segment.plain.inj same, rejoins⟩
    | cons segment before => exact .inr ⟨before, v, (List.cons.inj (scan.symm.trans cut)).2, rejoins⟩
  · rintro (⟨rfl, rejoins⟩ | ⟨before, v, cut, rejoins⟩)
    · exact ⟨[], t, scan, rejoins⟩
    · exact ⟨.plain c :: before, v, by rw [scan, cut]; rfl, rejoins⟩

/-- A comment is left exactly where a text rejoins. -/
theorem commentless_strip_iff : Commentless (strip t) ↔ ¬ Rejoins t := by
  induction size : t.length using Nat.strongRecOn generalizing t with
  | ind n ih =>
    subst size
    cases t with
    | nil =>
      refine iff_of_true (commentless_of_unopened (by decide)) ?_
      rintro ⟨before, u, cut, -⟩
      simp at cut
    | cons c t =>
      rcases comment_or_plain c t with ⟨comment, rest, -, shorter, scan, -, stripped⟩ | ⟨unread, scan, -, stripped⟩
      · rw [stripped, rejoins_of_hit scan]
        exact ih _ shorter rfl
      · rw [stripped, commentless_cons, rejoins_of_plain scan, not_or, ← read_strip_cons_iff unread, not_not,
          ih t.length (Nat.lt_succ_self _) rfl]

/-- Deleting comments several times is deleting them once if that leaves none. -/
theorem stage_replicate_of_commentless (free : Commentless (strip t)) (n : Nat) :
    Options.stage { stages := List.replicate (n + 1) Stage.stripComments } t = strip t := by
  have again (m : Nat) :
      (List.replicate m Stage.stripComments).foldl (fun text stage => stage.run text) (strip t) = strip t := by
    induction m with
    | zero => rfl
    | succ m ih =>
      have here : Stage.stripComments.run (strip t) = strip t := strip_of_commentless free
      rw [List.replicate_succ, List.foldl_cons, here, ih]
  exact again n

/-- **Deleting comments leaves none** exactly if the text rejoins nowhere, and exactly then it makes no
difference how often comments are deleted. -/
theorem leavesNone_iff (t : Text) :
    (LeavesNone t ↔ ¬ Rejoins t) ∧ (Commentless (strip t) ↔ ¬ Rejoins t) ∧
      (strip (strip t) = strip t ↔ ¬ Rejoins t) := by
  have once : strip (strip t) = strip t ↔ ¬ Rejoins t :=
    ⟨fun same => commentless_strip_iff.1 (commentless_of_strip_eq_self same),
      fun apart => strip_of_commentless (commentless_strip_iff.2 apart)⟩
  refine ⟨⟨fun none => commentless_strip_iff.1 none.free, fun apart => ?_⟩, commentless_strip_iff, once⟩
  have free : Commentless (strip t) := commentless_strip_iff.2 apart
  exact ⟨free, stage_replicate_of_commentless free⟩

/-- The first comment goes, and what stood around it is a comment, which goes when the stage is listed
twice. -/
theorem not_leavesNone :
    let t := "//**/**/".toList
    ¬ LeavesNone t ∧ Rejoins t ∧ Stage.stripComments.run t = "/**/".toList ∧
      Options.stage { stages := [Stage.stripComments, Stage.stripComments] } t = [] := by
  intro t
  have left : strip t = "/**/".toList := by decide +kernel
  have kept : ¬ Commentless (strip t) := by
    rw [left]
    decide +kernel
  exact ⟨fun none => kept none.free, not_not.1 fun apart => kept (commentless_strip_iff.2 apart), left,
    by decide +kernel⟩

end ScopedCss.Comment
