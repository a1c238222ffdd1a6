import ScopedCss.Options
import ScopedCss.Proofs.Text.Occurrences
import ScopedCss.Proofs.Text.Patches
import ScopedCss.Proofs.Text.Strings

/-!
# Setting comments aside

A text is *commentless* if no `*/` follows a `/*` in it (`Commentless`).  That says nothing of how comments
are looked for; a scan finds one in every other text and none in these (`commentless_iff_read`).

Setting comments aside is complete and can be undone (`extract_reversible`).  A mark that takes the place
of a comment cannot close an opener in front of it: a `/*` that is still there was not closed by anything
behind it, and so there was no comment behind it either (`commentless_extract`).

A scan for comments knows nothing of strings, so a `/*` in a string opens a comment if a `*/` follows
anywhere, in that string, in a later one or between two (`untouched_iff`).
-/
namespace ScopedCss.Comment

/-- No `*/` follows a `/*`. -/
def Commentless (t : Text) : Prop :=
  ∀ before inside after, t ≠ before ++ '/' :: '*' :: (inside ++ '*' :: '/' :: after)

variable {c : Char} {t : Text}

/-! ### At the front -/

/-- What opens a comment opens one if it is closed. -/
theorem read_opener_eq_none_iff : read ('/' :: '*' :: t) = none ↔ ¬ ['*', '/'] <:+: t := by
  rw [read, Option.map_eq_none_iff, ← Text.breakAt?_isSome_iff, Option.not_isSome_iff_eq_none]

/-- Where no comment opens there is none. -/
theorem read_eq_none (unopened : ¬ ['/', '*'] <+: t) : read t = none := by
  unfold read
  split
  next rest => exact absurd ⟨rest, rfl⟩ unopened
  next => rfl

theorem read_eq_none_iff :
    read t = none ↔ ∀ inside after, t ≠ '/' :: '*' :: (inside ++ '*' :: '/' :: after) := by
  by_cases opens : ['/', '*'] <+: t
  · obtain ⟨rest, rfl⟩ := opens
    refine read_opener_eq_none_iff.trans ⟨?_, ?_⟩
    · rintro unclosed inside after same
      obtain rfl : rest = _ := (List.cons.inj (List.cons.inj same).2).2
      exact unclosed ⟨inside, after, by simp⟩
    · rintro none ⟨inside, after, rfl⟩
      exact none inside after (by simp)
  · refine iff_of_true (read_eq_none opens) ?_
    rintro inside after rfl
    exact opens ⟨_, rfl⟩

/-- A comment runs to the first `*/`. -/
theorem read_of_first {inside : Text} (first : ¬ ['*', '/'] <:+: inside) (after : Text) :
    read ('/' :: '*' :: (inside ++ '*' :: '/' :: after)) = some ('/' :: '*' :: inside ++ ['*', '/']) := by
  have found : Text.breakAt? ['*', '/'] (inside ++ '*' :: '/' :: after) = some (inside, after) := by
    refine Text.breakAt?_eq_some_iff.2 ⟨by simp, fun u behind nonempty closes => first ?_⟩
    -- The two characters of a closer are different, so one that starts inside ends inside.
    obtain ⟨c, u, rfl⟩ := List.exists_cons_of_ne_nil nonempty
    obtain ⟨rfl, slash⟩ := List.cons_prefix_cons.1 closes
    cases u with
    | nil => exact absurd (List.cons_prefix_cons.1 slash).1 (by decide)
    | cons d u =>
      obtain ⟨rfl, -⟩ := List.cons_prefix_cons.1 slash
      exact List.IsInfix.trans ⟨[], u, rfl⟩ behind.isInfix
  rw [read, found]
  rfl

/-! ### Texts without comments -/

/-- A text is commentless if there is no comment at any place of it. -/
theorem commentless_iff_read : Commentless t ↔ ∀ u, u <:+ t → read u = none := by
  constructor
  · rintro free u ⟨before, rfl⟩
    refine read_eq_none_iff.2 fun inside after same => free before inside after ?_
    rw [same]
  · rintro none before inside after rfl
    exact read_eq_none_iff.1 (none _ (List.suffix_append before _)) inside after rfl

theorem commentless_cons : Commentless (c :: t) ↔ read (c :: t) = none ∧ Commentless t := by
  simp only [commentless_iff_read, List.suffix_cons_iff, or_imp, forall_and, forall_eq]

/-- What does not open a comment may stand in front. -/
theorem commentless_append {s : Text} (absent : '/' ∉ s) (free : Commentless t) : Commentless (s ++ t) := by
  induction s with
  | nil => exact free
  | cons c s ih =>
    refine commentless_cons.2 ⟨read_eq_none ?_, ih fun mem => absent (.tail c mem)⟩
    rintro ⟨rest, split⟩
    obtain ⟨rfl, -⟩ := List.cons.inj split
    exact absent List.mem_cons_self

theorem commentless_of_unopened (unopened : ¬ ['/', '*'] <:+: t) : Commentless t :=
  commentless_iff_read.2 fun _ behind =>
    read_eq_none fun opens => unopened (opens.isInfix.trans behind.isInfix)

theorem commentless_of_unclosed (unclosed : ¬ ['*', '/'] <:+: t) : Commentless t := by
  rintro before inside after rfl
  exact unclosed ⟨before ++ '/' :: '*' :: inside, after, by simp⟩

/-- A scan for comments finds nothing in a commentless text. -/
theorem scan_of_commentless (free : Commentless t) : recogniser.scan t = t.map .plain := by
  induction t with
  | nil => rfl
  | cons c t ih =>
    obtain ⟨none, free⟩ := commentless_cons.1 free
    rw [Recogniser.scan_of_not_read none, ih free, List.map_cons]

theorem extract_of_commentless (free : Commentless t) : extract t = ⟨t, []⟩ := by
  rw [extract, Recogniser.substitute, scan_of_commentless free]
  simp [List.flatMap_map, Segment.hit?]

theorem strip_of_commentless (free : Commentless t) : strip t = t := by
  rw [strip, Recogniser.substitute, scan_of_commentless free]
  simp [List.flatMap_map]

/-- A text in which no comment opens has none set aside. -/
theorem extract_of_none (unopened : ¬ ['/', '*'] <:+: t) : extract t = ⟨t, []⟩ :=
  extract_of_commentless (commentless_of_unopened unopened)

/-- A text in which no comment opens stays as it is. -/
theorem strip_of_none (unopened : ¬ ['/', '*'] <:+: t) : strip t = t :=
  strip_of_commentless (commentless_of_unopened unopened)

/-! ### Setting aside and deleting, step by step -/

/-- A comment at the front is found, set aside and deleted; any other character stays. -/
theorem comment_or_plain (c : Char) (t : Text) :
    (∃ comment rest, c :: t = comment ++ rest ∧ rest.length < (c :: t).length ∧
      recogniser.scan (c :: t) = .hit comment :: recogniser.scan rest ∧
      extract (c :: t) = ⟨Mark.comment ++ (extract rest).text, comment :: (extract rest).comments⟩ ∧
      strip (c :: t) = strip rest) ∨
    (read (c :: t) = none ∧ recogniser.scan (c :: t) = .plain c :: recogniser.scan t ∧
      extract (c :: t) = ⟨c :: (extract t).text, (extract t).comments⟩ ∧
      strip (c :: t) = c :: strip t) := by
  rw [extract, strip, Recogniser.substitute, Recogniser.substitute]
  rcases Recogniser.scan_cons (r := recogniser) c t with
    ⟨comment, rest, -, split, shorter, scan⟩ | ⟨none, scan⟩
  · rw [scan]
    exact .inl ⟨comment, rest, split, shorter, rfl, rfl, rfl⟩
  · rw [scan]
    exact .inr ⟨none, rfl, rfl, rfl⟩

/-- Where nothing is set aside there was no comment. -/
theorem commentless_of_comments_eq_nil (none : (extract t).comments = []) : Commentless t := by
  induction t with
  | nil => exact commentless_of_unopened (by simp)
  | cons c t ih =>
    rcases comment_or_plain c t with ⟨comment, rest, -, -, -, aside, -⟩ | ⟨unread, -, aside, -⟩
    · rw [aside] at none
      cases none
    · rw [aside] at none
      exact commentless_cons.2 ⟨unread, ih none⟩

theorem length_strip_le (t : Text) : (strip t).length ≤ t.length := by
  induction size : t.length using Nat.strongRecOn generalizing t with
  | ind n ih =>
    subst size
    cases t with
    | nil => exact Nat.le_refl 0
    | cons c t =>
      rcases comment_or_plain c t with ⟨comment, rest, -, shorter, -, -, stripped⟩ | ⟨-, -, -, stripped⟩
      · rw [stripped]
        exact (ih _ shorter rest rfl).trans shorter.le
      · rw [stripped]
        exact Nat.succ_le_succ (ih t.length (Nat.lt_succ_self _) t rfl)

/-- Where nothing is deleted there was no comment. -/
theorem commentless_of_strip_eq_self (same : strip t = t) : Commentless t := by
  induction t with
  | nil => exact commentless_of_unopened (by simp)
  | cons c t ih =>
    rcases comment_or_plain c t with
      ⟨comment, rest, -, shorter, -, -, stripped⟩ | ⟨unread, -, -, stripped⟩
    · have fewer := length_strip_le rest
      rw [← stripped, same] at fewer
      omega
    · rw [stripped] at same
      exact commentless_cons.2 ⟨unread, ih (List.cons.inj same).2⟩

instance : DecidablePred Commentless := fun t =>
  decidable_of_iff ((extract t).comments = [])
    ⟨commentless_of_comments_eq_nil, fun free => by rw [extract_of_commentless free]⟩

/-! ### What is left when comments are set aside -/

/-- A text with a `*` at its front after its comments were set aside had it there before. -/
theorem exists_of_extract_eq_star {rest : Text} (star : (extract t).text = '*' :: rest) :
    ∃ t', t = '*' :: t' ∧ (extract t').text = rest := by
  cases t with
  | nil => cases star
  | cons c t =>
    rcases comment_or_plain c t with ⟨comment, behind, -, -, -, aside, -⟩ | ⟨-, -, aside, -⟩
    · rw [aside] at star
      cases star
    · rw [aside] at star
      obtain ⟨rfl, same⟩ := List.cons.inj star
      exact ⟨t, rfl, same⟩

/-- **When comments are set aside none is left.** -/
theorem commentless_extract (t : Text) : Commentless (extract t).text := by
  induction size : t.length using Nat.strongRecOn generalizing t with
  | ind n ih =>
    subst size
    cases t with
    | nil => exact commentless_of_unopened (by decide)
    | cons c t =>
      rcases comment_or_plain c t with
        ⟨comment, rest, -, shorter, -, aside, -⟩ | ⟨unread, -, aside, -⟩
      · rw [aside]
        exact commentless_append (by decide) (ih _ shorter rest rfl)
      · rw [aside]
        refine commentless_cons.2 ⟨read_eq_none_iff.2 fun inside after same => ?_,
          ih t.length (Nat.lt_succ_self _) t rfl⟩
        obtain ⟨rfl, star⟩ := List.cons.inj same
        obtain ⟨t', rfl, behind⟩ := exists_of_extract_eq_star star
        -- The opener was there before, and nothing behind it closes one.
        have unclosed := read_opener_eq_none_iff.1 unread
        rw [extract_of_commentless (commentless_of_unclosed unclosed)] at behind
        exact unclosed ⟨inside, after, by simp [show t' = _ from behind]⟩

/-- A segment when comments are set aside. -/
def setAside : Segment Text → Segment Unit
  | .hit _ => .hit ()
  | .plain c => .plain c

/-- **Every comment leaves a mark in its place, and nothing else reads as one.** -/
theorem scan_extract (unmarked : ¬ "%COMMENT".toList <:+: t) :
    Mark.commentWord.scan (extract t).text = (recogniser.scan t).map setAside := by
  induction size : t.length using Nat.strongRecOn generalizing t with
  | ind n ih =>
    subst size
    cases t with
    | nil => rfl
    | cons c t =>
      rcases comment_or_plain c t with
        ⟨comment, rest, split, shorter, scan, aside, -⟩ | ⟨-, scan, aside, -⟩
      · have inside : rest <:+ c :: t := ⟨comment, split.symm⟩
        have later := ih _ shorter (fun mark => unmarked (mark.trans inside.isInfix)) rfl
        rw [aside, scan, List.map_cons, ← later]
        exact Recogniser.scan_spell_append (r := Mark.commentWord) rfl
      · have later := ih t.length (Nat.lt_succ_self _)
          (fun mark => unmarked (mark.trans (List.suffix_cons c t).isInfix)) rfl
        have absent : ¬ Mark.comment <+: c :: (extract t).text := by
          intro front
          obtain ⟨rfl, behind⟩ : '%' = c ∧ "COMMENT%".toList <+: (extract t).text :=
            List.cons_prefix_cons.1 front
          -- The word behind the `%` has no mark in it, and so it stood there before.
          have word : "COMMENT".toList <+: (extract t).text :=
            List.IsPrefix.trans ⟨['%'], rfl⟩ behind
          have before := (patched_extract t).of_front (by simp [startsPatch]) word
          have split : "%COMMENT".toList = '%' :: "COMMENT".toList := by decide
          rw [split] at unmarked
          exact unmarked (List.cons_prefix_cons.2 ⟨rfl, before⟩).isInfix
        rw [aside, scan, List.map_cons, ← later]
        exact Recogniser.scan_of_not_read (Recogniser.read_word_eq_none _ absent)

/-- Comments dealt to their own marks give the text. -/
theorem deal_setAside (segments : List (Segment Text)) :
    deal (segments.filterMap Segment.hit?) (segments.map setAside) = recogniser.spellAll segments := by
  induction segments with
  | nil => rfl
  | cons segment segments ih =>
    cases segment with
    | hit comment => exact congrArg (comment ++ ·) ih
    | plain c =>
      refine Eq.trans ?_ (congrArg (c :: ·) ih)
      show deal (segments.filterMap Segment.hit?) (.plain c :: segments.map setAside) = _
      rw [deal]

theorem length_filterMap_setAside (segments : List (Segment Text)) :
    ((segments.map setAside).filterMap Segment.hit?).length = (segments.filterMap Segment.hit?).length := by
  induction segments with
  | nil => rfl
  | cons segment segments ih =>
    cases segment with
    | hit comment => exact congrArg Nat.succ ih
    | plain c => exact ih

/-- **Setting comments aside is complete and can be undone.**  None is left, and there is none to set aside
any more.  If the text has no beginning of a mark in it, every comment leaves one mark in its place and
nothing else reads as one, so there are as many marks as comments, and putting the comments back gives
the text. -/
theorem extract_reversible (t : Text) :
    Commentless (extract t).text ∧ extract (extract t).text = ⟨(extract t).text, []⟩ ∧
      (¬ "%COMMENT".toList <:+: t →
        Mark.commentWord.scan (extract t).text = (recogniser.scan t).map setAside ∧
          ((Mark.commentWord.scan (extract t).text).filterMap Segment.hit?).length =
            (extract t).comments.length ∧
          restore (extract t).comments (extract t).text = t) := by
  have free := commentless_extract t
  refine ⟨free, extract_of_commentless free, fun unmarked => ?_⟩
  have marks := scan_extract unmarked
  refine ⟨marks, by rw [marks, length_filterMap_setAside]; rfl, ?_⟩
  rw [restore, marks]
  exact (deal_setAside _).trans (recogniser.spellAll_scan t)

/-- Three comments: the first two stand next to each other, and the `COMMENT%` behind them takes no `%` from
the second one's mark; a `%` stands in front of the third.  The last opener is never closed. -/
theorem extract_reversible_adjacent :
    let t := "/*/*//**/COMMENT%a%/***//*".toList
    ¬ "%COMMENT".toList <:+: t ∧
      (extract t).text = "%COMMENT%%COMMENT%COMMENT%a%%COMMENT%/*".toList ∧
      (extract t).comments = ["/*/*/".toList, "/**/".toList, "/***/".toList] ∧
      Commentless (extract t).text ∧
      ((Mark.commentWord.scan (extract t).text).filterMap Segment.hit?).length = 3 ∧
      restore (extract t).comments (extract t).text = t := by
  intro t
  have unmarked : ¬ "%COMMENT".toList <:+: t := by decide +kernel
  have comments : (extract t).comments = ["/*/*/".toList, "/**/".toList, "/***/".toList] := by
    decide +kernel
  obtain ⟨free, -, back⟩ := extract_reversible t
  obtain ⟨-, marks, same⟩ := back unmarked
  rw [comments] at marks
  exact ⟨unmarked, by decide +kernel, comments, free, marks, same⟩

/-! ### Openers in strings -/

section
open Quoted

/-- Strings are closed, and every `/*` stands inside one. -/
structure OpensInStrings (t : Text) : Prop where
  closed : (Standing.start.after t).quote = none
  inside : ∀ u v, t = u ++ '/' :: '*' :: v → (Standing.start.after u).quote.isSome

instance : DecidablePred OpensInStrings := fun t =>
  decidable_of_iff ((Standing.start.after t).quote = none ∧
      ∀ n < t.length, ['/', '*'] <+: t.drop n → (Standing.start.after (t.take n)).quote.isSome) <| by
    constructor
    · rintro ⟨closed, inside⟩
      refine ⟨closed, ?_⟩
      rintro u v rfl
      have here := inside u.length (by simp) (by rw [List.drop_left]; exact ⟨v, rfl⟩)
      rwa [List.take_left] at here
    · rintro ⟨closed, inside⟩
      refine ⟨closed, fun n _ opens => ?_⟩
      obtain ⟨v, behind⟩ := opens
      refine inside (t.take n) v ?_
      rw [show '/' :: '*' :: v = t.drop n from behind, List.take_append_drop]

/-- No comment is found in the text, neither to set it aside nor to delete it. -/
def Untouched (t : Text) : Prop := extract t = ⟨t, []⟩ ∧ Stage.stripComments.run t = t

/-- The first comment runs from the first `/*` to the first `*/` behind it, whatever stands between. -/
theorem scan_first {before inside : Text} (unopened : ¬ ['/', '*'] <:+: before)
    (first : ¬ ['*', '/'] <:+: inside) (after : Text) :
    recogniser.scan (before ++ '/' :: '*' :: (inside ++ '*' :: '/' :: after)) =
      before.map .plain ++ .hit ('/' :: '*' :: inside ++ ['*', '/']) :: recogniser.scan after := by
  induction before with
  | nil =>
    have split : '/' :: '*' :: (inside ++ '*' :: '/' :: after) =
        ('/' :: '*' :: inside ++ ['*', '/']) ++ after := by simp
    have found := read_of_first first after
    rw [split] at found
    rw [List.nil_append, split]
    exact Recogniser.scan_spell_append (r := recogniser) found
  | cons c before ih =>
    have unread : recogniser.read
        (c :: (before ++ '/' :: '*' :: (inside ++ '*' :: '/' :: after))) = none := by
      refine read_eq_none ?_
      rintro ⟨rest, split⟩
      cases before with
      | nil => cases split
      | cons d before =>
        obtain ⟨slash, split⟩ := List.cons.inj split
        obtain ⟨star, -⟩ := List.cons.inj split
        exact unopened ⟨[], before, by rw [← slash, ← star]; rfl⟩
    rw [List.cons_append, Recogniser.scan_of_not_read unread, List.map_cons, List.cons_append,
      ih fun within => unopened (within.trans (List.suffix_cons c before).isInfix)]

/-- **A `/*` in a string opens a comment if a `*/` follows anywhere**, so a text with closed strings and
every `/*` in one is left alone exactly when no `*/` follows a `/*`.  Otherwise everything between the first
`/*` and the first `*/` behind it is hidden or deleted with them: the end of the string, the rules that
follow it, and the beginning of a later string. -/
theorem untouched_iff {t : Text} (quoted : OpensInStrings t) :
    (extract t = ⟨t, []⟩ ↔ Commentless t) ∧ (Stage.stripComments.run t = t ↔ Commentless t) ∧
      ∀ before inside after, t = before ++ '/' :: '*' :: (inside ++ '*' :: '/' :: after) →
        ¬ ['/', '*'] <:+: before → ¬ ['*', '/'] <:+: inside →
          (Standing.start.after before).quote.isSome ∧
          extract t = ⟨before ++ (Mark.comment ++ (extract after).text),
            ('/' :: '*' :: inside ++ ['*', '/']) :: (extract after).comments⟩ ∧
          Stage.stripComments.run t = before ++ Stage.stripComments.run after := by
  refine ⟨⟨fun same => commentless_of_comments_eq_nil (by rw [same]), extract_of_commentless⟩,
    ⟨commentless_of_strip_eq_self, strip_of_commentless⟩, fun before inside after split unopened first => ?_⟩
  have scan := scan_first unopened first after
  rw [← split] at scan
  refine ⟨quoted.inside before _ split, ?_, ?_⟩
  · rw [extract, Recogniser.substitute, scan]
    simp [List.flatMap_map, Segment.hit?, extract, Recogniser.substitute]
  · show strip t = before ++ strip after
    rw [strip, Recogniser.substitute, scan]
    simp [List.flatMap_map, strip, Recogniser.substitute]

/-- Nothing is found where the closer is the first of the two; the other way round a rule between two
strings is found to be in a comment. -/
theorem untouched_iff_closerFirst :
    let t := "a\x7bb:\"*/\\\"/*\"\x7dc\x7bd:'/*\"'\x7d".toList
    let before := "a\x7bb:\"\\\"".toList
    let inside := "\"\x7dc\x7bd:'*".toList
    let t' := before ++ '/' :: '*' :: (inside ++ '*' :: '/' :: "'\x7d".toList)
    (OpensInStrings t ∧ Commentless t ∧ Untouched t) ∧
      OpensInStrings t' ∧ ¬ ['/', '*'] <:+: before ∧ ¬ ['*', '/'] <:+: inside ∧
        (Standing.start.after before).quote.isSome ∧
        extract t' = ⟨"a\x7bb:\"\\\"%COMMENT%'\x7d".toList, ["/*\"\x7dc\x7bd:'**/".toList]⟩ ∧
        Stage.stripComments.run t' = "a\x7bb:\"\\\"'\x7d".toList := by
  intro t before inside t'
  have quoted : OpensInStrings t := by decide +kernel
  have quoted' : OpensInStrings t' := by decide +kernel
  have free : Commentless t := by decide +kernel
  have unopened : ¬ ['/', '*'] <:+: before := by decide +kernel
  have first : ¬ ['*', '/'] <:+: inside := by decide +kernel
  obtain ⟨aside, deleted, -⟩ := untouched_iff quoted
  obtain ⟨-, -, found⟩ := untouched_iff quoted'
  obtain ⟨within, hidden, shorter⟩ := found before inside _ rfl unopened first
  exact ⟨⟨quoted, free, aside.2 free, deleted.2 free⟩, quoted', unopened, first, within,
    hidden.trans rfl, shorter.trans rfl⟩

/-- A rule between two strings is hidden with its braces, and deleted when comments are. -/
theorem not_untouched :
    let t := "a\x7bb:\"/*\"\x7dc\x7bd:\"*/\"\x7d".toList
    OpensInStrings t ∧ ¬ Untouched t ∧
      (rulesOf t).map Rule.selector = ["a".toList, "c".toList] ∧
      (extract t).text = "a\x7bb:\"%COMMENT%\"\x7d".toList ∧
      (rulesOf (extract t).text).map Rule.selector = ["a".toList] ∧
      Stage.stripComments.run t = "a\x7bb:\"\"\x7d".toList := by
  intro t
  have text : (extract t).text = "a\x7bb:\"%COMMENT%\"\x7d".toList := by decide +kernel
  refine ⟨by decide +kernel, fun untouched => ?_, by decide +kernel, text, ?_, by decide +kernel⟩
  · have same : (extract t).text = t := congrArg Extracted.text untouched.1
    exact absurd (text.symm.trans same) (by decide +kernel)
  · rw [text]
    decide +kernel

end

end ScopedCss.Comment
