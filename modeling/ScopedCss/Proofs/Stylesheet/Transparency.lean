import ScopedCss.Proofs.Stylesheet.CommentedPasses

/-!
# Comments are transparent

A sheet can be scoped with its comments, and they can be deleted from it first.  Both make the same of it
if its comments stand between rules or between declarations (`transparent`).

What has to be put together for this: setting comments aside leaves their marks (`commented_extract`),
the walks of a pass go alike with and without marks (`agree_scopeText`), and deleting the comments that
were put back at the marks takes the marks away (`strip_restore`).  A comment in front of a declaration of
an animation is where it fails (`not_transparent`).
-/
namespace ScopedCss

open Quoted Block ScopedCss.Frame

/-! ### What marks leave as it is -/

namespace Commented
variable {n : ℕ} {spot : Spot} {s t : Text}

theorem outsideFrom_cons (spot : Spot) (c : Char) (t : Text) :
    outsideFrom spot.quote? (c :: t) =
      outsideFrom spot.quote? [c] ++ outsideFrom (spot.step c).quote? t := by
  rw [Spot.quote?_step, ← outsideFrom_append]
  rfl

/-- As many blocks are open behind a text with marks. -/
theorem levelAfter_eq (h : Commented n spot s t) (depth : Nat) :
    levelAfter depth (outsideFrom spot.quote? t) = levelAfter depth (outsideFrom spot.quote? s) := by
  induction h generalizing depth with
  | nil => rfl
  | @plain n spot s t c _ ih =>
    rw [outsideFrom_cons spot c t, outsideFrom_cons spot c s, levelAfter_append, levelAfter_append, ih]
  | @mark n s t _ ih =>
    show levelAfter depth (outside (Mark.comment ++ t)) = _
    rw [outside_comment_append, levelAfter_append, levelAfter_of_solid Mark.solid_comment]
    exact ih depth

/-- A mark in front of a block is something in front of it. -/
theorem headAfter_mono (h : Commented n spot s t) {begun begun' next : Bool} (more : begun → begun')
    (read : headAfter begun (outsideFrom spot.quote? s) = some next) :
    ∃ next', headAfter begun' (outsideFrom spot.quote? t) = some next' ∧ (next → next') := by
  induction h generalizing begun begun' with
  | nil => exact Block.headAfter_mono more read
  | @plain n spot s t c _ ih =>
    rw [outsideFrom_cons, headAfter_append] at read ⊢
    obtain ⟨middle, first, rest⟩ := Option.bind_eq_some_iff.1 read
    obtain ⟨middle', first', more⟩ := Block.headAfter_mono more first
    rw [first', Option.bind_some]
    exact ih more rest
  | @mark n s t _ ih =>
    show ∃ next', headAfter begun' (outside (Mark.comment ++ t)) = some next' ∧ _
    have ink : (Mark.comment.any fun c => !Text.isSpace c) = true := rfl
    rw [outside_comment_append, headAfter_append, headAfter_of_solid Mark.solid_comment, ink,
      Bool.or_true, Option.bind_some]
    exact ih (fun _ => rfl) read

theorem headed (h : Commented n .fresh s t) (known : Headed s) : Headed t := by
  obtain ⟨last, read⟩ := Option.isSome_iff_exists.1 known
  obtain ⟨last', read', -⟩ := h.headAfter_mono id read
  exact Option.isSome_iff_exists.2 ⟨last', read'⟩

end Commented

/-! ### Setting comments aside -/

namespace Comment
variable {n : ℕ} {spot : Spot} {s t : Text}

/-- Whether the comments of a scanned text stand between rules or between declarations: where nothing is
begun. -/
def between : Spot → List (Segment Text) → Bool
  | _, [] => true
  | spot, .plain c :: segments => between (spot.step c) segments
  | spot, .hit _ :: segments => decide (spot = .fresh) && between spot segments

/-- Then their marks stand there. -/
theorem commented_extract (apart : between spot (recogniser.scan t)) :
    Commented (extract t).comments.length spot (strip t) (extract t).text := by
  induction size : t.length using Nat.strongRecOn generalizing spot t with
  | ind len ih =>
    subst size
    cases t with
    | nil => exact .nil spot
    | cons c t =>
      rcases comment_or_plain c t with
        ⟨comment, rest, -, shorter, scan, aside, stripped⟩ | ⟨-, scan, aside, stripped⟩
      · rw [scan, between, Bool.and_eq_true, decide_eq_true_iff] at apart
        obtain ⟨rfl, later⟩ := apart
        rw [aside, stripped]
        exact .mark (ih _ shorter later rfl)
      · rw [scan, between] at apart
        rw [aside, stripped]
        exact .plain c (ih t.length (by simp) apart rfl)

/-! ### Putting comments back -/

/-- A comment is one whatever follows it. -/
theorem read_append {comment : Text} (found : read t = some comment) (u : Text) :
    read (comment ++ u) = some comment := by
  unfold read at found
  split at found
  next t =>
    obtain ⟨⟨inside, after⟩, closes, rfl⟩ := Option.map_eq_some_iff.1 found
    have again := Text.breakAt?_append closes u
    show read ('/' :: '*' :: (inside ++ ['*', '/'] ++ u)) = _
    rw [List.append_assoc, read, again]
    rfl
  next => cases found

theorem restore_mark_append (comment : Text) (comments : List Text) (t : Text) :
    restore (comment :: comments) (Mark.comment ++ t) = comment ++ restore comments t := by
  have read : Mark.commentWord.read (Mark.comment ++ t) = some () := rfl
  have scan : Mark.commentWord.scan (Mark.comment ++ t) = .hit () :: Mark.commentWord.scan t :=
    Recogniser.scan_spell_append read
  rw [restore, scan]
  rfl

theorem restore_cons {c : Char} (absent : ¬ Mark.comment <+: c :: t) (comments : List Text) :
    restore comments (c :: t) = c :: restore comments t := by
  have none : Mark.commentWord.read (c :: t) = none := Recogniser.read_word_eq_none _ absent
  rw [restore, Recogniser.scan_of_not_read none]
  cases comments <;> rfl

/-- A mark that stands in a text with marks otherwise stands in the text without them. -/
theorem no_mark_at_front {c : Char} (h : Commented n (spot.step c) s t)
    (unmarked : ¬ Mark.comment <:+: c :: s) : ¬ Mark.comment <+: c :: t := by
  rintro ⟨rest, split⟩
  obtain ⟨rfl, rfl⟩ : c = '%' ∧ t = "COMMENT%".toList ++ rest := by
    have shape : '%' :: ("COMMENT%".toList ++ rest) = c :: t := split
    rw [List.cons.injEq] at shape
    exact ⟨shape.1.symm, shape.2.symm⟩
  have solid : ∀ d ∈ "COMMENT%".toList, isStructural d = false := fun d mem =>
    Mark.solid_comment d (.tail '%' mem)
  obtain ⟨s', rfl, -⟩ := h.split_begun (Spot.isBegun_step_of_not_space rfl rfl) solid
  exact unmarked ⟨[], s', rfl⟩

/-- Where something is begun no comment is put back. -/
theorem head_restore (h : Commented n spot s t) (begun : spot.isBegun)
    (unmarked : ¬ Mark.comment <:+: s) (comments : List Text) (count : comments.length = n) (u : Text) :
    (restore comments t ++ u).head? = (s ++ u).head? := by
  cases h with
  | nil =>
    obtain rfl := List.length_eq_zero_iff.1 count
    rfl
  | plain c h =>
    rw [restore_cons (no_mark_at_front h unmarked)]
    rfl
  | mark => cases begun

/-- **Deleting the comments that were put back** at the marks gives the text without marks, in front of
every text that opens no comment. -/
theorem strip_restore (h : Commented n spot s t) {comments : List Text} (count : comments.length = n)
    (whole : ∀ comment ∈ comments, ∀ u, read (comment ++ u) = some comment)
    (unmarked : ¬ Mark.comment <:+: s) {u : Text} (unopened : ¬ ['/', '*'] <:+: s ++ u) :
    strip (restore comments t ++ u) = s ++ u := by
  induction h generalizing comments with
  | nil =>
    obtain rfl := List.length_eq_zero_iff.1 count
    exact strip_of_none unopened
  | @plain n spot s t c h ih =>
    have unmarked' : ¬ Mark.comment <:+: s := fun inside =>
      unmarked (inside.trans (List.suffix_cons c s).isInfix)
    have unread : recogniser.read (c :: (restore comments t ++ u)) = none := by
      refine read_eq_none fun opens => unopened ?_
      obtain ⟨rfl, star⟩ := List.cons_prefix_cons.1 opens
      obtain ⟨rest, split⟩ := star
      -- Behind the slash something is begun, and so the star is the next character without marks, too.
      have begun : (spot.step '/').isBegun := Spot.isBegun_step_of_not_space rfl rfl
      have head := head_restore h begun unmarked' comments count u
      rw [← split] at head
      obtain ⟨rest', same⟩ := List.head?_eq_some_iff.1 head.symm
      exact ⟨[], rest', by rw [List.cons_append, same]; rfl⟩
    rw [restore_cons (no_mark_at_front h unmarked), List.cons_append, strip,
      Recogniser.substitute_of_not_read unread]
    exact congrArg (c :: ·) (ih count whole unmarked' fun inside =>
      unopened (inside.trans (List.suffix_cons c _).isInfix))
  | @mark n s t h ih =>
    cases comments with
    | nil => cases count
    | cons comment comments =>
      have first := whole comment List.mem_cons_self (restore comments t ++ u)
      rw [restore_mark_append, List.append_assoc]
      refine (Recogniser.substitute_spell_append (r := recogniser) first).trans ?_
      exact ih (Nat.succ.inj count) (fun comment mem => whole comment (.tail _ mem)) unmarked unopened

/-- The comments of a text are comments whatever follows them. -/
theorem read_of_mem_extract {comment : Text} (mem : comment ∈ (extract t).comments) (u : Text) :
    read (comment ++ u) = some comment := by
  obtain ⟨segment, scanned, hit⟩ := List.mem_filterMap.1 mem
  cases segment with
  | plain c => cases hit
  | hit other =>
    cases hit
    obtain ⟨rest, -, found⟩ := Recogniser.exists_read_of_mem_scan scanned
    exact read_append found u

/-- **Deleting the comments of a finished text** gives what is finished without them. -/
theorem strip_close_restore (h : Commented n .fresh s t) (clean : '\\' ∉ t) {comments : List Text}
    (count : comments.length = n) (contained : ∀ comment ∈ comments, Contained comment)
    (whole : ∀ comment ∈ comments, ∀ u, read (comment ++ u) = some comment)
    (unmarked : ¬ Mark.comment <:+: close s) (unopened : ¬ ['/', '*'] <:+: close s) :
    strip (close (restore comments t)) = close s := by
  have level : openAtEnd (restore comments t) = openAtEnd s := by
    calc openAtEnd (restore comments t)
      _ = openAtEnd t := (sameLevels_restore contained t).openAtEnd_eq
          (no_backslash_restore contained clean) clean
      _ = openAtEnd s := by
          rw [openAtEnd, openAtEnd, openFrom_eq isQuote_of_mem_none clean,
            openFrom_eq isQuote_of_mem_none fun mem => clean (h.subset mem)]
          exact h.levelAfter_eq 0
  rw [close, level]
  exact strip_restore h count whole (fun inside => unmarked (inside.trans (List.prefix_append _ _).isInfix))
    unopened

end Comment

/-! ### The whole pass -/

namespace Stylesheet
variable {switches : Switches} {asterisk digits : Text} {n : ℕ} {s t : Text}

/-- **Both walks together go alike** with and without comments, if these are set apart in both texts that
are walked through. -/
theorem agree_scopeText (quiet : Scheme.Quiet asterisk digits) (h : Commented n .fresh s t)
    (sound : Sound s) (sound' : Sound t) (joined : JoinsFreely (leaves t))
    (apart : ∀ leaf ∈ leaves t, SetApart leaf) {ledger : Ledger}
    (later : ∀ between next, scopeRules (.suffixed switches asterisk digits) t ledger = .ok (between, next) →
      Suffixes digits next.mapping ∧ ∀ leaf ∈ leaves between, SetApart leaf) :
    Agree (Commented n .fresh) (scopeText (.suffixed switches asterisk digits) s ledger)
      (scopeText (.suffixed switches asterisk digits) t ledger) := by
  have joins := joinsFreely_of_twins (forall₂_leaves h sound sound' apart) joined
  have first : Agree (Commented n .fresh) (scopeRules (.suffixed switches asterisk digits) s ledger)
      (scopeRules (.suffixed switches asterisk digits) t ledger) :=
    agree_scopeRules quiet h sound sound' joined apart ledger
  unfold scopeText
  cases run : scopeRules (.suffixed switches asterisk digits) s ledger with
  | error fault =>
    cases run' : scopeRules (.suffixed switches asterisk digits) t ledger with
    | error fault' =>
      rw [run, run'] at first
      cases first
      exact .error fault
    | ok state =>
      rw [run, run'] at first
      cases first
  | ok state =>
    cases run' : scopeRules (.suffixed switches asterisk digits) t ledger with
    | error fault' =>
      rw [run, run'] at first
      cases first
    | ok state' =>
      rw [run, run'] at first
      cases first with
      | ok next related =>
        obtain ⟨suffixes, apart'⟩ := later _ _ run'
        have kept := keeps_scopeRules quiet sound.clean sound.headed sound.free joins run
        have kept' := keeps_scopeRules quiet sound'.clean sound'.headed sound'.free joined run'
        refine .ok next ?_
        show Commented n .fresh (renameReferences switches next.mapping _)
          (renameReferences switches next.mapping _)
        unfold renameReferences
        split
        next => exact related
        next =>
          exact commented_renameRules switches quiet.alphanum quiet.few suffixes related
            (sound.keeps kept) (sound'.keeps kept') apart'

/-- A pass is its two walks, and then puts the comments back and closes what is open. -/
theorem scope_eq_map_scopeText (options : Options) (source : Text) :
    scope options source =
      (scopeText (options.schemeFor source) (walked options source) {}).map fun (t, ledger) =>
        ⟨close (Comment.restore (Comment.extract (options.stage source)).comments t), ledger.mapping,
          ledger.warnings⟩ := by
  have start : scopeText (options.schemeFor source) (walked options source) {} =
      scopeText (options.schemeFor source) (Comment.extract (options.stage source)).text
        { asterisks := 0 } := rfl
  rw [scope, scopeFrom, start]
  cases scopeText (options.schemeFor source) (Comment.extract (options.stage source)).text
    { asterisks := 0 } <;> rfl

/-- What the first walk records has the suffix of the sheet. -/
theorem suffixes_of_scopeRules {source between : Text} {next : Ledger}
    (run : scopeRules (.suffixed switches asterisk (Suffix.ofSource source))
      (Comment.extract source).text {} = .ok (between, next)) :
    Suffixes (Suffix.ofSource source) next.mapping := by
  have ok := scope_eq_map (suffixed switches asterisk []) source
  rw [show (scopeRules ((suffixed switches asterisk []).schemeFor source)
    (walked (suffixed switches asterisk []) source)).run {} = _ from run] at ok
  exact suffixes_of_scope ok

/-- A text that a pass walks through: that of the sheet, or what the first walk makes of it. -/
def WalksThrough (options : Options) (source t : Text) : Prop :=
  t = walked options source ∨
    ∃ ledger, scopeRules (options.schemeFor source) (walked options source) {} = .ok (t, ledger)

/-- A pass over a sheet with its comments and one that removes them first go alike: they fail alike, or
record the same names, warn of the same and write the same css, but for the comments. -/
def Transparent (switches : Switches) (asterisk source : Text) : Prop :=
  (scope (suffixed switches asterisk []) source).map
      (fun result => { result with css := Comment.strip result.css }) =
    scope (suffixed switches asterisk [.stripComments]) source

/-- **Comments are transparent** if they stand between rules or between declarations, none of them is in
the way of the blocks or hides a declaration that is edited, and the css without them holds neither the start of a
comment nor a mark. -/
theorem transparent {switches : Switches} {asterisk source : Text}
    (letters : ∀ c ∈ asterisk, Text.isNameChar c) (named : WordFree asterisk)
    (free : WordFree source) (clean : '\\' ∉ source)
    (between : Comment.between .fresh (Comment.recogniser.scan source))
    (terminated : ¬ ['/', '*'] <:+: Comment.strip source)
    (contained : ∀ comment ∈ (Comment.extract source).comments, Comment.Contained comment)
    (headed : Headed (Comment.strip source))
    (joined : JoinsFreely (leaves (Comment.extract source).text))
    (apart : ∀ t, WalksThrough (suffixed switches asterisk []) source t → ∀ leaf ∈ leaves t, SetApart leaf)
    (bare : ∀ plain, scope (suffixed switches asterisk [.stripComments]) source = .ok plain →
      ¬ ['/', '*'] <:+: plain.css ∧ ¬ Mark.comment <:+: plain.css) :
    Transparent switches asterisk source := by
  have quiet : Scheme.Quiet asterisk (Suffix.ofSource source) :=
    ⟨fun c => Suffix.isAlphanum_of_mem_ofSource, (Suffix.length_ofSource_le source).trans (by decide),
      letters, named⟩
  have marks := Comment.commented_extract between
  have free' : WordFree (Comment.extract source).text := Comment.wordFree_extract free
  have stripped : '\\' ∉ Comment.strip source := fun mem =>
    (Recogniser.mem_substitute mem).elim clean fun ⟨_, inside⟩ => nomatch inside
  have sound : Sound (Comment.strip source) :=
    ⟨stripped, headed, wordFree_outside (marks.wordFree free')⟩
  have sound' : Sound (Comment.extract source).text :=
    ⟨marks.no_backslash stripped, marks.headed headed, wordFree_outside free'⟩
  have agree : Agree (Commented _ .fresh)
      (scopeText (.suffixed switches asterisk (Suffix.ofSource source)) (Comment.strip source) {})
      (scopeText (.suffixed switches asterisk (Suffix.ofSource source)) (Comment.extract source).text {}) :=
    agree_scopeText quiet marks sound sound' joined (apart _ (.inl rfl)) fun between next run =>
      ⟨suffixes_of_scopeRules run, apart between (.inr ⟨next, run⟩)⟩
  have start : walked (suffixed switches asterisk [.stripComments]) source = Comment.strip source :=
    congrArg Comment.Extracted.text (Comment.extract_of_none terminated)
  have aside : Comment.extract ((suffixed switches asterisk [.stripComments]).stage source) =
      ⟨Comment.strip source, []⟩ := Comment.extract_of_none terminated
  have plain := scope_eq_map_scopeText (suffixed switches asterisk [.stripComments]) source
  have marked := scope_eq_map_scopeText (suffixed switches asterisk []) source
  rw [start, aside] at plain
  have scheme (stages : List Stage) : (suffixed switches asterisk stages).schemeFor source =
      .suffixed switches asterisk (Suffix.ofSource source) := rfl
  rw [scheme] at plain marked
  unfold Transparent
  rw [plain] at bare
  rw [plain, marked]
  generalize left : scopeText (.suffixed switches asterisk (Suffix.ofSource source))
    (Comment.strip source) {} = run at agree bare
  generalize right : scopeText (.suffixed switches asterisk (Suffix.ofSource source))
    (Comment.extract source).text {} = run' at agree
  rw [show scopeText _ (walked (suffixed switches asterisk []) source) {} = _ from right] at marked ⊢
  cases agree with
  | error fault => rfl
  | @ok s t ledger related =>
    have kept := keeps_scopeText quiet sound'.clean sound'.headed sound'.free joined right
      (suffixes_of_scope marked)
    obtain ⟨unopened, unmarked⟩ := bare _ rfl
    dsimp only at unopened unmarked
    rw [Comment.restore_nil] at unopened unmarked
    have css := Comment.strip_close_restore related (kept.clean sound'.clean) rfl contained
      (fun _ mem => Comment.read_of_mem_extract mem) unmarked unopened
    refine congrArg Except.ok ?_
    dsimp only
    rw [Comment.restore_nil]
    exact congrArg (Result.mk · _ _) css

/-- A sheet with comments in front of a rule, of declarations and of the end of a block. -/
def commentedSheet : Text :=
  "/*a*/@media x\x7b/*b*/.c\x7b/*d*/color:red;animation:k\x7d/*e*/\x7d@keyframes k\x7b\x7d".toList

/-- Its comments are transparent. -/
theorem transparent_commentedSheet :
    Comment.between .fresh (Comment.recogniser.scan commentedSheet) ∧
      (Comment.extract commentedSheet).comments = ["/*a*/", "/*b*/", "/*d*/", "/*e*/"].map String.toList ∧
      Transparent {} "__asterisk".toList commentedSheet := by
  have between : Comment.between .fresh (Comment.recogniser.scan commentedSheet) := by decide +kernel
  have comments : (Comment.extract commentedSheet).comments =
      ["/*a*/", "/*b*/", "/*d*/", "/*e*/"].map String.toList := by decide +kernel
  have sheet : leaves (Comment.extract commentedSheet).text =
      [⟨".c".toList, "%COMMENT%color:red;animation:k".toList⟩, ⟨"@keyframes k".toList, []⟩] := by
    decide +kernel
  have plain : scope { stages := [.stripComments] } commentedSheet = .ok
      ⟨"@media x\x7b.c_YGBia\x7bcolor:red;animation:k_YGBia\x7d\x7d@keyframes k_YGBia\x7b\x7d".toList,
        (({} : Mapping).insert .classes "c".toList "c_YGBia".toList).insert .keyframes "k".toList
          "k_YGBia".toList, []⟩ := by
    decide +kernel
  refine ⟨between, comments, transparent (List.all_eq_true.1 (by decide)) (by unfold WordFree; decide)
    (by unfold WordFree; decide +kernel) (by decide +kernel) between (by decide +kernel) ?_
    (by unfold Headed; decide +kernel) ?_ ?_ ?_⟩
  · rw [comments]
    have all : (["/*a*/", "/*b*/", "/*d*/", "/*e*/"].map String.toList).all fun comment =>
        comment.all (fun c => !Text.isQuote c && c != '\\') && depthAfter 0 comment = some 0 := by
      decide +kernel
    intro comment mem
    have known := List.all_eq_true.1 all comment mem
    rw [Bool.and_eq_true, decide_eq_true_iff] at known
    exact ⟨known.1, known.2⟩
  · have tokens : Selector.tokens (NamedAttribute.normalise ".c".toList) = [.ofClass "c".toList] := by
      decide +kernel
    rw [sheet]
    intro rule mem style part inside value token
    rcases List.mem_cons.1 mem with rfl | mem
    · rw [List.mem_singleton.1 (show part ∈ [".c".toList] from inside), tokens] at token
      cases List.mem_singleton.1 token
    · cases List.mem_singleton.1 mem
      cases style
  · have run : scopeRules (({} : Options).schemeFor commentedSheet) (walked {} commentedSheet) {} = .ok
        ("%COMMENT%@media x\x7b%COMMENT%.c_YGBia\x7b%COMMENT%color:red;animation:k\x7d%COMMENT%\x7d@keyframes k_YGBia\x7b\x7d".toList,
          { mapping := (({} : Mapping).insert .classes "c".toList "c_YGBia".toList).insert .keyframes
              "k".toList "k_YGBia".toList }) := by
      decide +kernel
    rintro t (rfl | ⟨ledger, again⟩)
    · rw [show walked (suffixed {} "__asterisk".toList []) commentedSheet =
        (Comment.extract commentedSheet).text from rfl, sheet]
      decide +kernel
    · cases run.symm.trans again
      decide +kernel
  · intro result ok
    cases plain.symm.trans ok
    decide +kernel

/-- A sheet with a comment in front of an animation. -/
def hiddenAnimation : Text := "@keyframes x\x7b\x7da\x7b/**/animation:x\x7d".toList

/-- Not every comment is transparent: here it keeps the animation from being renamed. -/
theorem not_transparent :
    Unmarked hiddenAnimation ∧ Comment.between .fresh (Comment.recogniser.scan hiddenAnimation) ∧
      ¬ ['/', '*'] <:+: Comment.strip hiddenAnimation ∧
      ¬ Transparent {} "__asterisk".toList hiddenAnimation := by
  refine ⟨by decide, by decide +kernel, by decide +kernel, ?_⟩
  unfold Transparent
  decide +kernel

end Stylesheet
end ScopedCss
