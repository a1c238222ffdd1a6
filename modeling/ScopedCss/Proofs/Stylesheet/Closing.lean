import ScopedCss.Proofs.Rule.Walks
import ScopedCss.Proofs.Tree.Passes

/-!
# What a pass closes

A pass closes the blocks that its text leaves open once the comments are back in it.  Both walks keep
the blocks of the text (`keeps_scopeText`), so these are the blocks that the sheet leaves open as it was
given, unless the comments interfere: they come back before the blocks are counted, and the count knows
nothing of comments.

A comment that holds no quote and closes what it opens does not change the count (`Contained`).  One
that opens a block does (`not_closesOpen`), and one with a quote in it hides the blocks behind it.
-/
namespace ScopedCss

open Quoted Block ScopedCss.Frame

theorem eq_of_pure_eq_ok {σ ε α : Type} {a b : α} {s next : σ}
    (ok : (pure a : StateT σ (Except ε) α) s = .ok (b, next)) : a = b := by
  cases ok
  rfl

/-- A run that comes to its end comes through its first step. -/
theorem exists_of_bind_eq_ok {σ ε α β : Type} {x : StateT σ (Except ε) α}
    {f : α → StateT σ (Except ε) β} {s : σ} {r : β × σ} (ok : (x >>= f) s = .ok r) :
    ∃ a next, x s = .ok (a, next) ∧ f a next = .ok r := by
  cases first : x s with
  | error e =>
    have failed : (x >>= f) s = .error e := by
      show (x s >>= fun p => f p.1 p.2) = _
      rw [first]
      rfl
    rw [failed] at ok
    cases ok
  | ok p =>
    have done : (x >>= f) s = f p.1 p.2 := by
      show (x s >>= fun p => f p.1 p.2) = _
      rw [first]
      rfl
    exact ⟨p.1, p.2, rfl, done ▸ ok⟩

/-- What a walk makes of each element is related to it if one visit relates them. -/
theorem forall₂_of_mapM {σ ε α β : Type} {visit : α → StateT σ (Except ε) β} {R : α → β → Prop}
    {l : List α} (each : ∀ a ∈ l, ∀ s b next, visit a s = .ok (b, next) → R a b) {s : σ} {l' : List β}
    {last : σ} (ok : (l.mapM visit) s = .ok (l', last)) : List.Forall₂ R l l' := by
  induction l generalizing s l' with
  | nil =>
    cases ok
    exact .nil
  | cons a l ih =>
    rw [List.mapM_cons] at ok
    obtain ⟨b, next, first, rest⟩ := exists_of_bind_eq_ok ok
    obtain ⟨bs, next', later, same⟩ := exists_of_bind_eq_ok rest
    cases same
    exact .cons (each a List.mem_cons_self _ _ _ first)
      (ih (fun a mem => each a (.tail _ mem)) later)

/-! ### Comments that close what they open -/

namespace Block

/-- Behind the one text as many blocks are open as behind the other, and the same string, wherever they
stand. -/
def SameLevels (s t : Text) : Prop :=
  ∀ state : Option Char, (∀ q ∈ state, Text.isQuote q) → openAfter state s = openAfter state t ∧
    ∀ depth, levelAfter depth (outsideFrom state s) = levelAfter depth (outsideFrom state t)

namespace SameLevels
variable {s s' t t' : Text}

theorem refl (t : Text) : SameLevels t t := fun _ _ => ⟨rfl, fun _ => rfl⟩

theorem trans (h : SameLevels s t) (h' : SameLevels t t') : SameLevels s t' := fun state isQuote =>
  ⟨(h state isQuote).1.trans (h' state isQuote).1, fun depth =>
    ((h state isQuote).2 depth).trans ((h' state isQuote).2 depth)⟩

theorem symm (h : SameLevels s t) : SameLevels t s := fun state isQuote =>
  ⟨(h state isQuote).1.symm, fun depth => ((h state isQuote).2 depth).symm⟩

theorem append (h : SameLevels s t) (h' : SameLevels s' t') : SameLevels (s ++ s') (t ++ t') := by
  intro state isQuote
  obtain ⟨opens, levels⟩ := h state isQuote
  obtain ⟨opens', levels'⟩ := h' _ (isQuote_of_mem_openAfter (t := t) isQuote)
  refine ⟨by rw [openAfter_append, openAfter_append, opens, opens'], fun depth => ?_⟩
  rw [outsideFrom_append, outsideFrom_append, levelAfter_append, levelAfter_append, levels, opens, levels']

theorem openAtEnd_eq (h : SameLevels s t) (clean : '\\' ∉ s) (clean' : '\\' ∉ t) :
    openAtEnd s = openAtEnd t := by
  rw [openAtEnd, openAtEnd, openFrom_eq isQuote_of_mem_none clean, openFrom_eq isQuote_of_mem_none clean']
  exact (h none isQuote_of_mem_none).2 0

end SameLevels

theorem levelAfter_of_depthAfter {depth stop : Nat} {t : Text} (h : depthAfter depth t = some stop) :
    levelAfter depth t = stop := by
  induction t generalizing depth with
  | nil =>
    cases h
    rfl
  | cons c t ih =>
    rw [depthAfter_cons] at h
    obtain ⟨next, step, rest⟩ := Option.bind_eq_some_iff.1 h
    have same : levelStep depth c = next := by
      unfold depthStep at step
      rw [levelStep]
      split_ifs at step ⊢ <;> simp_all
    rw [levelAfter, List.foldl_cons, same]
    exact ih rest

end Block

theorem Recogniser.sameLevels_substitute {α : Type} {r : Recogniser α} {f g : α → Text}
    (each : ∀ a, SameLevels (f a) (g a)) (t : Text) :
    SameLevels (r.substitute f t) (r.substitute g t) := by
  exact substitute_rel (.refl []) (fun c _ _ ih => (SameLevels.refl [c]).append ih)
    (fun a _ _ ih => (each a).append ih) t

namespace Comment

/-- A comment that is written without quotes and backslashes, and closes the blocks it opens. -/
structure Contained (comment : Text) : Prop where
  plain : comment.all fun c => !Text.isQuote c && c != '\\'
  even : depthAfter 0 comment = some 0

theorem Contained.of_mem {comment : Text} (h : Contained comment) {c : Char} (mem : c ∈ comment) :
    Text.isQuote c = false ∧ c ≠ '\\' := by
  simpa using List.all_eq_true.1 h.plain c mem

theorem Contained.sameLevels {comment : Text} (h : Contained comment) : SameLevels comment [] := by
  intro state isQuote
  obtain ⟨opens, left⟩ := outsideFrom_of_no_quote isQuote fun c mem => (h.of_mem mem).1
  rw [opens, left]
  refine ⟨openAfter_nil.symm, fun depth => ?_⟩
  rw [outsideFrom_nil]
  split
  · have even := depthAfter_add h.even depth
    rw [Nat.zero_add] at even
    exact levelAfter_of_depthAfter even
  · rfl

theorem contained_mark : Contained Mark.comment := ⟨by decide, by decide⟩

theorem sameLevels_deal {comments : List Text} (contained : ∀ comment ∈ comments, Contained comment)
    (segments : List (Segment Unit)) :
    SameLevels (deal comments segments) (Mark.commentWord.spellAll segments) := by
  induction segments generalizing comments with
  | nil => cases comments <;> exact .refl _
  | cons segment segments ih =>
    have mark (segments : List (Segment Unit)) :
        Mark.commentWord.spellAll (.hit () :: segments) =
          Mark.comment ++ Mark.commentWord.spellAll segments := rfl
    cases segment with
    | plain c =>
      have text : deal comments (.plain c :: segments) = [c] ++ deal comments segments := by
        cases comments <;> rfl
      rw [text]
      exact (SameLevels.refl [c]).append (ih contained)
    | hit _ =>
      rw [mark]
      cases comments with
      | nil => exact (SameLevels.refl _).append (ih contained)
      | cons comment comments =>
        have first := (contained comment List.mem_cons_self).sameLevels
        exact (first.trans contained_mark.sameLevels.symm).append
          (ih fun comment mem => contained comment (.tail _ mem))

/-- Putting comments back keeps the number of open blocks. -/
theorem sameLevels_restore {comments : List Text} (contained : ∀ comment ∈ comments, Contained comment)
    (t : Text) : SameLevels (restore comments t) t := by
  have whole := sameLevels_deal contained (Mark.commentWord.scan t)
  rwa [Recogniser.spellAll_scan] at whole

/-- Setting comments aside leaves as many blocks open as deleting them. -/
theorem sameLevels_extract (t : Text) : SameLevels (extract t).text (strip t) :=
  Recogniser.sameLevels_substitute (fun _ => contained_mark.sameLevels) t

theorem no_backslash_restore {comments : List Text}
    (contained : ∀ comment ∈ comments, Contained comment) {t : Text} (clean : '\\' ∉ t) :
    '\\' ∉ restore comments t := by
  have dealt (segments : List (Segment Unit)) :
      ∀ comments : List Text, (∀ comment ∈ comments, Contained comment) →
        '\\' ∉ Mark.commentWord.spellAll segments → '\\' ∉ deal comments segments := by
    induction segments with
    | nil =>
      intro comments _ _
      cases comments <;> exact nofun
    | cons segment segments ih =>
      intro comments contained clean
      rw [Recogniser.spellAll_cons, List.mem_append, not_or] at clean
      cases segment with
      | plain c =>
        have text : deal comments (.plain c :: segments) = c :: deal comments segments := by
          cases comments <;> rfl
        rw [text, List.mem_cons, not_or]
        exact ⟨fun same => clean.1 (List.mem_singleton.2 same), ih _ contained clean.2⟩
      | hit _ =>
        cases comments with
        | nil =>
          rw [deal, List.mem_append, not_or]
          exact ⟨by decide, ih _ contained clean.2⟩
        | cons comment comments =>
          rw [deal, List.mem_append, not_or]
          exact ⟨fun mem => ((contained comment List.mem_cons_self).of_mem mem).2 rfl,
            ih _ (fun comment mem => contained comment (.tail _ mem)) clean.2⟩
  refine dealt _ comments contained ?_
  rwa [Recogniser.spellAll_scan]

end Comment

/-- What stands in a text with everything recognised in it respelled stood there before, or is a
respelling. -/
theorem Recogniser.mem_substitute {α : Type} {r : Recogniser α} {respell : α → Text} {t : Text} {c : Char}
    (mem : c ∈ r.substitute respell t) : c ∈ t ∨ ∃ a, c ∈ respell a := by
  obtain ⟨segment, scanned, here⟩ := List.mem_flatMap.1 mem
  cases segment with
  | hit a => exact .inr ⟨a, here⟩
  | plain d =>
    refine .inl ?_
    rw [← r.spellAll_scan t]
    exact List.mem_flatMap.2 ⟨_, scanned, here⟩

/-- Respelling does not write the word in every mark, if what is written starts and ends with a percent
sign and does not hold the word. -/
theorem Recogniser.wordFree_substitute {α : Type} {r : Recogniser α} {respell : α → Text}
    (each : ∀ a, ∃ inside, respell a = '%' :: (inside ++ ['%']) ∧ WordFree inside) {t : Text}
    (free : WordFree t) : WordFree (r.substitute respell t) := by
  refine substitute_rel (R := fun s t => ∀ u, WordFree (u ++ s) → WordFree (u ++ t))
    (fun _ free => free) ?_ ?_ t [] (by rwa [List.nil_append, r.substitute_spell])
  · intro c s t ih u free
    rw [List.append_cons] at free ⊢
    exact ih (u ++ [c]) free
  · intro a s t ih u free
    rw [← List.append_assoc] at free
    obtain ⟨inside, text, freeInside⟩ := each a
    have before := free.part ((List.prefix_append u _).trans (List.prefix_append _ _)).isInfix
    have later := ih [] (free.part (List.suffix_append _ _).isInfix)
    have cut (rest : Text) : '%' :: (inside ++ ['%']) ++ rest = '%' :: (inside ++ '%' :: rest) := by
      simp
    rw [text, cut, wordFree_append_cons (by decide), wordFree_append_cons (by decide)]
    exact ⟨before, freeInside, later⟩

/-- Setting comments aside does not write the word in every mark. -/
theorem Comment.wordFree_extract {t : Text} (free : WordFree t) : WordFree (extract t).text :=
  Recogniser.wordFree_substitute (fun _ => ⟨"COMMENT".toList, rfl, by unfold WordFree; decide⟩) free

namespace Stylesheet
variable {switches : Switches} {asterisk digits : Text}

/-- Joining the words of the class attributes in a sheet does not write the word in every mark. -/
def JoinsFreely (sheet : List Rule) : Prop :=
  ∀ rule ∈ sheet, rule.isAtRule = false → ∀ part ∈ CommaList.entries rule.selector,
    Selector.JoinsFreely (NamedAttribute.normalise part)

/-- The leaves of a rule are leaves of the text it stands in. -/
theorem mem_leaves {t : Text} {rule leaf : Rule} (mem : rule ∈ rulesOf t)
    (inside : leaf ∈ if rule.isGrouping then leaves rule.content else [rule]) : leaf ∈ leaves t := by
  rw [leaves_eq]
  exact List.mem_flatMap.2 ⟨rule, mem, inside⟩

/-- A visit of a rule keeps its blocks, if the walk through a grouping rule does. -/
theorem kept_scopeVisit (quiet : Scheme.Quiet asterisk digits) {rule rule' : Rule} (tame : rule.Tame)
    (joined : JoinsFreely (if rule.isGrouping then leaves rule.content else [rule]))
    (inside : ∀ ledger content after, rule.isGrouping → JoinsFreely (leaves rule.content) →
      scopeRules (.suffixed switches asterisk digits) rule.content ledger = .ok (content, after) →
      Keeps none rule.content content) {ledger after : Ledger}
    (ok : scopeVisit (.suffixed switches asterisk digits) rule ledger = .ok (rule', after)) :
    rule.Kept rule' := by
  unfold scopeVisit at ok
  split at ok
  next grouping =>
    rw [if_pos grouping] at joined
    obtain ⟨content, between, done, same⟩ := exists_of_bind_eq_ok ok
    obtain rfl := eq_of_pure_eq_ok same
    exact ⟨fun _ _ => .refl _, inside _ _ _ grouping joined done⟩
  next leaf =>
    rw [if_neg leaf] at joined
    exact kept_scopeRule quiet tame (joined rule List.mem_cons_self) ok

/-- **The first walk keeps blocks**, through grouping rules to any depth. -/
theorem keeps_scopeRules (quiet : Scheme.Quiet asterisk digits) {t : Text} (clean : '\\' ∉ t)
    (headed : Headed t) (free : WordFree (outside t)) (joined : JoinsFreely (leaves t))
    {ledger after : Ledger} {t' : Text}
    (ok : scopeRules (.suffixed switches asterisk digits) t ledger = .ok (t', after)) :
    Keeps none t t' := by
  induction size : weight t using Nat.strongRecOn generalizing t ledger after t' with
  | ind n ih =>
    subst size
    rw [scopeRules_eq, walk] at ok
    obtain ⟨rules, next, visited, same⟩ := exists_of_bind_eq_ok ok
    obtain rfl := eq_of_pure_eq_ok same
    refine keeps_walk clean headed free (forall₂_of_mapM (fun rule mem ledger rule' next ok => ?_) visited)
    obtain ⟨tame, orderly⟩ := tame_of_mem_rulesOf (.of_shield clean headed free) mem
    refine kept_scopeVisit quiet tame (fun leaf inside => joined leaf (mem_leaves mem inside))
      (fun _ _ _ _ joined done => ?_) ok
    exact ih _ (weight_content_lt mem) orderly.clean orderly.headed orderly.free joined done rfl

/-- The second walk visits the rules of a text. -/
theorem renameRules_eq (switches : Switches) (mapping : Mapping) (t : Text) :
    renameRules switches mapping t =
      (Outline.ofText t).withRules ((rulesOf t).map (renameVisit switches mapping)) := by
  rw [renameRules]
  simp only [List.map_subtype, List.unattach_attach]
  rfl

/-- **The second walk keeps blocks**, through grouping rules to any depth. -/
theorem keeps_renameRules (switches : Switches) {mapping : Mapping}
    (alphanum : ∀ c ∈ digits, c.isAlphanum) (few : digits.length ≤ 10)
    (suffixes : Suffixes digits mapping) {t : Text} (clean : '\\' ∉ t) (headed : Headed t)
    (free : WordFree (outside t)) : Keeps none t (renameRules switches mapping t) := by
  induction size : weight t using Nat.strongRecOn generalizing t with
  | ind n ih =>
    subst size
    rw [renameRules_eq]
    refine keeps_walk clean headed free (List.forall₂_map_right_iff.2 (List.forall₂_same.2 fun rule mem => ?_))
    obtain ⟨tame, orderly⟩ := tame_of_mem_rulesOf (.of_shield clean headed free) mem
    unfold renameVisit
    split
    next => exact ⟨fun _ _ => .refl _, ih _ (weight_content_lt mem) orderly.clean orderly.headed orderly.free rfl⟩
    next => exact kept_renameRule switches alphanum few suffixes tame

/-- Both walks together keep blocks. -/
theorem keeps_scopeText (quiet : Scheme.Quiet asterisk digits) {t : Text} (clean : '\\' ∉ t)
    (headed : Headed t) (free : WordFree (outside t)) (joined : JoinsFreely (leaves t))
    {ledger after : Ledger} {t' : Text}
    (ok : scopeText (.suffixed switches asterisk digits) t ledger = .ok (t', after))
    (suffixes : Suffixes digits after.mapping) : Keeps none t t' := by
  unfold scopeText at ok
  cases walked : scopeRules (.suffixed switches asterisk digits) t ledger with
  | error fault =>
    rw [walked] at ok
    cases ok
  | ok state =>
    obtain ⟨between, next⟩ := state
    rw [walked] at ok
    cases ok
    have first := keeps_scopeRules quiet clean headed free joined walked
    refine first.trans ?_
    unfold renameReferences
    split
    · exact .refl _
    · exact keeps_renameRules switches quiet.alphanum quiet.few suffixes (first.clean clean)
        (first.headed headed) (first.wordFree free)

/-- What is recorded of keyframes and families is their name with the suffix of the sheet. -/
theorem suffixes_of_scope {stages : List Stage} {source : Text} {result : Result}
    (ok : scope (suffixed switches asterisk stages) source = .ok result) :
    Suffixes (Suffix.ofSource source) result.mapping := by
  obtain ⟨records, -⟩ := records_of_scope ⟨asterisk, rfl⟩ ok
  constructor
  · intro name new found
    exact ((records .keyframes name new).1 ((mem_entries_iff _ _ _).2 found)).2
  · intro name new found
    exact ((records .fontFaces name new).1 ((mem_entries_iff _ _ _).2 found)).2

/-- The text of a pass before its open blocks are closed: both walks are done, and the comments are put
back. -/
def Unclosed (options : Options) (source body : Text) : Prop :=
  ∃ t ledger, scopeText (options.schemeFor source) (walked options source) {} = .ok (t, ledger) ∧
    body = Comment.restore (Comment.extract (options.stage source)).comments t

/-- A pass closes as many blocks as its text leaves open once the comments are deleted. -/
def ClosesOpen (options : Options) (source : Text) (result : Result) : Prop :=
  ∃ body, Unclosed options source body ∧
    result.css = body ++ List.replicate (openAtEnd (Comment.strip (options.stage source))) '}'

/-- A pass ends with closing the text that it leaves unclosed. -/
theorem exists_of_scope {options : Options} {source : Text} {result : Result}
    (ok : scope options source = .ok result) :
    ∃ t ledger, scopeText (options.schemeFor source) (walked options source) {} = .ok (t, ledger) ∧
      result.mapping = ledger.mapping ∧
      result.css = close (Comment.restore (Comment.extract (options.stage source)).comments t) := by
  have start : scopeText (options.schemeFor source) (walked options source) {} =
      scopeText (options.schemeFor source) (Comment.extract (options.stage source)).text
        { asterisks := 0 } := rfl
  rw [scope, scopeFrom] at ok
  rw [start]
  cases run : scopeText (options.schemeFor source) (Comment.extract (options.stage source)).text
      { asterisks := 0 } with
  | error fault =>
    rw [run] at ok
    cases ok
  | ok state =>
    rw [run] at ok
    cases ok
    exact ⟨state.1, state.2, rfl, rfl, rfl⟩

/-- **A pass closes exactly what is open** behind the sheet without its comments: with the options left
as they are, in a sheet without backslashes each of whose comments is contained, in which every block has
something in front of it. -/
theorem closes_open {switches : Switches} {asterisk source : Text} {result : Result}
    (letters : ∀ c ∈ asterisk, Text.isNameChar c) (named : WordFree asterisk)
    (free : WordFree source) (clean : '\\' ∉ source)
    (contained : ∀ comment ∈ (Comment.extract source).comments, Comment.Contained comment)
    (headed : Headed (Comment.extract source).text)
    (joined : JoinsFreely (leaves (Comment.extract source).text))
    (ok : scope (suffixed switches asterisk []) source = .ok result) :
    ClosesOpen (suffixed switches asterisk []) source result := by
  have suffixes := suffixes_of_scope ok
  have quiet : Scheme.Quiet asterisk (Suffix.ofSource source) :=
    ⟨fun c => Suffix.isAlphanum_of_mem_ofSource, (Suffix.length_ofSource_le source).trans (by decide),
      letters, named⟩
  have apart : '\\' ∉ (Comment.extract source).text := fun mem =>
    (Recogniser.mem_substitute mem).elim clean fun ⟨_, inside⟩ => absurd inside (by decide)
  have stripped : '\\' ∉ Comment.strip source := fun mem =>
    (Recogniser.mem_substitute mem).elim clean fun ⟨_, inside⟩ => nomatch inside
  obtain ⟨t, ledger, run, mapping, css⟩ := exists_of_scope ok
  have kept : Keeps none (Comment.extract source).text t :=
    keeps_scopeText quiet apart headed (wordFree_outside (Comment.wordFree_extract free)) joined run
      (mapping ▸ suffixes)
  have level : openAtEnd (Comment.restore (Comment.extract source).comments t) =
      openAtEnd (Comment.strip source) := by
    calc openAtEnd (Comment.restore (Comment.extract source).comments t)
      _ = openAtEnd t := (Comment.sameLevels_restore contained t).openAtEnd_eq
          (Comment.no_backslash_restore contained (kept.clean apart)) (kept.clean apart)
      _ = openAtEnd (Comment.extract source).text := by
          rw [openAtEnd, openAtEnd, openFrom_eq isQuote_of_mem_none apart,
            openFrom_eq isQuote_of_mem_none (kept.clean apart), kept.outside.levels]
      _ = openAtEnd (Comment.strip source) :=
          (Comment.sameLevels_extract source).openAtEnd_eq apart stripped
  refine ⟨_, ⟨t, ledger, run, rfl⟩, ?_⟩
  show result.css = Comment.restore (Comment.extract source).comments t ++ _
  rw [css]
  exact congrArg (fun n => Comment.restore (Comment.extract source).comments t ++ List.replicate n '}') level

/-- A sheet that leaves two blocks open, with a comment that holds braces. -/
def openBlocks : Text := "@media x\x7b/*\x7b\x7d*/b\x7b".toList

/-- Both are closed. -/
theorem closes_openBlocks : WordFree openBlocks ∧ '\\' ∉ openBlocks ∧
    ∃ result, scope {} openBlocks = .ok result ∧ ClosesOpen {} openBlocks result := by
  have free : WordFree openBlocks := by
    unfold WordFree
    decide
  have clean : '\\' ∉ openBlocks := by decide
  have comments : (Comment.extract openBlocks).comments = ["/*\x7b\x7d*/".toList] := by decide +kernel
  have sheet : leaves (Comment.extract openBlocks).text = [⟨"b".toList, []⟩] := by decide +kernel
  have ok : scope {} openBlocks = .ok
      ⟨"@media x\x7b/*\x7b\x7d*/.b_el_1HQv7v\x7b\x7d\x7d".toList,
        ({} : Mapping).insert .elements "b".toList "b_el_1HQv7v".toList, []⟩ := by
    decide +kernel
  refine ⟨free, clean, _, ok, closes_open (List.all_eq_true.1 (by decide)) (by unfold WordFree; decide) free clean ?_
    (by unfold Headed; decide) ?_ ok⟩
  · rw [comments]
    intro comment mem
    rw [List.mem_singleton.1 mem]
    exact ⟨by decide, by decide⟩
  · have tokens : Selector.tokens (NamedAttribute.normalise "b".toList) = [.element "b".toList] := by
      decide
    rw [sheet]
    intro rule mem _ part inside value token
    rw [List.mem_singleton.1 mem] at inside
    rw [List.mem_singleton.1 (show part ∈ ["b".toList] from inside), tokens] at token
    cases List.mem_singleton.1 token

/-- A sheet without blocks, with a comment that holds a brace. -/
def braceInComment : Text := "/*\x7b*/".toList

/-- Not every pass closes what is open: here the brace in the comment is closed. -/
theorem not_closesOpen : Unmarked braceInComment ∧
    (Comment.extract braceInComment).comments = [braceInComment] ∧
    ∃ result, scope {} braceInComment = .ok result ∧ ¬ ClosesOpen {} braceInComment result := by
  refine ⟨by decide, by decide, ⟨"/*\x7b*/\x7d".toList, {}, []⟩, by decide +kernel, ?_⟩
  rintro ⟨body, ⟨t, ledger, run, rfl⟩, closed⟩
  have done : scopeText (({} : Options).schemeFor braceInComment) (walked {} braceInComment) {} =
      .ok (Mark.comment, {}) := by decide +kernel
  rw [done] at run
  cases run
  exact absurd closed (by decide +kernel)

end Stylesheet
end ScopedCss
