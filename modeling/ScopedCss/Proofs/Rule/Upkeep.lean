import ScopedCss.Proofs.Selector.Upkeep
import ScopedCss.Proofs.Tree.Families
import ScopedCss.Stylesheet

/-!
# Scoping a rule keeps blocks

What a pass does to the content of a rule is to append suffixes: to a family that is declared, and to
names in the values of declarations.  A value may be cut at its commas wherever it stands, in a string
or not.  The content itself is cut at its semicolons while its strings are shielded, and so is a
declaration at its colon; so the value starts outside strings, and unshielding it changes nothing there.
-/
namespace ScopedCss

open Quoted Block ScopedCss.Frame

variable {state : Option Char} {digits : Text}

/-- Pieces that are replaced between separators. -/
theorem Block.Keeps.joinWith {c : Char} (foreign : c ∉ Mark.word) (isQuote : ∀ q ∈ state, Text.isQuote q)
    {f : Text → Text} {pieces : List Text}
    (each : ∀ before, ∀ piece ∈ pieces, ∀ after,
      Text.joinWith [c] pieces = before ++ (piece ++ after) →
        (before = [] ∨ ∃ front, before = front ++ [c]) →
          Keeps (openAfter state before) piece (f piece)) :
    Keeps state (Text.joinWith [c] pieces) (Text.joinWith [c] (pieces.map f)) := by
  induction pieces generalizing state with
  | nil => exact .refl _
  | cons piece pieces ih =>
    cases pieces with
    | nil =>
      have here := each [] piece List.mem_cons_self [] (by simp [Text.joinWith]) (.inl rfl)
      simpa [Text.joinWith] using here
    | cons next pieces =>
      have here := each [] piece List.mem_cons_self _ (Text.joinWith_cons_cons c piece next pieces)
        (.inl rfl)
      rw [openAfter_nil] at here
      rw [List.map_cons, List.map_cons, Text.joinWith_cons_cons, Text.joinWith_cons_cons, ← List.map_cons]
      have later := ih (isQuote_of_mem_openAfter (t := piece ++ [c]) isQuote)
        fun before other mem after cut starts => by
          rw [← openAfter_append]
          refine each _ other (.tail _ mem) after ?_ (.inr ?_)
          · rw [Text.joinWith_cons_cons, cut]
            simp
          · rcases starts with rfl | ⟨front, rfl⟩
            · exact ⟨piece, by simp⟩
            · exact ⟨piece ++ c :: front, by simp⟩
      have rest : Keeps state (piece ++ c :: Text.joinWith [c] (next :: pieces))
          (piece ++ c :: Text.joinWith [c] ((next :: pieces).map f)) := by
        simpa using later.prepend isQuote
      exact rest.trans (here.append isQuote (by
        rintro d ⟨⟩
        exact foreign))

/-! ### Lists -/

/-- Replacing entries of a list by texts that keep their blocks wherever they stand. -/
theorem CommaList.keeps_mapSome {replacement : Text → Option Text}
    (each : ∀ piece new, replacement piece = some new →
      ∀ state : Option Char, (∀ q ∈ state, Text.isQuote q) → Keeps state piece new)
    (isQuote : ∀ q ∈ state, Text.isQuote q) {t t' : Text} (mapped : mapSome replacement t = some t') :
    Keeps state t t' := by
  unfold mapSome at mapped
  dsimp only at mapped
  split at mapped
  next =>
    cases mapped
    conv => lhs; rw [← join_split t]
    refine Keeps.joinWith (by decide) isQuote fun before piece _ _ _ _ => ?_
    cases found : replacement piece with
    | none => exact .refl _
    | some new => exact each piece new found _ (isQuote_of_mem_openAfter isQuote)
  next => cases mapped

/-! ### Families -/

namespace FontFamily

/-- Appending a suffix to a family keeps blocks. -/
theorem keeps_replaceFirst (alphanum : ∀ c ∈ digits, c.isAlphanum) (few : digits.length ≤ 10)
    (isQuote : ∀ q ∈ state, Text.isQuote q) (family : Text) :
    Keeps state family
      (Text.replaceFirst (nameOf family) (Suffix.attach digits (nameOf family)) family) := by
  unfold Text.replaceFirst
  split
  next before after found =>
    have whole := Text.eq_of_breakAt? found
    have text : family = before ++ (nameOf family ++ after) := by simpa using whole
    -- Around the name there is nothing left but quotes and spaces.
    have ends : Ends after := by
      intro c first
      by_contra inWord
      have known : Text.isSpace c = false ∧ Text.isQuote c = false := by
        have all : Mark.word.all (fun c => !Text.isSpace c && !Text.isQuote c) := by decide
        simpa using List.all_eq_true.1 all c inWord
      have counted := count_nameOf known.1 known.2 family
      have there := congrArg (List.count c) text
      rw [List.count_append, List.count_append] at there
      have some := List.count_pos_iff.2 (List.mem_of_mem_head? first)
      omega
    conv => lhs; rw [text]
    rw [List.append_assoc]
    exact Keeps.around isQuote (keeps_attach (isQuote_of_mem_openAfter isQuote) _ alphanum few) ends
  next => exact .refl _

end FontFamily

/-! ### Animations -/

/-- A word keeps its name between its quotes, and the word in every mark does not go on behind the
name. -/
theorem AnimationWord.exists_around_name {word : AnimationWord} {rest : Text}
    (known : read (word.spell ++ rest) = some word) :
    ∃ front back, (∀ new, (word.withName new).spell = front ++ (new ++ back)) ∧
      word.spell = front ++ (word.name ++ back) ∧ Ends (back ++ rest) := by
  generalize text : word.spell ++ rest = t at known
  cases t with
  | nil => cases known
  | cons c t =>
    rw [read] at known
    split at known
    next isQuote =>
      cases known
      refine ⟨[c], if (c ∈ t : Bool) then [c] else [], fun new => by simp [withName, spell],
        by simp [spell, name], fun d first => ?_⟩
      by_cases closed : c ∈ t
      · simp only [closed, decide_true, if_true] at first
        cases first
        exact not_mem_word (isMarkChar_of_isQuote isQuote)
      · -- A string that is not closed is the whole text.
        have whole : t.takeWhile (· != c) = t := List.takeWhile_eq_self_iff.2 fun d mem => by
          simpa using fun same : d = c => closed (same ▸ mem)
        simp [spell, closed, whole] at text
        simp [closed, text] at first
    next =>
      split at known
      next letter =>
        cases known
        refine ⟨[], [], fun new => by simp [withName, spell], by simp [spell, name], fun d first => ?_⟩
        obtain ⟨u, rfl⟩ := List.head?_eq_some_iff.1 (show rest.head? = some d from first)
        have split : t.takeWhile Text.isNameChar ++ d :: u = t := (List.cons.inj text).2
        have behind : t.dropWhile Text.isNameChar = d :: u :=
          List.append_cancel_left (List.takeWhile_append_dropWhile.trans split.symm)
        have stops := List.head_dropWhile_not Text.isNameChar (l := t) (by simp [behind])
        exact not_mem_word_of_isNameChar (by simpa [behind] using stops)
      next => cases known

namespace Animation

/-- Renaming a word in an animation keeps blocks, if its new name is the old one with a suffix. -/
theorem keeps_renameFrom (alphanum : ∀ c ∈ digits, c.isAlphanum) (few : digits.length ≤ 10)
    {keyframes : NameTable}
    (formed : ∀ name new, keyframes.find? name = some new → new = Suffix.attach digits name)
    (isQuote : ∀ q ∈ state, Text.isQuote q) {t : Text} {depth : Nat} {t' : Text}
    (renamed : renameFrom keyframes depth (AnimationWord.recogniser.scan t) = some t') :
    Keeps state t t' := by
  induction size : t.length using Nat.strongRecOn generalizing t state depth t' with
  | ind n ih =>
    subst size
    cases t with
    | nil => cases renamed
    | cons c t =>
      rcases Recogniser.scan_cons (r := AnimationWord.recogniser) c t with
        ⟨word, rest, read, split, shorter, scan⟩ | ⟨-, scan⟩
      · rw [scan, renameFrom] at renamed
        rw [split]
        cases found : (if depth = 0 then keyframes.find? word.name else none) with
        | none =>
          rw [found] at renamed
          obtain ⟨u, later, rfl⟩ := Option.map_eq_some_iff.1 renamed
          exact (ih _ shorter (isQuote_of_mem_openAfter isQuote) later rfl).prepend isQuote
        | some new =>
          rw [found, Option.some.injEq, Recogniser.spellAll_scan] at renamed
          rw [← renamed]
          have known : keyframes.find? word.name = some new := by
            split at found
            · exact found
            · cases found
          obtain rfl := formed _ _ known
          rw [split] at read
          obtain ⟨front, back, spelled, own, ends⟩ := AnimationWord.exists_around_name read
          show Keeps state (word.spell ++ rest) _
          rw [own, spelled, List.append_assoc, List.append_assoc, List.append_assoc, List.append_assoc]
          exact Keeps.around isQuote (keeps_attach (isQuote_of_mem_openAfter isQuote) _ alphanum few) ends
      · rw [scan, renameFrom] at renamed
        obtain ⟨u, later, rfl⟩ := Option.map_eq_some_iff.1 renamed
        exact (ih t.length (by simp) (isQuote_of_mem_openAfter (t := [c]) isQuote) later rfl).prepend
          isQuote (x := [c])

theorem keeps_rename (alphanum : ∀ c ∈ digits, c.isAlphanum) (few : digits.length ≤ 10)
    {keyframes : NameTable}
    (formed : ∀ name new, keyframes.find? name = some new → new = Suffix.attach digits name)
    (isQuote : ∀ q ∈ state, Text.isQuote q) {value new : Text}
    (renamed : rename keyframes value = some new) : Keeps state value new :=
  CommaList.keeps_mapSome (fun _ _ found _ isQuote =>
    keeps_renameFrom alphanum few formed isQuote found) isQuote renamed

end Animation

theorem FontFamily.keeps_rename (alphanum : ∀ c ∈ digits, c.isAlphanum) (few : digits.length ≤ 10)
    {fontFaces : NameTable}
    (formed : ∀ name new, fontFaces.find? name = some new → new = Suffix.attach digits name)
    (isQuote : ∀ q ∈ state, Text.isQuote q) {value new : Text}
    (renamed : rename fontFaces value = some new) : Keeps state value new := by
  refine CommaList.keeps_mapSome (fun family new found state isQuote => ?_) isQuote renamed
  obtain ⟨name, known, rfl⟩ := Option.map_eq_some_iff.1 found
  obtain rfl := formed _ _ known
  exact keeps_replaceFirst alphanum few isQuote family

/-! ### Declarations -/

/-- Unless a text is blank, the spaces at its end are those behind the spaces at its front. -/
theorem Text.trailing_trimStart {t : Text} (solid : trim t ≠ []) : trailing (trimStart t) = trailing t := by
  conv => rhs; rw [← trimStart_append t]
  rw [trailing, trailing, List.reverse_append, List.takeWhile_append, if_neg]
  intro whole
  refine solid ?_
  rw [trim, trimEnd, List.reverse_eq_nil_iff, List.dropWhile_eq_nil_iff]
  have all := (List.takeWhile_prefix isSpace (l := (trimStart t).reverse)).eq_of_length whole
  intro c mem
  rw [← all] at mem
  exact List.mem_takeWhile_imp mem

namespace Declaration

/-- A piece consists of what stands before the value of its declaration, the value and what stands
behind it; only spaces stand between the colon and the value, and behind the value. -/
theorem append_of_ofPiece? {piece : Text} {declaration : Declaration}
    (read : ofPiece? piece = some declaration) :
    piece = declaration.front ++ (declaration.value ++ declaration.back) ∧
      (∃ name spaces, declaration.front = name ++ ':' :: spaces ∧ ∀ c ∈ spaces, Text.isSpace c) ∧
      ∀ c ∈ declaration.back, Text.isSpace c := by
  have whole : piece.takeWhile (· != ':') ++ piece.dropWhile (· != ':') = piece :=
    List.takeWhile_append_dropWhile
  unfold ofPiece? at read
  split at read
  next raw behind =>
    dsimp only at read
    split at read
    next => cases read
    next solid =>
      cases read
      have value : Text.trim raw ≠ [] := fun blank => solid (by simp [blank])
      refine ⟨?_, ⟨_, _, rfl, Text.leading_spaces raw⟩, Text.trailing_spaces raw⟩
      have cut := Text.trim_append raw
      rw [Text.trailing_trimStart value] at cut
      rw [behind] at whole
      conv => lhs; rw [← whole, ← cut]
      simp
  next => cases read

/-- A piece with what is answered for its declaration in place of the value. -/
def replaced (answer : Text → Text → Option Text) (piece : Text) : Text :=
  match ofPiece? piece with
  | none => piece
  | some declaration =>
    match answer declaration.property (unshield declaration.value) with
    | none => piece
    | some value => declaration.front ++ value ++ declaration.back

/-- Without a state, values are replaced piece by piece. -/
theorem editAll_pure (answer : Text → Text → Option Text) (content : Text) :
    Id.run (editAll (fun property value => pure (answer property value)) content) =
      Text.joinWith [';'] ((content.splitOn ';').map (replaced answer)) := by
  have piece (piece : Text) :
      editPiece (m := Id) (fun property value => pure (answer property value)) piece =
        pure (replaced answer piece) := by
    unfold editPiece replaced
    cases ofPiece? piece with
    | none => rfl
    | some declaration =>
      dsimp only
      rw [pure_bind]
      cases answer declaration.property (unshield declaration.value) <;> rfl
  rw [editAll, funext piece]
  simp

/-- A value whose strings are unshielded keeps blocks, if no mark is written outside strings. -/
theorem keeps_unshield (isQuote : ∀ q ∈ state, Text.isQuote q) {t : Text}
    (free : WordFree (outsideFrom state t)) : Keeps state t (unshield t) where
  strings := (outsideFrom_unshield isQuote free).1
  outside := (outsideFrom_unshield isQuote free).2 ▸ .refl _
  clean := no_backslash_unshield

/-- Replacing the value of a declaration keeps blocks, if what is answered for a value does wherever
the value stands. -/
theorem keeps_replaced {answer : Text → Text → Option Text}
    (each : ∀ property value new, answer property value = some new →
      ∀ state : Option Char, (∀ q ∈ state, Text.isQuote q) → Keeps state value new)
    {piece : Text} (shielded : shieldFrom none piece = piece) (clean : '\\' ∉ piece)
    (free : WordFree (outside piece)) : Keeps none piece (replaced answer piece) := by
  unfold replaced
  split
  next => exact .refl _
  next declaration read =>
    split
    next => exact .refl _
    next new answered =>
      obtain ⟨split, ⟨name, spaces, front, blank⟩, blank'⟩ := append_of_ofPiece? read
      -- The colon stands outside strings, and so does the value behind it.
      have before : openAfter none declaration.front = none := by
        have text : piece = name ++ ':' :: (spaces ++ (declaration.value ++ declaration.back)) := by
          rw [split, front]
          simp
        rw [text] at shielded clean
        have colon := openAfter_of_shielded isQuote_of_mem_none
          (fun mem => clean (List.mem_append_left _ mem)) (by decide) shielded
        rw [front, openAfter_append, colon]
        refine (outsideFrom_of_no_quote isQuote_of_mem_none fun c mem => ?_).1
        rcases List.mem_cons.1 mem with rfl | mem
        · rfl
        · exact Text.isQuote_of_isSpace (blank c mem)
      rw [split, List.append_assoc]
      refine Keeps.around isQuote_of_mem_none ?_ fun c first =>
        not_mem_word (Mark.isMarkChar_of_isSpace (blank' c (List.mem_of_mem_head? first)))
      rw [before]
      rw [split] at free
      exact .trans (keeps_unshield isQuote_of_mem_none (free.part (outside_part before _ _)))
        (each _ _ _ answered none isQuote_of_mem_none)

/-- Replacing values in the content of a rule keeps its blocks. -/
theorem keeps_pieces {answer : Text → Text → Option Text}
    (each : ∀ property value new, answer property value = some new →
      ∀ state : Option Char, (∀ q ∈ state, Text.isQuote q) → Keeps state value new)
    {content : Text} (shielded : shieldFrom none content = content) (clean : '\\' ∉ content)
    (free : WordFree (outside content)) :
    Keeps none content
      (Text.joinWith [';'] ((content.splitOn ';').map (replaced answer))) := by
  have whole : Text.joinWith [';'] (content.splitOn ';') = content := List.intercalate_splitOn ..
  conv => lhs; rw [← whole]
  refine Keeps.joinWith (by decide) isQuote_of_mem_none fun before piece _ after cut starts => ?_
  rw [whole] at cut
  rw [cut] at shielded clean
  have absent : '\\' ∉ before ∧ '\\' ∉ piece ∧ '\\' ∉ after := by
    simpa using clean
  have outsideBefore : openAfter none before = none := by
    rcases starts with rfl | ⟨front, rfl⟩
    · rfl
    · rw [List.append_assoc] at shielded
      have semicolon := openAfter_of_shielded isQuote_of_mem_none
        (fun mem => absent.1 (List.mem_append_left _ mem)) (by decide) shielded
      rw [openAfter_append, semicolon]
      rfl
  rw [outsideBefore]
  obtain ⟨-, behind⟩ := shielded_append isQuote_of_mem_none absent.1 shielded
  rw [outsideBefore] at behind
  exact keeps_replaced each (shielded_append isQuote_of_mem_none absent.2.1 behind).1 absent.2.1
    (free.part (cut ▸ outside_part outsideBefore piece after))

end Declaration

/-! ### Rules -/

/-- A rule in a shielded text without backslashes, in which no mark is written outside strings. -/
structure Rule.Tame (rule : Rule) : Prop where
  plain : ∀ c ∈ rule.selector, isStructural c = false ∧ c ≠ '\\'
  shielded : shieldFrom none rule.content = rule.content
  clean : '\\' ∉ rule.content
  free : WordFree (outside rule.content)

/-- What becomes of a rule keeps its blocks: the selector wherever it stands, and the content, which
starts outside strings. -/
structure Rule.Kept (rule rule' : Rule) : Prop where
  selector : ∀ state : Option Char, (∀ q ∈ state, Text.isQuote q) →
    Keeps state rule.selector rule'.selector
  content : Keeps none rule.content rule'.content

namespace Stylesheet

/-- The value that takes the place of one that declares a family does not depend on the ledger. -/
def declaredValue (scheme : Scheme) (property value : Text) : Option Text :=
  if property = "font-family".toList then some (FontFamily.declare scheme.scope value {}).2 else none

theorem scopeFontFace_eq_pieces (scheme : Scheme) (content : Text) (ledger : Ledger) :
    ((scopeFontFace scheme content).run ledger).1 = Text.joinWith [';']
      ((content.splitOn ';').map (Declaration.replaced (declaredValue scheme))) := by
  have piece (piece : Text) (ledger : Ledger) :
      ((Declaration.editPiece (declareFamily scheme) piece).run ledger).1 =
        Declaration.replaced (declaredValue scheme) piece := by
    rw [Declaration.editPiece, Declaration.replaced]
    cases Declaration.ofPiece? piece with
    | none => rfl
    | some declaration =>
      by_cases family : declaration.property = "font-family".toList
      · simp only [declareFamily, declaredValue, family, if_true, FontFamily.declare]
        by_cases empty : (FontFamily.nameOf (unshield declaration.value)).isEmpty
        · simp only [empty, if_true]
          rfl
        · simp only [empty, Bool.false_eq_true, if_false]
          rfl
      · simp only [declareFamily, declaredValue, family, if_false]
        rfl
  have pieces (l : List Text) (ledger : Ledger) :
      ((l.mapM (Declaration.editPiece (declareFamily scheme))).run ledger).1 =
        l.map (Declaration.replaced (declaredValue scheme)) := by
    induction l generalizing ledger with
    | nil => rfl
    | cons first l ih =>
      rw [List.mapM_cons, List.map_cons, ← piece first ledger, ← ih]
      rfl
  exact congrArg (Text.joinWith [';']) (pieces _ ledger)

theorem keeps_declaredValue {switches : Switches} {asterisk property value new : Text}
    (alphanum : ∀ c ∈ digits, c.isAlphanum) (few : digits.length ≤ 10)
    (isQuote : ∀ q ∈ state, Text.isQuote q)
    (answered : declaredValue (.suffixed switches asterisk digits) property value = some new) :
    Keeps state value new := by
  unfold declaredValue at answered
  split at answered
  · cases answered
    unfold FontFamily.declare
    dsimp only
    split
    · exact .refl _
    · exact FontFamily.keeps_replaceFirst alphanum few isQuote value
  · cases answered

/-- **Scoping a rule keeps its blocks.** -/
theorem kept_scopeRule {switches : Switches} {asterisk : Text} (quiet : Scheme.Quiet asterisk digits)
    {rule rule' : Rule} (tame : rule.Tame)
    (joined : rule.isAtRule = false → ∀ part ∈ CommaList.entries rule.selector,
      Selector.JoinsFreely (NamedAttribute.normalise part)) {ledger after : Ledger}
    (ok : scopeRule (.suffixed switches asterisk digits) rule ledger = .ok (rule', after)) :
    rule.Kept rule' := by
  unfold scopeRule at ok
  split at ok
  · split at ok
    · split at ok
      next selector read =>
        cases ok
        exact ⟨fun state isQuote => KeyframesSelector.keeps_rename quiet.alphanum quiet.few isQuote read
          ledger, .refl _⟩
      next =>
        cases ok
        exact ⟨fun _ _ => .refl _, .refl _⟩
    · split at ok
      · have text := scopeFontFace_eq_pieces (.suffixed switches asterisk digits) rule.content ledger
        generalize (scopeFontFace (.suffixed switches asterisk digits) rule.content).run ledger = done
          at ok text
        obtain ⟨content, next⟩ := done
        cases ok
        refine ⟨fun _ _ => .refl _, (show content = _ from text) ▸ ?_⟩
        exact Declaration.keeps_pieces (fun _ _ _ answered _ isQuote =>
          keeps_declaredValue quiet.alphanum quiet.few isQuote answered) tame.shielded tame.clean tame.free
      · cases ok
        exact ⟨fun _ _ => .refl _, .refl _⟩
  next style =>
    cases done : Selector.scopeList (.suffixed switches asterisk digits) rule.selector ledger with
    | error fault =>
      rw [done] at ok
      cases ok
    | ok state =>
      obtain ⟨next, selector⟩ := state
      rw [done] at ok
      cases ok
      exact ⟨fun state isQuote => Selector.keeps_scopeList quiet isQuote tame.plain
        (joined (by simpa using style)) done, .refl _⟩

/-- Names of keyframes and families are recorded with their suffix. -/
structure Suffixes (digits : Text) (mapping : Mapping) : Prop where
  keyframes : ∀ name new, mapping.keyframes.find? name = some new → new = Suffix.attach digits name
  fontFaces : ∀ name new, mapping.fontFaces.find? name = some new → new = Suffix.attach digits name

theorem keeps_renameValue {switches : Switches} {mapping : Mapping} {property value new : Text}
    (alphanum : ∀ c ∈ digits, c.isAlphanum) (few : digits.length ≤ 10) (suffixes : Suffixes digits mapping)
    (isQuote : ∀ q ∈ state, Text.isQuote q)
    (answered : renameValue switches mapping property value = some new) : Keeps state value new := by
  unfold renameValue at answered
  split at answered
  · exact Animation.keeps_rename alphanum few suffixes.keyframes isQuote answered
  · split at answered
    · exact FontFamily.keeps_rename alphanum few suffixes.fontFaces isQuote answered
    · cases answered

/-- **Renaming the references in a rule keeps its blocks.** -/
theorem kept_renameRule (switches : Switches) {mapping : Mapping} (alphanum : ∀ c ∈ digits, c.isAlphanum)
    (few : digits.length ≤ 10) (suffixes : Suffixes digits mapping) {rule : Rule} (tame : rule.Tame) :
    rule.Kept (renameRule switches mapping rule) := by
  unfold renameRule
  split
  · exact ⟨fun _ _ => .refl _, .refl _⟩
  · refine ⟨fun _ _ => .refl _, ?_⟩
    dsimp only
    rw [Declaration.editAll_pure]
    exact Declaration.keeps_pieces (fun _ _ _ answered _ isQuote =>
      keeps_renameValue alphanum few suffixes isQuote answered) tame.shielded tame.clean tame.free

end Stylesheet

end ScopedCss
