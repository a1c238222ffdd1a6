import ScopedCss.Proofs.Selector.OpenPlaces
import ScopedCss.Proofs.Selector.Resumption

/-!
# Scoping a list piece by piece

What a pass writes into its ledger for a token does not depend on where the token is found, and where
it is found does not depend on the ledger (`scopeToken_eq`), at least as long as `*` has one name.  So
a selector list has two readings: the ledger notes the tokens of its parts, and the cursor renames
them.

A part *becomes* a text where it stands if the cursor, sent through its tokens, puts the text in its
place and touches nothing behind the part.  If every part of a list becomes what it becomes alone,
the whole list is scoped piece by piece: spaces and commas stay, and each part is replaced in place
(`scopeList_of_becomes`).
-/
namespace ScopedCss

/-- `*` has one name. -/
def Scheme.Fixed (scheme : Scheme) : Prop := ∃ name, scheme.asteriskName = .literal name

theorem Token.renaming?_of_fixed {scheme : Scheme} (fixed : scheme.Fixed) (n : Nat) (token : Token) :
    token.renaming? scheme n = token.renaming? scheme 0 := by
  obtain ⟨name, literal⟩ := fixed
  have same : token.nameToScope scheme n = token.nameToScope scheme 0 := by
    unfold Token.nameToScope
    split <;> simp [literal, AsteriskName.resolve]
  unfold Token.renaming?
  split
  · rw [same]
  · rfl

/-- The ledger after a token of a part: an unknown fragment is warned of, the name of a token that is
renamed is recorded. -/
def Ledger.note (scheme : Scheme) (part : Text) (ledger : Ledger) (token : Token) : Ledger :=
  match token with
  | .unknown text => ledger.warn ⟨text, part⟩
  | token =>
    match token.renaming? scheme ledger.asterisks with
    | none => ledger
    | some r => ledger.rename token r

theorem Ledger.warnings_rename (ledger : Ledger) (token : Token) (r : Renaming) :
    (ledger.rename token r).warnings = ledger.warnings := by
  unfold rename
  split <;> rfl

theorem Ledger.mapping_rename (ledger : Ledger) (token : Token) (r : Renaming) :
    (ledger.rename token r).mapping = ledger.mapping.insert r.category r.name r.scopedName := by
  unfold rename
  split <;> rfl

/-- A token of a known kind is noted exactly if it is renamed. -/
theorem Ledger.note_of_known (scheme : Scheme) (part : Text) (ledger : Ledger) {token : Token}
    (known : ∀ text, token ≠ .unknown text) :
    ledger.note scheme part token =
      (token.renaming? scheme ledger.asterisks).elim ledger (ledger.rename token) := by
  unfold note
  split
  next text => exact absurd rfl (known text)
  next =>
    split
    next none => rw [none, Option.elim_none]
    next some => rw [some, Option.elim_some]

/-- What a token of a part is warned of. -/
def Token.warnings (part : Text) : Token → List Warning
  | unknown text => [⟨text, part⟩]
  | _ => []

theorem Ledger.warnings_note (scheme : Scheme) (part : Text) (ledger : Ledger) (token : Token) :
    (ledger.note scheme part token).warnings = ledger.warnings ++ token.warnings part := by
  cases token with
  | unknown text => rfl
  | _ =>
    simp only [note, Token.warnings, List.append_nil]
    split
    · rfl
    · exact warnings_rename _ _ _

namespace Selector

/-- The cursor after a token, with its name replaced if the token is renamed and found. -/
def Cursor.rename (scheme : Scheme) (asterisks : Nat) (cursor : Cursor) (token : Token) : Cursor :=
  match token.renaming? scheme asterisks with
  | none => cursor
  | some r =>
    match Place.ofToken? token cursor.done.getLast? cursor.rest with
    | some place => cursor.replace place (token.replacement r.scopedName)
    | none => cursor

/-- A token is noted in the ledger and renamed behind the cursor. -/
theorem scopeToken_eq (scheme : Scheme) (part : Text) (ledger : Ledger) (cursor : Cursor)
    (token : Token) :
    scopeToken scheme part (ledger, cursor) token =
      (ledger.note scheme part token, cursor.rename scheme ledger.asterisks token) := by
  have known (t : Token) (h : ∀ text, t ≠ .unknown text) :
      scopeToken scheme part (ledger, cursor) t =
        (ledger.note scheme part t, cursor.rename scheme ledger.asterisks t) := by
    unfold scopeToken Ledger.note Cursor.rename
    cases t <;> first | exact absurd rfl (h _) | skip
    all_goals
      simp only []
      cases Token.renaming? scheme ledger.asterisks _ <;> rfl
  cases token with
  | unknown text => rfl
  | _ => exact known _ (by simp)

variable {scheme : Scheme} {list part image : Text} {ledger : Ledger}

theorem Cursor.rename_of_fixed (fixed : scheme.Fixed) (n : Nat) (cursor : Cursor) (token : Token) :
    cursor.rename scheme n token = cursor.rename scheme 0 token := by
  rw [rename, Token.renaming?_of_fixed fixed, rename]

/-- The ledger and the cursor go through the tokens of a part side by side. -/
theorem foldl_scopeToken_eq (fixed : scheme.Fixed) (part : Text) (tokens : List Token)
    (ledger : Ledger) (cursor : Cursor) :
    tokens.foldl (scopeToken scheme part) (ledger, cursor) =
      (tokens.foldl (Ledger.note scheme part) ledger,
        tokens.foldl (Cursor.rename scheme 0) cursor) := by
  induction tokens generalizing ledger cursor with
  | nil => rfl
  | cons token tokens ih =>
    rw [List.foldl_cons, scopeToken_eq, ih, Cursor.rename_of_fixed fixed]
    rfl

/-- The ledger after all tokens of a part were noted. -/
def notePart (scheme : Scheme) (ledger : Ledger) (part : Text) : Ledger :=
  (tokens (NamedAttribute.normalise part)).foldl
    (Ledger.note scheme (NamedAttribute.normalise part)) ledger

theorem warnings_notePart (ledger : Ledger) (part : Text) :
    (notePart scheme ledger part).warnings = ledger.warnings ++
      (tokens (NamedAttribute.normalise part)).flatMap
        (Token.warnings (NamedAttribute.normalise part)) := by
  unfold notePart
  generalize tokens (NamedAttribute.normalise part) = tokens
  induction tokens generalizing ledger with
  | nil => simp
  | cons token tokens ih =>
    rw [List.foldl_cons, ih, Ledger.warnings_note, List.flatMap_cons, List.append_assoc]

/-! ### A part alone and in a list -/

/-- The cursor at the front of a text. -/
def Cursor.start (t : Text) : Cursor := ⟨[], t, t.bytes⟩

/-- A cursor in a part, seen in a text in which the part has a front and something after it. -/
def Cursor.within (cursor : Cursor) (front after : Text) : Cursor :=
  ⟨front ++ cursor.done, cursor.rest ++ after, (front ++ cursor.text).bytes⟩

/-- Where the cursor finds tokens, one after the other.  A token that is not renamed is not looked
for. -/
def places (scheme : Scheme) : List Token → Cursor → List (Option Place)
  | [], _ => []
  | token :: tokens, cursor =>
    let later := places scheme tokens (cursor.rename scheme 0 token)
    if (token.renaming? scheme 0).isSome then
      Place.ofToken? token cursor.done.getLast? cursor.rest :: later
    else later

/-- All tokens of a part that are looked for keep to the part, where the character before the part
and the text after it are given. -/
def KeepTo (scheme : Scheme) (outer : Option Char) (after : Text) : List Token → Cursor → Prop
  | [], _ => True
  | token :: tokens, cursor =>
    ((token.renaming? scheme 0).isSome →
      Place.KeepsTo token cursor.done.getLast? outer cursor.rest after) ∧
    KeepTo scheme outer after tokens (cursor.rename scheme 0 token)

/-- The end of the part is the end of the text. -/
def Cursor.IsAlone (cursor : Cursor) : Prop := cursor.partEnd = cursor.text.bytes

variable {cursor : Cursor} {token : Token} {front after : Text}

theorem Cursor.rename_of_none (h : token.renaming? scheme 0 = none) :
    cursor.rename scheme 0 token = cursor := by
  rw [rename, h]

theorem Cursor.rename_of_some {r : Renaming} (h : token.renaming? scheme 0 = some r) :
    cursor.rename scheme 0 token =
      match Place.ofToken? token cursor.done.getLast? cursor.rest with
      | some place => cursor.replace place (token.replacement r.scopedName)
      | none => cursor := by
  rw [rename, h]

theorem Cursor.bytes_text_replace {place : Place} (h : place.spell = cursor.rest) (t : Text) :
    (cursor.replace place t).text.bytes = cursor.text.bytes + t.bytes - place.old.bytes := by
  have size : cursor.rest.bytes =
      place.before.bytes + place.old.bytes + place.closing.bytes + place.after.bytes := by
    rw [← h, Place.spell]
    simp only [Text.bytes_append]
  simp only [text, replace, Text.bytes_append, size]
  omega

theorem Cursor.isAlone_rename (alone : cursor.IsAlone) (token : Token) :
    (cursor.rename scheme 0 token).IsAlone := by
  cases renamed : token.renaming? scheme 0 with
  | none => rwa [rename_of_none renamed]
  | some r =>
    rw [rename_of_some renamed]
    cases found : Place.ofToken? token cursor.done.getLast? cursor.rest with
    | none => exact alone
    | some place =>
      have size := bytes_text_replace (Place.spell_ofToken? found) (token.replacement r.scopedName)
      rw [← show cursor.partEnd = cursor.text.bytes from alone] at size
      exact size.symm

/-- A token that is found where it is found alone is renamed as it is alone. -/
theorem Cursor.rename_within (same : (token.renaming? scheme 0).isSome →
      Place.ofToken? token (cursor.within front after).done.getLast? (cursor.within front after).rest =
        (Place.ofToken? token cursor.done.getLast? cursor.rest).map (·.extend after)) :
    (cursor.within front after).rename scheme 0 token =
      (cursor.rename scheme 0 token).within front after := by
  cases renamed : token.renaming? scheme 0 with
  | none => rw [rename_of_none renamed, rename_of_none renamed]
  | some r =>
    rw [rename_of_some renamed, rename_of_some renamed, same (by rw [renamed]; rfl)]
    cases found : Place.ofToken? token cursor.done.getLast? cursor.rest with
    | none => rfl
    | some place =>
      have size := bytes_text_replace (Place.spell_ofToken? found) (token.replacement r.scopedName)
      have fits : place.old.bytes ≤ cursor.text.bytes := by
        rw [text, ← Place.spell_ofToken? found, Place.spell]
        simp only [Text.bytes_append]
        omega
      simp only [Option.map_some, replace, within, Place.extend, mk.injEq] at size ⊢
      refine ⟨by simp, trivial, ?_⟩
      simp only [Text.bytes_append] at size ⊢
      omega

theorem Cursor.ofToken?_within_iff (cursor : Cursor) (front : Text)
    (foreign : ∀ c ∈ after.head?, c ∉ Mark.comment) (sought : Place.IsSought token) :
    Place.ofToken? token (cursor.within front after).done.getLast? (cursor.within front after).rest =
        (Place.ofToken? token cursor.done.getLast? cursor.rest).map (·.extend after) ↔
      Place.KeepsTo token cursor.done.getLast? front.getLast? cursor.rest after := by
  have last : (cursor.within front after).done.getLast? =
      cursor.done.getLast?.or front.getLast? := List.getLast?_append
  rw [last]
  exact Place.ofToken?_append_iff foreign sought

/-- The tokens of a part are found in the list where they are found in the part alone exactly if they
keep to it. -/
theorem places_within_iff (front : Text) (foreign : ∀ c ∈ after.head?, c ∉ Mark.comment)
    {tokens : List Token}
    (sought : ∀ token ∈ tokens, (token.renaming? scheme 0).isSome → Place.IsSought token)
    (cursor : Cursor) :
    places scheme tokens (cursor.within front after) =
        (places scheme tokens cursor).map (Option.map (·.extend after)) ↔
      KeepTo scheme front.getLast? after tokens cursor := by
  induction tokens generalizing cursor with
  | nil => exact iff_of_true rfl trivial
  | cons token tokens ih =>
    have later := ih fun t mem => sought t (List.mem_cons_of_mem token mem)
    rw [places, places, KeepTo]
    cases renamed : (token.renaming? scheme 0).isSome with
    | false =>
      have stays (cursor : Cursor) : cursor.rename scheme 0 token = cursor :=
        Cursor.rename_of_none (by simpa using renamed)
      simp only [stays, Bool.false_eq_true, ↓reduceIte, false_imp_iff, true_and]
      exact later cursor
    | true =>
      have first := Cursor.ofToken?_within_iff cursor front foreign
        (sought token List.mem_cons_self renamed)
      simp only [↓reduceIte, List.map_cons, List.cons.injEq, forall_const]
      constructor
      · rintro ⟨here, rest⟩
        rw [Cursor.rename_within fun _ => here] at rest
        exact ⟨first.1 here, (later _).1 rest⟩
      · rintro ⟨here, rest⟩
        rw [Cursor.rename_within fun _ => first.2 here]
        exact ⟨first.2 here, (later _).2 rest⟩

/-- Tokens that keep to their part are renamed in the list as they are in the part alone. -/
theorem foldl_rename_within (foreign : ∀ c ∈ after.head?, c ∉ Mark.comment) {tokens : List Token}
    (sought : ∀ token ∈ tokens, (token.renaming? scheme 0).isSome → Place.IsSought token)
    {cursor : Cursor} (keep : KeepTo scheme front.getLast? after tokens cursor) :
    tokens.foldl (Cursor.rename scheme 0) (cursor.within front after) =
      (tokens.foldl (Cursor.rename scheme 0) cursor).within front after := by
  induction tokens generalizing cursor with
  | nil => rfl
  | cons token tokens ih =>
    have here : (cursor.within front after).rename scheme 0 token =
        (cursor.rename scheme 0 token).within front after :=
      Cursor.rename_within fun renamed =>
        (Cursor.ofToken?_within_iff cursor front foreign (sought token List.mem_cons_self renamed)).2
          (keep.1 renamed)
    rw [List.foldl_cons, List.foldl_cons, here]
    exact ih (fun t mem => sought t (List.mem_cons_of_mem token mem)) keep.2

theorem isAlone_foldl (alone : cursor.IsAlone) (tokens : List Token) :
    (tokens.foldl (Cursor.rename scheme 0) cursor).IsAlone := by
  induction tokens generalizing cursor with
  | nil => exact alone
  | cons token tokens ih => exact ih (Cursor.isAlone_rename alone token)

/-! ### Tokens that are looked for -/

/-- The plain texts between what is recognised are parts of the text. -/
theorem infix_of_runs {α : Type} (r : Recogniser α) (segments : List (Segment α)) :
    (Segment.runs segments).1 <+: r.spellAll segments ∧
      ∀ run ∈ (Segment.runs segments).2, run.2 <:+: r.spellAll segments := by
  induction segments with
  | nil => exact ⟨List.prefix_rfl, by simp [Segment.runs]⟩
  | cons segment segments ih =>
    have behind : r.spellAll segments <:+ r.spellAll (segment :: segments) :=
      ⟨r.spellSegment segment, List.flatMap_cons.symm⟩
    cases segment with
    | plain c =>
      refine ⟨List.cons_prefix_cons.2 ⟨rfl, ih.1⟩, fun run mem => ?_⟩
      exact (ih.2 run mem).trans behind.isInfix
    | hit a =>
      refine ⟨List.nil_prefix, fun run mem => ?_⟩
      rcases List.mem_cons.1 mem with rfl | later
      · exact ih.1.isInfix.trans behind.isInfix
      · exact (ih.2 run later).trans behind.isInfix

/-- A token is the value of an attribute, or a fragment that is read in the selector. -/
theorem mem_tokens_cases (mem : token ∈ tokens part) :
    (∃ onId value, token = .attributeValue onId value) ∨
      ∃ u, u <:+: part ∧ Fragment.read u = some token.text ∧ Token.ofText token.text = token := by
  have inText {t : Text} (inside : t <:+: part) (mem : token ∈ Fragment.tokens t) :
      ∃ u, u <:+: part ∧ Fragment.read u = some token.text ∧ Token.ofText token.text = token := by
    obtain ⟨f, kept, rfl⟩ := List.mem_map.1 mem
    obtain ⟨segment, scanned, hit⟩ := List.mem_filterMap.1 (List.mem_filter.1 kept).1
    cases segment with
    | plain c => cases hit
    | hit g =>
      cases hit
      obtain ⟨u, behind, read⟩ := Recogniser.exists_read_of_mem_scan scanned
      rw [Token.text_ofText]
      exact ⟨u, behind.isInfix.trans inside, read, rfl⟩
  have runs := infix_of_runs NamedAttribute.recogniser (NamedAttribute.recogniser.scan part)
  rw [Recogniser.spellAll_scan] at runs
  unfold tokens at mem
  split at mem
  · cases mem
  · rcases List.mem_append.1 mem with first | later
    · exact .inr (inText runs.1.isInfix first)
    · obtain ⟨run, known, mem⟩ := List.mem_flatMap.1 later
      rcases List.mem_append.1 mem with value | fragment
      · simp only [NamedAttribute.token?, Option.mem_toList] at value
        split at value
        · cases value
        · cases value
          exact .inl ⟨_, _, rfl⟩
      · exact .inr (inText (runs.2 run known) fragment)

/-- Classes and ids have identifiers for names. -/
theorem isIdentChar_of_read {c : Char} {u name : Text} (kind : c = '.' ∨ c = '#')
    (read : Fragment.read u = some (c :: name)) : ∀ d ∈ name, Text.isIdentChar d := by
  obtain ⟨rest, rfl⟩ := (Fragment.front_of_read read).1
  have run : Fragment.readRun Text.isIdentChar (name ++ rest) = some name := by
    rcases kind with rfl | rfl
    · obtain ⟨run, found, same⟩ := Option.map_eq_some_iff.1 read
      cases same
      exact found
    · obtain ⟨run, found, same⟩ := Option.map_eq_some_iff.1 read
      cases same
      exact found
  intro d mem
  unfold Fragment.readRun at run
  split at run
  next => cases run
  next =>
    have same := Option.some.inj run
    rw [← same] at mem
    exact List.mem_takeWhile_imp mem

theorem isElementName_of_ofText {t name : Text} (h : Token.ofText t = .element name) :
    Token.isElementName name := by
  unfold Token.ofText at h
  split at h <;> try cases h
  split at h
  next letters =>
    cases h
    exact letters
  next => cases h

theorem alphanum_of_isElementName {name : Text} (h : Token.isElementName name) :
    ∀ c ∈ name, c.isAlphanum := by
  cases name with
  | nil => cases h
  | cons c name =>
    simp only [Token.isElementName, Bool.and_eq_true, List.all_eq_true] at h
    intro d mem
    rcases List.mem_cons.1 mem with rfl | later
    · simp [Char.isAlphanum, h.1]
    · exact h.2 d later

/-- Tokens that are renamed are values of attributes or have plain texts. -/
theorem isPlain_of_mem_tokens {asterisks : Nat} (mem : token ∈ tokens part)
    (renamed : (token.renaming? scheme asterisks).isSome) :
    (∃ onId value, token = .attributeValue onId value) ∨ Place.IsPlain token.text := by
  rcases mem_tokens_cases mem with value | ⟨u, -, read, kind⟩
  · exact .inl value
  cases token with
  | element name =>
    have letters := alphanum_of_isElementName (isElementName_of_ofText kind)
    have named : ∀ c ∈ name, Text.isNameChar c := fun c mem => by simp [Text.isNameChar, letters c mem]
    cases name with
    | nil => exact absurd rfl (Fragment.front_of_read read).2
    | cons c name =>
      exact .inr <| .cons (Text.no_sign_of_isNameChar (named c List.mem_cons_self))
        fun d mem => named d (List.mem_cons_of_mem c mem)
  | universal => exact .inr (.cons (by decide) fun d mem => absurd mem List.not_mem_nil)
  | ofClass name =>
    exact .inr <| .cons (by decide) fun d mem =>
      Text.isNameChar_of_isIdentChar (isIdentChar_of_read (.inl rfl) read d mem)
  | ofId name =>
    exact .inr <| .cons (by decide) fun d mem =>
      Text.isNameChar_of_isIdentChar (isIdentChar_of_read (.inr rfl) read d mem)
  | attributeValue onId value => exact .inl ⟨onId, value, rfl⟩
  | pseudo name => cases renamed
  | unknown text => cases renamed

theorem isSought_of_mem_tokens (mem : token ∈ tokens part)
    (renamed : (token.renaming? scheme 0).isSome) : Place.IsSought token := by
  rcases isPlain_of_mem_tokens mem renamed with value | plain
  · exact .inl value
  · obtain ⟨c, rest, spelled, -⟩ := plain.starts
    exact .inr ⟨by simp [spelled], fun mem => (plain.solid _ mem).1 rfl⟩

end Selector
end ScopedCss
