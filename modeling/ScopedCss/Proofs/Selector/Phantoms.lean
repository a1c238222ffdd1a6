import ScopedCss.Proofs.Selector.Chunks
import ScopedCss.Proofs.Selector.Lists

/-!
# Names that are recorded but not renamed

The tokeniser and the search are two readings of a selector, and they need not agree on where a name
stands.  A name whose token is not found stays in the text, but is recorded all the same; a name whose
token is found elsewhere is renamed where it should not be.  This module says exactly which lists are
free of both (`noPhantoms_iff`).

The condition looks at the list alone.  Attribute selectors are never missed: the search cuts them as
the tokeniser does.  Any other token that is renamed has to stand open where it stands, and nowhere
between it and the renamed token before it.  The induction is on the chunks of a part; the cursor
stands behind the last token that was renamed, and what it has not passed is untouched.
-/
namespace ScopedCss

/-- Whether a token is renamed does not depend on how many `*` were. -/
theorem Token.isSome_renaming? {scheme : Scheme} (token : Token) (n m : Nat) :
    (token.renaming? scheme n).isSome = (token.renaming? scheme m).isSome := by
  unfold renaming?
  split
  · split <;> rfl
  · rfl

namespace Selector

variable (scheme : Scheme) (part behind : Text)

namespace Chunk

/-- The ledger after the token of a chunk was noted. -/
def note (ledger : Ledger) (chunk : Chunk) : Ledger :=
  match chunk.token? with
  | none => ledger
  | some token => ledger.note scheme part token

/-- What a chunk is renamed to, if it is. -/
def renaming? (asterisks : Nat) (chunk : Chunk) : Option (Token × Renaming) :=
  chunk.token?.bind fun token => (token.renaming? scheme asterisks).map (token, ·)

/-- The chunk with its scoped name in place of its name. -/
def respell (asterisks : Nat) (chunk : Chunk) : Text :=
  match chunk.renaming? scheme asterisks with
  | none => chunk.spell
  | some (token, r) => chunk.opening ++ token.replacement r.scopedName ++ chunk.closing

/-- The chunks of a part with their scoped names, one after the other. -/
def respellAll : Ledger → List Chunk → Text
  | _, [] => []
  | ledger, chunk :: chunks =>
    chunk.respell scheme ledger.asterisks ++ respellAll (chunk.note scheme part ledger) chunks

end Chunk

/-- The token of every chunk that is renamed is found where it stands: what the search answers is
the chunk, with the other chunks and the text behind the part after it. -/
def FoundInPlace : List Chunk → Ledger × Cursor → Prop
  | [], _ => True
  | chunk :: chunks, state =>
    match chunk.token? with
    | none => FoundInPlace chunks state
    | some token =>
      ((token.renaming? scheme state.1.asterisks).isSome →
        ∃ before, Place.ofToken? token state.2.done.getLast? state.2.rest =
          some ⟨before, chunk.old, chunk.closing, Chunk.spellAll chunks ++ behind⟩) ∧
      FoundInPlace chunks (scopeToken scheme part state token)

/-- Every fragment that is renamed stands open, and nowhere earlier behind the chunk that was renamed
before it.  Given are the character behind which the search starts and the text since then. -/
def NamesOpen : List Chunk → Ledger → Option Char → Text → Prop
  | [], _, _, _ => True
  | chunk :: chunks, ledger, previous, passed =>
    match chunk.renaming? scheme ledger.asterisks with
    | none => NamesOpen chunks (chunk.note scheme part ledger) previous (passed ++ chunk.spell)
    | some _ =>
      (∀ token, chunk = .fragment token →
        Place.StandsFirst token.text previous passed (Chunk.spellAll chunks ++ behind)) ∧
      NamesOpen chunks (chunk.note scheme part ledger)
        ((passed ++ chunk.respell scheme ledger.asterisks).getLast?.or previous) []

/-- The tokens of a part are found where they stand, once the list has come to the part. -/
def FoundAtTheirPlaces (progress : Progress) (part : Text) : Prop :=
  ∃ done rest gap after, progress.text = done ++ rest ∧ done.bytes = progress.offset ∧
    Text.breakAt? (NamedAttribute.normalise part) rest = some (gap, after) ∧
    FoundInPlace scheme (NamedAttribute.normalise part) after
      (chunks (NamedAttribute.normalise part))
      (progress.ledger, Cursor.seek done rest (NamedAttribute.normalise part))

/-- What a part becomes if every name that is recorded is renamed where it stands. -/
def renamedPart (ledger : Ledger) (part : Text) : Text :=
  Chunk.respellAll scheme (NamedAttribute.normalise part) ledger
    (chunks (NamedAttribute.normalise part))

/-- A list leaves no phantoms: every token that is renamed is found where it stands, and so the list
becomes itself with exactly the recorded names renamed, each in its place. -/
structure NoPhantoms (list : Text) (ledger : Ledger) : Prop where
  found : ∀ progress part later,
    ComesTo scheme list (CommaList.entries list) ledger progress part later →
      FoundAtTheirPlaces scheme progress part
  renamed : scopeList scheme list ledger = .ok ((CommaList.entries list).foldl (notePart scheme) ledger,
    CommaList.join (becomeEach scheme (renamedPart scheme) ledger (CommaList.split list)))

/-- The names of the part of a piece stand open in the list. -/
def PartOpen (ledger : Ledger) (earlier : List Text) (piece : Text) (later : List Text) : Prop :=
  NamesOpen scheme (NamedAttribute.normalise (Text.trim piece)) (textBehind piece later)
    (chunks (NamedAttribute.normalise (Text.trim piece)))
    ((partsOf earlier).foldl (notePart scheme) ledger) (textBefore earlier piece).getLast? []

/-- The names of every part of a list stand open in it. -/
def PartsOpen (list : Text) (ledger : Ledger) : Prop :=
  ∀ earlier piece later, CommaList.split list = earlier ++ piece :: later →
    PartOpen scheme ledger earlier piece later

variable {scheme part behind} {ledger : Ledger} {cursor : Cursor} {chunk : Chunk}
  {todo : List Chunk}

/-! ### One chunk -/

/-- The cursor has come to chunks of a part: behind a text that was passed stand the chunks to come,
and the part ends where they do. -/
structure ComesToChunks (behind passed : Text) (todo : List Chunk) (cursor : Cursor) : Prop where
  rest : cursor.rest = passed ++ Chunk.spellAll todo ++ behind
  ahead : cursor.ahead = (passed ++ Chunk.spellAll todo).bytes

theorem ComesToChunks.skip {passed : Text}
    (h : ComesToChunks behind passed (chunk :: todo) cursor) :
    ComesToChunks behind (passed ++ chunk.spell) todo cursor where
  rest := by rw [h.rest, Chunk.spellAll_cons]; simp
  ahead := by rw [h.ahead, Chunk.spellAll_cons, List.append_assoc]

namespace Chunk

theorem renaming?_eq_none_iff {n : Nat} :
    chunk.renaming? scheme n = none ↔
      ∀ token, chunk.token? = some token → token.renaming? scheme n = none := by
  cases token : chunk.token? <;> simp [renaming?, token]

theorem renaming?_eq_some_iff {n : Nat} {token : Token} {r : Renaming} :
    chunk.renaming? scheme n = some (token, r) ↔
      chunk.token? = some token ∧ token.renaming? scheme n = some r := by
  cases own : chunk.token? with
  | none => simp [renaming?, own]
  | some other =>
    cases named : other.renaming? scheme n with
    | none =>
      refine iff_of_false (by simp [renaming?, own, named]) ?_
      rintro ⟨same, renamed⟩
      cases same
      rw [named] at renamed
      cases renamed
    | some r' =>
      simp only [renaming?, own, named, Option.bind_some, Option.map_some, Option.some.injEq,
        Prod.mk.injEq]
      constructor
      · rintro ⟨rfl, rfl⟩
        exact ⟨rfl, named⟩
      · rintro ⟨rfl, renamed⟩
        exact ⟨rfl, Option.some.inj (named.symm.trans renamed)⟩

theorem respell_of_none {n : Nat} (h : chunk.renaming? scheme n = none) :
    chunk.respell scheme n = chunk.spell := by rw [respell, h]

theorem respell_of_some {n : Nat} {token : Token} {r : Renaming}
    (h : chunk.renaming? scheme n = some (token, r)) : chunk.respell scheme n =
      chunk.opening ++ token.replacement r.scopedName ++ chunk.closing := by rw [respell, h]

theorem note_of_none (h : chunk.token? = none) : chunk.note scheme part ledger = ledger := by
  rw [note, h]

theorem note_of_some {token : Token} (h : chunk.token? = some token) :
    chunk.note scheme part ledger = ledger.note scheme part token := by rw [note, h]

/-- Whether a chunk is renamed does not depend on how many `*` were. -/
theorem renaming?_eq_none_of {n m : Nat} (h : chunk.renaming? scheme n = none) :
    chunk.renaming? scheme m = none := by
  rw [renaming?_eq_none_iff] at h ⊢
  intro token own
  have none : (token.renaming? scheme m).isSome = (token.renaming? scheme n).isSome :=
    token.isSome_renaming? m n
  rw [h token own] at none
  simpa using none

end Chunk

variable {state : Ledger × Cursor}

theorem foundInPlace_of_none (h : chunk.token? = none) :
    FoundInPlace scheme part behind (chunk :: todo) state ↔
      FoundInPlace scheme part behind todo state := by
  rw [FoundInPlace, h]

theorem foundInPlace_of_some {token : Token} (h : chunk.token? = some token) :
    FoundInPlace scheme part behind (chunk :: todo) state ↔
      ((token.renaming? scheme state.1.asterisks).isSome →
        ∃ before, Place.ofToken? token state.2.done.getLast? state.2.rest =
          some ⟨before, chunk.old, chunk.closing, Chunk.spellAll todo ++ behind⟩) ∧
      FoundInPlace scheme part behind todo (scopeToken scheme part state token) := by
  rw [FoundInPlace, h]

/-- A chunk that is not renamed leaves the cursor where it is. -/
theorem scopeToken_of_silent {token : Token} (silent : token.renaming? scheme ledger.asterisks = none) :
    scopeToken scheme part (ledger, cursor) token = (ledger.note scheme part token, cursor) := by
  rw [scopeToken_eq, Cursor.rename, silent]

/-- A chunk that is found where it stands is renamed there, and the cursor comes to the next. -/
theorem scopeToken_of_found (part : Text) {passed : Text} {token : Token} {r : Renaming}
    (h : ComesToChunks behind passed (chunk :: todo) cursor)
    (renamed : token.renaming? scheme ledger.asterisks = some r)
    (found : ∃ before, Place.ofToken? token cursor.done.getLast? cursor.rest =
      some ⟨before, chunk.old, chunk.closing, Chunk.spellAll todo ++ behind⟩) :
    ∃ next, scopeToken scheme part (ledger, cursor) token = (ledger.note scheme part token, next) ∧
      next.done = cursor.done ++
        (passed ++ (chunk.opening ++ token.replacement r.scopedName ++ chunk.closing)) ∧
      ComesToChunks behind [] todo next := by
  obtain ⟨before, found⟩ := found
  have whole := Place.spell_ofToken? found
  have front : before = passed ++ chunk.opening := by
    rw [h.rest, Chunk.spellAll_cons, Chunk.spell, Place.spell] at whole
    simp only [List.append_assoc] at whole
    rw [← List.append_assoc passed] at whole
    exact List.append_cancel_right whole
  refine ⟨cursor.replace ⟨before, chunk.old, chunk.closing, Chunk.spellAll todo ++ behind⟩
    (token.replacement r.scopedName), ?_, ?_, ?_⟩
  · rw [scopeToken_eq, Cursor.rename, renamed]
    dsimp only
    rw [found]
  · simp [Cursor.replace, front]
  · refine ⟨rfl, ?_⟩
    rw [Cursor.ahead_replace, h.ahead, front, Chunk.spellAll_cons, Chunk.spell]
    simp only [Text.bytes_append, List.nil_append]
    omega

/-- Chunks that are found where they stand are renamed there and nowhere else. -/
theorem run_chunks {passed : Text} (todo : List Chunk) (ledger : Ledger)
    (h : ComesToChunks behind passed todo cursor)
    (found : FoundInPlace scheme part behind todo (ledger, cursor)) :
    ∃ next tail, (todo.filterMap Chunk.token?).foldl (scopeToken scheme part) (ledger, cursor) =
        ((todo.filterMap Chunk.token?).foldl (Ledger.note scheme part) ledger, next) ∧
      next.done ++ tail = cursor.done ++ (passed ++ Chunk.respellAll scheme part ledger todo) ∧
      next.rest = tail ++ behind ∧ next.ahead = tail.bytes := by
  induction todo generalizing passed ledger cursor with
  | nil =>
    refine ⟨cursor, passed, rfl, by simp [Chunk.respellAll], ?_, ?_⟩
    · simpa using h.rest
    · simpa using h.ahead
  | cons chunk todo ih =>
    rw [Chunk.respellAll, List.filterMap_cons]
    cases own : chunk.token? with
    | none =>
      have kept : chunk.renaming? scheme ledger.asterisks = none := by rw [Chunk.renaming?, own]; rfl
      rw [Chunk.respell_of_none kept, Chunk.note_of_none own]
      obtain ⟨next, tail, ok, become, rest, ahead⟩ :=
        ih ledger h.skip ((foundInPlace_of_none own).1 found)
      exact ⟨next, tail, ok, by rw [become]; simp, rest, ahead⟩
    | some token =>
      obtain ⟨here, later⟩ := (foundInPlace_of_some own).1 found
      rw [Chunk.note_of_some own, List.foldl_cons, List.foldl_cons]
      cases renamed : token.renaming? scheme ledger.asterisks with
      | none =>
        have kept : chunk.renaming? scheme ledger.asterisks = none := by
          rw [Chunk.renaming?, own, Option.bind_some, renamed, Option.map_none]
        rw [scopeToken_of_silent renamed] at later ⊢
        rw [Chunk.respell_of_none kept]
        obtain ⟨next, tail, ok, become, rest, ahead⟩ := ih _ h.skip later
        exact ⟨next, tail, ok, by rw [become]; simp, rest, ahead⟩
      | some r =>
        obtain ⟨middle, step, done, comes⟩ :=
          scopeToken_of_found part h renamed (here (by rw [renamed]; rfl))
        rw [step] at later ⊢
        rw [Chunk.respell_of_some (Chunk.renaming?_eq_some_iff.2 ⟨own, renamed⟩)]
        obtain ⟨next, tail, ok, become, rest, ahead⟩ := ih _ comes later
        exact ⟨next, tail, ok, by rw [become, done]; simp, rest, ahead⟩

/-! ### Where a chunk is found -/

/-- A fragment is found where it stands exactly if it stands open there, and nowhere earlier. -/
theorem found_fragment_iff {passed : Text} {token : Token}
    (h : ComesToChunks behind passed (.fragment token :: todo) cursor)
    (plainly : Place.StartsPlainly token.text)
    (byName : ∀ onId value, token ≠ .attributeValue onId value) :
    (∃ before, Place.ofToken? token cursor.done.getLast? cursor.rest =
        some ⟨before, token.text, [], Chunk.spellAll todo ++ behind⟩) ↔
      Place.StandsFirst token.text cursor.done.getLast? passed (Chunk.spellAll todo ++ behind) := by
  have text : cursor.rest = passed ++ token.text ++ (Chunk.spellAll todo ++ behind) := by
    rw [h.rest, Chunk.spellAll_cons]
    simp [Chunk.spell, Chunk.opening, Chunk.old, Chunk.closing]
  rw [Place.ofToken?_of_name byName, text, ← Place.ofName?_eq_some_iff plainly]
  constructor
  · rintro ⟨before, found⟩
    have whole := Place.spell_ofName? found
    rw [Place.spell, List.append_nil] at whole
    obtain rfl : before = passed := List.append_cancel_right (List.append_cancel_right whole)
    exact found
  · intro found
    exact ⟨passed, found⟩

/-- An attribute selector is always found where it stands: the search cuts attribute selectors as the
tokeniser does, and an earlier one of the same kind and value would have been renamed. -/
theorem found_named {passed : List Chunk} {a : NamedAttribute} {token : Token}
    (h : ComesToChunks behind (Chunk.spellAll passed) (.named a :: todo) cursor)
    (aligned : NamedAttribute.recogniser.scan (Chunk.spellAll (passed ++ .named a :: todo)) =
      (passed ++ .named a :: todo).flatMap Chunk.segments)
    (silent : ∀ chunk ∈ passed, chunk.renaming? scheme 0 = none)
    (own : a.token? = some token) (renamed : (token.renaming? scheme 0).isSome) :
    ∃ before, Place.ofToken? token cursor.done.getLast? cursor.rest =
      some ⟨before, a.value, a.closing, Chunk.spellAll todo ++ behind⟩ := by
  obtain rfl : token = .attributeValue a.onId a.value := by
    unfold NamedAttribute.token? at own
    split at own
    · cases own
    · exact (Option.some.inj own).symm
  have text : cursor.rest = Chunk.spellAll (passed ++ .named a :: todo) ++ behind := by
    rw [h.rest, Chunk.spellAll_append]
  rw [List.flatMap_append, List.flatMap_cons] at aligned
  have scan : NamedAttribute.recogniser.scan (Chunk.spellAll (passed ++ .named a :: todo) ++ behind) =
      passed.flatMap Chunk.segments ++ .hit a :: NamedAttribute.recogniser.scan
        (NamedAttribute.recogniser.spellAll (todo.flatMap Chunk.segments) ++ behind) :=
    NamedAttribute.scan_append_of_hit behind aligned
  have misses : ∀ segment ∈ passed.flatMap Chunk.segments,
      !Place.isNamed a.onId a.value segment := by
    intro segment mem
    obtain ⟨chunk, before, mem⟩ := List.mem_flatMap.1 mem
    cases segment with
    | plain c => rfl
    | hit b =>
      obtain rfl : chunk = .named b := by
        cases chunk with
        | named b' =>
          cases List.mem_singleton.1 mem
          rfl
        | _ =>
          obtain ⟨c, -, same⟩ := List.mem_map.1 mem
          cases same
      have kept := Chunk.renaming?_eq_none_iff.1 (silent _ before)
      cases named : Place.isNamed a.onId a.value (.hit b) with
      | false => rfl
      | true =>
        simp only [Place.isNamed, Bool.and_eq_true, beq_iff_eq] at named
        have own' : b.token? = some (.attributeValue a.onId a.value) := by
          rw [← own, NamedAttribute.token?, NamedAttribute.token?, named.1, named.2]
        rw [kept _ own'] at renamed
        cases renamed
  refine ⟨NamedAttribute.recogniser.spellAll (passed.flatMap Chunk.segments) ++ a.opening, ?_⟩
  rw [text]
  unfold Place.ofToken? Place.ofValue?
  dsimp only
  rw [Place.span_eq_iff.2 ⟨scan, by simp [Place.isNamed], misses⟩]
  simp only [Recogniser.spellAll_scan, Chunk.spellAll_flatMap_segments]

theorem namesOpen_of_none {previous : Option Char} {passed : Text}
    (h : chunk.renaming? scheme ledger.asterisks = none) :
    NamesOpen scheme part behind (chunk :: todo) ledger previous passed ↔
      NamesOpen scheme part behind todo (chunk.note scheme part ledger) previous
        (passed ++ chunk.spell) := by
  rw [NamesOpen, h]

theorem namesOpen_of_some {previous : Option Char} {passed : Text} {change : Token × Renaming}
    (h : chunk.renaming? scheme ledger.asterisks = some change) :
    NamesOpen scheme part behind (chunk :: todo) ledger previous passed ↔
      (∀ token, chunk = .fragment token →
        Place.StandsFirst token.text previous passed (Chunk.spellAll todo ++ behind)) ∧
      NamesOpen scheme part behind todo (chunk.note scheme part ledger)
        ((passed ++ chunk.respell scheme ledger.asterisks).getLast?.or previous) [] := by
  rw [NamesOpen, h]

/-- What is asked of fragments that are renamed. -/
def FragmentsPlain (scheme : Scheme) (todo : List Chunk) : Prop :=
  ∀ token, Chunk.fragment token ∈ todo → (token.renaming? scheme 0).isSome →
    Place.StartsPlainly token.text ∧ ∀ onId value, token ≠ .attributeValue onId value

/-- A run over the chunks of a part has come to some of them, and has passed others since a chunk was
renamed last.  Attribute selectors are cut there as they are in the part. -/
structure Reaches (scheme : Scheme) (behind : Text) (passed todo : List Chunk) (cursor : Cursor) : Prop where
  comes : ComesToChunks behind (Chunk.spellAll passed) todo cursor
  aligned : NamedAttribute.recogniser.scan (Chunk.spellAll (passed ++ todo)) =
    (passed ++ todo).flatMap Chunk.segments
  silent : ∀ chunk ∈ passed, chunk.renaming? scheme 0 = none
  plain : FragmentsPlain scheme todo

namespace Reaches
variable {passed : List Chunk} {token : Token}

/-- A run starts in front of the chunks of a part. -/
theorem start (named : startsWithDigit part = false) (h : ComesToChunks behind [] (chunks part) cursor) :
    Reaches scheme behind [] (chunks part) cursor where
  comes := h
  aligned := by rw [List.nil_append, segments_chunks named, spell_chunks]
  silent := nofun
  plain _ mem renamed := startsPlainly_of_mem mem renamed

/-- A chunk that is not renamed is passed. -/
theorem skip {n : Nat} (h : Reaches scheme behind passed (chunk :: todo) cursor)
    (kept : chunk.renaming? scheme n = none) :
    Reaches scheme behind (passed ++ [chunk]) todo cursor where
  comes := by simpa using h.comes.skip
  aligned := by
    rw [List.append_assoc]
    exact h.aligned
  silent := by
    intro other mem
    rcases List.mem_append.1 mem with mem | mem
    · exact h.silent other mem
    · rw [List.mem_singleton.1 mem]
      exact Chunk.renaming?_eq_none_of kept
  plain token mem := h.plain token (List.mem_cons_of_mem chunk mem)

/-- The token of a chunk that is renamed is found where it stands, if it is the value of an attribute or
stands open there first. -/
theorem found_iff (h : Reaches scheme behind passed (chunk :: todo) cursor)
    (own : chunk.token? = some token) (renamed : (token.renaming? scheme 0).isSome) :
    (∃ before, Place.ofToken? token cursor.done.getLast? cursor.rest =
        some ⟨before, chunk.old, chunk.closing, Chunk.spellAll todo ++ behind⟩) ↔
      ∀ token, chunk = .fragment token →
        Place.StandsFirst token.text cursor.done.getLast? (Chunk.spellAll passed)
          (Chunk.spellAll todo ++ behind) := by
  cases chunk with
  | text t => cases own
  | fragment own' =>
    cases own
    obtain ⟨plainly, byName⟩ := h.plain token List.mem_cons_self renamed
    refine (found_fragment_iff h.comes plainly byName).trans ?_
    constructor
    · rintro first _ ⟨⟩
      exact first
    · intro first
      exact first token rfl
  | named a =>
    refine iff_of_true (found_named h.comes h.aligned h.silent own renamed) ?_
    rintro token ⟨⟩

/-- A chunk that is found where it stands is renamed, and the run comes to the next with nothing passed. -/
theorem step {r : Renaming} (part : Text) (h : Reaches scheme behind passed (chunk :: todo) cursor)
    (own : chunk.token? = some token) (renamed : token.renaming? scheme ledger.asterisks = some r)
    (found : ∃ before, Place.ofToken? token cursor.done.getLast? cursor.rest =
      some ⟨before, chunk.old, chunk.closing, Chunk.spellAll todo ++ behind⟩) :
    ∃ next, scopeToken scheme part (ledger, cursor) token = (ledger.note scheme part token, next) ∧
      next.done.getLast? = ((Chunk.spellAll passed ++ chunk.respell scheme ledger.asterisks).getLast?.or
        cursor.done.getLast?) ∧
      Reaches scheme behind [] todo next := by
  obtain ⟨next, step, done, comes⟩ := scopeToken_of_found part h.comes renamed found
  refine ⟨next, step, ?_, comes, ?_, nofun, fun token mem => h.plain token (List.mem_cons_of_mem chunk mem)⟩
  · rw [done, List.getLast?_append, Chunk.respell_of_some (Chunk.renaming?_eq_some_iff.2 ⟨own, renamed⟩)]
  · have aligned := h.aligned
    rw [List.flatMap_append, List.flatMap_cons, ← List.append_assoc] at aligned
    have tail := Recogniser.scan_spellAll aligned
    rwa [Chunk.spellAll_flatMap_segments] at tail

end Reaches

/-- The tokens of chunks are found where they stand exactly if their names stand open. -/
theorem foundInPlace_iff {passed : List Chunk} (ledger : Ledger)
    (h : Reaches scheme behind passed todo cursor) :
    FoundInPlace scheme part behind todo (ledger, cursor) ↔
      NamesOpen scheme part behind todo ledger cursor.done.getLast? (Chunk.spellAll passed) := by
  induction todo generalizing passed ledger cursor with
  | nil => exact iff_of_true trivial trivial
  | cons chunk todo ih =>
    -- The chunks since the last one that was renamed grow by one that is not.
    have skip (kept : chunk.renaming? scheme ledger.asterisks = none) (ledger : Ledger) :
        FoundInPlace scheme part behind todo (ledger, cursor) ↔
          NamesOpen scheme part behind todo ledger cursor.done.getLast?
            (Chunk.spellAll passed ++ chunk.spell) := by
      simpa using ih ledger (h.skip kept)
    cases own : chunk.token? with
    | none =>
      have kept : chunk.renaming? scheme ledger.asterisks = none := by rw [Chunk.renaming?, own]; rfl
      rw [foundInPlace_of_none own, namesOpen_of_none kept, Chunk.note_of_none own]
      exact skip kept ledger
    | some token =>
      rw [foundInPlace_of_some own]
      cases renamed : token.renaming? scheme ledger.asterisks with
      | none =>
        have kept : chunk.renaming? scheme ledger.asterisks = none := by
          rw [Chunk.renaming?, own, Option.bind_some, renamed, Option.map_none]
        rw [namesOpen_of_none kept, Chunk.note_of_some own, scopeToken_of_silent renamed]
        simp only [Option.isSome_none, Bool.false_eq_true, false_imp_iff, true_and]
        exact skip kept _
      | some r =>
        have some : (token.renaming? scheme 0).isSome := by
          rw [Token.isSome_renaming? token 0 ledger.asterisks, renamed]
          rfl
        have here := h.found_iff own some
        rw [namesOpen_of_some (Chunk.renaming?_eq_some_iff.2 ⟨own, renamed⟩), Chunk.note_of_some own]
        simp only [Option.isSome_some, forall_const]
        rw [here]
        refine and_congr_right fun open_ => ?_
        obtain ⟨next, step, last, reaches⟩ := h.step part own renamed (here.2 open_)
        rw [step, ← last]
        exact ih _ reaches

/-! ### Parts -/

/-- The tokens of a part are found where they stand exactly if its names stand open. -/
theorem foundInPlace_chunks_iff (ledger : Ledger)
    (h : ComesToChunks behind [] (chunks part) cursor) :
    FoundInPlace scheme part behind (chunks part) (ledger, cursor) ↔
      NamesOpen scheme part behind (chunks part) ledger cursor.done.getLast? [] := by
  cases digit : startsWithDigit part with
  | true =>
    have none : chunks part = [.text part] := by rw [chunks, if_pos digit]
    rw [none, foundInPlace_of_none rfl, namesOpen_of_none rfl]
    exact iff_of_true trivial trivial
  | false =>
    exact foundInPlace_iff ledger (.start digit h)

variable {list piece gap : Text} {earlier later : List Text}

/-- The part of a piece is found where it stands, and the cursor comes to its chunks. -/
theorem seek_part (done : Text) (later : List Text) (nonempty : Text.trim piece ≠ []) (mem : piece ∈ CommaList.split list)
    (gaps : IsGap gap) :
    Text.breakAt? (NamedAttribute.normalise (Text.trim piece)) (gap ++ pending (piece :: later)) =
        some (gap ++ Text.leading piece, textBehind piece later) ∧
      (Cursor.seek done (gap ++ pending (piece :: later))
        (NamedAttribute.normalise (Text.trim piece))).done = done ++ (gap ++ Text.leading piece) ∧
      ComesToChunks (textBehind piece later) [] (chunks (NamedAttribute.normalise (Text.trim piece)))
        (Cursor.seek done (gap ++ pending (piece :: later))
          (NamedAttribute.normalise (Text.trim piece))) := by
  have found : Text.breakAt? (NamedAttribute.normalise (Text.trim piece))
      (gap ++ pending (piece :: later)) =
        some (gap ++ Text.leading piece, textBehind piece later) := by
    rw [pending_cons, ← List.append_assoc]
    exact breakAt?_part nonempty gaps (noComma_of_mem_split list mem) (textBehind piece later)
  refine ⟨found, ?_, ?_, ?_⟩
  · rw [Cursor.seek, found]
  · rw [Cursor.seek, found, spell_chunks]
    rfl
  · rw [Cursor.seek, found, spell_chunks]
    exact Nat.add_sub_cancel_left _ _

/-- A part whose names stand open becomes itself with its names renamed. -/
theorem becomes_of_partOpen (nonempty : Text.trim piece ≠ [])
    (mem : piece ∈ CommaList.split list) (open_ : PartOpen scheme ledger earlier piece later) :
    PartBecomes scheme ((partsOf earlier).foldl (notePart scheme) ledger) earlier piece later
      (renamedPart scheme ((partsOf earlier).foldl (notePart scheme) ledger) (Text.trim piece)) := by
  intro done gap gaps last
  rw [PartOpen, ← last] at open_
  generalize (partsOf earlier).foldl (notePart scheme) ledger = ledger at open_ ⊢
  obtain ⟨-, behind, comes⟩ := seek_part done later nonempty mem gaps
  rw [← behind] at open_
  obtain ⟨next, tail, run, become, rest, ahead⟩ :=
    run_chunks _ ledger comes ((foundInPlace_chunks_iff ledger comes).2 open_)
  rw [tokens_chunks] at run
  rw [behind, List.nil_append] at become
  have state : scopedPart scheme ledger done (gap ++ pending (piece :: later))
      (NamedAttribute.normalise (Text.trim piece)) = (notePart scheme ledger (Text.trim piece), next) :=
    run
  have text : next.text = done ++ (gap ++ Text.leading piece) ++
      renamedPart scheme ledger (Text.trim piece) ++ textBehind piece later := by
    rw [Cursor.text, rest, ← List.append_assoc, become]
    rfl
  have resume : next.resume = (done ++ (gap ++ Text.leading piece) ++
      renamedPart scheme ledger (Text.trim piece)).bytes := by
    rw [Cursor.resume_eq, ahead, rest, Text.bytes_append, Nat.min_eq_left (Nat.le_add_right _ _),
      ← Text.bytes_append, become]
    rfl
  rw [scopePart_of_cut rfl rfl, state]
  dsimp only
  rw [text, resume]

theorem renamedPart_nil (ledger : Ledger) : renamedPart scheme ledger [] = [] := rfl

/-- Once the names of the parts before it stand open, the tokens of a part are found where they stand
exactly if its own names stand open. -/
theorem foundAtTheirPlaces_iff (ledger : Ledger)
    (cut : CommaList.split list = earlier ++ piece :: later) (nonempty : Text.trim piece ≠ [])
    (open_ : ∀ before q after, earlier = before ++ q :: after →
      PartOpen scheme ledger before q (after ++ piece :: later)) :
    ∃ progress, (partsOf earlier).foldlM (scopePart scheme) (.start list ledger) = .ok progress ∧
      (FoundAtTheirPlaces scheme progress (Text.trim piece) ↔
        PartOpen scheme ledger earlier piece later) := by
  obtain ⟨done, gap, ok, become, gaps⟩ := run_before (renamedPart scheme) renamedPart_nil
    ledger cut (by simp) fun before q after split part =>
      becomes_of_partOpen part (show q ∈ CommaList.split list by rw [cut, split]; simp)
        (open_ before q after split)
  refine ⟨_, ok, ?_⟩
  obtain ⟨found, behind, comes⟩ := seek_part done later nonempty
    (show piece ∈ CommaList.split list by rw [cut]; simp) gaps
  rw [PartOpen, ← getLast?_before become, ← behind, ← foundInPlace_chunks_iff _ comes]
  constructor
  · rintro ⟨done', rest', gap', after, text, offset, found', same⟩
    obtain ⟨rfl, rfl⟩ := Text.append_inj_of_bytes text offset.symm
    rw [found] at found'
    cases found'
    exact same
  · intro same
    exact ⟨done, gap ++ pending (piece :: later), _, _, rfl, rfl, found, same⟩

/-- **When no name is recorded without being renamed.**  Every token that is renamed is found exactly
where the tokeniser found it, in every part of the list, exactly if every name that is renamed stands
open there and nowhere between it and the name renamed before it. -/
theorem noPhantoms_iff (scheme : Scheme) (list : Text) (ledger : Ledger) :
    NoPhantoms scheme list ledger ↔ PartsOpen scheme list ledger := by
  constructor
  · rintro ⟨found, -⟩ earlier piece later cut
    induction size : earlier.length using Nat.strongRecOn generalizing earlier piece later with
    | ind n ih =>
      subst size
      by_cases part : Text.trim piece = []
      · rw [PartOpen, part]
        exact trivial
      · obtain ⟨progress, reached, iff⟩ := foundAtTheirPlaces_iff ledger cut part
          fun before q after split => ih before.length (by rw [split]; simp) before q _
            (by rw [cut, split]; simp) rfl
        refine iff.1 (found progress (Text.trim piece) (partsOf later) ⟨_, ?_, reached⟩)
        rw [entries_eq_partsOf, cut, ← List.singleton_append, partsOf_append, partsOf_append,
          partsOf_of_part part, List.singleton_append]
  · intro open_
    constructor
    · rintro progress part later ⟨parts, cut, reached⟩
      obtain ⟨before, piece, after, pieces, rfl, rfl, nonempty⟩ := exists_piece_of_entries cut
      obtain ⟨progress', reached', iff⟩ := foundAtTheirPlaces_iff ledger pieces nonempty
        fun before' q after' split => open_ before' q _ (by rw [pieces, split]; simp)
      rw [reached] at reached'
      cases reached'
      exact iff.2 (open_ before piece after pieces)
    · exact scopeList_of_becomes (renamedPart scheme) renamedPart_nil ledger fun before piece after cut part =>
        becomes_of_partOpen part (show piece ∈ CommaList.split list by rw [cut]; simp)
          (open_ before piece after cut)

/-- Not every list is free of phantoms: the tokens of `x-foo` are the types `x` and `foo`, the hyphen
makes neither a name of its own for the search, and both are recorded of a list that stays as it is. -/
theorem not_noPhantoms :
    ¬ NoPhantoms ⟨{}, .literal "__asterisk".toList, id, Suffix.attach (Suffix.ofSource [])⟩
      "x-foo".toList {} := by
  rintro ⟨-, renamed⟩
  have stays : (scopeList ⟨{}, .literal "__asterisk".toList, id, Suffix.attach (Suffix.ofSource [])⟩
      "x-foo".toList {}).map Prod.snd = .ok "x-foo".toList := by decide +kernel
  have become : CommaList.join (becomeEach
      ⟨{}, .literal "__asterisk".toList, id, Suffix.attach (Suffix.ofSource [])⟩
      (renamedPart ⟨{}, .literal "__asterisk".toList, id, Suffix.attach (Suffix.ofSource [])⟩) {}
      (CommaList.split "x-foo".toList)) = ".x_el_1oN-.foo_el_1oN".toList := by decide +kernel
  rw [renamed, become] at stays
  have same : ".x_el_1oN-.foo_el_1oN".toList = "x-foo".toList := Except.ok.inj stays
  exact absurd same (by decide)

end Selector
end ScopedCss
