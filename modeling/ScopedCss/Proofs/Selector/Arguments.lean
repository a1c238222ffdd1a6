import ScopedCss.Proofs.Selector.Calls

/-!
# Names in the arguments of calls

A call has no name to rename, so the cursor stays in front of it, and the next name is looked for in its
argument first: the row in `:lang(tr) tr` is renamed in the language (`not_keepsCalls`).

A list whose names stand open at their places keeps its calls.  The converse holds as far as it can: of
names that stand open elsewhere, only those in calls matter.  So where nothing but calls is in the way of a
name, the calls are kept exactly if nothing is (`keepsCalls_iff`).
-/
namespace ScopedCss.Selector

/-- A name that stands behind a text, in chunks, touches a call. -/
def TouchesCall (chunks : List Chunk) (s name : Text) : Prop :=
  ∃ before chunk after f, chunks = before ++ chunk :: after ∧ chunk.call? = some f ∧
    (Chunk.spellAll before).length < s.length + name.length ∧
    s.length < (Chunk.spellAll before).length + f.length

/-- A name stands open behind chunks, and earlier only in calls. -/
structure OpenAside (name : Text) (previous : Option Char) (passed : List Chunk) (after : Text) : Prop where
  here : Place.StandsOpen name previous (Chunk.spellAll passed) after
  earlier : ∀ s t, s ++ name ++ t = Chunk.spellAll passed ++ name ++ after →
    Place.StandsOpen name previous s t → s.length < (Chunk.spellAll passed).length →
      TouchesCall passed s name

variable (scheme : Scheme) (part behind : Text)

/-- Every fragment that is renamed stands open, and behind the chunk that was renamed before it nowhere
earlier but in calls.  Given are the character behind which the search starts and the chunks since then. -/
def NamesOpenAside : List Chunk → Ledger → Option Char → List Chunk → Prop
  | [], _, _, _ => True
  | chunk :: chunks, ledger, previous, passed =>
    match chunk.renaming? scheme ledger.asterisks with
    | none => NamesOpenAside chunks (chunk.note scheme part ledger) previous (passed ++ [chunk])
    | some _ =>
      (∀ token, chunk = .fragment token →
        OpenAside token.text previous passed (Chunk.spellAll chunks ++ behind)) ∧
      NamesOpenAside chunks (chunk.note scheme part ledger)
        ((Chunk.spellAll passed ++ chunk.respell scheme ledger.asterisks).getLast?.or previous) []

/-- Calls aside, the names of the part of a piece stand open in the list. -/
def PartOpenAside (ledger : Ledger) (earlier : List Text) (piece : Text) (later : List Text) : Prop :=
  NamesOpenAside scheme (NamedAttribute.normalise (Text.trim piece)) (textBehind piece later)
    (chunks (NamedAttribute.normalise (Text.trim piece)))
    ((partsOf earlier).foldl (notePart scheme) ledger) (textBefore earlier piece).getLast? []

/-- Calls aside, the names of every part of a list stand open in it. -/
def PartsOpenAside (list : Text) (ledger : Ledger) : Prop :=
  ∀ earlier piece later, CommaList.split list = earlier ++ piece :: later →
    PartOpenAside scheme ledger earlier piece later

variable {scheme part behind} {ledger : Ledger} {cursor : Cursor} {chunk : Chunk} {todo : List Chunk}
  {list piece : Text} {earlier later : List Text}

/-! ### Names that stand open -/

/-- Tokens that are found where they stand are found outside calls. -/
theorem findsOutside_of_foundInPlace {calls : List Call} {state : Ledger × Cursor}
    (found : FoundInPlace scheme part behind todo state)
    (clear : ∀ pre chunk post, todo = pre ++ chunk :: post → chunk.call? = none → ∀ call ∈ calls,
      call.ClearOf chunk.old (chunk.closing ++ (Chunk.spellAll post ++ behind))) :
    FindsOutside calls scheme part (todo.filterMap Chunk.token?) state := by
  induction todo generalizing state with
  | nil => exact trivial
  | cons chunk todo ih =>
    have clear' : ∀ pre other post, todo = pre ++ other :: post → other.call? = none → ∀ call ∈ calls,
        call.ClearOf other.old (other.closing ++ (Chunk.spellAll post ++ behind)) :=
      fun pre other post split => clear (chunk :: pre) other post (by rw [split]; rfl)
    rw [List.filterMap_cons]
    cases own : chunk.token? with
    | none => exact ih ((foundInPlace_of_none own).1 found) clear'
    | some token =>
      obtain ⟨here, later⟩ := (foundInPlace_of_some own).1 found
      refine ⟨fun renamed place answer => ?_, ih later clear'⟩
      obtain ⟨before, answer'⟩ := here renamed
      rw [answer] at answer'
      cases answer'
      exact clear [] chunk todo rfl (Chunk.call?_of_renamed own renamed)

/-- Once the names of the parts before it stand open, the scoping comes to the part of a piece with the
cursor in front of its chunks. -/
theorem reaches_part (ledger : Ledger) (cut : CommaList.split list = earlier ++ piece :: later)
    (nonempty : Text.trim piece ≠ [])
    (open_ : ∀ before q after, earlier = before ++ q :: after →
      PartOpen scheme ledger before q (after ++ piece :: later)) :
    ∃ done rest, (partsOf earlier).foldlM (scopePart scheme) (.start list ledger) =
        .ok ⟨(partsOf earlier).foldl (notePart scheme) ledger, done ++ rest, done.bytes⟩ ∧
      (Cursor.seek done rest (NamedAttribute.normalise (Text.trim piece))).done.getLast? =
        (textBefore earlier piece).getLast? ∧
      ComesToChunks (textBehind piece later) [] (chunks (NamedAttribute.normalise (Text.trim piece)))
        (Cursor.seek done rest (NamedAttribute.normalise (Text.trim piece))) := by
  obtain ⟨done, gap, ok, become, gaps⟩ := run_before (renamedPart scheme) renamedPart_nil
    ledger cut (by simp) fun before q after split part =>
      becomes_of_partOpen part (show q ∈ CommaList.split list by rw [cut, split]; simp)
        (open_ before q after split)
  obtain ⟨-, behind, comes⟩ := seek_part done later nonempty
    (show piece ∈ CommaList.split list by rw [cut]; simp) gaps
  exact ⟨done, gap ++ pending (piece :: later), ok, by rw [behind, getLast?_before become], comes⟩

/-- A list whose names stand open keeps its calls. -/
theorem keepsCalls_of_partsOpen (open_ : PartsOpen scheme list ledger) :
    KeepsCalls scheme list ledger := by
  refine keepsCalls_iff_namesOutside.2 ⟨⟨_, ((noPhantoms_iff scheme list ledger).2 open_).renamed⟩, ?_⟩
  rintro progress part later ⟨parts, cut, reached⟩ done rest text offset
  obtain ⟨before, piece, after, pieces, rfl, rfl, nonempty⟩ := exists_piece_of_entries cut
  obtain ⟨done', rest', reached', last, comes⟩ := reaches_part ledger pieces nonempty
    fun before' q after' split => open_ before' q _ (by rw [pieces, split]; simp)
  rw [reached] at reached'
  cases reached'
  obtain ⟨rfl, rfl⟩ := Text.append_inj_of_bytes text offset.symm
  -- Every token is found at its own chunk, and no chunk that is renamed is a call.
  rw [← tokens_chunks]
  refine findsOutside_of_foundInPlace ((foundInPlace_chunks_iff _ comes).2 ?_)
    fun pre chunk post split none call mem => ?_
  · rw [last]
    exact open_ before piece after pieces
  · rw [calls, pieces] at mem
    exact clearOf_chunk mem split none

/-! ### Names that stand open, calls aside -/

/-- What is found outside calls is the name at its place, if only calls are in the way. -/
theorem standsFirst_of_clear {name after : Text} {previous : Option Char} {passed : List Chunk}
    {calls : List Call} (plainly : Place.StartsPlainly name)
    (aside : OpenAside name previous passed after)
    (known : callsAmong (name ++ after) passed ⊆ calls)
    (clear : ∀ place, Place.ofName? name previous (Chunk.spellAll passed ++ name ++ after) = some place →
      ∀ call ∈ calls, call.ClearOf place.old (place.closing ++ place.after)) :
    Place.StandsFirst name previous (Chunk.spellAll passed) after := by
  obtain ⟨s, t, whole, shorter, first⟩ := Place.exists_standsFirst aside.here
  have answer := (Place.ofName?_eq_some_iff plainly).2 first
  rw [whole] at answer
  rcases Nat.lt_or_eq_of_le shorter with inside | same
  · -- Found earlier, the name would touch a call, and nothing that is found does.
    obtain ⟨before, chunk, rest, f, split, call, starts, ends⟩ :=
      aside.earlier s t whole first.1 inside
    have mem : ⟨f, Chunk.spellAll rest ++ (name ++ after)⟩ ∈ callsAmong (name ++ after) passed := by
      rw [split, callsAmong_append, callsAmong, call]
      simp
    have sizes := congrArg List.length whole
    rw [split, Chunk.spellAll_append, Chunk.spellAll_cons, Chunk.spell_of_call call] at sizes
    simp only [List.length_append] at sizes
    rcases clear _ answer _ (known mem) with ahead | past
    · simp only [List.length_append, List.length_nil] at ahead
      omega
    · simp only [List.length_append, List.length_nil] at past
      omega
  · rw [List.append_assoc, List.append_assoc] at whole
    obtain ⟨rfl, rest⟩ := List.append_inj whole same
    rwa [List.append_cancel_left rest] at first

theorem namesOpenAside_of_none {previous : Option Char} {passed : List Chunk}
    (h : chunk.renaming? scheme ledger.asterisks = none) :
    NamesOpenAside scheme part behind (chunk :: todo) ledger previous passed ↔
      NamesOpenAside scheme part behind todo (chunk.note scheme part ledger) previous
        (passed ++ [chunk]) := by
  rw [NamesOpenAside, h]

theorem namesOpenAside_of_some {previous : Option Char} {passed : List Chunk}
    {change : Token × Renaming} (h : chunk.renaming? scheme ledger.asterisks = some change) :
    NamesOpenAside scheme part behind (chunk :: todo) ledger previous passed ↔
      (∀ token, chunk = .fragment token →
        OpenAside token.text previous passed (Chunk.spellAll todo ++ behind)) ∧
      NamesOpenAside scheme part behind todo (chunk.note scheme part ledger)
        ((Chunk.spellAll passed ++ chunk.respell scheme ledger.asterisks).getLast?.or previous) [] := by
  rw [NamesOpenAside, h]

/-- The tokens of chunks that are found outside calls are found where they stand, if only calls are in
the way. -/
theorem foundInPlace_of_outside {calls : List Call} {passed : List Chunk} (ledger : Ledger)
    (h : Reaches scheme behind passed todo cursor) (known : callsAmong behind (passed ++ todo) ⊆ calls)
    (aside : NamesOpenAside scheme part behind todo ledger cursor.done.getLast? passed)
    (outside : FindsOutside calls scheme part (todo.filterMap Chunk.token?) (ledger, cursor)) :
    FoundInPlace scheme part behind todo (ledger, cursor) := by
  induction todo generalizing passed ledger cursor with
  | nil => exact trivial
  | cons chunk todo ih =>
    have longer : callsAmong behind (passed ++ [chunk] ++ todo) ⊆ calls := by
      rw [List.append_assoc]
      exact known
    rw [List.filterMap_cons] at outside
    cases own : chunk.token? with
    | none =>
      have kept : chunk.renaming? scheme ledger.asterisks = none := by rw [Chunk.renaming?, own]; rfl
      rw [own] at outside
      rw [namesOpenAside_of_none kept, Chunk.note_of_none own] at aside
      rw [foundInPlace_of_none own]
      exact ih ledger (h.skip kept) longer aside outside
    | some token =>
      rw [own] at outside
      obtain ⟨clear, later⟩ := outside
      rw [foundInPlace_of_some own]
      cases renamed : token.renaming? scheme ledger.asterisks with
      | none =>
        have kept : chunk.renaming? scheme ledger.asterisks = none := by
          rw [Chunk.renaming?, own, Option.bind_some, renamed, Option.map_none]
        rw [namesOpenAside_of_none kept, Chunk.note_of_some own] at aside
        rw [scopeToken_of_silent renamed] at later ⊢
        exact ⟨by simp, ih _ (h.skip kept) longer aside later⟩
      | some r =>
        have some : (token.renaming? scheme 0).isSome := by
          rw [Token.isSome_renaming? token 0 ledger.asterisks, renamed]
          rfl
        rw [namesOpenAside_of_some (Chunk.renaming?_eq_some_iff.2 ⟨own, renamed⟩),
          Chunk.note_of_some own] at aside
        have here := (h.found_iff own some).2 fun token' same => by
          subst same
          cases own
          have spelled : Chunk.spellAll (.fragment token :: todo) ++ behind =
              token.text ++ (Chunk.spellAll todo ++ behind) := by
            simp [Chunk.spell, Chunk.opening, Chunk.old, Chunk.closing]
          obtain ⟨plainly, byName⟩ := h.plain token List.mem_cons_self some
          refine standsFirst_of_clear plainly (aside.1 token rfl) ?_
            fun place answer => clear (by simp [renamed]) place ?_
          · intro call mem
            refine known ?_
            rw [callsAmong_append, spelled]
            exact List.mem_append_left _ mem
          · rwa [Place.ofToken?_of_name byName, h.comes.rest, List.append_assoc, spelled,
              ← List.append_assoc]
        refine ⟨fun _ => here, ?_⟩
        obtain ⟨next, step, last, reaches⟩ := h.step part own renamed here
        rw [step] at later ⊢
        refine ih _ reaches (fun call mem => known ?_) (last ▸ aside.2) later
        rw [List.append_cons, callsAmong_append]
        exact List.mem_append_right _ mem

/-- In a part, the names that are found outside calls are found where they stand, if only calls are in
the way. -/
theorem foundInPlace_chunks_of_outside {calls : List Call} (ledger : Ledger)
    (h : ComesToChunks behind [] (chunks part) cursor) (known : callsAmong behind (chunks part) ⊆ calls)
    (aside : NamesOpenAside scheme part behind (chunks part) ledger cursor.done.getLast? [])
    (outside : FindsOutside calls scheme part (tokens part) (ledger, cursor)) :
    FoundInPlace scheme part behind (chunks part) (ledger, cursor) := by
  cases digit : startsWithDigit part with
  | true =>
    have none : chunks part = [.text part] := by rw [chunks, if_pos digit]
    rw [none, foundInPlace_of_none rfl]
    exact trivial
  | false =>
    rw [← tokens_chunks] at outside
    exact foundInPlace_of_outside ledger (.start digit h) known aside outside

/-- Where only calls are in the way of a name, a list that keeps its calls has nothing in the way. -/
theorem partsOpen_of_keepsCalls (aside : PartsOpenAside scheme list ledger)
    (keeps : KeepsCalls scheme list ledger) : PartsOpen scheme list ledger := by
  intro earlier piece later cut
  induction size : earlier.length using Nat.strongRecOn generalizing earlier piece later with
  | ind n ih =>
    subst size
    by_cases part : Text.trim piece = []
    · rw [PartOpen, part]
      exact trivial
    obtain ⟨done, rest, reached, last, comes⟩ := reaches_part ledger cut part
      fun before q after split => ih before.length (by rw [split]; simp) before q _
        (by rw [cut, split]; simp) rfl
    have outside := keeps.outside _ (Text.trim piece) (partsOf later) ⟨partsOf earlier, ?_, reached⟩
      done rest rfl rfl
    · rw [PartOpen, ← last, ← foundInPlace_chunks_iff _ comes]
      refine foundInPlace_chunks_of_outside _ comes (fun call mem => ?_) ?_ outside
      · rw [calls, cut]
        exact mem_callsOf_piece mem
      · rw [last]
        exact aside earlier piece later cut
    · rw [entries_eq_partsOf, cut, ← List.singleton_append, partsOf_append, partsOf_append,
        partsOf_of_part part, List.singleton_append]

/-- **When calls are left alone.**  A list keeps its calls exactly if it can be scoped and no name is found
in one.  So it is if every name that is renamed stands open, and nowhere between it and the name renamed
before it; and where nothing but calls is in the way of a name, only then. -/
theorem keepsCalls_iff (scheme : Scheme) (list : Text) (ledger : Ledger) :
    (KeepsCalls scheme list ledger ↔
        (∃ result, scopeList scheme list ledger = .ok result) ∧ NamesOutside scheme list ledger) ∧
      (PartsOpen scheme list ledger → KeepsCalls scheme list ledger) ∧
      (PartsOpenAside scheme list ledger → KeepsCalls scheme list ledger →
        PartsOpen scheme list ledger) :=
  ⟨keepsCalls_iff_namesOutside, keepsCalls_of_partsOpen, partsOpen_of_keepsCalls⟩

/-- Not every list keeps its calls: the rows of a table are renamed where their language is named. -/
theorem not_keepsCalls :
    ¬ KeepsCalls ⟨{}, .literal "__asterisk".toList, id, Suffix.attach (Suffix.ofSource [])⟩
      ":lang(tr) tr".toList {} := by
  rintro ⟨-, after, text, kept, ok, texts, stand⟩
  have become : (scopeList ⟨{}, .literal "__asterisk".toList, id, Suffix.attach (Suffix.ofSource [])⟩
      ":lang(tr) tr".toList {}).map Prod.snd = .ok ":lang(.tr_el_1oN) tr".toList := by decide +kernel
  have known : (calls ":lang(tr) tr".toList).map Call.text = [":lang(tr)".toList] := by decide +kernel
  rw [ok] at become
  rw [known] at texts
  obtain ⟨call, others, rfl, same, -⟩ := List.map_eq_cons_iff.1 texts
  obtain ⟨before, behind, whole⟩ := stand.isInfix List.mem_cons_self
  rw [same, show text = ":lang(.tr_el_1oN) tr".toList from Except.ok.inj become] at whole
  -- Only its first character is a colon, and there it does not go on as the call does.
  cases before with
  | nil => cases whole
  | cons c before =>
    have later : ':' ∈ "lang(.tr_el_1oN) tr".toList := by
      rw [← show before ++ ":lang(tr)".toList ++ behind = "lang(.tr_el_1oN) tr".toList from
        (List.cons.inj whole).2]
      simp
    revert later
    decide

end ScopedCss.Selector
