import ScopedCss.Proofs.Selector.Phantoms

/-!
# Calls

The argument of `:nth-…()`, `:lang()` or `:dir()` holds no selectors, and the pseudo-class with its
argument, a *call*, is one token.  Nothing keeps the search for a name out of it, though.  A list keeps its
calls exactly if no name is found in one of them (`keepsCalls_iff_namesOutside`).

What is found, and what is behind it, is taken from the list as it was: the text after the cursor has not
been touched.  The invariant of a run is that the text before the cursor came about by changes outside
calls (`Altered`), and these leave every call in its place (`Altered.laid`).
-/
namespace ScopedCss

/-- The text of a pseudo-class that has its argument with it. -/
def Token.call? : Token → Option Text
  | pseudo name => if '(' ∈ name then some name else none
  | _ => none

theorem Token.text_of_call {token : Token} {f : Text} (h : token.call? = some f) : token.text = f := by
  unfold Token.call? at h
  split at h
  · split at h
    · exact Option.some.inj h
    · cases h
  · cases h

namespace Selector

/-- A call in a text, and what stands behind it. -/
structure Call where
  text : Text
  behind : Text
deriving DecidableEq

/-- Calls stand in a text in this order. -/
inductive Laid : List Call → Text → Prop where
  | nil (t : Text) : Laid [] t
  | cons (before : Text) (call : Call) {calls : List Call} (later : Laid calls call.behind) :
      Laid (call :: calls) (before ++ (call.text ++ call.behind))

/-- The call that a chunk is. -/
def Chunk.call? (chunk : Chunk) : Option Text := chunk.token?.bind Token.call?

/-- The calls among chunks, where the text behind the chunks is given. -/
def callsAmong (behind : Text) : List Chunk → List Call
  | [] => []
  | chunk :: chunks =>
    chunk.call?.toList.map (⟨·, Chunk.spellAll chunks ++ behind⟩) ++ callsAmong behind chunks

/-- The calls in the pieces of a list. -/
def callsOf : List Text → List Call
  | [] => []
  | piece :: later =>
    callsAmong (textBehind piece later) (chunks (NamedAttribute.normalise (Text.trim piece))) ++
      callsOf later

/-- The calls in a list. -/
def calls (list : Text) : List Call := callsOf (CommaList.split list)

/-- A text that gets changed stands before a call or behind it.  Both are given with what is behind. -/
def Call.ClearOf (call : Call) (old behind : Text) : Prop :=
  call.text.length + call.behind.length ≤ behind.length ∨
    old.length + behind.length ≤ call.behind.length

/-- The tokens that are renamed, one after the other, are not found in calls. -/
def FindsOutside (calls : List Call) (scheme : Scheme) (part : Text) :
    List Token → Ledger × Cursor → Prop
  | [], _ => True
  | token :: tokens, state =>
    ((token.renaming? scheme state.1.asterisks).isSome →
      ∀ place, Place.ofToken? token state.2.done.getLast? state.2.rest = some place →
        ∀ call ∈ calls, call.ClearOf place.old (place.closing ++ place.after)) ∧
    FindsOutside calls scheme part tokens (scopeToken scheme part state token)

/-- No name of a list is found in a call, once the list has come to the part of the name. -/
def NamesOutside (scheme : Scheme) (list : Text) (ledger : Ledger) : Prop :=
  ∀ progress part later, ComesTo scheme list (CommaList.entries list) ledger progress part later →
    ∀ done rest, progress.text = done ++ rest → done.bytes = progress.offset →
      FindsOutside (calls list) scheme (NamedAttribute.normalise part)
        (tokens (NamedAttribute.normalise part))
        (progress.ledger, Cursor.seek done rest (NamedAttribute.normalise part))

/-- A list keeps its calls: names are found outside of them, and in what the list becomes they stand
unchanged and in order. -/
structure KeepsCalls (scheme : Scheme) (list : Text) (ledger : Ledger) : Prop where
  outside : NamesOutside scheme list ledger
  kept : ∃ after text kept, scopeList scheme list ledger = .ok (after, text) ∧
    kept.map Call.text = (calls list).map Call.text ∧ Laid kept text

/-! ### The calls of a list -/

theorem Chunk.spell_of_call {chunk : Chunk} {f : Text} (h : chunk.call? = some f) : chunk.spell = f := by
  obtain ⟨token, own, call⟩ := Option.bind_eq_some_iff.1 h
  cases chunk with
  | text t => cases own
  | fragment token' =>
    cases own
    rw [← Token.text_of_call call]
    exact List.append_nil _
  | named a =>
    replace own : a.token? = some token := own
    rw [NamedAttribute.token?] at own
    split at own
    · cases own
    · cases own
      cases call

theorem Laid.behind {calls : List Call} {t : Text} (h : Laid calls t) (before : Text) :
    Laid calls (before ++ t) := by
  cases h with
  | nil => exact .nil _
  | cons gap call later =>
    rw [← List.append_assoc]
    exact .cons (before ++ gap) call later

/-- Calls that stand in a text are parts of it. -/
theorem Laid.isInfix {calls : List Call} {t : Text} (h : Laid calls t) {call : Call}
    (mem : call ∈ calls) : call.text <:+: t := by
  induction h with
  | nil => cases mem
  | cons before first later ih =>
    rcases List.mem_cons.1 mem with rfl | mem
    · exact ⟨before, call.behind, by simp⟩
    · exact (ih mem).trans ⟨before ++ first.text, [], by simp⟩

theorem laid_callsAmong {behind : Text} {calls : List Call} (h : Laid calls behind)
    (chunks : List Chunk) : Laid (callsAmong behind chunks ++ calls) (Chunk.spellAll chunks ++ behind) := by
  induction chunks with
  | nil => exact h
  | cons chunk chunks ih =>
    rw [callsAmong, Chunk.spellAll_cons, List.append_assoc chunk.spell]
    cases own : chunk.call? with
    | none => exact ih.behind chunk.spell
    | some f =>
      rw [Chunk.spell_of_call own]
      exact .cons [] ⟨f, Chunk.spellAll chunks ++ behind⟩ ih

theorem laid_callsOf (pieces : List Text) : Laid (callsOf pieces) (pending pieces) := by
  induction pieces with
  | nil => exact .nil _
  | cons piece later ih =>
    have behind : Laid (callsOf later) (textBehind piece later) := by
      cases later with
      | nil => exact .nil _
      | cons next later =>
        rw [textBehind]
        exact Laid.behind (ih.behind [',']) _
    rw [pending_cons, callsOf]
    conv => rhs; rw [← spell_chunks (NamedAttribute.normalise (Text.trim piece))]
    exact (laid_callsAmong behind _).behind _

/-- The calls of a list stand in it. -/
theorem laid_calls (list : Text) : Laid (calls list) (NamedAttribute.normalise list) := by
  rw [← pending_split]
  exact laid_callsOf _

theorem map_text_callsAmong (behind : Text) (chunks : List Chunk) :
    (callsAmong behind chunks).map Call.text =
      (chunks.filterMap Chunk.token?).filterMap Token.call? := by
  induction chunks with
  | nil => rfl
  | cons chunk chunks ih =>
    rw [callsAmong, List.map_append, ih, List.filterMap_cons, Chunk.call?]
    cases chunk.token? with
    | none => rfl
    | some token =>
      dsimp only
      rw [Option.bind_some, List.filterMap_cons]
      cases token.call? <;> rfl

/-- The calls of a list are the pseudo-classes with arguments among the tokens of its parts. -/
theorem map_text_calls (list : Text) :
    (calls list).map Call.text = (CommaList.entries list).flatMap fun part =>
      (tokens (NamedAttribute.normalise part)).filterMap Token.call? := by
  rw [calls, entries_eq_partsOf]
  induction CommaList.split list with
  | nil => rfl
  | cons piece later ih =>
    rw [callsOf, List.map_append, ih, map_text_callsAmong, tokens_chunks,
      ← List.singleton_append (l := later), partsOf_append, List.flatMap_append]
    by_cases part : Text.trim piece = []
    · rw [partsOf_of_blank part, part]
      rfl
    · rw [partsOf_of_part part]
      simp

/-! ### Where calls stand -/

variable {scheme : Scheme} {behind piece : Text} {chunk : Chunk} {earlier later : List Text}

theorem Chunk.call?_of_renamed {n : Nat} {token : Token} (own : chunk.token? = some token)
    (renamed : (token.renaming? scheme n).isSome) : chunk.call? = none := by
  rw [Chunk.call?, own, Option.bind_some]
  cases token with
  | pseudo name => cases renamed
  | _ => rfl

theorem callsAmong_append (behind : Text) (s t : List Chunk) :
    callsAmong behind (s ++ t) = callsAmong (Chunk.spellAll t ++ behind) s ++ callsAmong behind t := by
  induction s with
  | nil => rfl
  | cons chunk s ih =>
    rw [List.cons_append, callsAmong, callsAmong, ih, Chunk.spellAll_append]
    simp only [List.append_assoc]

/-- A call that stands in a text fits in it. -/
theorem Laid.length_le {calls : List Call} {t : Text} (h : Laid calls t) {call : Call}
    (mem : call ∈ calls) : call.text.length + call.behind.length ≤ t.length := by
  induction h with
  | nil => cases mem
  | cons before first later ih =>
    simp only [List.length_append]
    rcases List.mem_cons.1 mem with rfl | mem
    · omega
    · have := ih mem
      omega

theorem length_le_of_mem_callsAmong {chunks : List Chunk} {call : Call}
    (mem : call ∈ callsAmong behind chunks) :
    behind.length ≤ call.behind.length ∧
      call.text.length + call.behind.length ≤ (Chunk.spellAll chunks).length + behind.length := by
  constructor
  · induction chunks with
    | nil => cases mem
    | cons chunk chunks ih =>
      rcases List.mem_append.1 mem with here | later
      · obtain ⟨f, -, rfl⟩ := List.mem_map.1 here
        simp
      · exact ih later
  · have laid := laid_callsAmong (.nil behind) chunks
    rw [List.append_nil] at laid
    simpa using laid.length_le mem

/-- The pieces to come stand behind a part. -/
theorem length_pending_le (piece : Text) (earlier later : List Text) :
    (pending later).length ≤ (textBehind piece (earlier ++ later)).length := by
  cases later with
  | nil => exact Nat.zero_le _
  | cons next later =>
    simp only [textBehind, commaEach, pending, List.flatMap_append, List.flatMap_cons,
      List.length_append, List.length_cons]
    omega

/-- A call of a list stands in a piece before a given one, or in the pieces from that one on. -/
theorem mem_callsOf_append {call : Call} (mem : call ∈ callsOf (earlier ++ piece :: later)) :
    (pending (piece :: later)).length ≤ call.behind.length ∨ call ∈ callsOf (piece :: later) := by
  induction earlier with
  | nil => exact .inr mem
  | cons first earlier ih =>
    rcases List.mem_append.1 mem with here | there
    · exact .inl (Nat.le_trans (length_pending_le first earlier (piece :: later))
        (length_le_of_mem_callsAmong here).1)
    · exact ih there

/-- The calls of a piece are calls of the list. -/
theorem mem_callsOf_piece {call : Call}
    (mem : call ∈ callsAmong (textBehind piece later)
      (chunks (NamedAttribute.normalise (Text.trim piece)))) :
    call ∈ callsOf (earlier ++ piece :: later) := by
  induction earlier with
  | nil => exact List.mem_append_left _ mem
  | cons first earlier ih => exact List.mem_append_right _ ih

/-- What stands in a chunk that is no call is clear of all calls of the list. -/
theorem clearOf_chunk {pre post : List Chunk} {call : Call}
    (mem : call ∈ callsOf (earlier ++ piece :: later))
    (cut : chunks (NamedAttribute.normalise (Text.trim piece)) = pre ++ chunk :: post)
    (none : chunk.call? = none) :
    call.ClearOf chunk.old (chunk.closing ++ (Chunk.spellAll post ++ textBehind piece later)) := by
  have whole : (pending (piece :: later)).length = (Text.leading piece).length +
      ((Chunk.spellAll pre).length + (chunk.spell.length + (Chunk.spellAll post).length) +
        (textBehind piece later).length) := by
    rw [pending_cons, ← spell_chunks (NamedAttribute.normalise (Text.trim piece)), cut,
      Chunk.spellAll_append, Chunk.spellAll_cons]
    simp only [List.length_append]
  have spelled : chunk.spell.length = chunk.opening.length + chunk.old.length + chunk.closing.length := by
    simp only [Chunk.spell, List.length_append]
  unfold Call.ClearOf
  simp only [List.length_append]
  rcases mem_callsOf_append mem with before | mem
  · right
    omega
  rcases List.mem_append.1 mem with here | there
  · rw [cut, callsAmong_append, callsAmong, none] at here
    rcases List.mem_append.1 here with pre | post
    · have := (length_le_of_mem_callsAmong pre).1
      rw [Chunk.spellAll_cons] at this
      simp only [List.length_append] at this
      right
      omega
    · have := (length_le_of_mem_callsAmong post).2
      left
      omega
  · have := (laid_callsOf later).length_le there
    have := length_pending_le piece [] later
    rw [List.nil_append] at this
    left
    omega

/-! ### Changes outside calls -/

/-- A text after some of its parts were changed, each of which was free to be, with what was behind it.
Given is what stands behind the text. -/
inductive Altered (free : Text → Text → Prop) (rest : Text) : Text → Text → Prop where
  | nil : Altered free rest [] []
  | keep (c : Char) {s t : Text} (later : Altered free rest s t) : Altered free rest (c :: s) (c :: t)
  | change {old s t : Text} (new : Text) (isFree : free old (s ++ rest))
      (later : Altered free rest s t) : Altered free rest (old ++ s) (new ++ t)

namespace Altered
variable {free : Text → Text → Prop} {rest s t : Text}

theorem refl (t : Text) : Altered free rest t t := by
  induction t with
  | nil => exact .nil
  | cons c t ih => exact .keep c ih

theorem append {s' t' : Text} (h : Altered free (s' ++ rest) s t) (h' : Altered free rest s' t') :
    Altered free rest (s ++ s') (t ++ t') := by
  induction h with
  | nil => exact h'
  | keep c _ ih => exact .keep c ih
  | change new isFree _ ih =>
    rw [List.append_assoc, List.append_assoc]
    exact .change new (by rwa [List.append_assoc]) ih

variable {call : Call}

/-- No change starts in a call. -/
theorem exists_inside {text f behind : Text} (front : Text) (h : Altered free rest s t)
    (clear : ∀ old after, free old after → Call.ClearOf ⟨text, behind ++ rest⟩ old after)
    (whole : text = front ++ f) (begun : front ≠ []) (split : s = f ++ behind) :
    ∃ later, t = f ++ later ∧ Altered free rest behind later := by
  induction h generalizing front f with
  | nil =>
    obtain ⟨rfl, rfl⟩ := List.append_eq_nil_iff.1 split.symm
    exact ⟨[], rfl, .nil⟩
  | keep c later ih =>
    cases f with
    | nil =>
      rw [List.nil_append] at split
      exact ⟨_, rfl, split ▸ .keep c later⟩
    | cons d f =>
      obtain ⟨rfl, split'⟩ := List.cons.inj split
      obtain ⟨rest', rfl, altered⟩ := ih (front ++ [c]) (by rw [whole]; simp) (by simp) split'
      exact ⟨rest', rfl, altered⟩
  | @change old s t new isFree later ih =>
    cases f with
    | nil =>
      rw [List.nil_append] at split
      exact ⟨_, rfl, split ▸ .change new isFree later⟩
    | cons d f =>
      exfalso
      have sizes := congrArg List.length split
      have pos := List.length_pos_iff.2 begun
      rcases clear old _ isFree with before | after
      · simp only [whole, List.length_append, List.length_cons] at before sizes
        omega
      · simp only [List.length_append, List.length_cons] at after sizes
        omega

/-- Changes outside a call leave it where it stands. -/
theorem exists_call {before : Text} (h : Altered free rest s t)
    (clear : ∀ old after, free old after → Call.ClearOf ⟨call.text, call.behind ++ rest⟩ old after)
    (split : s = before ++ (call.text ++ call.behind)) :
    ∃ before' later, t = before' ++ (call.text ++ later) ∧ Altered free rest call.behind later := by
  induction h generalizing before with
  | nil =>
    have none := (List.append_eq_nil_iff.1 split.symm).2
    obtain ⟨none, behind⟩ := List.append_eq_nil_iff.1 none
    rw [none, behind]
    exact ⟨[], [], rfl, .nil⟩
  | keep c later ih =>
    cases before with
    | cons d before =>
      obtain ⟨rfl, split'⟩ := List.cons.inj split
      obtain ⟨before', later', rfl, altered⟩ := ih split'
      exact ⟨c :: before', later', rfl, altered⟩
    | nil =>
      cases text : call.text with
      | nil =>
        rw [text, List.nil_append, List.nil_append] at split
        exact ⟨[], _, rfl, split ▸ .keep c later⟩
      | cons d f =>
        rw [text, List.nil_append] at split
        obtain ⟨rfl, split'⟩ := List.cons.inj split
        obtain ⟨later', rfl, altered⟩ := later.exists_inside [c] clear text (by simp) split'
        exact ⟨[], later', rfl, altered⟩
  | @change old s t new isFree later ih =>
    have sizes := congrArg List.length split
    rcases clear old _ isFree with ahead | past
    · -- The call is further on, and so is the text before it, but for its front.
      have front : old.length ≤ before.length := by
        simp only [List.length_append] at ahead sizes
        omega
      obtain ⟨before', rfl⟩ : old <+: before :=
        List.prefix_of_prefix_length_le ⟨s, rfl⟩ ⟨_, split.symm⟩ front
      rw [List.append_assoc] at split
      obtain ⟨before'', later', rfl, altered⟩ := ih (List.append_cancel_left split)
      exact ⟨new ++ before'', later', by simp, altered⟩
    · -- Nothing is left for the call.
      have empty : before = [] ∧ call.text = [] := by
        simp only [List.length_append] at past sizes
        exact ⟨List.length_eq_zero_iff.1 (by omega), List.length_eq_zero_iff.1 (by omega)⟩
      rw [empty.1, empty.2, List.nil_append, List.nil_append] at split
      have altered : Altered free rest call.behind (new ++ t) := split ▸ .change new isFree later
      exact ⟨[], _, by rw [empty.2]; rfl, altered⟩

/-- **Calls survive every change outside of them.** -/
theorem laid {calls : List Call} (laid : Laid calls s) (h : Altered free [] s t)
    (clear : ∀ old after, free old after → ∀ call ∈ calls, call.ClearOf old after) :
    ∃ kept, kept.map Call.text = calls.map Call.text ∧ Laid kept t := by
  induction laid generalizing t with
  | nil => exact ⟨[], rfl, .nil t⟩
  | cons before call later ih =>
    obtain ⟨before', behind, rfl, altered⟩ := h.exists_call
      (fun old after isFree => by simpa using clear old after isFree call List.mem_cons_self) rfl
    obtain ⟨kept, texts, stand⟩ := ih altered fun old after isFree other mem =>
      clear old after isFree other (List.mem_cons_of_mem call mem)
    exact ⟨⟨call.text, behind⟩ :: kept, congrArg (call.text :: ·) texts, .cons before' _ stand⟩

end Altered

/-! ### A run -/

/-- Behind the cursor stands the end of the list, untouched, and before it the list has been changed in
free places only. -/
def Untouched (free : Text → Text → Prop) (list done rest : Text) : Prop :=
  ∃ front, list = front ++ rest ∧ Altered free rest front done

namespace Untouched
variable {free : Text → Text → Prop} {list done rest : Text}

theorem start (list : Text) : Untouched free list [] list := ⟨[], rfl, .nil⟩

/-- The cursor moves on. -/
theorem skip {passed : Text} (h : Untouched free list done (passed ++ rest)) :
    Untouched free list (done ++ passed) rest := by
  obtain ⟨front, split, altered⟩ := h
  exact ⟨front ++ passed, by rw [split, List.append_assoc], altered.append (.refl passed)⟩

theorem seek (h : Untouched free list done rest) (part : Text) :
    Untouched free list (Cursor.seek done rest part).done (Cursor.seek done rest part).rest := by
  unfold Cursor.seek
  split
  next before after found =>
    rw [Text.eq_of_breakAt? found, List.append_assoc] at h
    exact h.skip
  next => exact h

/-- What is found at a free place is replaced. -/
theorem replace {cursor : Cursor} (h : Untouched free list cursor.done cursor.rest) {place : Place}
    (spell : place.spell = cursor.rest) (isFree : free place.old (place.closing ++ place.after))
    (new : Text) :
    Untouched free list (cursor.replace place new).done (cursor.replace place new).rest := by
  rw [← spell, Place.spell, List.append_assoc, List.append_assoc] at h
  obtain ⟨front, split, altered⟩ := h.skip
  refine ⟨front ++ (place.old ++ place.closing), by rw [split]; simp [Cursor.replace], ?_⟩
  have change : Altered free place.after (place.old ++ place.closing) (new ++ place.closing) :=
    .change new isFree (.refl place.closing)
  have before : Altered free (place.old ++ place.closing ++ place.after) front
      (cursor.done ++ place.before) := by rwa [List.append_assoc]
  have whole := before.append change
  simpa [Cursor.replace] using whole

end Untouched

variable {scheme : Scheme} {part : Text} {list : Text} {calls : List Call}

/-- Nothing but the places outside some calls gets changed. -/
def Outside (calls : List Call) (old behind : Text) : Prop := ∀ call ∈ calls, call.ClearOf old behind

theorem untouched_scopeToken {state : Ledger × Cursor} {token : Token} {tokens : List Token}
    (h : Untouched (Outside calls) list state.2.done state.2.rest)
    (outside : FindsOutside calls scheme part (token :: tokens) state) :
    Untouched (Outside calls) list (scopeToken scheme part state token).2.done
      (scopeToken scheme part state token).2.rest := by
  obtain ⟨ledger, cursor⟩ := state
  rw [scopeToken_eq, Cursor.rename]
  cases renamed : token.renaming? scheme ledger.asterisks with
  | none => exact h
  | some r =>
    dsimp only
    split
    next place found =>
      exact h.replace (Place.spell_ofToken? found)
        (outside.1 (by simp [renamed]) place found) _
    next => exact h

theorem untouched_foldl_scopeToken {tokens : List Token} {state : Ledger × Cursor}
    (h : Untouched (Outside calls) list state.2.done state.2.rest)
    (outside : FindsOutside calls scheme part tokens state) :
    Untouched (Outside calls) list (tokens.foldl (scopeToken scheme part) state).2.done
      (tokens.foldl (scopeToken scheme part) state).2.rest := by
  induction tokens generalizing state with
  | nil => exact h
  | cons token tokens ih => exact ih (untouched_scopeToken h outside) outside.2

/-- How far a list has come with nothing changed but outside calls: the next part is looked for in what
is untouched. -/
def ChangedOutside (calls : List Call) (list : Text) (progress : Progress) : Prop :=
  ∃ done rest, progress.text = done ++ rest ∧ done.bytes ≤ progress.offset ∧
    Untouched (Outside calls) list done rest

theorem changedOutside_scopePart {progress next : Progress}
    (h : ChangedOutside calls list progress) (ok : scopePart scheme progress part = .ok next)
    (outside : ∀ done rest, progress.text = done ++ rest → done.bytes = progress.offset →
      FindsOutside calls scheme (NamedAttribute.normalise part) (tokens (NamedAttribute.normalise part))
        (progress.ledger, Cursor.seek done rest (NamedAttribute.normalise part))) :
    ChangedOutside calls list next := by
  obtain ⟨done, rest, text, behind, untouched⟩ := h
  obtain ⟨done', rest', text', offset⟩ := scopePart_isOk_iff.1 ⟨next, ok⟩
  -- The part is looked for from the cursor or from further on: what is between is passed unchanged.
  obtain ⟨passed, rfl, rfl⟩ := Text.exists_of_append_eq_append (text'.symm.trans text) (by omega)
  rw [scopePart_of_cut text' offset] at ok
  cases ok
  refine ⟨_, _, rfl, ?_, untouched_foldl_scopeToken (untouched.skip.seek _) (outside _ _ text' offset)⟩
  rw [Cursor.resume_eq]
  exact Nat.le_add_right _ _

theorem changedOutside_foldlM {parts : List Text} {progress stop : Progress}
    (h : ChangedOutside calls list progress)
    (ok : parts.foldlM (scopePart scheme) progress = .ok stop)
    (outside : ∀ earlier part later progress', parts = earlier ++ part :: later →
      earlier.foldlM (scopePart scheme) progress = .ok progress' →
        ∀ done rest, progress'.text = done ++ rest → done.bytes = progress'.offset →
          FindsOutside calls scheme (NamedAttribute.normalise part)
            (tokens (NamedAttribute.normalise part))
            (progress'.ledger, Cursor.seek done rest (NamedAttribute.normalise part))) :
    ChangedOutside calls list stop := by
  induction parts generalizing progress with
  | nil =>
    cases ok
    exact h
  | cons part parts ih =>
    obtain ⟨next, first, later⟩ := bind_eq_ok_iff.1 ok
    refine ih (changedOutside_scopePart h first (outside [] part parts progress rfl rfl)) later ?_
    intro earlier other rest progress' split reached
    refine outside (part :: earlier) other rest progress' (by rw [split]; rfl) ?_
    rw [List.foldlM_cons, first]
    exact reached

/-- **A list keeps its calls exactly if no name is found in one.** -/
theorem keepsCalls_iff_namesOutside {ledger : Ledger} :
    KeepsCalls scheme list ledger ↔
      (∃ result, scopeList scheme list ledger = .ok result) ∧ NamesOutside scheme list ledger := by
  constructor
  · rintro ⟨outside, after, text, -, ok, -⟩
    exact ⟨⟨_, ok⟩, outside⟩
  rintro ⟨⟨⟨after, text⟩, ok⟩, outside⟩
  refine ⟨outside, ?_⟩
  have run := ok
  rw [scopeList, scopeParts_eq_foldlM] at run
  obtain ⟨stop, reached, same⟩ : ∃ stop, (CommaList.entries list).foldlM (scopePart scheme)
      (.start list ledger) = .ok stop ∧ (stop.ledger, stop.text) = (after, text) := by
    cases fold : (CommaList.entries list).foldlM (scopePart scheme) (.start list ledger) with
    | error fault => rw [fold] at run; cases run
    | ok stop => rw [fold] at run; exact ⟨stop, rfl, Except.ok.inj run⟩
  cases same
  have start : ChangedOutside (Selector.calls list) (NamedAttribute.normalise list)
      (.start list ledger) := ⟨[], _, rfl, Nat.le_refl 0, .start _⟩
  obtain ⟨done, rest, cut, -, untouched⟩ := changedOutside_foldlM start reached
    fun earlier part later progress split reached =>
      outside progress part later ⟨earlier, split, reached⟩
  -- At the end the cursor may as well stand behind the whole list.
  rw [← List.append_nil rest] at untouched
  obtain ⟨front, split, altered⟩ := untouched.skip
  rw [List.append_nil] at split
  rw [← split, ← cut] at altered
  obtain ⟨kept, texts, stand⟩ := altered.laid (laid_calls list) fun _ _ isFree => isFree
  exact ⟨_, _, kept, ok, texts, stand⟩

end Selector
end ScopedCss
