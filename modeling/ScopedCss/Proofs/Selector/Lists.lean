import Mathlib.Data.List.Induction
import ScopedCss.Proofs.Selector.Parts
import ScopedCss.Suffix

/-!
# Selector lists, part by part

A selector list can be scoped in two ways: as it is scoped, with one cursor that goes through the
text of the whole list, and *separately*, each part alone and put back where it stood
(`scopeSeparately`).  Both agree, and no part has a say in what becomes of the others, exactly if the
tokens of every part keep to it (`scopesPartByPart_iff`).

The induction is on the pieces of the list.  Its invariant: the text is what the pieces so far have
become, then the pieces to come, untouched, and between the offset and the next piece there is nothing
but spaces and commas.  So the next part, which starts with neither, is found where it stands.
-/
namespace ScopedCss.Selector

/-- A list scoped separately: what each part is warned of and what it becomes alone, between the
spaces of its piece. -/
def scopeSeparately (scheme : Scheme) (list : Text) : Except Fault (List Warning × Text) := do
  let pieces ← (CommaList.split list).mapM fun piece => do
    let part := Text.trim piece
    let (ledger, text) ← scopeParts scheme part [part] {}
    return (ledger.warnings, Text.leading piece ++ text ++ Text.trailing (Text.trimStart piece))
  return (pieces.flatMap Prod.fst, CommaList.join (pieces.map Prod.snd))

/-- In the list the tokens of a part are found at the places at which they are found in the part
alone. -/
def FoundAsAlone (scheme : Scheme) (progress : Progress) (part : Text) : Prop :=
  ∃ done rest gap after, progress.text = done ++ rest ∧ done.bytes = progress.offset ∧
    Text.breakAt? (NamedAttribute.normalise part) rest = some (gap, after) ∧
    places scheme (tokens (NamedAttribute.normalise part))
        (Cursor.seek done rest (NamedAttribute.normalise part)) =
      (places scheme (tokens (NamedAttribute.normalise part))
        (Cursor.start (NamedAttribute.normalise part))).map (Option.map (·.extend after))

/-- A list is scoped part by part: text and warnings are those of the parts scoped separately, and no
part depends on the others for the places of its tokens. -/
structure ScopesPartByPart (scheme : Scheme) (list : Text) (ledger : Ledger) : Prop where
  separately : ∃ warnings text after, scopeSeparately scheme list = .ok (warnings, text) ∧
    scopeList scheme list ledger = .ok (after, text) ∧
    after.warnings = ledger.warnings ++ warnings
  independent : ∀ progress part later,
    ComesTo scheme list (CommaList.entries list) ledger progress part later →
      FoundAsAlone scheme progress part

/-- Pieces of a list as they are while others are scoped, with a comma before each. -/
def commaEach (pieces : List Text) : Text :=
  pieces.flatMap fun piece => ',' :: NamedAttribute.normalise piece

/-- What stands before the part of a piece in a list, where the pieces before it are given. -/
def textBefore (earlier : List Text) (piece : Text) : Text :=
  earlier.flatMap (· ++ [',']) ++ Text.leading piece

/-- What stands behind the part of a piece while it is scoped, where the pieces after it are given. -/
def textBehind (piece : Text) (later : List Text) : Text :=
  Text.trailing (Text.trimStart piece) ++ commaEach later

/-- The tokens of the part of a piece keep to it, where the other pieces of the list are given. -/
def PartKeepsTo (scheme : Scheme) (earlier : List Text) (piece : Text) (later : List Text) : Prop :=
  KeepTo scheme (textBefore earlier piece).getLast? (textBehind piece later)
    (tokens (NamedAttribute.normalise (Text.trim piece)))
    (Cursor.start (NamedAttribute.normalise (Text.trim piece)))

/-- The tokens of every part of a list keep to it. -/
def PartsKeepTo (scheme : Scheme) (list : Text) : Prop :=
  ∀ earlier piece later, CommaList.split list = earlier ++ piece :: later →
    PartKeepsTo scheme earlier piece later

variable {scheme : Scheme} {list part : Text} {ledger : Ledger}

/-! ### A part alone -/

/-- What a part becomes alone. -/
def imageOf (scheme : Scheme) (part : Text) : Text :=
  ((tokens (NamedAttribute.normalise part)).foldl (Cursor.rename scheme 0)
    (Cursor.start (NamedAttribute.normalise part))).text

theorem seek_self (part : Text) : Cursor.seek [] part part = Cursor.start part := by
  have found : Text.breakAt? part part = some ([], []) := by
    cases part with
    | nil => rfl
    | cons c part => simpa using Text.breakAt?_of_head (List.not_mem_nil (a := c)) (p := part) []
  rw [Cursor.seek, found]
  simp [Cursor.start]

theorem scopeParts_alone (fixed : scheme.Fixed) (part : Text) (ledger : Ledger) :
    scopeParts scheme part [part] ledger =
      .ok (notePart scheme ledger part, imageOf scheme part) := by
  have state := foldl_scopeToken_eq fixed (NamedAttribute.normalise part)
    (tokens (NamedAttribute.normalise part)) ledger (Cursor.start (NamedAttribute.normalise part))
  simp only [scopeParts, scopeFrom, Text.splitAtByte?, seek_self, state]
  rfl

/-- A part that stands behind a gap, and whose tokens keep to it, becomes in the list what it becomes
alone. -/
theorem scopePart_of_keepTo (fixed : scheme.Fixed) (progress : Progress) (part done gap after : Text)
    (text : progress.text = done ++ (gap ++ (NamedAttribute.normalise part ++ after)))
    (offset : done.bytes = progress.offset)
    (found : Text.breakAt? (NamedAttribute.normalise part)
      (gap ++ (NamedAttribute.normalise part ++ after)) = some (gap, after))
    (foreign : ∀ c ∈ after.head?, c ∉ Mark.comment)
    (keep : KeepTo scheme (done ++ gap).getLast? after (tokens (NamedAttribute.normalise part))
      (Cursor.start (NamedAttribute.normalise part))) :
    scopePart scheme progress part = .ok ⟨notePart scheme progress.ledger part,
      done ++ gap ++ imageOf scheme part ++ after, (done ++ gap ++ imageOf scheme part).bytes⟩ := by
  have cursor : Cursor.seek done (gap ++ (NamedAttribute.normalise part ++ after))
      (NamedAttribute.normalise part) =
        (Cursor.start (NamedAttribute.normalise part)).within (done ++ gap) after := by
    rw [Cursor.seek, found]
    simp [Cursor.within, Cursor.start, Cursor.text, Nat.add_assoc]
  have state := foldl_scopeToken_eq fixed (NamedAttribute.normalise part)
    (tokens (NamedAttribute.normalise part)) progress.ledger
    ((Cursor.start (NamedAttribute.normalise part)).within (done ++ gap) after)
  rw [foldl_rename_within foreign (fun _ mem renamed => isSought_of_mem_tokens mem renamed) keep]
    at state
  rw [scopePart_of_cut text offset, scopedPart, cursor, state]
  have whole (cursor : Cursor) : (cursor.within (done ++ gap) after).text =
      done ++ gap ++ cursor.text ++ after := by
    simp [Cursor.within, Cursor.text]
  have resume (cursor : Cursor) : (cursor.within (done ++ gap) after).resume =
      (done ++ gap ++ cursor.text).bytes := by
    rw [Cursor.resume, whole]
    simp only [Cursor.within, Cursor.text, Text.bytes_append]
    omega
  simp only [whole, resume]
  rfl

/-! ### Pieces -/

open CommaList

/-- A text between the spaces of a piece. -/
def between (piece image : Text) : Text :=
  Text.leading piece ++ (image ++ Text.trailing (Text.trimStart piece))

/-- What becomes of a piece: its part alone, between its spaces. -/
def replaced (scheme : Scheme) (piece : Text) : Text := between piece (imageOf scheme (Text.trim piece))

/-- The parts of pieces, without the blank ones. -/
def partsOf (pieces : List Text) : List Text :=
  (pieces.map Text.trim).filter fun part => !part.isEmpty

theorem entries_eq_partsOf (list : Text) : entries list = partsOf (split list) := rfl

@[simp] theorem partsOf_append (s t : List Text) : partsOf (s ++ t) = partsOf s ++ partsOf t := by
  simp [partsOf]

theorem partsOf_of_blank {piece : Text} (blank : Text.trim piece = []) : partsOf [piece] = [] := by
  simp [partsOf, blank]

theorem partsOf_of_part {piece : Text} (part : Text.trim piece ≠ []) :
    partsOf [piece] = [Text.trim piece] := by
  simp [partsOf, part]

/-- Between the offset and the next piece of a list there is nothing in which a part could stand. -/
def IsGap (t : Text) : Prop := ∀ c ∈ t, Text.isSpace c ∨ c = ','

theorem endsPiece_textBehind (piece : Text) (later : List Text) :
    EndsPiece (textBehind piece later) := by
  refine endsPiece_append (Text.trailing_spaces _) ?_
  have same : commaEach later = (later.map NamedAttribute.normalise).flatMap (',' :: ·) :=
    (List.flatMap_map _ _ _).symm
  rw [same]
  exact endsPiece_flatMap _

theorem foreign_of_endsPiece {t : Text} (ends : EndsPiece t) : ∀ c ∈ t.head?, c ∉ Mark.comment := by
  intro c first mark
  rcases head_of_endsPiece ends first with space | rfl
  · have marks : Mark.comment.all (fun c => !Text.isSpace c) := by decide
    have solid := List.all_eq_true.1 marks c mark
    rw [space] at solid
    cases solid
  · revert mark
    decide

theorem imageOf_nil (scheme : Scheme) : imageOf scheme [] = [] := rfl

/-- The part of a piece is found where it stands: the gap in front of it holds no character that it
could start with. -/
theorem breakAt?_part {piece gap : Text} (nonempty : Text.trim piece ≠ []) (gaps : IsGap gap)
    (noComma : ∀ u, Text.trimStart piece ≠ ',' :: u) (after : Text) :
    Text.breakAt? (NamedAttribute.normalise (Text.trim piece))
        (gap ++ Text.leading piece ++ (NamedAttribute.normalise (Text.trim piece) ++ after)) =
      some (gap ++ Text.leading piece, after) := by
  cases part : Text.trim piece with
  | nil => exact absurd part nonempty
  | cons c rest =>
    have solid := Text.head_trim_not_space part
    have noComma' : c ≠ ',' := by
      rintro rfl
      refine noComma (rest ++ Text.trailing (Text.trimStart piece)) ?_
      rw [← List.cons_append, ← part]
      exact (Text.trimEnd_append _).symm
    have absent : c ∉ gap ++ Text.leading piece := by
      intro mem
      rcases List.mem_append.1 mem with mem | mem
      · rcases gaps c mem with space | comma
        · rw [solid] at space
          cases space
        · exact noComma' comma
      · have space := Text.leading_spaces piece c mem
        rw [solid] at space
        cases space
    obtain ⟨u, normal⟩ := NamedAttribute.normalise_cons c rest
    rw [normal]
    exact Text.breakAt?_of_head absent after

/-! ### All pieces of a list -/

/-- The pieces to come, as they stand in the text of the list. -/
def pending : List Text → Text
  | [] => []
  | piece :: later => NamedAttribute.normalise piece ++ commaEach later

theorem pending_split (list : Text) : pending (split list) = NamedAttribute.normalise list := by
  have whole := splitFrom_append 0 (NamedAttribute.normalise list)
  rw [NamedAttribute.splitFrom_normalise, List.flatMap_map] at whole
  exact whole

/-- The pieces to come are the part of the first of them, and what stands around it. -/
theorem pending_cons (piece : Text) (later : List Text) :
    pending (piece :: later) = Text.leading piece ++
      (NamedAttribute.normalise (Text.trim piece) ++ textBehind piece later) := by
  rw [pending, NamedAttribute.normalise_eq_surround piece, textBehind]
  simp

theorem noComma_of_mem_split (list : Text) {piece : Text} (mem : piece ∈ split list) (u : Text) :
    Text.trimStart piece ≠ ',' :: u := by
  rcases List.mem_cons.1 mem with rfl | later
  · exact (trimStart_piece 0 list).1 rfl u
  · exact (trimStart_piece 0 list).2 piece later u

/-- The part of a piece becomes an image, wherever the pieces before it have left the offset: behind
the same character, with only a gap between. -/
def PartBecomes (scheme : Scheme) (ledger : Ledger) (earlier : List Text) (piece : Text)
    (later : List Text) (image : Text) : Prop :=
  ∀ done gap, IsGap gap →
    (done ++ (gap ++ Text.leading piece)).getLast? = (textBefore earlier piece).getLast? →
    scopePart scheme ⟨ledger, done ++ (gap ++ pending (piece :: later)), done.bytes⟩
        (Text.trim piece) =
      .ok ⟨notePart scheme ledger (Text.trim piece),
        done ++ (gap ++ Text.leading piece) ++ image ++ textBehind piece later,
        (done ++ (gap ++ Text.leading piece) ++ image).bytes⟩

/-- What pieces become, one after the other, if their parts become their images. -/
def becomeEach (scheme : Scheme) (image : Ledger → Text → Text) : Ledger → List Text → List Text
  | _, [] => []
  | ledger, piece :: later =>
    between piece (image ledger (Text.trim piece)) ::
      becomeEach scheme image ((partsOf [piece]).foldl (notePart scheme) ledger) later

variable {image : Ledger → Text → Text}

theorem becomeEach_append (ledger : Ledger) (s t : List Text) :
    becomeEach scheme image ledger (s ++ t) = becomeEach scheme image ledger s ++
      becomeEach scheme image ((partsOf s).foldl (notePart scheme) ledger) t := by
  induction s generalizing ledger with
  | nil => rfl
  | cons piece s ih =>
    rw [← List.singleton_append (l := s), partsOf_append, List.foldl_append]
    exact congrArg (between piece (image ledger (Text.trim piece)) :: ·) (ih _)

theorem becomeEach_eq_nil_iff (ledger : Ledger) (pieces : List Text) :
    becomeEach scheme image ledger pieces = [] ↔ pieces = [] := by
  cases pieces <;> simp [becomeEach]

/-- Where the image of a part is the same for every ledger, pieces become what each becomes. -/
theorem becomeEach_const (image : Text → Text) (ledger : Ledger) (pieces : List Text) :
    becomeEach scheme (fun _ => image) ledger pieces =
      pieces.map fun piece => between piece (image (Text.trim piece)) := by
  induction pieces generalizing ledger with
  | nil => rfl
  | cons piece pieces ih => rw [becomeEach, ih, List.map_cons]

theorem getLast?_commaAfter {pieces pieces' : List Text} (same : pieces = [] ↔ pieces' = [])
    (t : Text) :
    (pieces.flatMap (· ++ [',']) ++ t).getLast? = (pieces'.flatMap (· ++ [',']) ++ t).getLast? := by
  rw [List.getLast?_append, List.getLast?_append]
  rcases List.eq_nil_or_concat pieces with rfl | ⟨front, piece, rfl⟩
  · rw [same.1 rfl]
  · rcases List.eq_nil_or_concat pieces' with rfl | ⟨front', piece', rfl⟩
    · simp at same
    · simp [List.flatMap_append, ← List.append_assoc]

/-- The character before a part does not depend on what has become of the parts before it. -/
theorem getLast?_before {ledger : Ledger} {earlier : List Text} {piece done gap : Text}
    (become : done ++ gap = (becomeEach scheme image ledger earlier).flatMap (· ++ [','])) :
    (done ++ (gap ++ Text.leading piece)).getLast? = (textBefore earlier piece).getLast? := by
  rw [← List.append_assoc, become, textBefore]
  exact getLast?_commaAfter (becomeEach_eq_nil_iff ledger earlier) (Text.leading piece)

/-- One piece of a list scoped: its part becomes the image, and the scoping stands in front of the
pieces to come. -/
theorem run_piece (image : Text) {piece done gap : Text} {earlier later : List Text} (gaps : IsGap gap)
    (last : (done ++ (gap ++ Text.leading piece)).getLast? = (textBefore earlier piece).getLast?)
    (blank : Text.trim piece = [] → image = [])
    (become : Text.trim piece ≠ [] → PartBecomes scheme ledger earlier piece later image) :
    ∃ done' gap', (partsOf [piece]).foldlM (scopePart scheme)
          ⟨ledger, done ++ (gap ++ pending (piece :: later)), done.bytes⟩ =
        .ok ⟨(partsOf [piece]).foldl (notePart scheme) ledger,
          done' ++ (gap' ++ commaEach later), done'.bytes⟩ ∧
      done' ++ gap' = done ++ gap ++ between piece image ∧ IsGap gap' := by
  have spaces := Text.leading_spaces piece
  have spaces' := Text.trailing_spaces (Text.trimStart piece)
  by_cases part : Text.trim piece = []
  · -- A blank piece is no part: its spaces widen the gap.
    refine ⟨done, gap ++ between piece image, ?_, (List.append_assoc _ _ _).symm, ?_⟩
    · have normal : NamedAttribute.normalise [] = [] := rfl
      rw [partsOf_of_blank part, pending_cons, part, between, blank part, textBehind, normal]
      simp
      rfl
    · intro c mem
      rw [between, blank part, List.nil_append] at mem
      rcases List.mem_append.1 mem with mem | mem
      · exact gaps c mem
      · exact .inl ((List.mem_append.1 mem).elim (spaces c) (spaces' c))
  · have ok := become part done gap gaps last
    refine ⟨done ++ (gap ++ Text.leading piece) ++ image, Text.trailing (Text.trimStart piece), ?_, ?_,
      fun c mem => .inl (spaces' c mem)⟩
    · rw [partsOf_of_part part, List.foldlM_cons, ok]
      simp only [textBehind, List.append_assoc]
      rfl
    · simp [between]

/-- As long as every part becomes its image, so do the pieces so far, and the scoping stands in front
of the pieces to come. -/
theorem run_before (image : Ledger → Text → Text) (blank : ∀ ledger, image ledger [] = [])
    (ledger : Ledger) {earlier later : List Text} (cut : split list = earlier ++ later) (nonempty : later ≠ [])
    (become : ∀ before piece after, earlier = before ++ piece :: after → Text.trim piece ≠ [] →
      PartBecomes scheme ((partsOf before).foldl (notePart scheme) ledger) before piece
        (after ++ later) (image ((partsOf before).foldl (notePart scheme) ledger) (Text.trim piece))) :
    ∃ done gap, (partsOf earlier).foldlM (scopePart scheme) (.start list ledger) =
        .ok ⟨(partsOf earlier).foldl (notePart scheme) ledger, done ++ (gap ++ pending later),
          done.bytes⟩ ∧
      done ++ gap = (becomeEach scheme image ledger earlier).flatMap (· ++ [',']) ∧ IsGap gap := by
  induction earlier using List.reverseRecOn generalizing later with
  | nil =>
    refine ⟨[], [], ?_, rfl, fun c mem => by cases mem⟩
    rw [List.nil_append] at cut
    rw [List.nil_append, List.nil_append, ← cut, pending_split]
    rfl
  | append_singleton earlier piece ih =>
    rw [List.append_assoc, List.singleton_append] at cut
    obtain ⟨done, gap, ok, becomes, gaps⟩ := ih cut (by simp) fun before q after split part => by
      simpa using become before q (after ++ [piece]) (by rw [split]; simp) part
    obtain ⟨done', gap', ok', becomes', gaps'⟩ := run_piece
      (image ((partsOf earlier).foldl (notePart scheme) ledger) (Text.trim piece)) gaps
      (getLast?_before becomes) (fun none => by rw [none, blank]) fun part => by
        simpa using become earlier piece [] (by simp) part
    cases later with
    | nil => exact absurd rfl nonempty
    | cons next later =>
      refine ⟨done', gap' ++ [','], ?_, ?_, ?_⟩
      · rw [partsOf_append, List.foldlM_append, ok, List.foldl_append]
        refine Eq.trans ok' ?_
        simp [commaEach, pending]
      · rw [becomeEach_append, List.flatMap_append, ← becomes, ← List.append_assoc, becomes']
        simp [becomeEach]
      · intro c mem
        rcases List.mem_append.1 mem with mem | mem
        · exact gaps' c mem
        · exact .inr (List.mem_singleton.1 mem)

theorem join_concat (pieces : List Text) (piece : Text) :
    join (pieces ++ [piece]) = pieces.flatMap (· ++ [',']) ++ piece := by
  induction pieces with
  | nil => simp [join, Text.joinWith]
  | cons first pieces ih =>
    rw [List.cons_append, join, Text.joinWith, List.intercalate_cons_of_ne_nil (by simp),
      List.flatMap_cons, List.append_assoc (first ++ [',']), ← ih]
    rfl

/-- If every part becomes its image, the list becomes what its pieces become, with commas between
them. -/
theorem scopeList_of_becomes (image : Ledger → Text → Text) (blank : ∀ ledger, image ledger [] = [])
    (ledger : Ledger)
    (become : ∀ before piece after, split list = before ++ piece :: after → Text.trim piece ≠ [] →
      PartBecomes scheme ((partsOf before).foldl (notePart scheme) ledger) before piece after
        (image ((partsOf before).foldl (notePart scheme) ledger) (Text.trim piece))) :
    scopeList scheme list ledger = .ok ((entries list).foldl (notePart scheme) ledger,
      join (becomeEach scheme image ledger (split list))) := by
  obtain ⟨earlier, piece, cut⟩ : ∃ earlier piece, split list = earlier ++ [piece] := by
    rcases List.eq_nil_or_concat (split list) with none | ⟨earlier, piece, cut⟩
    · cases none
    · exact ⟨earlier, piece, cut.trans List.concat_eq_append⟩
  obtain ⟨done, gap, ok, becomes, gaps⟩ := run_before image blank ledger cut (by simp)
    fun before q after split part => by
      simpa using become before q (after ++ [piece]) (by rw [cut, split]; simp) part
  obtain ⟨done', gap', ok', becomes', -⟩ := run_piece
    (image ((partsOf earlier).foldl (notePart scheme) ledger) (Text.trim piece)) gaps
    (getLast?_before becomes) (fun none => by rw [none, blank]) (become earlier piece [] cut)
  have run : (entries list).foldlM (scopePart scheme) (.start list ledger) =
      .ok ⟨(entries list).foldl (notePart scheme) ledger, done' ++ (gap' ++ commaEach []),
        done'.bytes⟩ := by
    rw [entries_eq_partsOf, cut, partsOf_append, List.foldlM_append, ok, List.foldl_append]
    exact ok'
  rw [scopeList, scopeParts_eq_foldlM, run, cut, becomeEach_append, becomeEach, becomeEach,
    join_concat, ← becomes, ← becomes']
  simp [commaEach, Except.map]

/-- A part whose tokens keep to it becomes in the list what it becomes alone. -/
theorem becomes_of_keepsTo (fixed : scheme.Fixed) {earlier later : List Text} {piece : Text}
    (nonempty : Text.trim piece ≠ []) (mem : piece ∈ split list)
    (keep : PartKeepsTo scheme earlier piece later) (ledger : Ledger) :
    PartBecomes scheme ledger earlier piece later (imageOf scheme (Text.trim piece)) := by
  intro done gap gaps last
  rw [PartKeepsTo, ← last] at keep
  exact scopePart_of_keepTo fixed _ (Text.trim piece) done (gap ++ Text.leading piece)
    (textBehind piece later) (by rw [pending_cons]; simp) rfl
    (breakAt?_part nonempty gaps (noComma_of_mem_split list mem) _)
    (foreign_of_endsPiece (endsPiece_textBehind piece later)) keep

/-! ### Separately -/

/-- What the tokens of a part are warned of. -/
def warningsOf (part : Text) : List Warning :=
  (tokens (NamedAttribute.normalise part)).flatMap (Token.warnings (NamedAttribute.normalise part))

theorem warnings_foldl_notePart (parts : List Text) (ledger : Ledger) :
    (parts.foldl (notePart scheme) ledger).warnings =
      ledger.warnings ++ parts.flatMap warningsOf := by
  induction parts generalizing ledger with
  | nil => simp
  | cons part parts ih =>
    rw [List.foldl_cons, ih, warnings_notePart, List.flatMap_cons, List.append_assoc]
    rfl

/-- Blank pieces are warned of nothing. -/
theorem flatMap_warningsOf_partsOf (pieces : List Text) :
    (partsOf pieces).flatMap warningsOf = pieces.flatMap fun piece => warningsOf (Text.trim piece) := by
  induction pieces with
  | nil => rfl
  | cons piece pieces ih =>
    rw [← List.singleton_append, partsOf_append, List.flatMap_append, ih]
    by_cases part : Text.trim piece = []
    · rw [partsOf_of_blank part, List.singleton_append, List.flatMap_cons, part]
      rfl
    · rw [partsOf_of_part part]
      simp

theorem scopeSeparately_eq (fixed : scheme.Fixed) (list : Text) :
    scopeSeparately scheme list =
      .ok ((partsOf (split list)).flatMap warningsOf, join ((split list).map (replaced scheme))) := by
  have alone (piece : Text) :
      (do let (ledger, text) ← scopeParts scheme (Text.trim piece) [Text.trim piece] {}
          return (ledger.warnings, Text.leading piece ++ text ++
            Text.trailing (Text.trimStart piece)) : Except Fault (List Warning × Text)) =
        pure (warningsOf (Text.trim piece), replaced scheme piece) := by
    rw [scopeParts_alone fixed]
    show Except.ok _ = Except.ok _
    rw [warnings_notePart, replaced, List.append_assoc]
    rfl
  simp only [scopeSeparately, alone, List.mapM_pure, flatMap_warningsOf_partsOf]
  rw [pure_bind, List.flatMap_map, List.map_map]
  rfl

/-! ### In the list and separately -/

/-- An entry of a list is the part of one of its pieces. -/
theorem exists_piece_of_entries {parts later : List Text}
    (h : entries list = parts ++ part :: later) :
    ∃ before piece after, split list = before ++ piece :: after ∧ partsOf before = parts ∧
      Text.trim piece = part ∧ part ≠ [] := by
  obtain ⟨l, r, cut, rfl, rest⟩ := List.filter_eq_append_iff.1 h
  obtain ⟨blank, r', rfl, none, solid, -⟩ := List.filter_eq_cons_iff.1 rest
  rw [← List.append_assoc] at cut
  obtain ⟨before, tail, pieces, front, back⟩ := List.map_eq_append_iff.1 cut
  obtain ⟨piece, after, rfl, same, -⟩ := List.map_eq_cons_iff.1 back
  refine ⟨before, piece, after, pieces, ?_, same, by simpa using solid⟩
  rw [partsOf, front, List.filter_append]
  have gone : blank.filter (fun part => !part.isEmpty) = [] := by
    rw [List.filter_eq_nil_iff]
    exact none
  rw [gone, List.append_nil]

/-- If the tokens of every part keep to it, the list becomes what it becomes separately. -/
theorem scopeList_of_partsKeepTo (fixed : scheme.Fixed) (keep : PartsKeepTo scheme list)
    (ledger : Ledger) :
    scopeList scheme list ledger = .ok ((entries list).foldl (notePart scheme) ledger,
      join ((split list).map (replaced scheme))) := by
  have ok := scopeList_of_becomes (fun _ => imageOf scheme) (fun _ => imageOf_nil scheme)
    ledger fun before piece after cut part =>
      becomes_of_keepsTo fixed part (show piece ∈ split list by rw [cut]; simp)
        (keep before piece after cut) _
  rw [becomeEach_const] at ok
  exact ok

/-- Once the tokens of the parts before it keep to them, a part is found as alone exactly if its own
tokens keep to it. -/
theorem foundAsAlone_iff (fixed : scheme.Fixed) (ledger : Ledger) {earlier later : List Text}
    {piece : Text} (cut : split list = earlier ++ piece :: later) (nonempty : Text.trim piece ≠ [])
    (keep : ∀ before q after, earlier = before ++ q :: after →
      PartKeepsTo scheme before q (after ++ piece :: later)) :
    ∃ progress, (partsOf earlier).foldlM (scopePart scheme) (.start list ledger) = .ok progress ∧
      (FoundAsAlone scheme progress (Text.trim piece) ↔
        PartKeepsTo scheme earlier piece later) := by
  obtain ⟨done, gap, ok, become, gaps⟩ := run_before (fun _ => imageOf scheme)
    (fun _ => imageOf_nil scheme) ledger cut (by simp) fun before q after split part =>
      becomes_of_keepsTo fixed part (show q ∈ CommaList.split list by rw [cut, split]; simp)
        (keep before q after split) _
  refine ⟨_, ok, ?_⟩
  have noComma := noComma_of_mem_split list (show piece ∈ split list by rw [cut]; simp)
  have found := breakAt?_part nonempty gaps noComma (textBehind piece later)
  have rest : gap ++ pending (piece :: later) = gap ++ Text.leading piece ++
      (NamedAttribute.normalise (Text.trim piece) ++ textBehind piece later) := by
    rw [pending_cons, List.append_assoc]
  have cursor : Cursor.seek done (gap ++ pending (piece :: later))
      (NamedAttribute.normalise (Text.trim piece)) =
        (Cursor.start (NamedAttribute.normalise (Text.trim piece))).within
          (done ++ (gap ++ Text.leading piece)) (textBehind piece later) := by
    rw [Cursor.seek, rest, found]
    simp [Cursor.within, Cursor.start, Cursor.text, Nat.add_assoc]
  have sought : ∀ token ∈ tokens (NamedAttribute.normalise (Text.trim piece)),
      (token.renaming? scheme 0).isSome → Place.IsSought token :=
    fun _ mem renamed => isSought_of_mem_tokens mem renamed
  have agree := places_within_iff (done ++ (gap ++ Text.leading piece))
    (foreign_of_endsPiece (endsPiece_textBehind piece later)) sought
    (Cursor.start (NamedAttribute.normalise (Text.trim piece)))
  rw [PartKeepsTo, ← getLast?_before become, ← agree, ← cursor]
  constructor
  · rintro ⟨done', rest', gap', after, text, offset, found', same⟩
    obtain ⟨rfl, rfl⟩ := Text.append_inj_of_bytes text offset.symm
    rw [rest, found] at found'
    cases found'
    exact same
  · intro same
    exact ⟨done, gap ++ pending (piece :: later), _, _, rfl, rfl, rest ▸ found, same⟩

/-- **When a list is scoped part by part.**  Where `*` has one name, a list is scoped part by part
exactly if the tokens of each of its parts keep to it: what is not in the part is not behind it
either, and no place in the part touches a name character outside. -/
theorem scopesPartByPart_iff (switches : Switches) (asterisk : Text) (elementName scope : Text → Text)
    (list : Text) (ledger : Ledger) :
    ScopesPartByPart ⟨switches, .literal asterisk, elementName, scope⟩ list ledger ↔
      PartsKeepTo ⟨switches, .literal asterisk, elementName, scope⟩ list := by
  have fixed : Scheme.Fixed ⟨switches, .literal asterisk, elementName, scope⟩ := ⟨asterisk, rfl⟩
  generalize (⟨switches, .literal asterisk, elementName, scope⟩ : Scheme) = scheme at fixed
  constructor
  · rintro ⟨-, independent⟩ earlier piece later cut
    induction size : earlier.length using Nat.strongRecOn generalizing earlier piece later with
    | ind n ih =>
      subst size
      by_cases part : Text.trim piece = []
      · rw [PartKeepsTo, part]
        exact trivial
      · obtain ⟨progress, reached, iff⟩ := foundAsAlone_iff fixed ledger cut part
          fun before q after split => ih before.length (by rw [split]; simp) before q _
            (by rw [cut, split]; simp) rfl
        refine iff.1 (independent progress (Text.trim piece) (partsOf later) ⟨_, ?_, reached⟩)
        rw [entries_eq_partsOf, cut, ← List.singleton_append, partsOf_append, partsOf_append,
          partsOf_of_part part, List.singleton_append]
  · intro keep
    refine ⟨⟨_, _, _, scopeSeparately_eq fixed list, scopeList_of_partsKeepTo fixed keep ledger, ?_⟩,
      ?_⟩
    · exact warnings_foldl_notePart _ ledger
    · rintro progress part later ⟨parts, cut, reached⟩
      obtain ⟨before, piece, after, pieces, rfl, rfl, nonempty⟩ := exists_piece_of_entries cut
      obtain ⟨progress', reached', iff⟩ := foundAsAlone_iff fixed ledger pieces nonempty
        fun before' q after' split => keep before' q _ (by rw [pieces, split]; simp)
      rw [reached] at reached'
      cases reached'
      exact iff.2 (keep before piece after pieces)

/-- Not every list is scoped part by part: in the type `x-foo` no part is a name of its own, the `foo`
of the second part is taken for the one that was looked for, and `b` does not stand behind it. -/
theorem not_scopesPartByPart :
    ¬ ScopesPartByPart ⟨{}, .literal "__asterisk".toList, id, Suffix.attach (Suffix.ofSource [])⟩
      "x-foo,b foo".toList {} := by
  rintro ⟨⟨warnings, text, after, apart, together, -⟩, -⟩
  have apart' : scopeSeparately
      ⟨{}, .literal "__asterisk".toList, id, Suffix.attach (Suffix.ofSource [])⟩
      "x-foo,b foo".toList = .ok ([], "x-foo,.b_el_1oN .foo_el_1oN".toList) := by decide +kernel
  have together' : (scopeList
      ⟨{}, .literal "__asterisk".toList, id, Suffix.attach (Suffix.ofSource [])⟩
      "x-foo,b foo".toList {}).map Prod.snd = .ok "x-foo,b .foo_el_1oN".toList := by decide +kernel
  rw [apart] at apart'
  rw [together] at together'
  cases apart'
  have same : "x-foo,.b_el_1oN .foo_el_1oN".toList = "x-foo,b .foo_el_1oN".toList := Except.ok.inj together'
  exact absurd same (by decide)

end ScopedCss.Selector
