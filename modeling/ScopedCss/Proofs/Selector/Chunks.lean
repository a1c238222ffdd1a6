import ScopedCss.Proofs.Selector.OpenPlaces
import ScopedCss.Proofs.Selector.Parts

/-!
# The chunks of a selector

The tokens of a selector say what they are but not where they stand.  Its *chunks* do: fragments and
attribute selectors, as the tokeniser comes to them, with the text between.  They make up the selector
(`spell_chunks`), and their tokens are its tokens, in order (`tokens_chunks`).
-/
namespace ScopedCss.Selector

/-- A chunk of a selector. -/
inductive Chunk where
  /-- Text without a token. -/
  | text (t : Text)
  /-- A fragment, as its token. -/
  | fragment (token : Token)
  /-- An attribute selector on classes or ids. -/
  | named (a : NamedAttribute)

namespace Chunk

/-- The token of a chunk. -/
def token? : Chunk → Option Token
  | text _ => none
  | fragment token => some token
  | named a => a.token?

/-- What stands in a chunk before the text of its token. -/
def opening : Chunk → Text
  | named a => a.opening
  | _ => []

/-- The text in a chunk that a scoped name takes the place of. -/
def old : Chunk → Text
  | text t => t
  | fragment token => token.text
  | named a => a.value

/-- What stands in a chunk behind the text of its token. -/
def closing : Chunk → Text
  | named a => a.closing
  | _ => []

/-- The characters of a chunk. -/
def spell (chunk : Chunk) : Text := chunk.opening ++ chunk.old ++ chunk.closing

/-- The segments of a chunk where attribute selectors are recognised. -/
def segments : Chunk → List (Segment NamedAttribute)
  | named a => [.hit a]
  | chunk => chunk.old.map .plain

theorem spellAll_segments (chunk : Chunk) :
    NamedAttribute.recogniser.spellAll chunk.segments = chunk.spell := by
  cases chunk with
  | named a => exact List.append_nil _
  | _ => exact (Recogniser.spellAll_map_plain _ _).trans (List.append_nil _).symm

/-- The characters of chunks in a row. -/
def spellAll (chunks : List Chunk) : Text := chunks.flatMap spell

@[simp] theorem spellAll_nil : spellAll [] = [] := rfl

@[simp] theorem spellAll_cons (chunk : Chunk) (chunks : List Chunk) :
    spellAll (chunk :: chunks) = chunk.spell ++ spellAll chunks := rfl

@[simp] theorem spellAll_append (s t : List Chunk) :
    spellAll (s ++ t) = spellAll s ++ spellAll t := List.flatMap_append

theorem spellAll_flatMap_segments (chunks : List Chunk) :
    NamedAttribute.recogniser.spellAll (chunks.flatMap segments) = spellAll chunks := by
  induction chunks with
  | nil => rfl
  | cons chunk chunks ih =>
    rw [List.flatMap_cons, Recogniser.spellAll_append, ih, spellAll_segments, spellAll_cons]

end Chunk

/-- The chunk of a segment of a text in which fragments are recognised. -/
def chunkOfSegment : Segment Text → Chunk
  | .plain c => .text [c]
  | .hit f => if Fragment.isSkipped f then .text f else .fragment (Token.ofText f)

/-- The chunks of a text that holds no attribute selector on classes or ids. -/
def fragmentChunks (t : Text) : List Chunk := (Fragment.recogniser.scan t).map chunkOfSegment

/-- The chunks of a selector. -/
def chunks (selector : Text) : List Chunk :=
  if startsWithDigit selector then [.text selector]
  else
    let (first, rest) := Segment.runs (NamedAttribute.recogniser.scan selector)
    fragmentChunks first ++ rest.flatMap fun (a, after) => .named a :: fragmentChunks after

theorem spell_chunkOfSegment (segment : Segment Text) :
    (chunkOfSegment segment).spell = Fragment.recogniser.spellSegment segment := by
  cases segment with
  | plain c => rfl
  | hit f =>
    rw [chunkOfSegment]
    split
    · exact List.append_nil f
    · exact (List.append_nil _).trans (Token.text_ofText f)

theorem segments_chunkOfSegment (segment : Segment Text) :
    (chunkOfSegment segment).segments =
      (Fragment.recogniser.spellSegment segment).map Segment.plain := by
  cases segment with
  | plain c => rfl
  | hit f =>
    rw [chunkOfSegment]
    split
    · rfl
    · exact congrArg (List.map Segment.plain) (Token.text_ofText f)

theorem segments_fragmentChunks (t : Text) :
    (fragmentChunks t).flatMap Chunk.segments = t.map Segment.plain := by
  conv => rhs; rw [← Fragment.recogniser.spellAll_scan t]
  rw [fragmentChunks, List.flatMap_map, Recogniser.spellAll, List.map_flatMap]
  simp only [segments_chunkOfSegment]

theorem tokens_fragmentChunks (t : Text) :
    (fragmentChunks t).filterMap Chunk.token? = Fragment.tokens t := by
  unfold fragmentChunks Fragment.tokens
  induction Fragment.recogniser.scan t with
  | nil => rfl
  | cons segment segments ih =>
    cases segment with
    | plain c => exact ih
    | hit f =>
      rw [List.map_cons, List.filterMap_cons, List.filterMap_cons, chunkOfSegment]
      by_cases skipped : Fragment.isSkipped f
      · simpa [skipped, Chunk.token?, Segment.hit?] using ih
      · simpa [skipped, Chunk.token?, Segment.hit?] using ih

/-- The plain text and the attribute selectors of segments are the segments. -/
theorem flatMap_runs {α : Type} (segments : List (Segment α)) :
    (Segment.runs segments).1.map Segment.plain ++ ((Segment.runs segments).2.flatMap
      fun run => .hit run.1 :: run.2.map Segment.plain) = segments := by
  induction segments with
  | nil => rfl
  | cons segment segments ih =>
    cases segment with
    | plain c => exact congrArg (Segment.plain c :: ·) ih
    | hit a => exact congrArg (Segment.hit a :: ·) ih

/-- The chunks of a selector that has tokens are its segments. -/
theorem segments_chunks {selector : Text} (noDigit : startsWithDigit selector = false) :
    (chunks selector).flatMap Chunk.segments = NamedAttribute.recogniser.scan selector := by
  rw [chunks, if_neg (by simp [noDigit])]
  conv => rhs; rw [← flatMap_runs (NamedAttribute.recogniser.scan selector)]
  dsimp only
  rw [List.flatMap_append, segments_fragmentChunks, List.flatMap_assoc]
  refine congrArg (List.map _ _ ++ ·) ?_
  congr 1
  funext run
  rw [List.flatMap_cons, segments_fragmentChunks]
  rfl

/-- The chunks make up the selector. -/
theorem spell_chunks (selector : Text) : Chunk.spellAll (chunks selector) = selector := by
  cases digit : startsWithDigit selector with
  | true =>
    rw [chunks, if_pos digit]
    simp [Chunk.spell, Chunk.opening, Chunk.old, Chunk.closing]
  | false =>
    rw [← Chunk.spellAll_flatMap_segments, segments_chunks digit, Recogniser.spellAll_scan]

/-- The tokens of the chunks are the tokens of the selector. -/
theorem tokens_chunks (selector : Text) :
    (chunks selector).filterMap Chunk.token? = tokens selector := by
  unfold chunks tokens
  split
  · rfl
  · dsimp only
    rw [List.filterMap_append, tokens_fragmentChunks, List.filterMap_flatMap]
    refine congrArg (Fragment.tokens _ ++ ·) ?_
    congr 1
    funext run
    rw [List.filterMap_cons, ← tokens_fragmentChunks]
    cases named : run.1.token? <;> simp [Chunk.token?, named]

/-! ### Fragments that are renamed -/

variable {scheme : Scheme} {token : Token} {asterisks : Nat}

theorem mem_chunks_fragment {selector : Text} (mem : .fragment token ∈ chunks selector) :
    ∃ f, Fragment.isSkipped f = false ∧ Token.ofText f = token := by
  have inText {t : Text} (mem : .fragment token ∈ fragmentChunks t) :
      ∃ f, Fragment.isSkipped f = false ∧ Token.ofText f = token := by
    obtain ⟨segment, -, same⟩ := List.mem_map.1 mem
    cases segment with
    | plain c => cases same
    | hit f =>
      rw [chunkOfSegment] at same
      split at same
      next => cases same
      next kept =>
        cases same
        exact ⟨f, by simpa using kept, rfl⟩
  unfold chunks at mem
  split at mem
  · simp at mem
  · rcases List.mem_append.1 mem with first | later
    · exact inText first
    · obtain ⟨run, -, mem⟩ := List.mem_flatMap.1 later
      rcases List.mem_cons.1 mem with same | mem
      · cases same
      · exact inText mem

/-- A fragment that is renamed is looked for by its text, which starts plainly. -/
theorem startsPlainly_of_mem {selector : Text} (mem : .fragment token ∈ chunks selector)
    (renamed : (token.renaming? scheme asterisks).isSome) :
    Place.StartsPlainly token.text ∧ ∀ onId value, token ≠ .attributeValue onId value := by
  have byName : ∀ onId value, token ≠ .attributeValue onId value := by
    rintro onId value rfl
    -- Its text would start with a bracket, and fragments that do are skipped.
    obtain ⟨f, kept, made⟩ := mem_chunks_fragment mem
    rw [← Token.text_ofText f, made] at kept
    simp [Fragment.isSkipped, Token.text] at kept
  have known : token ∈ tokens selector := by
    rw [← tokens_chunks]
    exact List.mem_filterMap.2 ⟨.fragment token, mem, rfl⟩
  rcases isPlain_of_mem_tokens known renamed with ⟨onId, value, same⟩ | plain
  · exact absurd same (byName onId value)
  · exact ⟨plain.starts, byName⟩

end ScopedCss.Selector
