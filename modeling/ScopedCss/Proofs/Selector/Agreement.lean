import ScopedCss.Proofs.Selector.Brackets
import ScopedCss.Proofs.Selector.Chunks
import ScopedCss.Proofs.Text.Outside

/-!
# Two passes over a selector

A selector is cut at its attribute selectors on classes and ids, and what stands between them is read by
itself.  A plain pass reads the same selector in one go.  The two find the same fragments at the same
places exactly if every such attribute selector ends a fragment of the plain pass in which nothing before
it has a token (`splitAlike_iff`).

There are two ways to fail.  Behind a bracket that is still open, as in `[title="[class=a]"]`, the plain
pass skips everything up to the next closing bracket, and the pass in pieces does not
(`not_passesAgree`).  The argument of a function such as `:lang()` is one fragment with its function only
as long as it is in one piece.
-/
namespace ScopedCss

/-! ### Fragments at their places -/

/-- Whether a token is the value of an attribute. -/
def Token.isAttributeValue : Token → Bool
  | attributeValue _ _ => true
  | _ => false

namespace Selector

/-- The fragment of a chunk, as its token. -/
def Chunk.fragment? : Chunk → Option Token
  | fragment token => some token
  | _ => none

/-- The fragments of chunks, each with the offset at which it starts. -/
def Chunk.placed : Nat → List Chunk → List (Nat × Token)
  | _, [] => []
  | offset, chunk :: chunks =>
    chunk.fragment?.toList.map (offset, ·) ++ placed (offset + chunk.spell.length) chunks

/-- Cut at its attribute selectors on classes and ids, a selector has the same fragments at the same
places as in one go. -/
def SplitAlike (selector : Text) : Prop :=
  Chunk.placed 0 (chunks selector) = Chunk.placed 0 (fragmentChunks selector)

instance (selector : Text) : Decidable (SplitAlike selector) := inferInstanceAs (Decidable (_ = _))

/-- Without the values of attributes, the tokens of a selector are those of its fragments. -/
def PassesAgree (selector : Text) : Prop :=
  (tokens selector).filter (fun token => !token.isAttributeValue) = Fragment.tokens selector

instance (selector : Text) : Decidable (PassesAgree selector) := inferInstanceAs (Decidable (_ = _))

/-- Every attribute selector on classes or ids ends a fragment of the selector read in one go, and what
stands before it in the fragment has no tokens. -/
def EndFragments (selector : Text) : Prop :=
  ∀ before a after, NamedAttribute.recogniser.scan selector = before ++ .hit a :: after →
    ∃ before' lead after', Fragment.recogniser.scan selector = before' ++ .hit (lead ++ a.spell) :: after' ∧
      NamedAttribute.recogniser.spellAll before = Fragment.recogniser.spellAll before' ++ lead ∧
      Fragment.tokens lead = []

namespace Chunk

theorem placed_append (offset : Nat) (s t : List Chunk) :
    placed offset (s ++ t) = placed offset s ++ placed (offset + (spellAll s).length) t := by
  induction s generalizing offset with
  | nil => rfl
  | cons chunk s ih =>
    rw [List.cons_append, placed, placed, ih, spellAll_cons, List.length_append, List.append_assoc,
      Nat.add_assoc]

theorem bounds_of_mem_placed {offset : Nat} {s : List Chunk} {place : Nat × Token}
    (mem : place ∈ placed offset s) : offset ≤ place.1 ∧ place.1 ≤ offset + (spellAll s).length := by
  induction s generalizing offset with
  | nil => cases mem
  | cons chunk s ih =>
    rw [spellAll_cons, List.length_append]
    rcases List.mem_append.1 mem with here | later
    · obtain ⟨token, -, rfl⟩ := List.mem_map.1 here
      exact ⟨Nat.le_refl _, Nat.le_add_right _ _⟩
    · have := ih later
      omega

theorem map_snd_placed (offset : Nat) (s : List Chunk) :
    (placed offset s).map Prod.snd = s.filterMap fragment? := by
  induction s generalizing offset with
  | nil => rfl
  | cons chunk s ih =>
    rw [placed, List.map_append, ih, List.filterMap_cons]
    cases chunk <;> rfl

end Chunk

/-- The chunks of a text cut at its attribute selectors on classes and ids. -/
def cutChunks (t : Text) : List Chunk :=
  let (first, rest) := Segment.runs (NamedAttribute.recogniser.scan t)
  fragmentChunks first ++ rest.flatMap fun (a, after) => .named a :: fragmentChunks after

theorem fragmentChunks_of_scan {t : Text} {before after : List (Segment Text)}
    (scan : Fragment.recogniser.scan t = before ++ after) :
    fragmentChunks t = before.map chunkOfSegment ++ after.map chunkOfSegment := by
  rw [fragmentChunks, scan, List.map_append]

theorem spellAll_map_chunkOfSegment (segments : List (Segment Text)) :
    Chunk.spellAll (segments.map chunkOfSegment) = Fragment.recogniser.spellAll segments := by
  rw [Chunk.spellAll, List.flatMap_map]
  exact congrArg (List.flatMap · segments) (funext spell_chunkOfSegment)

theorem placed_map_append (offset : Nat) (segments : List (Segment Text)) (chunks : List Chunk) :
    Chunk.placed offset (segments.map chunkOfSegment ++ chunks) =
      Chunk.placed offset (segments.map chunkOfSegment) ++
        Chunk.placed (offset + (Fragment.recogniser.spellAll segments).length) chunks := by
  rw [Chunk.placed_append, spellAll_map_chunkOfSegment]

theorem spell_fragmentChunks (t : Text) : Chunk.spellAll (fragmentChunks t) = t := by
  rw [fragmentChunks, spellAll_map_chunkOfSegment, Recogniser.spellAll_scan]

/-- The fragments of a text are its tokens. -/
theorem fragments_fragmentChunks (t : Text) :
    (fragmentChunks t).filterMap Chunk.fragment? = Fragment.tokens t := by
  rw [← tokens_fragmentChunks]
  refine List.filterMap_congr fun chunk mem => ?_
  obtain ⟨segment, -, rfl⟩ := List.mem_map.1 mem
  cases segment with
  | plain c => rfl
  | hit f =>
    rw [chunkOfSegment]
    split <;> rfl

theorem placed_fragmentChunks_eq_nil_iff (offset : Nat) (t : Text) :
    Chunk.placed offset (fragmentChunks t) = [] ↔ Fragment.tokens t = [] := by
  rw [← fragments_fragmentChunks, ← Chunk.map_snd_placed offset, List.map_eq_nil_iff]

/-- Places in front of those of a second list are no part of it. -/
theorem append_eq_iff_of_bounds {front s t : List (Nat × Token)} (bound : Nat)
    (before : ∀ place ∈ front, place.1 < bound) (behind : ∀ place ∈ t, bound ≤ place.1) :
    front ++ s = t ↔ front = [] ∧ s = t := by
  refine ⟨fun same => ?_, fun ⟨empty, same⟩ => by rw [empty, same, List.nil_append]⟩
  cases front with
  | nil => exact ⟨rfl, same⟩
  | cons place front =>
    have := before place List.mem_cons_self
    have := behind place (same ▸ List.mem_cons_self)
    omega

theorem cutChunks_of_no_hit {t u : Text} (scan : NamedAttribute.recogniser.scan t = u.map .plain) :
    cutChunks t = fragmentChunks t := by
  have text : u = t := by
    rw [← NamedAttribute.recogniser.spellAll_scan t, scan, Recogniser.spellAll_map_plain]
  have runs := Segment.runs_map_plain_append u ([] : List (Segment NamedAttribute))
  rw [List.append_nil] at runs
  rw [cutChunks, scan, runs, text]
  simp [Segment.runs]

theorem cutChunks_of_hit {t u : Text} {a : NamedAttribute} {rest : List (Segment NamedAttribute)}
    (scan : NamedAttribute.recogniser.scan t = u.map .plain ++ .hit a :: rest) :
    cutChunks t = fragmentChunks u ++
      .named a :: cutChunks (NamedAttribute.recogniser.spellAll rest) := by
  have behind : NamedAttribute.recogniser.scan (NamedAttribute.recogniser.spellAll rest) = rest :=
    Recogniser.scan_spellAll (scan.trans (List.append_cons _ _ _))
  rw [cutChunks, cutChunks, scan, behind, Segment.runs_map_plain_append]
  simp [Segment.runs]

/-! A selector is looked at whose first attribute selector ends a bracket of the plain pass. -/

section FirstBracket
variable {t u r lead : Text} {a : NamedAttribute} {before : List (Segment Text)}

theorem spellAll_through_named (text : u = Fragment.recogniser.spellAll before ++ lead)
    (rest : List (Segment NamedAttribute)) :
    NamedAttribute.recogniser.spellAll (u.map .plain ++ .hit a :: rest) =
      Fragment.recogniser.spellAll before ++ (lead ++ a.spell) ++
        NamedAttribute.recogniser.spellAll rest := by
  rw [Recogniser.spellAll_append, Recogniser.spellAll_map_plain, text, Recogniser.spellAll_cons,
    List.append_assoc, List.append_assoc, List.append_assoc]
  rfl

theorem spellAll_through_bracket (rest : List (Segment Text)) :
    Fragment.recogniser.spellAll (before ++ .hit (lead ++ a.spell) :: rest) =
      Fragment.recogniser.spellAll before ++ (lead ++ a.spell) ++ Fragment.recogniser.spellAll rest := by
  rw [Recogniser.spellAll_append, Recogniser.spellAll_cons, List.append_assoc]
  rfl

theorem length_spell_fragment (f : Text) : (Fragment.recogniser.spell f).length = f.length := rfl

/-- If the attribute selectors end fragments, then that bracket has no tokens of its own. -/
theorem EndFragments.no_tokens_lead (nonempty : a.spell ≠ [])
    (text : u = Fragment.recogniser.spellAll before ++ lead)
    (scan : NamedAttribute.recogniser.scan t =
      u.map .plain ++ .hit a :: NamedAttribute.recogniser.scan r)
    (whole : Fragment.recogniser.scan t =
      before ++ .hit (lead ++ a.spell) :: Fragment.recogniser.scan r)
    (ends : EndFragments t) : Fragment.tokens lead = [] := by
  have pos : 0 < a.spell.length := List.length_pos_iff.2 nonempty
  obtain ⟨before', lead', after', whole', text', alone⟩ := ends _ a _ scan
  rw [Recogniser.spellAll_map_plain, text] at text'
  have lengths := congrArg List.length text'
  simp only [List.length_append] at lengths
  -- Both fragments reach over the attribute selector, so they are one.
  obtain ⟨-, same, -⟩ := Recogniser.hit_unique (r := Fragment.recogniser)
    (whole.symm.trans whole') (by simp only [length_spell_fragment, List.length_append]; omega)
    (by simp only [length_spell_fragment, List.length_append]; omega)
  rwa [List.append_cancel_right same]

/-- If the attribute selectors end fragments, then so do those behind the first. -/
theorem EndFragments.behind (text : u = Fragment.recogniser.spellAll before ++ lead)
    (scan : NamedAttribute.recogniser.scan t =
      u.map .plain ++ .hit a :: NamedAttribute.recogniser.scan r)
    (whole : Fragment.recogniser.scan t =
      before ++ .hit (lead ++ a.spell) :: Fragment.recogniser.scan r)
    (ends : EndFragments t) : EndFragments r := by
  intro b a' after split
  obtain ⟨before', lead', after', whole', text', alone⟩ :=
    ends (u.map .plain ++ .hit a :: b) a' after (by rw [scan, split]; simp)
  rw [spellAll_through_named text] at text'
  have lengths := congrArg List.length text'
  simp only [List.length_append] at lengths
  have pos' : 0 < a'.spell.length := by
    obtain ⟨v, -, read⟩ := Recogniser.exists_read_of_mem_scan (r := NamedAttribute.recogniser)
      (a := a') (t := r) (by simp [split])
    exact List.length_pos_iff.2 (NamedAttribute.recogniser.spell_ne_nil read)
  -- The fragment of a later attribute selector ends behind the first, so it starts behind it too.
  obtain ⟨mid, rfl, later⟩ := Recogniser.hit_behind (r := Fragment.recogniser)
    (whole.symm.trans whole') (by simp only [length_spell_fragment, List.length_append]; omega)
  rw [spellAll_through_bracket, List.append_assoc (_ ++ _)] at text'
  exact ⟨mid, lead', after', later, List.append_cancel_left text', alone⟩

/-- That bracket and the rest say whether all attribute selectors end fragments. -/
theorem endFragments_iff_of_ends (nonempty : a.spell ≠ [])
    (text : u = Fragment.recogniser.spellAll before ++ lead)
    (scan : NamedAttribute.recogniser.scan t =
      u.map .plain ++ .hit a :: NamedAttribute.recogniser.scan r)
    (whole : Fragment.recogniser.scan t =
      before ++ .hit (lead ++ a.spell) :: Fragment.recogniser.scan r) :
    EndFragments t ↔ Fragment.tokens lead = [] ∧ EndFragments r := by
  refine ⟨fun ends => ⟨EndFragments.no_tokens_lead nonempty text scan whole ends,
    EndFragments.behind text scan whole ends⟩, ?_⟩
  rintro ⟨alone, ends⟩ b a' after split
  rcases Recogniser.hit_trichotomy (scan.symm.trans split) with
    ⟨mid, rfl, later⟩ | ⟨rfl, rfl, -⟩ | ⟨mid, plain, -⟩
  · obtain ⟨before', lead', after', whole', text', alone'⟩ := ends mid a' after later
    refine ⟨before ++ .hit (lead ++ a.spell) :: before', lead', after', ?_, ?_, alone'⟩
    · rw [whole, whole', List.append_assoc, List.cons_append]
    · rw [spellAll_through_named text, spellAll_through_bracket, text', ← List.append_assoc]
  · exact ⟨before, lead, _, whole, (Recogniser.spellAll_map_plain _ _).trans text, alone⟩
  · have mem : Segment.hit a' ∈ u.map Segment.plain := by simp [plain]
    simp at mem

end FirstBracket

/-- An attribute selector in the argument of a function does not end its fragment. -/
theorem not_endFragments_of_inside {t u lead more : Text} {a : NamedAttribute}
    {rest : List (Segment NamedAttribute)} {before after : List (Segment Text)}
    (spelled : a.spell.getLast? = some ']')
    (text : u = Fragment.recogniser.spellAll before ++ ':' :: lead)
    (scan : NamedAttribute.recogniser.scan t = u.map .plain ++ .hit a :: rest)
    (whole : Fragment.recogniser.scan t = before ++ .hit (':' :: (lead ++ more)) :: after)
    (last : more.getLast? = some ')') : ¬ EndFragments t := by
  intro ends
  obtain ⟨before', lead', after', whole', text', -⟩ := ends _ a rest scan
  have nonempty : more ≠ [] := by
    rintro rfl
    cases last
  have pos := List.length_pos_iff.2 nonempty
  have pos' : 0 < a.spell.length := by
    refine List.length_pos_iff.2 fun none => ?_
    rw [none] at spelled
    cases spelled
  rw [Recogniser.spellAll_map_plain] at text'
  have lengths := congrArg List.length (text.symm.trans text')
  simp only [List.length_append, List.length_cons] at lengths
  have size (f : Text) : (Fragment.recogniser.spell f).length = f.length := rfl
  obtain ⟨-, same, -⟩ := Recogniser.hit_unique (r := Fragment.recogniser) (whole.symm.trans whole')
    (by simp only [size, List.length_append]; omega)
    (by simp only [size, List.length_append, List.length_cons]; omega)
  have ending := congrArg List.getLast? same
  rw [List.getLast?_append, spelled, ← List.cons_append, List.getLast?_append, last] at ending
  cases ending

/-- The fragments around an attribute selector that ends a bracket of the plain pass. -/
theorem placed_iff_of_ends {t u r lead : Text} {a : NamedAttribute} {before : List (Segment Text)}
    (offset : Nat) (nonempty : a.spell ≠ [])
    (text : u = Fragment.recogniser.spellAll before ++ lead)
    (alone : Fragment.recogniser.scan u = before ++ Fragment.recogniser.scan lead)
    (whole : Fragment.recogniser.scan t =
      before ++ .hit (lead ++ a.spell) :: Fragment.recogniser.scan r)
    (bracket : (lead ++ a.spell).head? = some '[') :
    Chunk.placed offset (fragmentChunks u ++ .named a :: cutChunks r) =
        Chunk.placed offset (fragmentChunks t) ↔
      Fragment.tokens lead = [] ∧
        Chunk.placed (offset + u.length + a.spell.length) (cutChunks r) =
          Chunk.placed (offset + u.length + a.spell.length) (fragmentChunks r) := by
  have pos : 0 < a.spell.length := List.length_pos_iff.2 nonempty
  have place : offset + (Fragment.recogniser.spellAll before).length + lead.length =
      offset + u.length := by
    rw [text, List.length_append, Nat.add_assoc]
  have skipped : chunkOfSegment (.hit (lead ++ a.spell)) = .text (lead ++ a.spell) := by
    rw [chunkOfSegment, if_pos (by simp [Fragment.isSkipped, bracket])]
  have cut : fragmentChunks u ++ .named a :: cutChunks r =
      before.map chunkOfSegment ++ (fragmentChunks lead ++ .named a :: cutChunks r) := by
    rw [fragmentChunks_of_scan alone, List.append_assoc]
    rfl
  have plain : fragmentChunks t =
      before.map chunkOfSegment ++ .text (lead ++ a.spell) :: fragmentChunks r := by
    rw [fragmentChunks_of_scan whole, List.map_cons, skipped]
    rfl
  have named (o : Nat) : Chunk.placed o (fragmentChunks lead ++ .named a :: cutChunks r) =
      Chunk.placed o (fragmentChunks lead) ++
        Chunk.placed (o + lead.length + a.spell.length) (cutChunks r) := by
    rw [Chunk.placed_append, spell_fragmentChunks]
    rfl
  have bracketed (o : Nat) : Chunk.placed o (.text (lead ++ a.spell) :: fragmentChunks r) =
      Chunk.placed (o + lead.length + a.spell.length) (fragmentChunks r) := by
    show Chunk.placed (o + ([] ++ (lead ++ a.spell) ++ []).length) _ = _
    rw [List.nil_append, List.append_nil, List.length_append, Nat.add_assoc]
  rw [cut, plain, placed_map_append, placed_map_append, List.append_cancel_left_eq, named, bracketed,
    place,
    ← placed_fragmentChunks_eq_nil_iff (offset + (Fragment.recogniser.spellAll before).length)]
  refine append_eq_iff_of_bounds (offset + u.length + a.spell.length) ?_ ?_
  · intro found mem
    have := (Chunk.bounds_of_mem_placed mem).2
    rw [spell_fragmentChunks] at this
    omega
  · exact fun found mem => (Chunk.bounds_of_mem_placed mem).1

/-- A function that is cut in its argument is not the fragment that it was. -/
theorem placed_ne_of_inside {t u name lead more : Text} {before after after' : List (Segment Text)}
    (offset : Nat) (chunks : List Chunk)
    (alone : Fragment.recogniser.scan u = before ++ .hit (':' :: name) :: after)
    (whole : Fragment.recogniser.scan t = before ++ .hit (':' :: (lead ++ more)) :: after')
    (shorter : name.length < lead.length) :
    Chunk.placed offset (fragmentChunks u ++ chunks) ≠ Chunk.placed offset (fragmentChunks t) := by
  have kept (f : Text) : chunkOfSegment (.hit (':' :: f)) = .fragment (.pseudo (':' :: f)) := by
    have comment : ':' :: f ≠ Mark.comment := fun same => absurd (List.cons.inj same).1 (by decide)
    have digit : Char.isDigit ':' = false := by decide
    simp [chunkOfSegment, Fragment.isSkipped, comment, digit, Token.ofText]
  intro same
  rw [fragmentChunks_of_scan alone, fragmentChunks_of_scan whole, List.append_assoc,
    placed_map_append, placed_map_append offset, List.append_cancel_left_eq, List.map_cons,
    List.map_cons, kept, kept, List.cons_append] at same
  have here := (Prod.mk.inj (List.cons.inj same).1).2
  have lengths := congrArg List.length (List.cons.inj (Token.pseudo.inj here)).2
  rw [List.length_append] at lengths
  omega

/-- **One attribute selector after the other.** -/
theorem placed_iff (t : Text) (offset : Nat) :
    Chunk.placed offset (cutChunks t) = Chunk.placed offset (fragmentChunks t) ↔ EndFragments t := by
  induction size : t.length using Nat.strongRecOn generalizing t offset with
  | ind n ih =>
    subst size
    rcases Segment.exists_first (NamedAttribute.recogniser.scan t) with
      ⟨u, scan⟩ | ⟨u, a, rest, scan⟩
    · -- Nothing is cut, and nothing has to end a fragment.
      rw [cutChunks_of_no_hit scan]
      refine iff_of_true rfl fun before a after split => ?_
      have mem : Segment.hit a ∈ u.map Segment.plain := by simp [← scan, split]
      simp at mem
    · -- The first attribute selector leaves a shorter text behind it, which is cut as it is here.
      have rescan : NamedAttribute.recogniser.scan (NamedAttribute.recogniser.spellAll rest) = rest :=
        Recogniser.scan_spellAll (scan.trans (List.append_cons _ _ _))
      have text : t = u ++ (a.spell ++ NamedAttribute.recogniser.spellAll rest) := by
        conv => lhs; rw [← NamedAttribute.recogniser.spellAll_scan t, scan]
        rw [Recogniser.spellAll_append, Recogniser.spellAll_map_plain]
        rfl
      obtain ⟨v, -, read⟩ := Recogniser.exists_read_of_mem_scan
        (r := NamedAttribute.recogniser) (a := a) (t := t) (by simp [scan])
      obtain ⟨body, bracketed, foreign⟩ := NamedAttribute.exists_body read
      rw [cutChunks_of_hit scan]
      generalize NamedAttribute.recogniser.spellAll rest = r at *
      have nonempty : a.spell ≠ [] := NamedAttribute.recogniser.spell_ne_nil read
      have pos := List.length_pos_iff.2 nonempty
      have meets := Fragment.meets u foreign r
      rw [← bracketed] at meets
      cases meets with
      | ends before lead text' alone whole bracket =>
        rw [← text] at whole
        rw [placed_iff_of_ends offset nonempty text' alone whole bracket,
          ih r.length (by rw [text]; simp only [List.length_append]; omega) r _ rfl,
          endFragments_iff_of_ends nonempty text' (by rw [rescan, scan]) whole]
      | inside before after after' name lead more text' alone whole shorter last =>
        rw [← text] at whole
        refine iff_of_false (placed_ne_of_inside offset _ alone whole shorter)
          (not_endFragments_of_inside ?_ text' scan whole last)
        rw [bracketed, ← List.cons_append, List.getLast?_concat]

theorem chunks_eq_cutChunks {selector : Text} (named : startsWithDigit selector = false) :
    chunks selector = cutChunks selector := by
  rw [chunks, if_neg (by simp [named])]
  rfl

/-- The tokens of a selector that are no values of attributes are its fragments. -/
theorem fragments_chunks (selector : Text) :
    (chunks selector).filterMap Chunk.fragment? =
      (tokens selector).filter fun token => !token.isAttributeValue := by
  rw [← tokens_chunks, List.filter_filterMap]
  refine List.filterMap_congr fun chunk mem => ?_
  cases chunk with
  | text t => rfl
  | fragment token =>
    obtain ⟨f, kept, rfl⟩ := mem_chunks_fragment mem
    have plain : (Token.ofText f).isAttributeValue = false := by
      cases named : Token.ofText f with
      | attributeValue onId value =>
        -- Its text would start with a bracket, and fragments that do are skipped.
        have text : f = (Token.attributeValue onId value).text := by rw [← named, Token.text_ofText]
        rw [text] at kept
        simp [Fragment.isSkipped, Token.text] at kept
      | _ => rfl
    simp [Chunk.fragment?, Chunk.token?, Option.filter, plain]
  | named a =>
    simp only [Chunk.fragment?, Chunk.token?, NamedAttribute.token?]
    split <;> rfl

/-- **Cutting a selector at its attribute selectors.**  A selector has the same fragments at the same
places as in one go exactly if its attribute selectors on classes and ids end fragments without tokens
before them, and then its other tokens are those of the plain pass. -/
theorem splitAlike_iff {selector : Text} (named : startsWithDigit selector = false) :
    (SplitAlike selector ↔ EndFragments selector) ∧ (SplitAlike selector → PassesAgree selector) := by
  refine ⟨?_, fun alike => ?_⟩
  · rw [SplitAlike, chunks_eq_cutChunks named]
    exact placed_iff selector 0
  · have same := congrArg (List.map Prod.snd) alike
    rwa [Chunk.map_snd_placed, Chunk.map_snd_placed, fragments_chunks, fragments_fragmentChunks] at same

/-- An attribute selector in a negation is a fragment by itself, and so is what is next to it. -/
theorem splitAlike_negation :
    startsWithDigit "a:not([class=b]) [x=\"c d\"][id=d]".toList = false ∧
      EndFragments "a:not([class=b]) [x=\"c d\"][id=d]".toList ∧
      PassesAgree "a:not([class=b]) [x=\"c d\"][id=d]".toList := by
  have named : startsWithDigit "a:not([class=b]) [x=\"c d\"][id=d]".toList = false := by decide
  have alike : SplitAlike "a:not([class=b]) [x=\"c d\"][id=d]".toList := by decide +kernel
  exact ⟨named, (splitAlike_iff named).1.1 alike, (splitAlike_iff named).2 alike⟩

-- Without their places the tokens can be the same by chance: here both passes read the same call, the one
-- in the first bracket, where the plain pass reads nothing, and the plain pass behind it.
example : PassesAgree "[\":lang([class='a)\"[class=b]]:lang([class='a):lang'])".toList ∧
    ¬ SplitAlike "[\":lang([class='a)\"[class=b]]:lang([class='a):lang'])".toList := by decide +kernel

/-! ### Brackets in strings -/

/-- The closing brackets that are due behind one more character outside strings, innermost first.
Nothing if it closes a bracket that is not the innermost. -/
def dueStep (due : List Char) (c : Char) : Option (List Char) :=
  if c = '(' then some (')' :: due)
  else if c = '[' then some (']' :: due)
  else if c = ')' ∨ c = ']' then if due.head? = some c then some due.tail else none
  else some due

/-- A selector that closes its strings and, outside them, its brackets and parentheses. -/
structure ProperlyClosed (selector : Text) : Prop where
  strings : Quoted.Closed selector
  brackets : (Quoted.outside selector).foldlM dueStep [] = some []

/-- An attribute selector in the string of another is read although the plain pass skips it, and with it
the name of the other attribute becomes an element. -/
theorem not_passesAgree :
    ¬ ∀ selector, startsWithDigit selector = false → ProperlyClosed selector → PassesAgree selector := by
  intro all
  have agree := all "[title=\"[class=a]\"]".toList (by decide) ⟨⟨by decide, by decide⟩, by decide⟩
  revert agree
  decide +kernel

end Selector
end ScopedCss
