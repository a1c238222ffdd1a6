import ScopedCss.Proofs.Rule.Upkeep
import ScopedCss.Proofs.Selector.Lists
import ScopedCss.Proofs.Text.Patches

/-!
# Normalising and splitting

A selector list is normalised as a whole, and each of its parts again by itself, before the parts are
looked for in the list.  Both come to the same: what is respelled ends at a `=` and has no comma and no
parenthesis in it, so it never reaches over a cut or over the spaces around a part, and respelled it is
not respelled again (`normalise_normalise`).

A list is cut at the commas before which as many parentheses were closed as opened, and at no others
(`cut_iff`).  Before anything is replaced every part is found where it stands, with only spaces and
commas between one part and the next (`normalise_splits`).
-/
namespace ScopedCss

/-- A trimmed text ends in no space. -/
theorem Text.isSpace_getLast_trimEnd {t : Text} {c : Char} (last : c ∈ (trimEnd t).getLast?) :
    isSpace c = false := by
  have stops := List.head?_dropWhile_not isSpace t.reverse
  rw [trimEnd, List.getLast?_reverse] at last
  rw [Option.mem_def.1 last] at stops
  simpa using stops

namespace CommaList

/-! ### Where a list is cut -/

theorem foldl_level (t : Text) (n : Int) : t.foldl level n = n + t.count '(' - t.count ')' := by
  induction t generalizing n with
  | nil => simp
  | cons c t ih =>
    rw [List.foldl_cons, ih, level, List.count_cons, List.count_cons]
    by_cases opens : c = '('
    · subst opens
      simp
      omega
    · by_cases closes : c = ')'
      · subst closes
        simp
        omega
      · simp [opens, closes]

/-- A comma at which no parenthesis is open separates what stands before it from what stands behind. -/
theorem splitFrom_append_comma {n : Int} {before : Text} (top : before.foldl level n = 0) (after : Text) :
    splitFrom n (before ++ ',' :: after) =
      ((splitFrom n before).1, (splitFrom n before).2 ++ split after) := by
  induction before generalizing n with
  | nil =>
    obtain rfl : n = 0 := top
    rw [List.nil_append, splitFrom_cons, if_pos ⟨rfl, rfl⟩]
    rfl
  | cons c before ih =>
    rw [List.cons_append, splitFrom_cons, splitFrom_cons, ih top]
    split <;> rfl

/-- Where a piece ends no parenthesis is open. -/
theorem foldl_level_of_splitFrom {n : Int} {t first : Text} {mid back : List Text}
    (pieces : splitFrom n t = (first, mid ++ back)) (nonempty : back ≠ []) :
    (join (first :: mid)).foldl level n = 0 := by
  induction t generalizing n first mid with
  | nil =>
    have none : mid ++ back = [] := (congrArg Prod.snd pieces).symm
    exact absurd (List.append_eq_nil_iff.1 none).2 nonempty
  | cons c t ih =>
    rw [splitFrom_cons] at pieces
    split at pieces
    next comma =>
      obtain ⟨rfl, rfl⟩ := comma
      obtain ⟨rfl, later⟩ := Prod.mk.inj pieces
      cases mid with
      | nil => rfl
      | cons next mid =>
        obtain ⟨rfl, rest⟩ := List.cons.inj later
        rw [join_cons]
        have inner := ih (n := 0) (Prod.ext rfl rest)
        rwa [join_cons] at inner
    next =>
      obtain ⟨rfl, rest⟩ := Prod.mk.inj pieces
      have inner := ih (Prod.ext rfl rest)
      rwa [join_cons] at inner ⊢

/-- **A list is cut at a comma** exactly if as many parentheses are opened as closed before it. -/
theorem cut_iff {list before after : Text} (whole : list = before ++ ',' :: after) :
    (∃ front back, split list = front ++ back ∧ front ≠ [] ∧ back ≠ [] ∧ join front = before ∧
        join back = after) ↔
      before.count '(' = before.count ')' := by
  have level := foldl_level before 0
  constructor
  · rintro ⟨front, back, cut, some, some', rfl, -⟩
    obtain ⟨first, mid, rfl⟩ := List.exists_cons_of_ne_nil some
    obtain ⟨same, rest⟩ := List.cons.inj cut
    have top := foldl_level_of_splitFrom (n := 0) (t := list) (Prod.ext same rest) some'
    omega
  · intro balanced
    have top : before.foldl CommaList.level 0 = 0 := by omega
    have cut := splitFrom_append_comma top after
    refine ⟨split before, split after, ?_, by simp [split], by simp [split], join_split before,
      join_split after⟩
    rw [whole, split, cut]
    rfl

end CommaList

namespace NamedAttribute

/-! ### Normalising -/

/-- A bracket with nothing but the name of the class attribute, and spaces around it, in front of a
character is respelled if that is a `=`. -/
theorem readExactClass_class {s s' : Text} (spaces : ∀ c ∈ s, Text.isSpace c)
    (spaces' : ∀ c ∈ s', Text.isSpace c) {c : Char} (solid : Text.isSpace c = false) (u : Text) :
    readExactClass ('[' :: (s ++ "class".toList ++ s' ++ c :: u)) =
      if c = '=' then some (s ++ "class".toList ++ s') else none := by
  have name : "class".toList = 'c' :: "lass".toList := by decide
  have lead : Text.leading (s ++ "class".toList ++ s' ++ c :: u) = s ∧
      Text.trimStart (s ++ "class".toList ++ s' ++ c :: u) = "class".toList ++ (s' ++ c :: u) := by
    rw [List.append_assoc, List.append_assoc]
    refine Text.trimStart_of_spaces spaces ?_
    rw [name]
    rintro d ⟨⟩
    rfl
  have gap : Text.leading (s' ++ c :: u) = s' ∧ Text.trimStart (s' ++ c :: u) = c :: u := by
    refine Text.trimStart_of_spaces spaces' ?_
    rintro d ⟨⟩
    exact solid
  have found : "class".toList.isPrefixOf? ("class".toList ++ (s' ++ c :: u)) = some (s' ++ c :: u) :=
    List.isPrefixOf?_eq_some_iff_append_eq.2 rfl
  rw [readExactClass, lead.1, lead.2, found]
  simp only [gap]
  split
  next same => rw [if_pos (List.cons.inj same).1]
  next other => rw [if_neg fun same => other u (by rw [same])]

/-- What is respelled is a bracket, spaces, the name of the class attribute, spaces and a `=`. -/
theorem exists_of_readExactClass {t inside : Text} (h : readExactClass t = some inside) :
    ∃ s s', (∀ c ∈ s, Text.isSpace c) ∧ (∀ c ∈ s', Text.isSpace c) ∧
      inside = s ++ "class".toList ++ s' ∧ '[' :: (inside ++ ['=']) <+: t := by
  have front := exactClass.spell_front (t := t) h
  unfold readExactClass at h
  split at h
  next t =>
    split at h
    next rest found =>
      split at h
      next =>
        cases h
        exact ⟨_, _, Text.leading_spaces t, Text.leading_spaces rest, rfl, front⟩
      next => cases h
    next => cases h
  next => cases h

/-- What is respelled has nothing in it that starts a patch. -/
theorem clean_of_readExactClass {t inside : Text} (h : readExactClass t = some inside) :
    ∀ c ∈ inside ++ ['='], startsPatch c = false := by
  have letters : "class".toList.all fun c => !startsPatch c := by decide
  intro c mem
  rcases List.mem_append.1 mem with inner | equals
  · rcases mem_of_readExactClass h inner with space | letter
    · simp only [startsPatch, Bool.or_eq_false_iff, beq_eq_false_iff_ne]
      constructor <;> rintro rfl <;> cases space
    · simpa using List.all_eq_true.1 letters c letter
  · rw [List.mem_singleton.1 equals]
    rfl

/-- Where nothing is respelled, nothing is after what follows was respelled. -/
theorem readExactClass_normalise {c : Char} {t : Text} (unread : readExactClass (c :: t) = none) :
    readExactClass (c :: normalise t) = none := by
  by_contra read
  obtain ⟨inside, read⟩ := Option.ne_none_iff_exists'.1 read
  obtain ⟨s, s', spaces, spaces', rfl, front⟩ := exists_of_readExactClass read
  obtain ⟨rfl, within⟩ := List.cons_prefix_cons.1 front
  obtain ⟨rest, rfl⟩ := (patched_normalise t).of_front (clean_of_readExactClass read) within
  have again := readExactClass_class spaces spaces' (c := '=') rfl rest
  rw [List.append_assoc, List.singleton_append, again, if_pos rfl] at unread
  cases unread

/-- **Normalising is done once.** -/
theorem normalise_normalise (t : Text) : normalise (normalise t) = normalise t := by
  induction size : t.length using Nat.strongRecOn generalizing t with
  | ind n ih =>
    subst size
    cases t with
    | nil => rfl
    | cons c t =>
      rcases Recogniser.scan_cons (r := exactClass) c t with
        ⟨inside, rest, read, split, shorter, -⟩ | ⟨unread, -⟩
      · have first : normalise (c :: t) = '[' :: (inside ++ ('~' :: '=' :: normalise rest)) := by
          rw [split]
          refine (Recogniser.substitute_spell_append (r := exactClass) (split ▸ read)).trans ?_
          simp [normalise]
        obtain ⟨s, s', spaces, spaces', rfl, -⟩ := exists_of_readExactClass read
        have done : exactClass.read ('[' :: (s ++ "class".toList ++ s' ++ '~' :: '=' :: normalise rest)) =
            none := by
          refine (readExactClass_class spaces spaces' rfl _).trans (if_neg (by decide))
        have plain : '[' ∉ s ++ "class".toList ++ s' ++ ['~', '='] := by
          have absent := no_bracket_of_spaces spaces
          have absent' := no_bracket_of_spaces spaces'
          simp [absent, absent']
        have later : normalise (s ++ "class".toList ++ s' ++ '~' :: '=' :: normalise rest) =
            s ++ "class".toList ++ s' ++ '~' :: '=' :: normalise rest := by
          have whole := normalise_append_of_no_bracket plain (normalise rest)
          rw [ih rest.length shorter rest rfl] at whole
          simpa only [List.append_assoc, List.cons_append, List.nil_append] using whole
        rw [first]
        exact (Recogniser.substitute_of_not_read done).trans (congrArg ('[' :: ·) later)
      · have first : normalise (c :: t) = c :: normalise t := Recogniser.substitute_of_not_read unread
        rw [first]
        exact (Recogniser.substitute_of_not_read (r := exactClass) (readExactClass_normalise unread)).trans
          (congrArg (c :: ·) (ih t.length (Nat.lt_succ_self _) t rfl))

/-- A text starts and ends as before. -/
theorem ends_normalise (t : Text) :
    (normalise t).head? = t.head? ∧ (normalise t).getLast? = t.getLast? := by
  have related := exactClass.substitute_rel (R := fun s t => t.head? = s.head? ∧ t.getLast? = s.getLast?)
    (f := exactClass.spell) (g := fun inside => '[' :: inside ++ ['~', '=']) ⟨rfl, rfl⟩
    (fun c s t same => ⟨rfl, by rw [List.getLast?_cons, List.getLast?_cons, same.2]⟩)
    (fun inside s t same => ⟨rfl, by
      show ('[' :: inside ++ ['~', '='] ++ t).getLast? = ('[' :: inside ++ ['='] ++ s).getLast?
      simp only [List.getLast?_append, same.2]
      rfl⟩) t
  rwa [Recogniser.substitute_spell] at related

/-- A text is trimmed before it is normalised or afterwards. -/
theorem trim_normalise (t : Text) : Text.trim (normalise t) = normalise (Text.trim t) := by
  obtain ⟨first, last⟩ := ends_normalise (Text.trim t)
  rw [normalise_eq_surround t]
  refine Text.trim_of_spaces (Text.leading_spaces t) (Text.trailing_spaces _) ?_ ?_
  · rw [first]
    exact fun c first => Text.head_trim_not_space (List.head?_eq_some_iff.1 first).choose_spec
  · rw [last]
    exact fun c => Text.isSpace_getLast_trimEnd (t := Text.trimStart t)

/-- The parts of a normalised list are the normalised parts. -/
theorem entries_normalise (list : Text) :
    CommaList.entries (normalise list) = (CommaList.entries list).map normalise := by
  have trimmed : (CommaList.split (normalise list)).map Text.trim =
      ((CommaList.split list).map Text.trim).map normalise := by
    rw [split_normalise, List.map_map, List.map_map]
    exact List.map_congr_left fun piece _ => trim_normalise piece
  have blank (part : Text) : (normalise part).isEmpty = part.isEmpty := by
    cases part with
    | nil => rfl
    | cons c t =>
      obtain ⟨u, normal⟩ := normalise_cons c t
      rw [normal]
      rfl
  rw [CommaList.entries, trimmed, List.filter_map, CommaList.entries]
  refine congrArg (List.map normalise) (List.filter_congr fun part _ => ?_)
  exact congrArg (!·) (blank part)

end NamedAttribute

namespace Selector
open CommaList

/-! ### Parts in their list -/

/-- Parts are found in a text one after the other, each behind the part before it, and there is nothing but
spaces and commas between them and around them. -/
def FoundInOrder : List Text → Text → Prop
  | [], t => IsGap t
  | part :: parts, t =>
    ∃ gap rest, Text.breakAt? part t = some (gap, rest) ∧ IsGap gap ∧ FoundInOrder parts rest

theorem isGap_append {s t : Text} (gap : IsGap s) (gap' : IsGap t) : IsGap (s ++ t) := fun c mem =>
  (List.mem_append.1 mem).elim (gap c) (gap' c)

theorem isGap_of_spaces {s : Text} (spaces : ∀ c ∈ s, Text.isSpace c) : IsGap s :=
  fun c mem => .inl (spaces c mem)

/-- The parts of the pieces to come are found in order, whatever gap stands in front of them. -/
theorem foundInOrder_pending {gap : Text} {pieces : List Text} (gaps : IsGap gap)
    (noComma : ∀ piece ∈ pieces, ∀ u, Text.trimStart piece ≠ ',' :: u) :
    FoundInOrder ((partsOf pieces).map NamedAttribute.normalise) (gap ++ pending pieces) := by
  induction pieces generalizing gap with
  | nil =>
    show IsGap (gap ++ [])
    rwa [List.append_nil]
  | cons piece later ih =>
    have lead := isGap_append gaps (isGap_of_spaces (Text.leading_spaces piece))
    -- What is behind the part starts with a gap, which goes on to the next piece.
    have behind {front : Text} (fronts : IsGap front) :
        FoundInOrder ((partsOf later).map NamedAttribute.normalise) (front ++ textBehind piece later) := by
      have gaps' := isGap_append fronts (isGap_of_spaces (Text.trailing_spaces (Text.trimStart piece)))
      cases later with
      | nil =>
        show IsGap _
        rwa [textBehind, commaEach, List.flatMap_nil, List.append_nil]
      | cons next later =>
        have comma : IsGap [','] := fun c mem => .inr (List.mem_singleton.1 mem)
        have found := ih (isGap_append gaps' comma) fun p mem => noComma p (.tail piece mem)
        simpa [textBehind, commaEach, pending] using found
    have parts : partsOf (piece :: later) = partsOf [piece] ++ partsOf later :=
      partsOf_append [piece] later
    rw [parts, pending_cons, ← List.append_assoc]
    by_cases blank : Text.trim piece = []
    · rw [partsOf_of_blank blank, blank]
      exact behind lead
    · rw [partsOf_of_part blank]
      exact ⟨_, _, breakAt?_part blank gaps (noComma piece List.mem_cons_self) _, lead,
        behind fun c mem => absurd mem List.not_mem_nil⟩

/-- **Normalising and splitting do not disturb each other.**  The pieces of a list with commas between them
are the list, and it is cut exactly at the commas before which as many parentheses are opened as closed.
The pieces of the normalised list are the normalised pieces, whether they are trimmed first or last, and
normalising is done once.  So in the text from which the scoping of a list starts every normalised part is
found where it stands, in order, with only spaces and commas between one part and the next. -/
theorem normalise_splits (list : Text) (ledger : Ledger) :
    join (split list) = list ∧
      (∀ before after, list = before ++ ',' :: after →
        ((∃ front back, split list = front ++ back ∧ front ≠ [] ∧ back ≠ [] ∧ join front = before ∧
            join back = after) ↔ before.count '(' = before.count ')')) ∧
      split (NamedAttribute.normalise list) = (split list).map NamedAttribute.normalise ∧
      (∀ piece, Text.trim (NamedAttribute.normalise piece) = NamedAttribute.normalise (Text.trim piece)) ∧
      entries (NamedAttribute.normalise list) = (entries list).map NamedAttribute.normalise ∧
      NamedAttribute.normalise (NamedAttribute.normalise list) = NamedAttribute.normalise list ∧
      FoundInOrder ((entries list).map NamedAttribute.normalise) (Progress.start list ledger).text := by
  refine ⟨join_split list, fun _ _ => cut_iff, NamedAttribute.split_normalise list,
    NamedAttribute.trim_normalise, NamedAttribute.entries_normalise list,
    NamedAttribute.normalise_normalise list, ?_⟩
  have none : IsGap [] := fun c mem => absurd mem List.not_mem_nil
  have found := foundInOrder_pending none fun piece mem => noComma_of_mem_split list mem
  rwa [List.nil_append, pending_split] at found

/-- The first comma stands behind a parenthesis that closes nothing and separates nothing, the second one
does; what is respelled stands between them, with a space of three bytes in it. -/
theorem normalise_splits_unbalanced :
    let list := "a),[ class\u2003= x](, b".toList
    let before := "a),[ class\u2003= x](".toList
    let parts := ["a),[ class\u2003~= x](".toList, "b".toList]
    list = before ++ ',' :: " b".toList ∧
      (∃ front back, split list = front ++ back ∧ front ≠ [] ∧ back ≠ [] ∧ join front = before ∧
        join back = " b".toList) ∧
      split (NamedAttribute.normalise list) = [before, " b".toList].map NamedAttribute.normalise ∧
      entries (NamedAttribute.normalise list) = parts ∧
      NamedAttribute.normalise (NamedAttribute.normalise list) = NamedAttribute.normalise list ∧
      FoundInOrder parts (NamedAttribute.normalise list) := by
  intro list before parts
  have whole : list = before ++ ',' :: " b".toList := by decide
  have pieces : split list = [before, " b".toList] := by decide +kernel
  have normal : (entries list).map NamedAttribute.normalise = parts := by decide +kernel
  obtain ⟨-, cuts, split, -, trimmed, once, found⟩ := normalise_splits list {}
  rw [pieces] at split
  rw [normal] at trimmed found
  exact ⟨whole, (cuts before _ whole).2 (by decide), split, trimmed, once, found⟩

end Selector

end ScopedCss
