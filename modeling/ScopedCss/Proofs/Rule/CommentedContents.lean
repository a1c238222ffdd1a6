import ScopedCss.Proofs.Rule.CommentedRules

/-!
# Contents with comments

The content of a rule is cut at its `;`, and comments hold none once marks stand for them: with and
without the marks the pieces are the same, first to first.

What a mark in front of a declaration does is less harmless.  It is read as part of the property, and so
a declaration of an animation or of a family is none any more.  All is well if a piece that holds a mark
is not such a declaration to begin with (`Declaration.Refers`).
-/
namespace ScopedCss

open Quoted Block ScopedCss.Frame

/-! ### Pieces -/

namespace Commented
variable {n : ℕ} {spot : Spot} {s t : Text} {c : Char}

/-- Where no mark stands in a text it is the same without marks. -/
theorem eq_of_unmarked (h : Commented n spot s t) (unmarked : ¬ Mark.comment <:+: t) : s = t := by
  induction h with
  | nil => rfl
  | @plain _ _ _ t c _ ih =>
    rw [ih fun inside => unmarked (inside.trans (List.suffix_cons c t).isInfix)]
  | mark => exact absurd (List.prefix_append _ _).isInfix unmarked

/-- In front of a character that stands behind spaces the marks are filler. -/
theorem exists_filler_left {spaces : Text} (blank : ∀ d ∈ spaces, Text.isSpace d)
    (h : Commented n .fresh (spaces ++ c :: s) t) :
    ∃ k fill t', Filler fill ∧ t = fill ++ c :: t' ∧ Commented k (Spot.fresh.step c) s t' := by
  generalize whole : spaces ++ c :: s = u at h
  generalize start : Spot.fresh = spot at h
  induction h generalizing spaces with
  | nil => simp at whole
  | @plain n _ u t d h ih =>
    subst start
    cases spaces with
    | nil =>
      cases whole
      exact ⟨n, [], t, .nil, rfl, h⟩
    | cons e spaces =>
      cases whole
      have space := blank d List.mem_cons_self
      have same : Spot.fresh.step d = .fresh :=
        Spot.after_spaces (t := [d]) false (by simpa using space)
      obtain ⟨k, fill, t', filler, rfl, later⟩ :=
        ih (fun e mem => blank e (.tail d mem)) rfl same.symm
      exact ⟨k, d :: fill, t', .space space filler, rfl, same ▸ later⟩
  | mark h ih =>
    obtain ⟨k, fill, t', filler, rfl, later⟩ := ih blank whole rfl
    exact ⟨k, Mark.comment ++ fill, t', .comment filler, by simp, later⟩

/-- A content is one piece in both texts, or its first piece and a smaller content in both. -/
theorem exists_piece (h : Commented n .fresh s t) (orderly : Orderly s) :
    (s.splitOn ';' = [s] ∧ t.splitOn ';' = [t]) ∨
      ∃ k m x y x' y', n = k + m ∧ s.splitOn ';' = x :: y.splitOn ';' ∧
        t.splitOn ';' = x' :: y'.splitOn ';' ∧ y'.length < t.length ∧ Commented k .fresh x x' ∧
        Commented m .fresh y y' ∧ Orderly x ∧ Orderly y ∧ openAfter none x = none := by
  by_cases some : ';' ∈ t
  · obtain ⟨x', y', rfl, first⟩ := List.eq_append_cons_of_mem some
    obtain ⟨k, m, x, y, rfl, rfl, before, behind⟩ := h.exists_cut (Mark.not_mem_comment rfl)
    have outside := orderly.openAfter_eq (c := ';') (by decide)
    have fresh : (Spot.fresh.after x).step ';' = .fresh :=
      Spot.step_structural ((Spot.quote?_after _ x).trans outside) rfl
    have absent : ';' ∉ x := fun mem => first (before.subset mem)
    exact .inr ⟨k, m, x, y, x', y', rfl, List.splitOn_append_cons_self_of_not_mem absent y,
      List.splitOn_append_cons_self_of_not_mem first y', by simp; omega, before, fresh ▸ behind,
      orderly.front, (orderly.behind rfl).1, outside⟩
  · exact .inl ⟨List.splitOn_eq_singleton fun mem => some (h.subset mem), List.splitOn_eq_singleton some⟩

/-- A content has the same pieces with and without marks. -/
theorem splitOn (h : Commented n .fresh s t) (orderly : Orderly s) :
    List.Forall₂ (fun piece piece' => ∃ k, Commented k .fresh piece piece')
      (s.splitOn ';') (t.splitOn ';') := by
  induction size : t.length using Nat.strongRecOn generalizing n s t with
  | ind len ih =>
    subst size
    rcases h.exists_piece orderly with ⟨one, one'⟩ |
      ⟨k, m, x, y, x', y', -, cut, cut', shorter, first, later, -, orderly', -⟩
    · rw [one, one']
      exact .cons ⟨n, h⟩ .nil
    · rw [cut, cut']
      exact .cons ⟨k, first⟩ (ih _ shorter later orderly' rfl)

/-- **Editing the pieces of a content leaves the marks in it**, if it leaves them in every piece. -/
theorem pieces {edit : Text → Text} (h : Commented n .fresh s t) (orderly : Orderly s)
    (marks : ∀ piece' ∈ t.splitOn ';', ∀ piece k, Commented k .fresh piece piece' →
      Commented k .fresh (edit piece) (edit piece'))
    (strings : ∀ piece, Orderly piece → openAfter none (edit piece) = openAfter none piece) :
    Commented n .fresh (Text.joinWith [';'] ((s.splitOn ';').map edit))
      (Text.joinWith [';'] ((t.splitOn ';').map edit)) := by
  induction size : t.length using Nat.strongRecOn generalizing n s t with
  | ind len ih =>
    subst size
    rcases h.exists_piece orderly with ⟨one, one'⟩ |
      ⟨k, m, x, y, x', y', rfl, cut, cut', shorter, first, later, whole, orderly', outside⟩
    · rw [one'] at marks
      have alone (piece : Text) : Text.joinWith [';'] ([piece].map edit) = edit piece :=
        List.intercalate_singleton
      rw [one, one', alone, alone]
      exact marks t List.mem_cons_self s n h
    · rw [cut'] at marks
      have more (piece t : Text) : Text.joinWith [';'] ((piece :: t.splitOn ';').map edit) =
          edit piece ++ ';' :: Text.joinWith [';'] ((t.splitOn ';').map edit) :=
        (List.intercalate_cons_of_ne_nil (by simp [List.splitOn_ne_nil])).trans (List.append_assoc _ _ _)
      rw [cut, cut', more, more]
      refine (marks x' List.mem_cons_self x k first).append (.plain ';' ?_)
      have fresh : (Spot.fresh.after (edit x)).step ';' = .fresh := by
        refine Spot.step_structural ?_ rfl
        rw [Spot.quote?_after]
        exact (strings x whole).trans outside
      rw [fresh]
      exact ih _ shorter later orderly' (fun piece' mem => marks piece' (.tail _ mem)) rfl

end Commented

/-! ### Declarations -/

namespace Declaration
variable {piece piece' property : Text} {k n : ℕ} {declaration : Declaration}

/-- How the properties start whose values declare names or refer to them. -/
def referring : List Text := ["animation".toList, "font-family".toList]

/-- A piece that sets such a property, behind the spaces and the marks of comments it starts with. -/
def Refers (piece : Text) : Prop :=
  ∃ word ∈ referring, word <+: Text.lower (piece.drop (filler piece).length)

instance : DecidablePred Refers := fun piece =>
  inferInstanceAs (Decidable (∃ word ∈ referring, word <+: Text.lower (piece.drop (filler piece).length)))

theorem referring_spec {word : Text} (known : word ∈ referring) :
    ∃ c w, word = c :: w ∧ (c = 'a' ∨ c = 'f') ∧ ∀ d ∈ w, isStructural d = false := by
  have solid (w : Text) (all : (w.all fun d => !isStructural d) = true) :
      ∀ d ∈ w, isStructural d = false := fun d mem => by simpa using List.all_eq_true.1 all d mem
  rcases List.mem_cons.1 known with rfl | known
  · exact ⟨'a', "nimation".toList, rfl, .inl rfl, solid _ rfl⟩
  · rw [List.mem_singleton.1 known]
    exact ⟨'f', "ont-family".toList, rfl, .inr rfl, solid _ rfl⟩

/-- A structural character is written the same in lower case. -/
theorem isStructural_toLower {c : Char} (structural : isStructural c) : isStructural c.toLower := by
  simp only [isStructural, Bool.or_eq_true, beq_iff_eq] at structural
  rcases structural with (rfl | rfl) | rfl <;> rfl

/-- The name of a property stands behind the spaces in front of its piece. -/
theorem exists_name (read : ofPiece? piece = some declaration) {c : Char} {w : Text}
    (starts : c :: w <+: declaration.property) :
    ∃ spaces d name more, piece = spaces ++ d :: (name ++ more) ∧ (∀ e ∈ spaces, Text.isSpace e) ∧
      Text.isSpace d = false ∧ d.toLower = c ∧ Text.lower name = w := by
  have named : declaration.property = Text.lower (Text.trim (piece.takeWhile (· != ':'))) := by
    unfold ofPiece? at read
    split at read
    next =>
      dsimp only at read
      split at read
      next => cases read
      next =>
        cases read
        rfl
    next => cases read
  rw [named] at starts
  obtain ⟨front, ⟨behind, split⟩, lowered⟩ := (List.prefix_map_iff (f := Char.toLower)).1 starts
  cases front with
  | nil => cases lowered
  | cons d name =>
    cases lowered
    have around := Text.trim_append (piece.takeWhile (· != ':'))
    rw [← split] at around
    refine ⟨_, d, name, behind ++ (Text.trailing (Text.trimStart (piece.takeWhile (· != ':'))) ++
      piece.dropWhile (· != ':')), ?_, Text.leading_spaces (piece.takeWhile (· != ':')),
      Text.head_trim_not_space split.symm, rfl, rfl⟩
    calc piece
      _ = piece.takeWhile (· != ':') ++ piece.dropWhile (· != ':') := List.takeWhile_append_dropWhile.symm
      _ = _ := by
        conv => lhs; rw [← around]
        simp

/-- The property of a declaration is set by its piece, whatever marks stand in front of it. -/
theorem refers_of_property (read : ofPiece? piece = some declaration) {word : Text}
    (known : word ∈ referring) (starts : word <+: declaration.property)
    (h : Commented n .fresh piece piece') : Refers piece' := by
  obtain ⟨first, rest, rfl, letter, solid⟩ := referring_spec known
  obtain ⟨spaces, c, name, more, rfl, blank, ink, rfl, rfl⟩ := exists_name read starts
  obtain ⟨k, fill, t', fills, rfl, later⟩ := h.exists_filler_left blank
  have plain {d : Char} (lower : isStructural d.toLower = false) : isStructural d = false := by
    by_contra structural
    rw [isStructural_toLower (by simpa using structural)] at lower
    cases lower
  have other : c ≠ '%' := by
    rintro rfl
    rcases letter with same | same <;> cases same
  have begun : (Spot.fresh.step c).isBegun := Spot.isBegun_step_of_not_space ink (plain (by
    rcases letter with same | same <;> rw [same] <;> rfl))
  obtain ⟨t', rfl, -⟩ := later.split_begun_left begun fun d mem =>
    plain (solid _ (List.mem_map_of_mem mem))
  have bare : filler ([] ++ c :: (name ++ t')) = [] :=
    filler_append nofun (by rintro d ⟨⟩; exact ⟨ink, other⟩) (by simp)
  rw [List.nil_append] at bare
  refine ⟨_, known, ?_⟩
  rw [filler_append_of_filler fills, bare, List.append_nil, List.drop_left]
  exact ⟨Text.lower t', by simp [Text.lower]⟩

variable {answer : Text → Text → Option Text}

/-- Only the values of certain properties are replaced. -/
def Silent (answer : Text → Text → Option Text) : Prop :=
  ∀ property value, (answer property value).isSome → ∃ word ∈ referring, word <+: property

/-- A piece that sets none of these properties once its marks are taken away stays as it is. -/
theorem replaced_of_not_refers (silent : Silent answer) (h : Commented n .fresh piece piece')
    (apart : ¬ Refers piece') : replaced answer piece = piece := by
  unfold replaced
  cases read : ofPiece? piece with
  | none => rfl
  | some declaration =>
    dsimp only
    cases answered : answer declaration.property (unshield declaration.value) with
    | none => rfl
    | some value =>
      obtain ⟨word, known, starts⟩ := silent _ _ (by rw [answered]; rfl)
      exact absurd (refers_of_property read known starts h) apart

/-- Replacing the value in a piece leaves the marks in it. -/
theorem commented_replaced (silent : Silent answer) (h : Commented n .fresh piece piece')
    (apart : Mark.comment <:+: piece' → ¬ Refers piece') :
    Commented n .fresh (replaced answer piece) (replaced answer piece') := by
  by_cases marked : Mark.comment <:+: piece'
  · rwa [replaced_of_not_refers silent h (apart marked),
      replaced_of_not_refers silent (.refl _ piece') (apart marked)]
  · obtain rfl := h.eq_of_unmarked marked
    obtain rfl := h.count_unique (.refl .fresh piece)
    exact .refl _ _

/-! ### Contents -/

/-- In a content no comment stands in a piece that declares names or refers to them. -/
def SetApart (content : Text) : Prop :=
  ∀ piece ∈ content.splitOn ';', Mark.comment <:+: piece → ¬ Refers piece

instance : DecidablePred SetApart := fun content =>
  inferInstanceAs (Decidable (∀ piece ∈ content.splitOn ';', Mark.comment <:+: piece → ¬ Refers piece))

/-- **Replacing values leaves the marks in a content**, if they are set apart. -/
theorem commented_content {s t : Text} (silent : Silent answer)
    (each : ∀ property value new, answer property value = some new →
      ∀ state : Option Char, (∀ q ∈ state, Text.isQuote q) → Keeps state value new)
    (h : Commented n .fresh s t) (orderly : Orderly s) (apart : SetApart t) :
    Commented n .fresh (Text.joinWith [';'] ((s.splitOn ';').map (replaced answer)))
      (Text.joinWith [';'] ((t.splitOn ';').map (replaced answer))) :=
  h.pieces orderly (fun piece' mem _ _ marks => commented_replaced silent marks (apart piece' mem))
    fun _ whole => (keeps_replaced each whole.shielded whole.clean whole.free).strings

/-- Marks that are set apart do not hide a family. -/
theorem declaredIn_commented {s t : Text} (h : Commented n .fresh s t) (orderly : Orderly s)
    (apart : SetApart t) : FontFamily.declaredIn s = FontFamily.declaredIn t := by
  have silent {piece piece' : Text} {k : ℕ} (marks : Commented k .fresh piece piece')
      (free : ¬ Refers piece') : FontFamily.declaredIn? piece = none := by
    unfold FontFamily.declaredIn?
    cases read : ofPiece? piece with
    | none => rfl
    | some declaration =>
      have known : "font-family".toList ∈ referring := by decide
      exact if_neg fun family => free (refers_of_property read known (by rw [family]) marks)
  have pieces {l l' : List Text}
      (same : List.Forall₂ (fun piece piece' => ∃ k, Commented k .fresh piece piece') l l')
      (apart : ∀ piece ∈ l', Mark.comment <:+: piece → ¬ Refers piece) :
      l.filterMap FontFamily.declaredIn? = l'.filterMap FontFamily.declaredIn? := by
    induction same with
    | nil => rfl
    | @cons piece piece' l l' first _ ih =>
      obtain ⟨k, marks⟩ := first
      have here : FontFamily.declaredIn? piece = FontFamily.declaredIn? piece' := by
        by_cases marked : Mark.comment <:+: piece'
        · have free := apart piece' List.mem_cons_self marked
          rw [silent marks free, silent (.refl _ piece') free]
        · rw [marks.eq_of_unmarked marked]
      rw [List.filterMap_cons, List.filterMap_cons, here,
        ih fun piece mem => apart piece (.tail _ mem)]
  rw [FontFamily.declaredIn, FontFamily.declaredIn, pieces (h.splitOn orderly) apart]

end Declaration
end ScopedCss
