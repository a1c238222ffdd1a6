import ScopedCss.Proofs.Selector.Pieces
import ScopedCss.Proofs.Plain.Lists
import ScopedCss.Proofs.Rule.Balance

/-!
# Lists of enclosed pieces

A piece of a list is enclosed if it closes its parentheses and has commas only inside them.  Enclosed
pieces with commas between them are cut apart again where they were joined (`split_join`), so that a
list is changed piece by piece (`getD_mapSome`).
-/
namespace ScopedCss.CommaList

/-- Whether a text, inside a number of parentheses, closes all parentheses and has commas only inside
them. -/
def enclosed : Nat → Text → Bool
  | depth, [] => depth == 0
  | depth, c :: t =>
    if c = '(' then enclosed (depth + 1) t
    else if c = ')' then 0 < depth && enclosed (depth - 1) t
    else (c != ',' || 0 < depth) && enclosed depth t

/-- Text without commas and parentheses in front does not matter. -/
theorem enclosed_append_left {s : Text} (plain : ∀ c ∈ s, c ≠ ',' ∧ c ≠ '(' ∧ c ≠ ')') (depth : Nat)
    (t : Text) : enclosed depth (s ++ t) = enclosed depth t := by
  induction s with
  | nil => rfl
  | cons c s ih =>
    obtain ⟨comma, opens, closes⟩ := plain c List.mem_cons_self
    rw [List.cons_append, enclosed, if_neg opens, if_neg closes,
      ih fun d mem => plain d (List.mem_cons_of_mem c mem)]
    simp [comma]

/-- Text without commas and parentheses behind does not matter. -/
theorem enclosed_append_right {s : Text} (plain : ∀ c ∈ s, c ≠ ',' ∧ c ≠ '(' ∧ c ≠ ')') (depth : Nat)
    (t : Text) : enclosed depth (t ++ s) = enclosed depth t := by
  induction t generalizing depth with
  | nil =>
    have whole := enclosed_append_left plain depth []
    rwa [List.append_nil] at whole
  | cons c t ih => simp only [List.cons_append, enclosed, ih]

/-- An enclosed text belongs to the piece that it starts. -/
theorem splitFrom_enclosed {depth : Nat} {s : Text} (h : enclosed depth s) (t : Text) :
    splitFrom depth (s ++ t) = (s ++ (splitFrom 0 t).1, (splitFrom 0 t).2) := by
  induction s generalizing depth with
  | nil =>
    rw [enclosed, beq_iff_eq] at h
    subst h
    rfl
  | cons c s ih =>
    rw [List.cons_append, splitFrom_cons]
    unfold enclosed at h
    split at h
    next opens =>
      have deeper : level depth c = (depth + 1 : Nat) := by simp [level, opens]
      rw [if_neg (by simp [opens]), deeper, ih h]
      rfl
    next opens =>
      split at h
      next closes =>
        rw [Bool.and_eq_true, decide_eq_true_eq] at h
        have back : level depth c = (depth - 1 : Nat) := by
          rw [level, if_neg opens, if_pos closes]
          omega
        rw [if_neg (by simp [closes]), back, ih h.2]
        rfl
      next closes =>
        rw [Bool.and_eq_true] at h
        have belongs : ¬ (c = ',' ∧ (depth : Int) = 0) := by
          rintro ⟨rfl, zero⟩
          have inside : 0 < depth := by simpa using h.1
          omega
        rw [if_neg belongs, level, if_neg opens, if_neg closes, ih h.2]
        rfl

/-- At the front of a list no parenthesis is open. -/
theorem splitFrom_piece {s : Text} (h : enclosed 0 s) (t : Text) :
    splitFrom 0 (s ++ t) = (s ++ (splitFrom 0 t).1, (splitFrom 0 t).2) := splitFrom_enclosed h t

/-- **A list of enclosed pieces** is cut where they were joined. -/
theorem split_join {pieces : List Text} (nonempty : pieces ≠ [])
    (h : ∀ piece ∈ pieces, enclosed 0 piece) : split (join pieces) = pieces := by
  have cut : ∀ pieces : List Text, (∀ piece ∈ pieces, enclosed 0 piece) →
      splitFrom 0 (pieces.flatMap (',' :: ·)) = ([], pieces) := by
    intro pieces
    induction pieces with
    | nil => exact fun _ => rfl
    | cons piece pieces ih =>
      intro h
      have first := splitFrom_piece (h piece List.mem_cons_self) (pieces.flatMap (',' :: ·))
      rw [ih fun p mem => h p (List.mem_cons_of_mem piece mem), List.append_nil] at first
      rw [List.flatMap_cons, List.cons_append, splitFrom_cons, show level 0 ',' = 0 from rfl, first]
      rfl
  obtain ⟨piece, pieces, rfl⟩ := List.exists_cons_of_ne_nil nonempty
  have first := splitFrom_piece (h piece List.mem_cons_self) (pieces.flatMap (',' :: ·))
  rw [cut pieces fun p mem => h p (List.mem_cons_of_mem piece mem), List.append_nil] at first
  rw [split, join_cons, first]

/-- A list of enclosed pieces is changed piece by piece. -/
theorem getD_mapSome {pieces : List Text} (nonempty : pieces ≠ [])
    (h : ∀ piece ∈ pieces, enclosed 0 piece) (replacement : Text → Option Text) :
    (mapSome replacement (join pieces)).getD (join pieces) =
      join (pieces.map fun piece => (replacement piece).getD piece) := by
  rw [mapSome, split_join nonempty h]
  split
  next => rfl
  next none =>
    have same : pieces.map (fun piece => (replacement piece).getD piece) = pieces := by
      rw [Bool.not_eq_true, List.any_eq_false] at none
      refine (List.map_congr_left fun piece mem => ?_).trans pieces.map_id
      have here : replacement piece = Option.none := by simpa using none piece mem
      rw [here]
      rfl
    rw [same]
    rfl

/-- Flat pieces make a flat list. -/
theorem flat_join {pieces : List Text} (all : ∀ piece ∈ pieces, Quoted.Flat piece) :
    Quoted.Flat (join pieces) := by
  have comma : Quoted.Flat [','] := Quoted.flat_of_no_quote
    (fun c mem => List.mem_singleton.1 mem ▸ rfl) (by decide)
    fun c mem => List.mem_singleton.1 mem ▸ rfl
  exact comma.joinWith all

end ScopedCss.CommaList
