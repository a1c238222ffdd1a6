import Mathlib.Data.List.Basic
import Mathlib.Data.List.Forall2

/-!
# Runs that may fail

A run goes through a list and may fail at any element.  It comes to its end exactly if no step that
it comes to fails (`foldlM_isOk_iff`), and the state in which a walk leaves off is that of a run
(`map_snd_mapM`).
-/
namespace ScopedCss

theorem isOk_map_iff {ε α β : Type} {f : α → β} {result : Except ε α} :
    (∃ b, result.map f = .ok b) ↔ ∃ a, result = .ok a := by
  cases result with
  | error e => exact iff_of_false (fun ⟨_, h⟩ => by cases h) fun ⟨_, h⟩ => by cases h
  | ok a => exact iff_of_true ⟨f a, rfl⟩ ⟨a, rfl⟩

theorem bind_eq_ok_iff {ε α β : Type} {first : Except ε α} {next : α → Except ε β} {b : β} :
    (first >>= next) = .ok b ↔ ∃ a, first = .ok a ∧ next a = .ok b := by
  cases first with
  | error e => exact iff_of_false (fun h => by cases h) fun ⟨_, h, _⟩ => by cases h
  | ok a => exact ⟨fun h => ⟨a, rfl, h⟩, fun ⟨_, same, h⟩ => by cases same; exact h⟩

theorem mapError_eq_ok_iff {ε ε' α : Type} {result : Except ε α} {rename : ε → ε'} {a : α} :
    result.mapError rename = .ok a ↔ result = .ok a := by
  cases result with
  | error e => exact iff_of_false (fun h => by cases h) fun h => by cases h
  | ok b => exact ⟨fun h => congrArg Except.ok (Except.ok.inj h), fun h => by rw [h]; rfl⟩

/-- A run that may fail comes to its end exactly if no step that it comes to fails. -/
theorem foldlM_isOk_iff {σ α ε : Type} {step : σ → α → Except ε σ} {start : σ} {l : List α} :
    (∃ stop, l.foldlM step start = .ok stop) ↔
      ∀ before a after s, l = before ++ a :: after → before.foldlM step start = .ok s →
        ∃ next, step s a = .ok next := by
  induction l generalizing start with
  | nil => exact iff_of_true ⟨start, rfl⟩ fun before a after s split => by simp at split
  | cons b l ih =>
    rw [List.foldlM_cons]
    constructor
    · rintro ⟨stop, ok⟩ before a after s split reached
      cases first : step start b with
      | error e => rw [first] at ok; cases ok
      | ok second =>
        rw [first] at ok
        cases before with
        | nil =>
          cases split
          cases reached
          exact ⟨second, first⟩
        | cons b' before =>
          cases split
          rw [List.foldlM_cons, first] at reached
          exact ih.1 ⟨stop, ok⟩ before a after s rfl reached
    · intro all
      obtain ⟨second, first⟩ := all [] b l start rfl rfl
      rw [first]
      refine ih.2 fun before a after s split reached => ?_
      refine all (b :: before) a after s (by rw [split]; rfl) ?_
      rw [List.foldlM_cons, first]
      exact reached

/-- A list can be gone through exactly if every element can be, each on its own. -/
theorem mapM_eq_ok_iff {α β ε : Type} {f : α → Except ε β} {l : List α} {l' : List β} :
    l.mapM f = .ok l' ↔ List.Forall₂ (fun a b => f a = .ok b) l l' := by
  induction l generalizing l' with
  | nil =>
    rw [List.mapM_nil, List.forall₂_nil_left_iff]
    exact ⟨fun ok => (Except.ok.inj ok).symm, fun empty => empty ▸ rfl⟩
  | cons a l ih =>
    rw [List.mapM_cons, List.forall₂_cons_left_iff]
    cases first : f a with
    | error e => exact iff_of_false (fun ok => by cases ok) fun ⟨_, _, found, _⟩ => by cases found
    | ok b =>
      cases later : l.mapM f with
      | error e =>
        refine iff_of_false (fun ok => by cases ok) fun ⟨_, rest, _, all, _⟩ => ?_
        rw [ih.2 all] at later
        cases later
      | ok rest =>
        constructor
        · intro ok
          exact ⟨b, rest, rfl, ih.1 later, (Except.ok.inj ok).symm⟩
        · rintro ⟨b', rest', found, all, rfl⟩
          rw [ih.2 all] at later
          cases found
          cases later
          rfl

theorem exists_ok_of_mapM {α β ε : Type} {f : α → Except ε β} {l : List α} {l' : List β}
    (ok : l.mapM f = .ok l') {a : α} (mem : a ∈ l) : ∃ b, f a = .ok b := by
  have each := mapM_eq_ok_iff.1 ok
  clear ok
  induction each with
  | nil => cases mem
  | cons first _ ih =>
    rcases List.mem_cons.1 mem with rfl | mem
    · exact ⟨_, first⟩
    · exact ih mem

/-- What is done behind the visits of all elements may know that there are as many results. -/
theorem mapM_bind_congr {m : Type → Type} [Monad m] [LawfulMonad m] {α β γ : Type} {visit : α → m β}
    {l : List α} {next next' : List β → m γ}
    (same : ∀ results, results.length = l.length → next results = next' results) :
    (l.mapM visit >>= next) = l.mapM visit >>= next' := by
  induction l generalizing next next' with
  | nil =>
    rw [List.mapM_nil, pure_bind, pure_bind]
    exact same [] rfl
  | cons a l ih =>
    rw [List.mapM_cons, bind_assoc, bind_assoc]
    refine bind_congr fun b => ?_
    simp only [bind_assoc, pure_bind]
    exact ih fun results size => same (b :: results) (congrArg (· + 1) size)

/-- The state after a visit of each element is that of a run over the elements. -/
theorem map_snd_mapM {σ α β ε : Type} (visit : α → StateT σ (Except ε) β) (l : List α) (s : σ) :
    ((l.mapM visit).run s).map Prod.snd =
      l.foldlM (fun s a => ((visit a).run s).map Prod.snd) s := by
  induction l generalizing s with
  | nil => rfl
  | cons a l ih =>
    rw [List.mapM_cons, List.foldlM_cons, StateT.run_bind]
    cases h : (visit a).run s with
    | error e => rfl
    | ok next =>
      obtain ⟨b, s'⟩ := next
      refine Eq.trans ?_ (ih s')
      show Except.map Prod.snd (((l.mapM visit).run s').bind fun p => .ok (b :: p.1, p.2)) = _
      cases (l.mapM visit).run s' <;> rfl

/-- A run over lists laid end to end goes through one after the other. -/
theorem foldlM_flatMap {σ α β ε : Type} (step : σ → β → Except ε σ) (f : α → List β) (l : List α)
    (s : σ) :
    (l.flatMap f).foldlM step s = l.foldlM (fun s a => (f a).foldlM step s) s := by
  induction l generalizing s with
  | nil => rfl
  | cons a l ih =>
    rw [List.flatMap_cons, List.foldlM_append, List.foldlM_cons]
    exact bind_congr ih

theorem foldlM_congr_of_mem {σ α ε : Type} {step step' : σ → α → Except ε σ} {l : List α}
    (h : ∀ a ∈ l, ∀ s, step s a = step' s a) (s : σ) : l.foldlM step s = l.foldlM step' s := by
  induction l generalizing s with
  | nil => rfl
  | cons a l ih =>
    rw [List.foldlM_cons, List.foldlM_cons, h a List.mem_cons_self]
    exact bind_congr fun s => ih (fun b mem => h b (List.mem_cons_of_mem a mem)) s

end ScopedCss
