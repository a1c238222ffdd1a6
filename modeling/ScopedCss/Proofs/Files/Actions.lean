import ScopedCss.Proofs.Files.Changes

/-!
# Programs that run on a tree of files

Two things can be said of a program with access to a tree of files without saying what it answers: how
the tree behind it relates to the tree before (`Leaves`), and that it only looks (`Looks`), in which
case its answer is a function of the tree.  Both carry over from the parts of a program to the whole.
-/
namespace ScopedCss

/-- A program that has access to a tree of files, and may fail. -/
abbrev TreeProgram (ε α : Type) : Type := ExceptT ε (StateM FileTree) α

namespace TreeProgram
variable {ε ε' α β : Type}

/-- What a program answers on a tree, and the tree that it leaves. -/
def on (program : TreeProgram ε α) (tree : FileTree) : Except ε α × FileTree := program.run.run tree

@[simp] theorem on_pure (a : α) (tree : FileTree) :
    on (pure a : TreeProgram ε α) tree = (.ok a, tree) := rfl

@[simp] theorem on_throw (e : ε) (tree : FileTree) :
    on (throw e : TreeProgram ε α) tree = (.error e, tree) := rfl

theorem on_bind (program : TreeProgram ε α) (next : α → TreeProgram ε β) (tree : FileTree) :
    on (program >>= next) tree =
      match on program tree with
      | (.ok a, tree) => on (next a) tree
      | (.error e, tree) => (.error e, tree) := by
  have unfolded : on (program >>= next) tree =
      (ExceptT.bindCont next (on program tree).1).run (on program tree).2 := rfl
  rw [unfolded]
  rcases on program tree with ⟨answer, left⟩
  cases answer <;> rfl

theorem on_tryCatch (program : TreeProgram ε α) (handle : ε → TreeProgram ε α) (tree : FileTree) :
    on (tryCatch program handle) tree =
      match on program tree with
      | (.ok a, tree) => (.ok a, tree)
      | (.error e, tree) => on (handle e) tree := by
  have unfolded : on (tryCatch program handle) tree =
      (match (on program tree).1 with
        | .ok a => pure (.ok a)
        | .error e => (handle e).run : StateM FileTree (Except ε α)).run (on program tree).2 := rfl
  rw [unfolded]
  rcases on program tree with ⟨answer, left⟩
  cases answer <;> rfl

theorem on_adapt (rename : ε → ε') (program : TreeProgram ε α) (tree : FileTree) :
    on (program.adapt rename) tree =
      ((on program tree).1.mapError rename, (on program tree).2) := rfl

theorem on_write (path t : Text) (tree : FileTree) :
    on (FileAccess.write path t : TreeProgram FileError Unit) tree =
      match tree.write path t with
      | .ok tree' => (.ok (), tree')
      | .error e => (.error e, tree) := rfl

/-! ### Trees before and behind -/

/-- Whatever a program answers, the tree that it leaves stands in a relation to the one it found. -/
def Leaves (relation : FileTree → FileTree → Prop) (program : TreeProgram ε α) : Prop :=
  ∀ tree, relation tree (on program tree).2

namespace Leaves
variable {relation : FileTree → FileTree → Prop} {program : TreeProgram ε α}

theorem bind (trans : ∀ {s t u}, relation s t → relation t u → relation s u)
    {next : α → TreeProgram ε β} (first : Leaves relation program)
    (later : ∀ a, Leaves relation (next a)) : Leaves relation (program >>= next) := by
  intro tree
  have here := first tree
  rw [on_bind]
  split
  next a tree' found =>
    rw [found] at here
    exact trans here (later a tree')
  next e tree' found =>
    rw [found] at here
    exact here

theorem tryCatch (trans : ∀ {s t u}, relation s t → relation t u → relation s u)
    {handle : ε → TreeProgram ε α} (first : Leaves relation program)
    (handled : ∀ e, Leaves relation (handle e)) :
    Leaves relation (MonadExcept.tryCatch program handle) := by
  intro tree
  have here := first tree
  rw [on_tryCatch]
  split
  next a tree' found =>
    rw [found] at here
    exact here
  next e tree' found =>
    rw [found] at here
    exact trans here (handled e tree')

end Leaves

/-! ### Programs that only look -/

/-- A program leaves every tree as it is, and answers what a function says about the tree. -/
def Looks (program : TreeProgram ε α) (answer : FileTree → Except ε α) : Prop :=
  ∀ tree, on program tree = (answer tree, tree)

namespace Looks
variable {program : TreeProgram ε α} {answer : FileTree → Except ε α}

theorem pure (a : α) : Looks (Pure.pure a : TreeProgram ε α) fun _ => .ok a := fun _ => rfl

theorem throw (e : ε) : Looks (MonadExcept.throw e : TreeProgram ε α) fun _ => .error e := fun _ => rfl

theorem bind {next : α → TreeProgram ε β} {rest : α → FileTree → Except ε β}
    (first : Looks program answer) (later : ∀ a, Looks (next a) (rest a)) :
    Looks (program >>= next) fun tree => answer tree >>= fun a => rest a tree := by
  intro tree
  show on (program >>= next) tree = (answer tree >>= fun a => rest a tree, tree)
  rw [on_bind, first tree]
  cases answer tree with
  | ok a => exact later a tree
  | error e => rfl

theorem adapt (h : Looks program answer) (rename : ε → ε') :
    Looks (program.adapt rename) fun tree => (answer tree).mapError rename := by
  intro tree
  rw [on_adapt, h tree]

theorem mapM {visit : β → TreeProgram ε α} {each : β → FileTree → Except ε α}
    (h : ∀ b, Looks (visit b) (each b)) (l : List β) :
    Looks (l.mapM visit) fun tree => l.mapM fun b => each b tree := by
  induction l with
  | nil => exact fun tree => rfl
  | cons b l ih =>
    intro tree
    show on ((b :: l).mapM visit) tree = ((b :: l).mapM fun b => each b tree, tree)
    rw [List.mapM_cons, List.mapM_cons]
    exact (bind (h b) fun a => bind ih fun as => pure (a :: as)) tree

theorem lift (result : Except ε α) : Looks (liftM result : TreeProgram ε α) fun _ => result :=
  fun _ => rfl

theorem ofResult (result : Except ε α) :
    Looks (liftExcept result : TreeProgram ε α) fun _ => result := by
  intro tree
  cases result <;> rfl

theorem read (path : Text) : Looks (FileAccess.read path : TreeProgram FileError Text) (·.read path) :=
  fun _ => rfl

end Looks

end TreeProgram

/-! ### Creating directories -/

namespace FileTree
variable {tree tree' tree'' : FileTree} {path : Text} {paths : List Text}

/-- A path leads to a directory. -/
def LeadsTo (tree : FileTree) (path : Text) (location : Location) : Prop :=
  (Path.parts path).foldlM tree.enter {} = .ok location

/-- One tree is another with directories created to which given paths lead, where nothing stood. -/
def Grown (paths : List Text) (tree tree' : FileTree) : Prop :=
  ∀ location, tree'.node? location = tree.node? location ∨
    tree.node? location = none ∧ tree'.node? location = some .directory ∧
      ∃ path ∈ paths, tree'.LeadsTo path location

namespace Grown

theorem refl (paths : List Text) (tree : FileTree) : Grown paths tree tree := fun _ => .inl rfl

theorem keepsDirectories (h : Grown paths tree tree') : KeepsDirectories tree tree' := by
  intro location there
  rcases h location with same | ⟨free, -⟩
  · exact same.trans there
  · rw [free] at there
    cases there

theorem trans (h : Grown paths tree tree') (h' : Grown paths tree' tree'') :
    Grown paths tree tree'' := by
  intro location
  rcases h location with same | ⟨free, made, path, mem, leads⟩
  · rcases h' location with same' | ⟨free', made'⟩
    · exact .inl (same'.trans same)
    · exact .inr ⟨same ▸ free', made'⟩
  · exact .inr ⟨free, h'.keepsDirectories location made, path, mem,
      h'.keepsDirectories.foldlM_enter leads⟩

theorem mono (h : Grown paths tree tree') {more : List Text} (subset : paths ⊆ more) :
    Grown more tree tree' := by
  intro location
  exact (h location).imp_right fun ⟨free, made, path, mem, leads⟩ =>
    ⟨free, made, path, subset mem, leads⟩

end Grown

theorem createDirectory_eq_ok (ok : tree.createDirectory path = .ok tree') :
    ∃ front last directory, Path.parts path = front ++ [last] ∧
      front.foldlM tree.enter {} = .ok directory ∧ last ≠ Path.here ∧ last ≠ Path.up ∧
      last.bytes ≤ maxName ∧ tree.node? (directory.child last) = none ∧
      tree' = tree.record (directory.child last) .directory := by
  unfold createDirectory at ok
  cases known : check path with
  | error e => rw [known] at ok; cases ok
  | ok _ =>
    rw [known] at ok
    simp only [bind, Except.bind] at ok
    cases backwards : (Path.parts path).reverse with
    | nil => rw [backwards] at ok; cases ok
    | cons last front =>
      simp only [backwards] at ok
      cases way : front.reverse.foldlM tree.enter {} with
      | error e => rw [way] at ok; cases ok
      | ok directory =>
        rw [way] at ok
        simp only at ok
        split at ok
        next => cases ok
        next names =>
          simp only [pure, Except.pure, find] at ok
          split at ok
          next long =>
            split at long
            next => cases ok
            next => cases long
          next found =>
            split at found
            next => cases found
            next short =>
              obtain rfl := Except.ok.inj found
              have split : Path.parts path = front.reverse ++ [last] := by
                rw [← List.reverse_reverse (Path.parts path), backwards, List.reverse_cons]
              cases there : tree.node? (directory.child last) with
              | some node => rw [there] at ok; cases ok
              | none =>
                rw [there] at ok
                exact ⟨front.reverse, last, directory, split, way, (not_or.1 names).1,
                  (not_or.1 names).2, Nat.not_lt.1 short, there, (Except.ok.inj ok).symm⟩

theorem grown_of_createDirectory (ok : tree.createDirectory path = .ok tree') :
    Grown [path] tree tree' := by
  obtain ⟨front, last, directory, split, way, notHere, notUp, short, free, rfl⟩ :=
    createDirectory_eq_ok ok
  have named := directory.child_named last
  have keeps := keepsDirectories_record named (by rw [free]; simp) .directory
  intro location
  rw [node?_record tree _ location named]
  split
  next here =>
    subst here
    refine .inr ⟨free, rfl, path, List.mem_singleton_self path, ?_⟩
    have found : (tree.record (directory.child last) .directory).find directory last =
        .ok (some .directory) := by
      rw [find, if_neg (Nat.not_lt.2 short), node?_record tree _ _ named, if_pos rfl]
    rw [LeadsTo, split, List.foldlM_append, keeps.foldlM_enter way]
    have entered : (tree.record (directory.child last) .directory).enter directory last =
        .ok (directory.child last) := by
      rw [enter, if_neg notHere, if_neg notUp, found]
      rfl
    show ([last].foldlM (tree.record (directory.child last) .directory).enter directory :
      Except FileError Location) = _
    rw [List.foldlM_cons, entered]
    rfl
  next => exact .inl rfl

end FileTree

namespace FileAccess
open TreeProgram

theorem grown_createDirectory (path : Text) :
    Leaves (FileTree.Grown [path]) (FileAccess.createDirectory path : TreeProgram FileError Unit) := by
  intro tree
  show FileTree.Grown [path] tree (FileTree.step (fun tree => tree.createDirectory path) tree).2
  unfold FileTree.step
  split
  next tree' made => exact FileTree.grown_of_createDirectory made
  next => exact .refl [path] tree

theorem grown_failUnlessDirectory (path : Text) (e : FileError) (paths : List Text) :
    Leaves (FileTree.Grown paths) (failUnlessDirectory path e : TreeProgram FileError Unit) := by
  intro tree
  have same : (on (failUnlessDirectory path e : TreeProgram FileError Unit) tree).2 = tree := by
    show (on (if tree.isDirectory path then pure () else throw e : TreeProgram FileError Unit) tree).2 = tree
    split <;> rfl
  rw [same]
  exact .refl paths tree

/-- Creating a directory and those above it changes nothing else, whether it succeeds or not. -/
theorem grown_createWithin (path : Text) (parents : List Text) :
    Leaves (FileTree.Grown (path :: parents))
      (createWithin path parents : TreeProgram FileError Unit) := by
  have once (path : Text) (parents : List Text) : Leaves (FileTree.Grown (path :: parents))
      (FileAccess.createDirectory path : TreeProgram FileError Unit) := fun tree =>
    (grown_createDirectory path tree).mono (by simp)
  have again (path : Text) (parents : List Text) : Leaves (FileTree.Grown (path :: parents))
      (tryCatch (FileAccess.createDirectory path) (failUnlessDirectory path) :
        TreeProgram FileError Unit) :=
    Leaves.tryCatch .trans (once path parents) fun e => grown_failUnlessDirectory path e _
  induction parents generalizing path with
  | nil =>
    rw [createWithin]
    refine Leaves.tryCatch .trans (once path []) fun e => ?_
    cases e with
    | missing => exact again path []
    | _ => exact grown_failUnlessDirectory path _ _
  | cons parent parents ih =>
    rw [createWithin]
    refine Leaves.tryCatch .trans (once path _) fun e => ?_
    cases e with
    | missing =>
      refine Leaves.bind .trans (fun tree => ?_) fun _ => again path (parent :: parents)
      exact (ih parent tree).mono (List.subset_cons_self path _)
    | _ => exact grown_failUnlessDirectory path _ _

theorem grown_createAll (path : Text) :
    Leaves (FileTree.Grown (path :: Path.parents path))
      (createAll path : TreeProgram FileError Unit) :=
  grown_createWithin path (Path.parents path)

end FileAccess
end ScopedCss
