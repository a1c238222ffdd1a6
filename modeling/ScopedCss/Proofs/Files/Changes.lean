import Mathlib.Data.List.Basic
import ScopedCss.Files.Tree

/-!
# What changes a tree of files

A tree changes in two ways: a text is written at a place where no directory stands
(`write_eq_ok_iff`), or a directory is created where nothing stands.  So
directories stay directories (`KeepsDirectories`), and what a path led to it leads to ever after
(`KeepsDirectories.locate`).

Names in one directory do not get into each other's way: a text written under one of them stays
through every write under another (`read_of_writeEach`), and nothing else is touched
(`changed_of_writeEach`).
-/
namespace ScopedCss

/-! ### Paths in a directory -/

namespace Path

/-- A text that leads from a directory to something in it. -/
structure IsName (name : Text) : Prop where
  nonempty : name ≠ []
  noSlash : '/' ∉ name
  ne_here : name ≠ here
  ne_up : name ≠ up

variable {directory name : Text}

theorem parts_append_slash (s t : Text) : parts (s ++ '/' :: t) = parts s ++ parts t := by
  rw [parts, List.splitOnP_append_cons s t rfl, List.filter_append]
  rfl

theorem parts_of_isName (h : IsName name) : parts name = [name] := by
  have whole : name.splitOnP (fun c => c == '/') = [name] :=
    List.splitOnP_eq_singleton fun c mem => by
      rw [beq_eq_false_iff_ne]
      rintro rfl
      exact h.noSlash mem
  rw [parts, whole]
  simp [h.nonempty]

/-- The parts of the path of a name in a directory. -/
theorem parts_join (directory : Text) (h : IsName name) :
    parts (join directory name) = parts directory ++ [name] := by
  unfold join
  split
  next slash =>
    cases last : directory.getLast? with
    | none =>
      obtain rfl : directory = [] := List.getLast?_eq_none_iff.1 last
      exact parts_of_isName h
    | some c =>
      obtain rfl : c = '/' := by simpa [last] using slash
      obtain ⟨front, rfl⟩ := List.getLast?_eq_some_iff.1 last
      rw [List.append_assoc, List.singleton_append, parts_append_slash, parts_append_slash,
        parts_of_isName h]
      simp [parts]
  next => rw [parts_append_slash, parts_of_isName h]

theorem getLast?_join (directory : Text) (h : IsName name) :
    (join directory name).getLast? ≠ some '/' := by
  have last : (join directory name).getLast? = name.getLast? := by
    unfold join
    split
    next => rw [List.getLast?_append_of_ne_nil _ h.nonempty]
    next => rw [List.getLast?_append_of_ne_nil _ (by simp), List.getLast?_cons_of_ne_nil h.nonempty]
  rw [last]
  exact fun slash => h.noSlash (List.mem_of_getLast? slash)

/-- Names that differ have different paths. -/
theorem join_inj {name' : Text} (h : join directory name = join directory name') : name = name' := by
  unfold join at h
  split at h
  next => exact List.append_cancel_left h
  next => exact (List.cons.inj (List.append_cancel_left h)).2

end Path

theorem Location.child_named (location : Location) (name : Text) :
    (location.child name).names ≠ [] := List.cons_ne_nil name location.names

namespace FileTree
variable {tree tree' tree'' : FileTree} {directory location : Location} {path part t : Text}

/-! ### Directories stay -/

/-- Every directory of one tree is a directory of the other. -/
def KeepsDirectories (tree tree' : FileTree) : Prop :=
  ∀ location, tree.node? location = some .directory → tree'.node? location = some .directory

namespace KeepsDirectories

theorem refl (tree : FileTree) : KeepsDirectories tree tree := fun _ there => there

theorem trans (h : KeepsDirectories tree tree') (h' : KeepsDirectories tree' tree'') :
    KeepsDirectories tree tree'' := fun location there => h' location (h location there)

theorem enter (h : KeepsDirectories tree tree')
    (found : tree.enter directory part = .ok location) :
    tree'.enter directory part = .ok location := by
  unfold FileTree.enter at found ⊢
  split at found
  next stays => rwa [if_pos stays]
  next moves =>
    rw [if_neg moves]
    split at found
    next above => rwa [if_pos above]
    next below =>
      rw [if_neg below]
      unfold find at found ⊢
      by_cases long : maxName < part.bytes
      · rw [if_pos long] at found
        cases found
      · rw [if_neg long] at found ⊢
        cases there : tree.node? (directory.child part) with
        | none => simp only [there] at found; cases found
        | some node =>
          cases node with
          | directory =>
            simp only [there] at found
            simp only [h _ there]
            exact found
          | text content => simp only [there] at found; cases found
          | binary => simp only [there] at found; cases found

theorem foldlM_enter (h : KeepsDirectories tree tree') {parts : List Text}
    (found : parts.foldlM tree.enter directory = .ok location) :
    parts.foldlM tree'.enter directory = .ok location := by
  induction parts generalizing directory with
  | nil => exact found
  | cons part parts ih =>
    rw [List.foldlM_cons] at found ⊢
    cases entered : tree.enter directory part with
    | error e => rw [entered] at found; cases found
    | ok next =>
      rw [entered] at found
      rw [h.enter entered]
      exact ih found

theorem locate (h : KeepsDirectories tree tree') {target : Target}
    (found : tree.locate path = .ok target) : tree'.locate path = .ok target := by
  unfold FileTree.locate at found ⊢
  cases known : check path with
  | error e => rw [known] at found; cases found
  | ok _ =>
    rw [known] at found
    simp only [bind, Except.bind] at found ⊢
    cases backwards : (Path.parts path).reverse with
    | nil => rw [backwards] at found; cases found
    | cons last front =>
      simp only [backwards] at found ⊢
      cases way : front.reverse.foldlM tree.enter {} with
      | error e => rw [way] at found; cases found
      | ok directory =>
        rw [way] at found
        rw [h.foldlM_enter way]
        simp only at found ⊢
        split at found
        next stays =>
          rw [if_pos stays]
          cases entered : tree.enter directory last with
          | error e => rw [entered] at found; cases found
          | ok location =>
            rw [entered] at found
            rw [h.enter entered]
            exact found
        next names =>
          rw [if_neg names]
          exact found

end KeepsDirectories

/-- Putting something where no directory stands keeps the directories. -/
theorem keepsDirectories_record (named : location.names ≠ [])
    (free : tree.node? location ≠ some .directory) (node : Node) :
    KeepsDirectories tree (tree.record location node) := by
  intro other there
  rw [node?_record tree node other named, if_neg]
  · exact there
  · rintro rfl
    exact free there

/-! ### Writing -/

theorem write_eq_ok_iff : tree.write path t = .ok tree' ↔
    ∃ directory name, tree.locate path = .ok (.name directory name) ∧ name.bytes ≤ maxName ∧
      tree.node? (directory.child name) ≠ some .directory ∧
      tree' = tree.record (directory.child name) (.text t) := by
  unfold write
  cases located : tree.locate path with
  | error e => simp [bind, Except.bind]
  | ok target =>
    cases target with
    | directory location => simp [bind, Except.bind, throw, throwThe, MonadExceptOf.throw]
    | name directory name =>
      by_cases long : maxName < name.bytes
      · simp [bind, Except.bind, find, long, Nat.not_le.2 long]
      · have found : tree.find directory name = .ok (tree.node? (directory.child name)) := if_neg long
        simp only [bind, Except.bind, found, Except.ok.injEq, Target.name.injEq]
        constructor
        · intro written
          refine ⟨directory, name, ⟨rfl, rfl⟩, Nat.not_lt.1 long, ?_⟩
          split at written
          next => cases written
          next free => exact ⟨free, (Except.ok.inj written).symm⟩
        · rintro ⟨_, _, ⟨rfl, rfl⟩, -, free, rfl⟩
          split
          next there => exact absurd there free
          next => rfl

theorem read_of_text {name : Text} (located : tree.locate path = .ok (.name directory name))
    (short : name.bytes ≤ maxName) (there : tree.node? (directory.child name) = some (.text t)) :
    tree.read path = .ok t := by
  have found : tree.find directory name = .ok (tree.node? (directory.child name)) :=
    if_neg (Nat.not_lt.2 short)
  rw [read, located]
  simp only [bind, Except.bind, found, there]
  rfl

/-- Where the path of a name in a directory leads. -/
theorem locate_join_eq_ok {path name : Text} {target : Target} (h : Path.IsName name)
    (located : tree.locate (Path.join path name) = .ok target) :
    ∃ directory, (Path.parts path).foldlM tree.enter {} = .ok directory ∧
      target = .name directory name := by
  unfold locate at located
  cases known : check (Path.join path name) with
  | error e => rw [known] at located; cases located
  | ok _ =>
    rw [known, Path.parts_join path h, List.reverse_append] at located
    simp only [bind, Except.bind, List.reverse_cons, List.reverse_nil, List.nil_append,
      List.cons_append, List.reverse_reverse] at located
    cases way : (Path.parts path).foldlM tree.enter {} with
    | error e => rw [way] at located; cases located
    | ok directory =>
      rw [way] at located
      simp only [h.ne_here, h.ne_up, Path.getLast?_join path h, or_self, if_false] at located
      exact ⟨directory, rfl, (Except.ok.inj located).symm⟩

/-! ### Writing one file after the other -/

/-- The tree with files written one after the other. -/
def writeEach (files : List (Text × Text)) (tree : FileTree) : Except FileError FileTree :=
  files.foldlM (fun tree file => tree.write file.1 file.2) tree

variable {files : List (Text × Text)}

/-- What was written stands where the paths lead to, and elsewhere nothing has changed. -/
theorem changed_of_writeEach (ok : writeEach files tree = .ok tree') :
    KeepsDirectories tree tree' ∧ ∀ location, tree'.node? location = tree.node? location ∨
      ∃ file ∈ files, ∃ directory name, tree'.locate file.1 = .ok (.name directory name) ∧
        location = directory.child name := by
  induction files generalizing tree with
  | nil =>
    obtain rfl : tree = tree' := Except.ok.inj ok
    exact ⟨.refl tree, fun location => .inl rfl⟩
  | cons file files ih =>
    rw [writeEach, List.foldlM_cons] at ok
    cases first : tree.write file.1 file.2 with
    | error e => rw [first] at ok; cases ok
    | ok middle =>
      rw [first] at ok
      obtain ⟨keeps, later⟩ := ih ok
      obtain ⟨directory, name, located, -, free, rfl⟩ := write_eq_ok_iff.1 first
      have whole := (keepsDirectories_record (directory.child_named name) free (.text file.2)).trans keeps
      refine ⟨whole, fun location => ?_⟩
      rcases later location with same | ⟨other, mem, changed⟩
      · rw [same, node?_record tree _ location (directory.child_named name)]
        split
        next here =>
          exact .inr ⟨file, List.mem_cons_self, directory, name, whole.locate located, here⟩
        next => exact .inl rfl
      · exact .inr ⟨other, List.mem_cons_of_mem file mem, changed⟩

/-- **Files with different names in one directory** all stand there once they are written. -/
theorem read_of_writeEach {path : Text}
    (within : ∀ file ∈ files, ∃ name, Path.IsName name ∧ file.1 = Path.join path name)
    (apart : (files.map Prod.fst).Nodup) (ok : writeEach files tree = .ok tree') :
    ∀ file ∈ files, tree'.read file.1 = .ok file.2 := by
  induction files generalizing tree with
  | nil => exact fun file mem => by cases mem
  | cons file files ih =>
    rw [writeEach, List.foldlM_cons] at ok
    cases first : tree.write file.1 file.2 with
    | error e => rw [first] at ok; cases ok
    | ok middle =>
      rw [first] at ok
      rw [List.map_cons, List.nodup_cons] at apart
      intro other mem
      rcases List.mem_cons.1 mem with rfl | mem
      · obtain ⟨keeps, later⟩ := changed_of_writeEach ok
        obtain ⟨directory, name, located, short, free, rfl⟩ := write_eq_ok_iff.1 first
        have whole := (keepsDirectories_record (directory.child_named name) free (.text other.2)).trans keeps
        refine read_of_text (whole.locate located) short ?_
        rcases later (directory.child name) with same | ⟨next, mem, directory', name', moved, here⟩
        · rw [same, node?_record tree _ _ (directory.child_named name), if_pos rfl]
        · -- Another file at the same location would have the same name, and so the same path.
          obtain ⟨own, isName, path_eq⟩ := within other List.mem_cons_self
          obtain ⟨own', isName', path_eq'⟩ := within next (List.mem_cons_of_mem _ mem)
          rw [path_eq] at located
          rw [path_eq'] at moved
          obtain ⟨way, -, same⟩ := locate_join_eq_ok isName located
          obtain ⟨way', -, same'⟩ := locate_join_eq_ok isName' moved
          cases same
          cases same'
          have names : name = name' := (List.cons.inj (congrArg Location.names here)).1
          refine absurd ?_ apart.1
          rw [path_eq, names, ← path_eq']
          exact List.mem_map_of_mem mem
      · exact ih (fun file mem => within file (List.mem_cons_of_mem _ mem)) apart.2 ok other mem

end FileTree
end ScopedCss
