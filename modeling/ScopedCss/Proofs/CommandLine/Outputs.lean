import ScopedCss.CommandLine.Run
import ScopedCss.Proofs.Files.Actions

/-!
# The files of a run

A run with a directory for output leaves two files in it for each style sheet, called after the stem of
the style sheet.  Stems that differ make names that all differ (`nodup_outputsOf`), since no stem under
the one ending is another stem under the other, and such a name leads nowhere but into the directory
(`Path.isName_of_ending`).  So each of the files holds in the end what was written to it
(`FileTree.read_of_writeEach`).
-/
namespace ScopedCss

/-! ### Names of files -/

namespace Path

theorem noSlash_of_mem_parts {path part : Text} (mem : part ∈ parts path) : '/' ∉ part := by
  have separated (t : Text) : ∀ piece ∈ t.splitOnP (fun c => c == '/'), '/' ∉ piece := by
    induction t with
    | nil => simp
    | cons c t ih =>
      rw [List.splitOnP_cons_eq_if_modifyHead]
      split
      next => simpa using ih
      next other =>
        cases pieces : t.splitOnP (fun c => c == '/') with
        | nil => simp
        | cons first later =>
          rw [pieces, List.forall_mem_cons] at ih
          rw [List.modifyHead_cons, List.forall_mem_cons]
          refine ⟨fun slash => ?_, ih.2⟩
          rcases List.mem_cons.1 slash with rfl | slash
          · exact other rfl
          · exact ih.1 slash
  exact separated path part (List.mem_of_mem_filter mem)

theorem mem_of_mem_withoutExtension {name : Text} {c : Char} (mem : c ∈ withoutExtension name) :
    c ∈ name := by
  unfold withoutExtension at mem
  split at mem
  next dot d before rest =>
    have suffix : dot :: d :: before <:+ name.reverse := rest ▸ List.dropWhile_suffix _
    exact List.mem_reverse.1 (suffix.mem (List.mem_cons_of_mem dot (List.mem_reverse.1 mem)))
  next => exact mem

/-- The stem of a path leads nowhere. -/
theorem noSlash_of_stem {path stem : Text} (found : stem? path = some stem) : '/' ∉ stem := by
  obtain ⟨name, last, named⟩ := Option.bind_eq_some_iff.1 found
  have part : name ∈ parts path := List.mem_of_mem_filter (List.mem_of_getLast? last)
  split at named
  next => cases named
  next =>
    obtain rfl := Option.some.inj named
    exact fun slash => noSlash_of_mem_parts part (mem_of_mem_withoutExtension slash)

end Path

namespace CommandLine

/-- The endings of the two files of a style sheet. -/
def endings : List Text := [".css".toList, ".map.json".toList]

/-- The stem of the files of a style sheet. -/
def stemOf (file : Text) : Text := (Path.stem? file).getD inputName

theorem noSlash_stemOf (file : Text) : '/' ∉ stemOf file := by
  unfold stemOf
  cases found : Path.stem? file with
  | none => decide
  | some stem => exact Path.noSlash_of_stem found

theorem isName_of_ending {ending stem : Text} (mem : ending ∈ endings) (noSlash : '/' ∉ stem) :
    Path.IsName (stem ++ ending) := by
  have long : '/' ∉ ending ∧ 3 ≤ ending.length := by
    revert ending
    decide
  have longer : 3 ≤ (stem ++ ending).length := by
    rw [List.length_append]
    omega
  refine ⟨?_, ?_, ?_, ?_⟩
  · exact List.ne_nil_of_length_pos (by omega)
  · rw [List.mem_append]
    exact not_or.2 ⟨noSlash, long.1⟩
  · intro same
    rw [same] at longer
    exact absurd longer (by decide)
  · intro same
    rw [same] at longer
    exact absurd longer (by decide)

/-- A stem under the one ending is no stem under the other. -/
theorem css_ne_json (stem stem' : Text) : stem ++ ".css".toList ≠ stem' ++ ".map.json".toList := by
  intro same
  have last := congrArg List.getLast? same
  rw [List.getLast?_append_of_ne_nil _ (by decide), List.getLast?_append_of_ne_nil _ (by decide)] at last
  exact absurd last (by decide)

/-! ### Two files for each style sheet -/

/-- The files that reports leave in a directory, with their contents. -/
def outputsOf (directory : Text) (reports : List Report) : List (Text × Text) :=
  reports.flatMap fun report => outputs directory (stem report) report

theorem length_outputsOf (directory : Text) (reports : List Report) :
    (outputsOf directory reports).length = 2 * reports.length := by
  induction reports with
  | nil => rfl
  | cons report reports ih =>
    rw [outputsOf, List.flatMap_cons, List.length_append, ← outputsOf, ih, List.length_cons]
    show 2 + 2 * reports.length = _
    omega

theorem exists_of_mem_outputsOf {directory : Text} {reports : List Report} {file : Text × Text}
    (mem : file ∈ outputsOf directory reports) :
    ∃ report ∈ reports, ∃ ending ∈ endings,
      file.1 = Path.join directory (stem report ++ ending) := by
  obtain ⟨report, here, mem⟩ := List.mem_flatMap.1 mem
  refine ⟨report, here, ?_⟩
  rcases List.mem_cons.1 mem with rfl | mem
  · exact ⟨_, List.mem_cons_self, rfl⟩
  · obtain rfl := List.mem_singleton.1 mem
    exact ⟨_, List.mem_cons_of_mem _ List.mem_cons_self, rfl⟩

/-- The files of a run lie in the directory for output itself. -/
theorem isName_of_mem_outputsOf {directory : Text} {reports : List Report} :
    ∀ file ∈ outputsOf directory reports, ∃ name, Path.IsName name ∧
      file.1 = Path.join directory name := by
  intro file mem
  obtain ⟨report, -, ending, known, path⟩ := exists_of_mem_outputsOf mem
  exact ⟨_, isName_of_ending known (noSlash_stemOf report.file), path⟩

/-- **Reports with different stems have different files.** -/
theorem nodup_outputsOf (directory : Text) {reports : List Report}
    (apart : (reports.map stem).Nodup) : ((outputsOf directory reports).map Prod.fst).Nodup := by
  induction reports with
  | nil => exact List.nodup_nil
  | cons report reports ih =>
    rw [List.map_cons, List.nodup_cons] at apart
    -- A file of a later report has another stem, whichever of the two endings it has.
    have other (ending : Text) (mem : ending ∈ endings) :
        Path.join directory (stem report ++ ending) ∉ (outputsOf directory reports).map Prod.fst := by
      intro there
      obtain ⟨file, later, path⟩ := List.mem_map.1 there
      obtain ⟨report', here, ending', mem', path'⟩ := exists_of_mem_outputsOf later
      have names : stem report' ++ ending' = stem report ++ ending :=
        Path.join_inj (path'.symm.trans path)
      have stems : stem report ≠ stem report' :=
        fun same => apart.1 (same ▸ List.mem_map_of_mem here)
      simp only [endings, List.mem_cons, List.not_mem_nil, or_false] at mem mem'
      rcases mem with rfl | rfl
      · rcases mem' with rfl | rfl
        · exact stems (List.append_cancel_right names).symm
        · exact css_ne_json _ _ names.symm
      · rcases mem' with rfl | rfl
        · exact css_ne_json _ _ names
        · exact stems (List.append_cancel_right names).symm
    rw [outputsOf, List.flatMap_cons, ← outputsOf, List.map_append]
    show (_ :: _ :: (outputsOf directory reports).map Prod.fst).Nodup
    rw [List.nodup_cons, List.nodup_cons, List.mem_cons, not_or]
    refine ⟨⟨fun same => ?_, other _ (by decide)⟩, other _ (by decide), ih apart.2⟩
    exact css_ne_json _ _ (Path.join_inj same)

/-! ### Stems that are taken -/

/-- Reports get their stems exactly if these differ from one another and from those seen before. -/
theorem nodup_of_withStems {seen : List (Text × Text)} {reports : List Report}
    {stems : List (Text × Report)} (ok : withStems seen reports = .ok stems) :
    stems = reports.map (fun report => (stem report, report)) ∧ (reports.map stem).Nodup ∧
      ∀ report ∈ reports, seen.lookup (stem report) = none := by
  induction reports generalizing seen stems with
  | nil =>
    obtain rfl := Except.ok.inj ok
    exact ⟨rfl, List.nodup_nil, fun report mem => by cases mem⟩
  | cons report reports ih =>
    unfold withStems at ok
    split at ok
    next => cases ok
    next new =>
      cases later : withStems ((stem report, report.file) :: seen) reports with
      | error e => rw [later] at ok; cases ok
      | ok rest =>
        rw [later] at ok
        obtain rfl := Except.ok.inj ok
        obtain ⟨rfl, apart, unseen⟩ := ih later
        have differs (report' : Report) (mem : report' ∈ reports) :
            stem report' ≠ stem report ∧ seen.lookup (stem report') = none := by
          have none := unseen report' mem
          rw [List.lookup_cons] at none
          split at none
          next => cases none
          next other => exact ⟨by simpa using other, none⟩
        refine ⟨rfl, ?_, ?_⟩
        · rw [List.map_cons, List.nodup_cons, List.mem_map]
          exact ⟨fun ⟨report', mem, same⟩ => (differs report' mem).1 same, apart⟩
        · rw [List.forall_mem_cons]
          exact ⟨new, fun report' mem => (differs report' mem).2⟩

/-! ### Writing them -/

open TreeProgram

/-- Writing files ends well exactly if each can be written in the tree that those before it left. -/
theorem writeEach_of_writeAll {files : List (Text × Text)} {tree tree' : FileTree} :
    (∀ u, on (writeAll files : TreeProgram RunError Unit) tree = (.ok u, tree') →
      FileTree.writeEach files tree = .ok tree') ∧
    ∀ e, on (writeAll files : TreeProgram RunError Unit) tree = (.error e, tree') →
      ∃ path cause, e = .notWritten path cause := by
  induction files generalizing tree with
  | nil =>
    constructor
    · intro u ended
      obtain rfl := (Prod.mk.inj ended).2
      rfl
    · intro e ended
      cases (Prod.mk.inj ended).1
  | cons file files ih =>
    obtain ⟨path, t⟩ := file
    have all : (writeAll ((path, t) :: files) : TreeProgram RunError Unit) =
        ((FileAccess.write path t : TreeProgram FileError Unit).adapt (RunError.notWritten path) >>=
          fun _ => writeAll files) := rfl
    rw [all, on_bind, on_adapt, on_write, FileTree.writeEach, List.foldlM_cons]
    cases written : tree.write path t with
    | ok middle => exact ih
    | error cause =>
      constructor
      · intro u ended
        cases (Prod.mk.inj ended).1
      · intro e ended
        exact ⟨path, cause, (Except.error.inj (Prod.mk.inj ended).1).symm⟩

end CommandLine
end ScopedCss
