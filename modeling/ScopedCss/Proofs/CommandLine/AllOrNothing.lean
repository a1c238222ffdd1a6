import ScopedCss.Proofs.CommandLine.Outputs
import ScopedCss.Proofs.Runs
import ScopedCss.Proofs.Stylesheet.Counting

/-!
# All or nothing

A run only looks at the files until all style sheets are scoped (`looks_gather`), and what it has found
out by then is a function of the tree (`reportsIn`).  So it does not matter that files which it writes
may be files that it has read, and whatever stands in its way before that leaves every file and every
directory as it was (`run_allOrNothing`).
-/
namespace ScopedCss.CommandLine
open TreeProgram

/-- What a run answers on a tree of files with a given input, and the tree that it leaves. -/
def runOn (input : Except FileError Text) (arguments : Arguments) (tree : FileTree) :
    Except RunError (Option Text) × FileTree :=
  on (run (ExceptT.mk (pure input)) arguments) tree

/-! ### What a run is given -/

/-- The configuration that arguments may name, as it stands in a tree. -/
inductive HasConfiguration (tree : FileTree) : Option Text → Configuration → Prop where
  | none : HasConfiguration tree none {}
  | file {path t : Text} {configuration : Configuration} (found : tree.read path = .ok t)
      (parsed : Configuration.ofText? t = some configuration) :
      HasConfiguration tree (some path) configuration

/-- The style sheets in files, as they stand in a tree, or else the one from the input. -/
inductive HasSources (input : Except FileError Text) (tree : FileTree) :
    List Text → List Source → Prop where
  | input {t : Text} (given : input = .ok t) : HasSources input tree [] [⟨inputName, t⟩]
  | files {files : List Text} {sources : List Source} (nonempty : files ≠ [])
      (named : sources.map Source.file = files)
      (found : ∀ source ∈ sources, tree.read source.file = .ok source.css) :
      HasSources input tree files sources

/-- What a run is given: the options that its configuration and its arguments make, and the style
sheets. -/
structure Given (input : Except FileError Text) (arguments : Arguments) (tree : FileTree)
    (opts : Options) (sources : List Source) : Prop where
  options : ∃ configuration, HasConfiguration tree arguments.configuration configuration ∧
    options configuration arguments = .ok opts
  sources : HasSources input tree arguments.files sources

/-- What stands in the way of a run. -/
inductive Obstacle (input : Except FileError Text) (arguments : Arguments) (tree : FileTree) : Prop where
  | unreadableConfiguration {path : Text} {cause : FileError}
      (named : arguments.configuration = some path) (unread : tree.read path = .error cause)
  | invalidConfiguration {path t : Text} (named : arguments.configuration = some path)
      (found : tree.read path = .ok t) (invalid : Configuration.ofText? t = none)
  /-- The stages of the configuration are no list, or something in the list names no stage. -/
  | malformedStages {configuration : Configuration} {plugins : Json.Value}
      (known : HasConfiguration tree arguments.configuration configuration)
      (listed : configuration.plugins = some plugins)
      (malformed : ¬ ∃ names : List Text, plugins = .array (names.map .string) ∧
        ∀ name ∈ names, (Stage.ofName? name).isSome)
  | unknownStage {name : Text} (mem : name ∈ arguments.stages) (unknown : Stage.ofName? name = none)
  | unreadableFile {path : Text} {cause : FileError} (mem : path ∈ arguments.files)
      (unread : tree.read path = .error cause)
  | unreadableInput {cause : FileError} (needed : arguments.files = []) (unread : input = .error cause)
  /-- Two files would leave their output under one name. -/
  | sameStem {directory : Text} (output : arguments.outputDirectory = some directory)
      (same : ¬ (arguments.files.map stemOf).Nodup)

/-! ### What a run has done -/

/-- The paths of the files that style sheets leave in a directory. -/
def pathsOf (directory : Text) (sources : List Source) : List Text :=
  sources.flatMap fun source =>
    endings.map fun ending => Path.join directory (stemOf source.file ++ ending)

/-- Of each style sheet its scoped text and its names stand in a directory, twice as many files as
there are style sheets, and nothing else has changed but that the directory and those above it are
there. -/
structure Delivered (options : Options) (directory : Text) (tree tree' : FileTree)
    (passes : List (Source × Stylesheet.Result)) : Prop where
  scope : ∀ entry ∈ passes, Stylesheet.scope options entry.1.css = .ok entry.2
  css : ∀ entry ∈ passes,
    tree'.read (Path.join directory (stemOf entry.1.file ++ ".css".toList)) = .ok entry.2.css
  names : ∀ entry ∈ passes,
    tree'.read (Path.join directory (stemOf entry.1.file ++ ".map.json".toList)) =
      .ok entry.2.mapping.toJson.pretty
  count : (pathsOf directory (passes.map Prod.fst)).length = 2 * passes.length
  apart : (pathsOf directory (passes.map Prod.fst)).Nodup
  rest : ∀ location, tree'.node? location = tree.node? location ∨
    (tree.node? location = none ∧ tree'.node? location = some .directory ∧
      ∃ path ∈ directory :: Path.parents directory, tree'.LeadsTo path location) ∨
    ∃ path ∈ pathsOf directory (passes.map Prod.fst), ∃ within name,
      tree'.locate path = .ok (.name within name) ∧ location = within.child name

/-- A run does all that it is asked to, or it does nothing. -/
structure AllOrNothing (input : Except FileError Text) (arguments : Arguments) (tree : FileTree) :
    Prop where
  /-- What stands in the way of a run makes it fail and leave the tree as it was. -/
  refuses : Obstacle input arguments tree → ∃ e, runOn input arguments tree = (.error e, tree)
  /-- Only a run that fails to create a directory or to write a file may have changed the tree. -/
  keeps : ∀ e tree', runOn input arguments tree = (.error e, tree') → tree' = tree ∨
    (∃ path cause, e = .notCreated path cause) ∨ ∃ path cause, e = .notWritten path cause
  /-- Without a directory for output the tree stays as it was. -/
  shows : arguments.outputDirectory = none → (runOn input arguments tree).2 = tree
  /-- A run with a directory for output that succeeds delivers what it makes of what it was given by
  the tree as it was before. -/
  delivers : ∀ directory answer tree', arguments.outputDirectory = some directory →
    runOn input arguments tree = (.ok answer, tree') →
    answer = none ∧ ∃ options, ∃ passes : List (Source × Stylesheet.Result),
      Given input arguments tree options (passes.map Prod.fst) ∧
        Delivered options directory tree tree' passes

/-! ### Looking -/

/-- The configuration that a run finds. -/
def configurationIn (tree : FileTree) : Option Text → Except RunError Configuration
  | none => .ok {}
  | some path => do
    let t ← (tree.read path).mapError (.unreadableConfiguration path)
    match Configuration.ofText? t with
    | some configuration => return configuration
    | none => throw (.invalidConfiguration path)

/-- The style sheet that a run finds in a file. -/
def sourceIn (tree : FileTree) (path : Text) : Except RunError Source := do
  return ⟨path, ← (tree.read path).mapError (.unreadableFile path)⟩

/-- The style sheets that a run finds. -/
def sourcesIn (input : Except FileError Text) (tree : FileTree) (files : List Text) :
    Except RunError (List Source) :=
  if files.isEmpty then do return [⟨inputName, ← input.mapError .unreadableInput⟩]
  else files.mapM (sourceIn tree)

/-- The reports of a run. -/
def reportsIn (input : Except FileError Text) (arguments : Arguments) (tree : FileTree) :
    Except RunError (List Report) := do
  let configuration ← configurationIn tree arguments.configuration
  let options ← options configuration arguments
  let sources ← sourcesIn input tree arguments.files
  (scopeSources options sources).mapError .fault

/-- What a run does before it writes. -/
def gather (input : Except FileError Text) (arguments : Arguments) :
    TreeProgram RunError (List Report) := do
  let configuration ← readConfiguration arguments.configuration
  let options ← options configuration arguments
  let sources ← readSources (ExceptT.mk (pure input)) arguments.files
  liftExcept ((scopeSources options sources).mapError RunError.fault)

/-- What a run does with its reports. -/
def deliver (outputDirectory : Option Text) (reports : List Report) :
    TreeProgram RunError (Option Text) :=
  match outputDirectory with
  | some directory => do
    writeReports directory reports
    return none
  | none => return some (Report.render reports)

theorem looks_gather (input : Except FileError Text) (arguments : Arguments) :
    Looks (gather input arguments) (reportsIn input arguments) := by
  have configuration (path? : Option Text) :
      Looks (readConfiguration path?) fun tree => configurationIn tree path? := by
    cases path? with
    | none => exact .pure ({} : Configuration)
    | some path =>
      refine .bind (.adapt (.read path) _) fun t => ?_
      cases Configuration.ofText? t with
      | some configuration => exact .pure configuration
      | none => exact .throw _
  have sources (files : List Text) :
      Looks (readSources (ExceptT.mk (pure input)) files) fun tree => sourcesIn input tree files := by
    unfold readSources sourcesIn
    split
    next =>
      have given : Looks (ExceptT.mk (pure input) : TreeProgram FileError Text) fun _ => input :=
        fun _ => rfl
      exact .bind (.adapt given _) fun t => .pure _
    next => exact .mapM (fun path => .bind (.adapt (.read path) _) fun t => .pure _) files
  refine .bind (configuration _) fun configuration => .bind (.lift _) fun options =>
    .bind (sources _) fun sources => ?_
  exact .ofResult _

/-- A run gathers its reports, and only then does something with them. -/
theorem runOn_eq (input : Except FileError Text) (arguments : Arguments) (tree : FileTree) :
    runOn input arguments tree =
      match reportsIn input arguments tree with
      | .ok reports => on (deliver arguments.outputDirectory reports) tree
      | .error e => (.error e, tree) := by
  have parts : run (ExceptT.mk (pure input)) arguments =
      gather input arguments >>= deliver arguments.outputDirectory := by
    simp only [run, gather, bind_assoc]
    rfl
  rw [runOn, parts, on_bind, looks_gather]
  cases reportsIn input arguments tree <;> rfl

/-! ### What reports come from -/

variable {input : Except FileError Text} {arguments : Arguments} {tree tree' : FileTree}

theorem hasConfiguration_of_ok {path? : Option Text} {configuration : Configuration}
    (ok : configurationIn tree path? = .ok configuration) :
    HasConfiguration tree path? configuration := by
  cases path? with
  | none =>
    obtain rfl := Except.ok.inj ok
    exact .none
  | some path =>
    obtain ⟨t, found, parsed⟩ := bind_eq_ok_iff.1 ok
    cases known : Configuration.ofText? t with
    | none => rw [known] at parsed; cases parsed
    | some configuration =>
      rw [known] at parsed
      obtain rfl := Except.ok.inj parsed
      exact .file (mapError_eq_ok_iff.1 found) known

theorem hasSources_of_ok {files : List Text} {sources : List Source}
    (ok : sourcesIn input tree files = .ok sources) : HasSources input tree files sources := by
  unfold sourcesIn at ok
  split at ok
  next empty =>
    obtain rfl := List.isEmpty_iff.1 empty
    obtain ⟨t, given, same⟩ := bind_eq_ok_iff.1 ok
    obtain rfl := Except.ok.inj same
    exact .input (mapError_eq_ok_iff.1 given)
  next nonempty =>
    have file (path : Text) (source : Source) (found : sourceIn tree path = .ok source) :
        source.file = path ∧ tree.read source.file = .ok source.css := by
      obtain ⟨t, read, same⟩ := bind_eq_ok_iff.1 found
      obtain rfl := Except.ok.inj same
      exact ⟨rfl, mapError_eq_ok_iff.1 read⟩
    have each := (mapM_eq_ok_iff.1 ok).imp file
    have both : sources.map Source.file = files ∧
        ∀ source ∈ sources, tree.read source.file = .ok source.css := by
      clear nonempty ok
      induction each with
      | nil => exact ⟨rfl, fun source mem => (by cases mem)⟩
      | cons first _ ih =>
        exact ⟨by rw [List.map_cons, first.1, ih.1], List.forall_mem_cons.2 ⟨first.2, ih.2⟩⟩
    exact .files (fun empty => nonempty (List.isEmpty_iff.2 empty)) both.1 both.2

theorem exists_stage_of_ok {name : Text} {stage : Stage} (ok : stageOf name = .ok stage) :
    (Stage.ofName? name).isSome := by
  unfold stageOf at ok
  split at ok
  next known => exact Option.isSome_iff_exists.2 ⟨_, known⟩
  next => cases ok

/-- What lists stages is a list of names of stages that there are. -/
theorem exists_names_of_stagesOf {plugins : Json.Value} {stages : List Stage}
    (ok : Configuration.stagesOf plugins = .ok stages) :
    ∃ names : List Text, plugins = .array (names.map .string) ∧
      ∀ name ∈ names, (Stage.ofName? name).isSome := by
  have named {value : Json.Value} {stage : Stage} (ok : Configuration.stageOf value = .ok stage) :
      ∃ name, value = .string name ∧ (Stage.ofName? name).isSome := by
    unfold Configuration.stageOf at ok
    split at ok
    next name =>
      split at ok
      next known => exact ⟨name, rfl, Option.isSome_iff_exists.2 ⟨_, known⟩⟩
      next => cases ok
    next => cases ok
  unfold Configuration.stagesOf at ok
  split at ok
  next values =>
    have each := mapM_eq_ok_iff.1 ok
    clear ok
    induction each with
    | nil => exact ⟨[], rfl, fun name mem => by cases mem⟩
    | cons first _ ih =>
      obtain ⟨name, rfl, known⟩ := named first
      obtain ⟨names, rest, all⟩ := ih
      refine ⟨name :: names, ?_, List.forall_mem_cons.2 ⟨known, all⟩⟩
      rw [List.map_cons, ← Json.Value.array.inj rest]
  next => cases ok

theorem of_applyTo_ok {configuration : Configuration} {before after : Options}
    (ok : configuration.applyTo before = .ok after) :
    (∀ plugins, configuration.plugins = some plugins →
      ∃ stages, Configuration.stagesOf plugins = .ok stages) ∧
    after.asteriskName = match configuration.asteriskName with
      | some name => .literal name
      | none => before.asteriskName := by
  unfold Configuration.applyTo at ok
  cases listed : configuration.plugins with
  | none =>
    rw [listed] at ok
    obtain rfl := Except.ok.inj ok
    exact ⟨fun plugins there => (by cases there), rfl⟩
  | some plugins =>
    rw [listed] at ok
    obtain ⟨stages, known, made⟩ := bind_eq_ok_iff.1 ok
    obtain rfl := Except.ok.inj made
    exact ⟨fun plugins' same => ⟨stages, Option.some.inj same ▸ known⟩, rfl⟩

/-- The options of a run have one name for `*`, and stages that there are. -/
theorem of_options_ok {configuration : Configuration} {opts : Options}
    (ok : options configuration arguments = .ok opts) :
    (∀ plugins, configuration.plugins = some plugins →
      ∃ stages, Configuration.stagesOf plugins = .ok stages) ∧
    (∀ name ∈ arguments.stages, (Stage.ofName? name).isSome) ∧
    ∃ name, opts.asteriskName = .literal name := by
  obtain ⟨between, first, second⟩ := bind_eq_ok_iff.1 ok
  obtain ⟨stages, asterisk⟩ := of_applyTo_ok (mapError_eq_ok_iff.1 first)
  obtain ⟨more, listed, made⟩ := bind_eq_ok_iff.1 (mapError_eq_ok_iff.1 second)
  obtain rfl := Except.ok.inj made
  refine ⟨stages, fun name mem => ?_, ?_⟩
  · obtain ⟨stage, known⟩ := exists_ok_of_mapM listed mem
    exact exists_stage_of_ok known
  · show ∃ name, (match arguments.asteriskName with
      | some name => AsteriskName.literal name
      | none => between.asteriskName) = .literal name
    rw [asterisk]
    cases arguments.asteriskName with
    | some name => exact ⟨name, rfl⟩
    | none =>
      cases configuration.asteriskName with
      | some name => exact ⟨name, rfl⟩
      | none => exact ⟨_, rfl⟩

/-- The report on a style sheet. -/
def reportOf (entry : Source × Stylesheet.Result) : Report :=
  ⟨entry.1.file, entry.2.css, entry.2.mapping⟩

/-- **Reports come from what a run was given**, each from a pass over one of its style sheets. -/
theorem given_of_reportsIn {reports : List Report}
    (ok : reportsIn input arguments tree = .ok reports) :
    ∃ options, ∃ passes : List (Source × Stylesheet.Result),
      Given input arguments tree options (passes.map Prod.fst) ∧
      (∀ entry ∈ passes, Stylesheet.scope options entry.1.css = .ok entry.2) ∧
      reports = passes.map reportOf := by
  obtain ⟨configuration, known, ok⟩ := bind_eq_ok_iff.1 ok
  obtain ⟨options, made, ok⟩ := bind_eq_ok_iff.1 ok
  obtain ⟨sources, found, ok⟩ := bind_eq_ok_iff.1 ok
  obtain ⟨results, all, same⟩ := bind_eq_ok_iff.1 (mapError_eq_ok_iff.1 ok)
  obtain rfl := Except.ok.inj same
  obtain ⟨-, -, name, literal⟩ := of_options_ok made
  rw [Stylesheet.scopeAll_of_literal literal] at all
  have each := List.forall₂_map_left_iff.1 (mapM_eq_ok_iff.1 all)
  refine ⟨options, sources.zip results, ?_, ?_, ?_⟩
  · rw [List.map_fst_zip each.length_eq.le]
    exact ⟨⟨configuration, hasConfiguration_of_ok known, made⟩, hasSources_of_ok found⟩
  · exact fun entry mem => (List.forall₂_iff_zip.1 each).2 mem
  · rw [List.map_zip_eq_zipWith]
    rfl

/-! ### What stands in the way -/

theorem HasConfiguration.unique {path? : Option Text} {configuration configuration' : Configuration}
    (h : HasConfiguration tree path? configuration) (h' : HasConfiguration tree path? configuration') :
    configuration = configuration' := by
  cases h with
  | none => cases h'; rfl
  | file found parsed =>
    cases h' with
    | file found' parsed' =>
      rw [found] at found'
      obtain rfl := Except.ok.inj found'
      rw [parsed] at parsed'
      exact Option.some.inj parsed'

namespace HasSources
variable {files : List Text} {sources : List Source}

theorem read_of_mem (h : HasSources input tree files sources) {path : Text} (mem : path ∈ files) :
    ∃ t, tree.read path = .ok t := by
  cases h with
  | input => cases mem
  | files _ named found =>
    subst named
    obtain ⟨source, here, rfl⟩ := List.mem_map.1 mem
    exact ⟨source.css, found source here⟩

theorem input_of_nil (h : HasSources input tree files sources) (empty : files = []) :
    ∃ t, input = .ok t := by
  cases h with
  | input given => exact ⟨_, given⟩
  | files nonempty => exact absurd empty nonempty

theorem nodup_stems (h : HasSources input tree files sources)
    (apart : (sources.map fun source => stemOf source.file).Nodup) : (files.map stemOf).Nodup := by
  cases h with
  | input => exact List.nodup_nil
  | files _ named found =>
    subst named
    rwa [List.map_map]

end HasSources

/-- The only obstacle to a run that is given all it needs are two files with one stem. -/
theorem Given.sameStem_of_obstacle {options : Options} {sources : List Source}
    (given : Given input arguments tree options sources) (obstacle : Obstacle input arguments tree) :
    ∃ directory, arguments.outputDirectory = some directory ∧
      ¬ (arguments.files.map stemOf).Nodup := by
  obtain ⟨⟨configuration, known, made⟩, found⟩ := given
  obtain ⟨stages, more, -⟩ := of_options_ok made
  cases obstacle with
  | unreadableConfiguration named unread =>
    rw [named] at known
    cases known with
    | file read _ =>
      rw [read] at unread
      cases unread
  | invalidConfiguration named read invalid =>
    rw [named] at known
    cases known with
    | file read' parsed =>
      rw [read] at read'
      obtain rfl := Except.ok.inj read'
      rw [invalid] at parsed
      cases parsed
  | malformedStages known' listed malformed =>
    obtain rfl := known.unique known'
    obtain ⟨stages, ok⟩ := stages _ listed
    exact absurd (exists_names_of_stagesOf ok) malformed
  | unknownStage mem unknown =>
    have stage := more _ mem
    rw [unknown] at stage
    cases stage
  | unreadableFile mem unread =>
    obtain ⟨t, read⟩ := found.read_of_mem mem
    rw [read] at unread
    cases unread
  | unreadableInput needed unread =>
    obtain ⟨t, read⟩ := found.input_of_nil needed
    rw [read] at unread
    cases unread
  | sameStem output same => exact ⟨_, output, same⟩

/-! ### What is delivered -/

variable {directory : Text}

theorem pathsOf_eq (directory : Text) (passes : List (Source × Stylesheet.Result)) :
    pathsOf directory (passes.map Prod.fst) =
      (outputsOf directory (passes.map reportOf)).map Prod.fst := by
  rw [pathsOf, outputsOf, List.flatMap_map, List.map_flatMap, List.flatMap_map]
  rfl

/-- Reports are delivered once their stems are known to differ: first the directory is created, and
then one file is written after the other. -/
theorem on_deliver (directory : Text) (reports : List Report) (tree : FileTree) :
    on (deliver (some directory) reports) tree =
      match withStems [] reports with
      | .error e => (.error e, tree)
      | .ok _ =>
        match on ((FileAccess.createAll directory : TreeProgram FileError Unit).adapt
          (RunError.notCreated directory)) tree with
        | (.ok _, middle) =>
          match on (writeAll (outputsOf directory reports) : TreeProgram RunError Unit) middle with
          | (.ok _, tree') => (.ok none, tree')
          | (.error e, tree') => (.error e, tree')
        | (.error e, tree') => (.error e, tree') := by
  simp only [deliver, writeReports, bind_assoc]
  rw [on_bind, Looks.lift]
  cases named : withStems [] reports with
  | error e => rfl
  | ok stems =>
    obtain ⟨rfl, -, -⟩ := nodup_of_withStems named
    have files : ((reports.map fun report => (stem report, report)).flatMap fun named =>
        outputs directory named.1 named.2) = outputsOf directory reports := List.flatMap_map ..
    simp only [on_bind, files]
    rcases on ((FileAccess.createAll directory : TreeProgram FileError Unit).adapt
      (RunError.notCreated directory)) tree with ⟨e | u, middle⟩
    · rfl
    · dsimp only
      rcases on (writeAll (outputsOf directory reports) : TreeProgram RunError Unit) middle with
        ⟨e | u, after⟩ <;> rfl

theorem delivered_of_deliver {options : Options} {passes : List (Source × Stylesheet.Result)}
    {answer : Option Text}
    (made : ∀ entry ∈ passes, Stylesheet.scope options entry.1.css = .ok entry.2)
    (ended : on (deliver (some directory) (passes.map reportOf)) tree = (.ok answer, tree')) :
    answer = none ∧ Delivered options directory tree tree' passes := by
  rw [on_deliver] at ended
  cases named : withStems [] (passes.map reportOf) with
  | error e => rw [named] at ended; cases ended
  | ok stems =>
    obtain ⟨-, apart, -⟩ := nodup_of_withStems named
    simp only [named] at ended
    -- The directory is created, which leads to a tree in between.
    have grown := FileAccess.grown_createAll directory tree
    rw [on_adapt] at ended
    rcases created : on (FileAccess.createAll directory : TreeProgram FileError Unit) tree with
      ⟨done, middle⟩
    rw [created] at ended grown
    cases done with
    | error e => cases ended
    | ok _ =>
      simp only [Except.mapError] at ended
      split at ended
      next _ after written =>
        obtain ⟨same, rfl⟩ := Prod.mk.inj ended
        refine ⟨(Except.ok.inj same).symm, ?_⟩
        have each := writeEach_of_writeAll.1 _ written
        have different := nodup_outputsOf directory apart
        have there := FileTree.read_of_writeEach isName_of_mem_outputsOf different each
        obtain ⟨keeps, elsewhere⟩ := FileTree.changed_of_writeEach each
        refine ⟨made, fun entry mem => ?_, fun entry mem => ?_, ?_, ?_, fun location => ?_⟩
        · refine there (_, entry.2.css) (List.mem_flatMap.2 ⟨_, List.mem_map_of_mem mem, ?_⟩)
          exact List.mem_cons_self
        · refine there (_, entry.2.mapping.toJson.pretty)
            (List.mem_flatMap.2 ⟨_, List.mem_map_of_mem mem, ?_⟩)
          exact List.mem_cons_of_mem _ List.mem_cons_self
        · rw [pathsOf_eq, List.length_map, length_outputsOf, List.length_map]
        · rw [pathsOf_eq]
          exact different
        · rcases elsewhere location with same | ⟨file, mem, within, name, located, here⟩
          · rw [same]
            refine (grown location).imp_right fun ⟨free, new, path, mem, leads⟩ => .inl ?_
            exact ⟨free, new, path, mem, keeps.foldlM_enter leads⟩
          · refine .inr (.inr ⟨file.1, ?_, within, name, located, here⟩)
            rw [pathsOf_eq]
            exact List.mem_map_of_mem mem
      next => cases ended

/-- Reports that are not delivered fail for the sake of one path, or for a name that is taken. -/
theorem error_of_deliver {outputDirectory : Option Text} {reports : List Report} {e : RunError}
    (ended : on (deliver outputDirectory reports) tree = (.error e, tree')) :
    tree' = tree ∨ (∃ path cause, e = .notCreated path cause) ∨
      ∃ path cause, e = .notWritten path cause := by
  cases outputDirectory with
  | none => cases ended
  | some directory =>
    rw [on_deliver] at ended
    cases named : withStems [] reports with
    | error e =>
      rw [named] at ended
      exact .inl (Prod.mk.inj ended).2.symm
    | ok stems =>
      simp only [named] at ended
      rw [on_adapt] at ended
      rcases created : on (FileAccess.createAll directory : TreeProgram FileError Unit) tree with
        ⟨done, middle⟩
      rw [created] at ended
      cases done with
      | error cause =>
        exact .inr (.inl ⟨directory, cause, (Except.error.inj (Prod.mk.inj ended).1).symm⟩)
      | ok _ =>
        simp only [Except.mapError] at ended
        split at ended
        next => cases ended
        next e' after failed =>
          obtain ⟨same, -⟩ := Prod.mk.inj ended
          obtain rfl := Except.error.inj same
          exact .inr (.inr (writeEach_of_writeAll.2 _ failed))

-- A style sheet that lies in the directory for output is read before it is overwritten.
example : (runOn (.error .missing) { files := ["a.css".toList], outputDirectory := some ".".toList }
      (.ofFiles [("a.css".toList, .text "a\x7b\x7d".toList)])).2.read "a.css".toList =
    .ok ".a_el_d5CcW\x7b\x7d".toList := by decide +kernel

end ScopedCss.CommandLine
