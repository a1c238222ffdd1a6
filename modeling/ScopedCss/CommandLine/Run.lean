import ScopedCss.CommandLine.Arguments
import ScopedCss.Configuration
import ScopedCss.Files.Access
import ScopedCss.Report
import ScopedCss.Stylesheet

/-!
# Running the command line

A run reads the configuration, decides the options, reads every style sheet, scopes them, and only
then writes.  So nothing is written unless all style sheets could be read and scoped, and what is
written does not depend on files written before.

With an output directory each style sheet leaves two files there, its new text and its names, called
after its *stem*, the file name without its extension.  Two style sheets with one stem are refused
before anything is written.  Without an output directory the run returns one report on all of them.
-/
namespace ScopedCss.CommandLine

/-- Why a run fails. -/
inductive RunError where
  | unreadableConfiguration (path : Text) (cause : FileError)
  | invalidConfiguration (path : Text)
  /-- The configuration asks for impossible options. -/
  | configuration (cause : OptionsError)
  /-- The arguments ask for impossible options. -/
  | arguments (cause : OptionsError)
  | unreadableFile (path : Text) (cause : FileError)
  | unreadableInput (cause : FileError)
  | fault (cause : Fault)
  /-- Two files would be written under one name. -/
  | sameStem (first second stem : Text)
  | notCreated (path : Text) (cause : FileError)
  | notWritten (path : Text) (cause : FileError)

/-- The message of an error. -/
def RunError.message : RunError → Text
  | unreadableConfiguration path cause =>
    "failed to read config ".toList ++ path ++ ": ".toList ++ cause.message
  | invalidConfiguration path =>
    "failed to parse config ".toList ++ path ++ ": invalid scopeify configuration".toList
  | configuration cause => "invalid scopeify configuration: ".toList ++ cause.message
  | arguments cause => cause.message
  | unreadableFile path cause => "failed to read ".toList ++ path ++ ": ".toList ++ cause.message
  | unreadableInput cause => "failed to read stylesheet from stdin: ".toList ++ cause.message
  | fault cause => cause.message
  | sameStem first second stem =>
    first ++ " and ".toList ++ second ++ " would both be written as ".toList ++ stem ++
      ".css".toList
  | notCreated path cause => "failed to create ".toList ++ path ++ ": ".toList ++ cause.message
  | notWritten path cause => "failed to write ".toList ++ path ++ ": ".toList ++ cause.message

/-! ### Options -/

/-- The switches with the categories off that arguments switch off. -/
def Arguments.switches (arguments : Arguments) (switches : Switches) : Switches where
  classes := switches.classes && .classes ∉ arguments.disabled
  ids := switches.ids && .ids ∉ arguments.disabled
  elements := switches.elements && .elements ∉ arguments.disabled
  keyframes := switches.keyframes && .keyframes ∉ arguments.disabled
  fontFaces := switches.fontFaces && .fontFaces ∉ arguments.disabled

/-- The stage that an argument names. -/
def stageOf (name : Text) : Except OptionsError Stage :=
  match Stage.ofName? name with
  | some stage => .ok stage
  | none => .error (.unknownStage name)

/-- The options with those changed that arguments set; their stages run after those there are. -/
def Arguments.applyTo (arguments : Arguments) (options : Options) :
    Except OptionsError Options := do
  return { options with
    switches := arguments.switches options.switches
    asteriskName :=
      match arguments.asteriskName with
      | some name => .literal name
      | none => options.asteriskName
    stages := options.stages ++ (← arguments.stages.mapM stageOf) }

/-- The options of a run.  Arguments win over the configuration. -/
def options (configuration : Configuration) (arguments : Arguments) : Except RunError Options := do
  let options ← (configuration.applyTo {}).mapError .configuration
  (arguments.applyTo options).mapError .arguments

/-! ### Scoping -/

/-- A style sheet to scope. -/
structure Source where
  file : Text
  css : Text
deriving DecidableEq

/-- The name of a style sheet that comes from no file. -/
def inputName : Text := "stdin".toList

/-- Scopes style sheets and reports on them in order. -/
def scopeSources (options : Options) (sources : List Source) : Except Fault (List Report) := do
  let results ← Stylesheet.scopeAll options (sources.map Source.css)
  return sources.zipWith (fun source result => ⟨source.file, result.css, result.mapping⟩) results

/-! ### Output -/

/-- The stem of the files that a report leaves. -/
def stem (report : Report) : Text := (Path.stem? report.file).getD inputName

/-- The reports with their stems, which must differ from one another and from those of files seen
before. -/
def withStems (seen : List (Text × Text)) : List Report → Except RunError (List (Text × Report))
  | [] => .ok []
  | report :: reports =>
    match seen.lookup (stem report) with
    | some earlier => .error (.sameStem earlier report.file (stem report))
    | none => do
      return (stem report, report) :: (← withStems ((stem report, report.file) :: seen) reports)

/-- The files that a report leaves in a directory, with their contents. -/
def outputs (directory : Text) (stem : Text) (report : Report) : List (Text × Text) :=
  [(Path.join directory (stem ++ ".css".toList), report.css),
    (Path.join directory (stem ++ ".map.json".toList), report.mapping.toJson.pretty)]

/-! ### Reading and writing -/

section
variable {m : Type → Type} [Monad m] [FileAccess m]

/-- The configuration in a file, if there is one. -/
def readConfiguration : Option Text → ExceptT RunError m Configuration
  | none => pure {}
  | some path => do
    let t ← (FileAccess.read path : ExceptT FileError m Text).adapt (.unreadableConfiguration path)
    match Configuration.ofText? t with
    | some configuration => return configuration
    | none => throw (.invalidConfiguration path)

/-- The style sheet in a file. -/
def readSource (path : Text) : ExceptT RunError m Source := do
  return ⟨path, ← (FileAccess.read path : ExceptT FileError m Text).adapt (.unreadableFile path)⟩

/-- The style sheets in files, or else the one from the input. -/
def readSources (input : ExceptT FileError m Text) (files : List Text) :
    ExceptT RunError m (List Source) := do
  if files.isEmpty then return [⟨inputName, ← input.adapt .unreadableInput⟩]
  else files.mapM readSource

/-- Writes files. -/
def writeAll (files : List (Text × Text)) : ExceptT RunError m Unit :=
  files.forM fun (path, t) =>
    (FileAccess.write path t : ExceptT FileError m Unit).adapt (.notWritten path)

/-- Leaves the files of reports in a directory, which is created if it is not there. -/
def writeReports (directory : Text) (reports : List Report) : ExceptT RunError m Unit := do
  let stems ← withStems [] reports
  (FileAccess.createAll directory : ExceptT FileError m Unit).adapt (.notCreated directory)
  writeAll (stems.flatMap fun (stem, report) => outputs directory stem report)

/-- Runs the command line.  The result is the text of a report, unless there is a directory for
output. -/
def run (input : ExceptT FileError m Text) (arguments : Arguments) :
    ExceptT RunError m (Option Text) := do
  let configuration ← readConfiguration arguments.configuration
  let options ← options configuration arguments
  let sources ← readSources input arguments.files
  let reports ← liftExcept ((scopeSources options sources).mapError RunError.fault)
  match arguments.outputDirectory with
  | some directory =>
    writeReports directory reports
    return none
  | none => return some (Report.render reports)

end
end ScopedCss.CommandLine
