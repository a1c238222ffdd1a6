import ScopedCss.NameTable

/-!
# Arguments

The command line takes style sheet files, flags that switch categories off, and parameters that take
a value: a configuration file, a directory for output, the name for `*`, and stages.  They may come
in any order; after `--` every argument is a file.

An argument is either complete when it is read, such as a flag, or it stays *pending*: a parameter
waits for its value, and files are collected as long as they come.  What is pending is settled, and
only then checked, when the next flag or parameter comes, or at the end.  So of two mistakes the one
that is found first need not be the one that stands first: an unknown argument is refused at once,
whatever is still pending.
-/
namespace ScopedCss.CommandLine

/-- What the arguments ask for. -/
structure Arguments where
  files : List Text := []
  configuration : Option Text := none
  outputDirectory : Option Text := none
  /-- The categories that are switched off. -/
  disabled : List Category := []
  asteriskName : Option Text := none
  stages : List Text := []
deriving DecidableEq

/-- The parameters that take a value. -/
inductive Parameter where
  | configuration
  | outputDirectory
  | asteriskName
  | stage
deriving DecidableEq

/-- What an argument that starts with a dash can ask for. -/
inductive Request where
  | help
  | version
  | disable (category : Category)
  | parameter (p : Parameter)
deriving DecidableEq

/-- Why reading the arguments comes to an end before all are read. -/
inductive Refusal where
  | unknown (argument : Text)
  /-- A parameter has no value, or an empty path for its value. -/
  | missingValue (name : Text)
  /-- Something that can be said once is said twice. -/
  | repeated (name : Text)
  /-- A flag has a value. -/
  | unexpectedValue (name : Text)
  /-- It was asked how the program is used. -/
  | help
  /-- It was asked which version of the program this is. -/
  | version
deriving DecidableEq

/-! ### Names -/

/-- The name of a parameter. -/
def Parameter.name : Parameter → Text
  | configuration => "config".toList
  | outputDirectory => "out-dir".toList
  | asteriskName => "asterisk-name".toList
  | stage => "stage".toList

/-- The name of the flag that switches a category off. -/
def flagName : Category → Text
  | .classes => "no-classes".toList
  | .ids => "no-ids".toList
  | .elements => "no-elements".toList
  | .keyframes => "no-keyframes".toList
  | .fontFaces => "no-font-faces".toList

namespace Request

/-- The requests by long name. -/
def longNames : List (Text × Request) :=
  [Parameter.configuration, .outputDirectory, .asteriskName, .stage].map
      (fun p => (p.name, parameter p)) ++
    [Category.classes, .ids, .elements, .keyframes, .fontFaces].map
      (fun category => (flagName category, disable category)) ++
    [("help".toList, help), ("version".toList, version)]

/-- The requests by short name. -/
def shortNames : List (Char × Request) :=
  [('c', parameter .configuration), ('o', parameter .outputDirectory), ('h', help), ('V', version)]

/-- The request with a long name. -/
def ofLongName? (name : Text) : Option Request := longNames.lookup name

/-- The request with a short name. -/
def ofShortName? (name : Char) : Option Request := shortNames.lookup name

end Request

/-! ### One argument after the other -/

namespace Arguments

/-- Gives a parameter its value.  Only stages can be given more than once, and paths cannot be
empty. -/
def set (p : Parameter) (value : Text) (arguments : Arguments) : Except Refusal Arguments :=
  match p with
  | .configuration =>
    if arguments.configuration.isSome then .error (.repeated p.name)
    else if value = [] then .error (.missingValue p.name)
    else .ok { arguments with configuration := some value }
  | .outputDirectory =>
    if arguments.outputDirectory.isSome then .error (.repeated p.name)
    else if value = [] then .error (.missingValue p.name)
    else .ok { arguments with outputDirectory := some value }
  | .asteriskName =>
    if arguments.asteriskName.isSome then .error (.repeated p.name)
    else .ok { arguments with asteriskName := some value }
  | .stage => .ok { arguments with stages := arguments.stages ++ [value] }

/-- Switches a category off. -/
def disable (category : Category) (arguments : Arguments) : Except Refusal Arguments :=
  if category ∈ arguments.disabled then .error (.repeated (flagName category))
  else .ok { arguments with disabled := arguments.disabled ++ [category] }

/-- Adds files. -/
def addFiles (files : List Text) (arguments : Arguments) : Except Refusal Arguments :=
  if [] ∈ files then .error (.missingValue "file".toList)
  else .ok { arguments with files := arguments.files ++ files }

end Arguments

/-- What is not settled yet. -/
inductive Pending where
  | nothing
  | files (files : List Text)
  /-- A parameter that has no value yet. -/
  | parameter (p : Parameter)
  | value (p : Parameter) (value : Text)

/-- How far the arguments are read. -/
structure Reading where
  settled : Arguments := {}
  pending : Pending := .nothing

namespace Reading

/-- Settles what is pending. -/
def settle (reading : Reading) : Except Refusal Arguments :=
  match reading.pending with
  | .nothing => .ok reading.settled
  | .files files => reading.settled.addFiles files
  | .parameter p => .error (.missingValue p.name)
  | .value p value => reading.settled.set p value

/-- Reads a file. -/
def file (path : Text) (reading : Reading) : Except Refusal Reading :=
  match reading.pending with
  | .files files => .ok { reading with pending := .files (files ++ [path]) }
  | _ => do return ⟨← reading.settle, .files [path]⟩

/-- Reads a request that stands without a value. -/
def request (r : Request) (reading : Reading) : Except Refusal Reading := do
  let settled ← reading.settle
  match r with
  | .help => throw .help
  | .version => throw .version
  | .disable category => return { settled := ← settled.disable category }
  | .parameter p => return ⟨settled, .parameter p⟩

/-- Reads a parameter together with its value. -/
def parameter (p : Parameter) (value : Text) (reading : Reading) : Except Refusal Reading := do
  return { settled := ← (← reading.settle).set p value }

/-- Reads what follows two dashes: a name, and perhaps a value behind `=`. -/
def long (argument : Text) (reading : Reading) : Except Refusal Reading :=
  let name := argument.takeWhile fun c => c != '='
  match Request.ofLongName? name, argument.dropWhile fun c => c != '=' with
  | none, _ => .error (.unknown ("--".toList ++ argument))
  | some r, [] => reading.request r
  | some (.parameter p), _ :: value => reading.parameter p value
  | some _, _ :: _ => .error (.unexpectedValue name)

/-- Reads what follows one dash: short names, the last of which may have the rest for its value,
with or without `=`. -/
def short : Text → Reading → Except Refusal Reading
  | [], reading => .ok reading
  | c :: rest, reading =>
    match Request.ofShortName? c, rest with
    | none, _ => .error (.unknown ['-', c])
    | some (.parameter p), '=' :: value => reading.parameter p value
    | some (.parameter p), c :: value => reading.parameter p (c :: value)
    | some r, rest => do short rest (← reading.request r)

/-- Reads an argument that is neither `--` nor after it. -/
def argument (reading : Reading) : Text → Except Refusal Reading
  | '-' :: '-' :: argument => reading.long argument
  | '-' :: c :: rest => reading.short (c :: rest)
  | argument =>
    match reading.pending with
    | .parameter p => .ok { reading with pending := .value p argument }
    | _ => reading.file argument

/-- Reads arguments. -/
def all (reading : Reading) : List Text → Except Refusal Reading
  | [] => .ok reading
  | argument :: arguments =>
    if argument = "--".toList then arguments.foldlM (fun reading path => reading.file path) reading
    else do all (← reading.argument argument) arguments

end Reading

/-- What a list of arguments asks for. -/
def Arguments.ofList (arguments : List Text) : Except Refusal Arguments := do
  (← Reading.all {} arguments).settle

/-- What is said about arguments that are refused. -/
def Refusal.message : Refusal → Text
  | unknown argument => "unexpected argument \x60".toList ++ argument ++ "\x60".toList
  | missingValue name => "a value is required for \x60".toList ++ name ++ "\x60".toList
  | repeated name => "\x60".toList ++ name ++ "\x60 cannot be used more than once".toList
  | unexpectedValue name => "\x60".toList ++ name ++ "\x60 takes no value".toList
  | help => "help was asked for".toList
  | version => "the version was asked for".toList

end ScopedCss.CommandLine
