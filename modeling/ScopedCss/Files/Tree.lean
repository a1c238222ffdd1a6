import ScopedCss.Entries
import ScopedCss.Files.Access
import ScopedCss.Text.Bytes

/-!
# Trees of files

A tree of files as a value: what stands at each place below a working directory.  A program that has
access to files can be run on such a tree, and what it did is read off the tree it leaves.

Paths lead through the tree as they do on a disk: every part but the last must be a directory, a
name is looked for only in a directory that is there, and a path that ends in a slash must lead to a
directory.  Paths may leave the working directory upwards.  Above it there are directories, of which
nothing else is known.
-/
namespace ScopedCss

/-- What stands at a location. -/
inductive Node where
  | directory
  | text (content : Text)
  /-- A file whose content is not text. -/
  | binary
deriving DecidableEq

/-- A place among the files, as seen from the working directory: so many levels up, then down by
names. -/
structure Location where
  above : Nat := 0
  /-- The names on the way down, the last one first. -/
  names : List Text := []
deriving DecidableEq

namespace Location

/-- The directory in which a location is. -/
def parent (location : Location) : Location :=
  match location.names with
  | [] => { location with above := location.above + 1 }
  | _ :: names => { location with names }

/-- The location of a name in a directory. -/
def child (location : Location) (name : Text) : Location :=
  { location with names := name :: location.names }

@[simp]
theorem parent_child (location : Location) (name : Text) :
    (location.child name).parent = location := rfl

/-- The path to a location below the working directory. -/
def path? (location : Location) : Option Text :=
  if location.above = 0 then some (Text.joinWith ['/'] location.names.reverse) else none

end Location

/-- What stands below the working directory. -/
structure FileTree where
  nodes : List (Location × Node) := []
deriving Inhabited

namespace FileTree

/-- What stands at a location.  The working directory and those above it are always there. -/
def node? (tree : FileTree) (location : Location) : Option Node :=
  if location.names.isEmpty then some .directory else tree.nodes.lookup location

/-- The tree with something put at a location. -/
def record (tree : FileTree) (location : Location) (node : Node) : FileTree :=
  ⟨Entries.record location node tree.nodes⟩

/-- What was put at a location stands there, and elsewhere nothing has changed. -/
theorem node?_record (tree : FileTree) {location : Location} (node : Node) (other : Location)
    (named : location.names ≠ []) :
    (tree.record location node).node? other =
      if other = location then some node else tree.node? other := by
  by_cases same : other = location
  · subst same
    simp [node?, record, named, Entries.lookup_record]
  · by_cases top : other.names.isEmpty
    · rw [node?, if_pos top, if_neg same, node?, if_pos top]
    · simp [node?, record, top, same, Entries.lookup_record]

/-! ### Finding a location -/

/-- How long a name may be, in bytes. -/
def maxName : Nat := 255

/-- How long a path may be, in bytes. -/
def maxPath : Nat := 4095

/-- What stands under a name in a directory. -/
def find (tree : FileTree) (directory : Location) (name : Text) : Except FileError (Option Node) :=
  if maxName < name.bytes then .error .nameTooLong else .ok (tree.node? (directory.child name))

/-- The directory to which one part of a path leads from another. -/
def enter (tree : FileTree) (directory : Location) (part : Text) : Except FileError Location :=
  if part = Path.here then .ok directory
  else if part = Path.up then .ok directory.parent
  else do
    match ← tree.find directory part with
    | some .directory => return directory.child part
    | some _ => throw .notDirectory
    | none => throw .missing

/-- To what a path leads. -/
inductive Target where
  | directory (location : Location)
  /-- A name in a directory, whether something stands under it or not. -/
  | name (directory : Location) (name : Text)

/-- Refuses texts that cannot be paths, and paths that start at a root, of which a tree knows
nothing. -/
def check (path : Text) : Except FileError Unit :=
  if '\x00' ∈ path then .error .nulInPath
  else if maxPath < path.bytes then .error .nameTooLong
  else if Path.root path ≠ [] then .error .missing
  else .ok ()

/-- To what a path leads from the working directory.  A slash at its end asks for a directory. -/
def locate (tree : FileTree) (path : Text) : Except FileError Target := do
  check path
  match (Path.parts path).reverse with
  | [] => throw .missing
  | last :: front =>
    let directory ← front.reverse.foldlM tree.enter {}
    if last = Path.here ∨ last = Path.up ∨ path.getLast? = some '/' then
      return .directory (← tree.enter directory last)
    else return .name directory last

/-! ### Reading and writing -/

/-- The text of a file. -/
def read (tree : FileTree) (path : Text) : Except FileError Text := do
  match ← tree.locate path with
  | .directory _ => throw .isDirectory
  | .name directory name =>
    match ← tree.find directory name with
    | none => throw .missing
    | some .directory => throw .isDirectory
    | some .binary => throw .notText
    | some (.text t) => return t

/-- The tree with a text written to a file. -/
def write (tree : FileTree) (path t : Text) : Except FileError FileTree := do
  match ← tree.locate path with
  | .directory _ => throw .isDirectory
  | .name directory name =>
    match ← tree.find directory name with
    | some .directory => throw .isDirectory
    | _ => return tree.record (directory.child name) (.text t)

/-- The tree with a directory created.  Here a slash at the end of the path asks for nothing. -/
def createDirectory (tree : FileTree) (path : Text) : Except FileError FileTree := do
  check path
  match (Path.parts path).reverse with
  | [] => throw .missing
  | last :: front =>
    let directory ← front.reverse.foldlM tree.enter {}
    if last = Path.here ∨ last = Path.up then throw .exists
    match ← tree.find directory last with
    | some _ => throw .exists
    | none => return tree.record (directory.child last) .directory

/-- Whether a path leads to a directory. -/
def isDirectory (tree : FileTree) (path : Text) : Bool :=
  match tree.locate path with
  | .ok (.directory _) => true
  | .ok (.name directory name) => tree.node? (directory.child name) = some .directory
  | .error _ => false

/-- A step that changes the tree, or leaves it as it is when it fails. -/
def step (change : FileTree → Except FileError FileTree) :
    ExceptT FileError (StateM FileTree) Unit :=
  fun tree =>
    match change tree with
    | .ok tree => (.ok (), tree)
    | .error e => (.error e, tree)

/-- A program may have a tree for its files. -/
instance : FileAccess (StateM FileTree) where
  read path := fun tree => (tree.read path, tree)
  write path t := step fun tree => tree.write path t
  createDirectory path := step fun tree => tree.createDirectory path
  isDirectory path := fun tree => (tree.isDirectory path, tree)

/-! ### Making and comparing trees -/

/-- Puts something at the end of a way down from a location, with directories on the way. -/
def put (node : Node) (location : Location) : List Text → FileTree → FileTree
  | [], tree => tree
  | [name], tree => tree.record (location.child name) node
  | name :: names, tree =>
    put node (location.child name) names (tree.record (location.child name) .directory)

/-- The tree that holds given files, with the directories it takes. -/
def ofFiles (files : List (Text × Node)) : FileTree :=
  files.foldl (fun tree (path, node) => put node {} (Path.moves path) tree) {}

/-- The text files below the working directory that an earlier tree did not hold, or held with
another content: their paths, in order, and texts. -/
def changesSince (tree earlier : FileTree) : List (Text × Text) :=
  (tree.nodes.filterMap fun (location, node) =>
    match location.path?, node with
    | some path, .text t => if earlier.node? location = some node then none else some (path, t)
    | _, _ => none).mergeSort fun a b => a.1.atMost b.1

end FileTree
end ScopedCss
