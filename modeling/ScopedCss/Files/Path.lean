import ScopedCss.Text.Basic

/-!
# Paths

A path is a text in which slashes separate parts.  An empty part means nothing, the part `.` stays
in the directory where it stands, and `..` leads to the directory above.  This module only looks at
the text of a path; where a path leads is a question for the files there are.
-/
namespace ScopedCss.Path

/-- The part that stays in a directory. -/
def here : Text := ['.']

/-- The part that leads to the directory above. -/
def up : Text := ['.', '.']

/-- The parts of a path. -/
def parts (path : Text) : List Text :=
  (path.splitOnP fun c => c == '/').filter fun part => !part.isEmpty

/-- The parts that lead somewhere else. -/
def moves (path : Text) : List Text := (parts path).filter fun part => part ≠ here

/-- A name without its last extension.  A dot at the front of a name starts no extension. -/
def withoutExtension (name : Text) : Text :=
  match name.reverse.dropWhile fun c => c != '.' with
  | _ :: c :: before => (c :: before).reverse
  | _ => name

/-- The name of the file that a path leads to, without its last extension. -/
def stem? (path : Text) : Option Text :=
  (moves path).getLast?.bind fun name =>
    if name = up then none else some (withoutExtension name)

/-- The path of a name in a directory. -/
def join (directory name : Text) : Text :=
  if directory.getLast?.all fun c => c == '/' then directory ++ name
  else directory ++ '/' :: name

/-- The slash at the front of a path, if there is one. -/
def root (path : Text) : Text := path.take (if path.head? = some '/' then 1 else 0)

/-- The paths whose parts are the nonempty ends of a list, each read backwards, behind a root. -/
def backwards (root : Text) : List Text → List Text
  | [] => []
  | part :: rest =>
    (root ++ Text.joinWith ['/'] (part :: rest).reverse) :: backwards root rest

/-- The directories above the last part of a path, from the nearest outwards. -/
def parents (path : Text) : List Text := backwards (root path) (moves path).reverse.tail

end ScopedCss.Path
