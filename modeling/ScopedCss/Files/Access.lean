import ScopedCss.Files.Path

/-!
# Access to files

What the command line needs of files, and why it may fail.  A monad that gives access to files reads
and writes whole texts and creates directories one at a time; creating a directory along with those
above it is defined here once for all of them.
-/
namespace ScopedCss

/-- Why a file or a directory cannot be used as asked. -/
inductive FileError where
  | missing
  | exists
  | notDirectory
  | isDirectory
  | nameTooLong
  | nulInPath
  | notText
  /-- A failure of the system that has no name here, in the words of the system. -/
  | other (details : Text)
deriving DecidableEq

/-- The message of an error. -/
def FileError.message : FileError → Text
  | missing => "No such file or directory (os error 2)".toList
  | «exists» => "File exists (os error 17)".toList
  | notDirectory => "Not a directory (os error 20)".toList
  | isDirectory => "Is a directory (os error 21)".toList
  | nameTooLong => "File name too long (os error 36)".toList
  | nulInPath => "file name contained an unexpected NUL byte".toList
  | notText => "stream did not contain valid UTF-8".toList
  | other details => details

/-- Access to files at paths. -/
class FileAccess (m : Type → Type) where
  /-- The text of a file. -/
  read : Text → ExceptT FileError m Text
  /-- Writes a text as the content of a file, which is made if it is not there. -/
  write : Text → Text → ExceptT FileError m Unit
  /-- Creates a directory in one that is there. -/
  createDirectory : Text → ExceptT FileError m Unit
  /-- Whether a path leads to a directory. -/
  isDirectory : Text → m Bool

namespace FileAccess
variable {m : Type → Type} [Monad m] [FileAccess m]

/-- Fails with an error unless a path leads to a directory, in which case nothing is left to do. -/
def failUnlessDirectory (path : Text) (e : FileError) : ExceptT FileError m Unit := do
  if ← (FileAccess.isDirectory path : m Bool) then return () else throw e

/-- Creates a directory whose parents are given, and as many of them as it takes.  Only a missing
parent is a reason to create it, and a directory that is there already is as good as a new one. -/
def createWithin (path : Text) (parents : List Text) : ExceptT FileError m Unit :=
  tryCatch (FileAccess.createDirectory path) fun
    | .missing => do
      match parents with
      | [] => pure ()
      | parent :: parents => createWithin parent parents
      -- With its parent there, the directory can only be missing for another reason.
      tryCatch (FileAccess.createDirectory path) (failUnlessDirectory path)
    | e => failUnlessDirectory path e

/-- Creates a directory and those above it that are missing. -/
def createAll (path : Text) : ExceptT FileError m Unit := createWithin path (Path.parents path)

end FileAccess
end ScopedCss
