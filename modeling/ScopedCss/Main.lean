import ScopedCss.CommandLine.Program

/-!
# The executable

Runs the program on the files, the input and the output of the system.
-/
namespace ScopedCss

/-- The failure that the system reports with words and a number, which may be negated. -/
def FileError.ofCode (code : UInt32) (details : String) : FileError :=
  match code.toInt32.toInt.natAbs with
  | 2 => .missing
  | 17 => .exists
  | 20 => .notDirectory
  | 21 => .isDirectory
  | 36 => .nameTooLong
  | n => .other (details.toList ++ " (os error ".toList ++ Nat.toDigits 10 n ++ [')'])

/-- The failure behind an error of the system. -/
def FileError.ofSystem : IO.Error → FileError
  | .alreadyExists _ code details | .otherError code details | .resourceBusy code details
  | .resourceVanished code details | .unsupportedOperation code details
  | .hardwareFault code details | .unsatisfiedConstraints code details
  | .illegalOperation code details | .protocolError code details | .timeExpired code details
  | .interrupted _ code details | .noFileOrDirectory _ code details
  | .invalidArgument _ code details | .permissionDenied _ code details
  | .resourceExhausted _ code details | .inappropriateType _ code details
  | .noSuchThing _ code details => ofCode code details
  | .unexpectedEof => .other "unexpected end of file".toList
  | .userError details => .other details.toList

/-- Does something with the system, whose errors become failures. -/
def attempt {α : Type} (action : IO α) : ExceptT FileError IO α := ExceptT.mk do
  try return .ok (← action)
  catch e => return .error (.ofSystem e)

/-- The text that bytes encode. -/
def decode (bytes : ByteArray) : Except FileError Text :=
  match String.fromUTF8? bytes with
  | some s => .ok s.toList
  | none => .error .notText

/-- The files of the system. -/
instance : FileAccess IO where
  read path := do decode (← attempt (IO.FS.readBinFile (String.ofList path)))
  write path t := attempt (IO.FS.writeFile (String.ofList path) (String.ofList t))
  createDirectory path := attempt (IO.FS.createDir (String.ofList path))
  isDirectory path := do
    try (← IO.FS.realPath (String.ofList path)).isDir
    catch _ => return false

/-- All that is left to read of a stream, behind what was read of it before. -/
partial def readToEnd (stream : IO.FS.Stream) (before : ByteArray) : IO ByteArray := do
  let bytes ← stream.read 65536
  if bytes.isEmpty then return before else readToEnd stream (before ++ bytes)

/-- The text on the standard input. -/
def standardInput : ExceptT FileError IO Text := do
  decode (← attempt do readToEnd (← IO.getStdin) .empty)

end ScopedCss

open ScopedCss CommandLine

/-- Runs the program with the arguments it was called with. -/
def main (arguments : List String) : IO UInt32 := do
  let outcome ← program standardInput (arguments.map String.toList)
  IO.print (String.ofList outcome.output)
  IO.eprint (String.ofList outcome.errors)
  return outcome.status.toUInt32
