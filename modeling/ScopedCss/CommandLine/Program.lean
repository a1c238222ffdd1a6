import ScopedCss.CommandLine.Run

/-!
# The program

The program reads its arguments and runs the command line.  What it shows is its *outcome*: an exit
status, a text on its output and a text on its error output.  Arguments that are refused end it with
status 2, a run that fails with status 1.
-/
namespace ScopedCss.CommandLine

/-- What the program shows. -/
structure Outcome where
  status : Nat := 0
  output : Text := []
  errors : Text := []
deriving DecidableEq

/-- The name of the program and its version. -/
def versionText : Text := "scopeify 0.1.0".toList

/-- How the program is used. -/
def helpText : Text := Text.joinWith ['\n'] <| List.map String.toList
  ["Scope CSS class, id, element, keyframes and font-face names",
    "",
    "Usage: scopeify [OPTIONS] [FILE]...",
    "",
    "Arguments:",
    "  [FILE]...  Stylesheets to scope (reads stdin when omitted)",
    "",
    "Options:",
    "  -c, --config <PATH>         Path to a scopeify JSON configuration",
    "  -o, --out-dir <DIR>         Write <stem>.css and <stem>.map.json here instead of printing JSON",
    "      --no-classes            Leave class names untouched",
    "      --no-ids                Leave ids untouched",
    "      --no-elements           Leave element and \x60*\x60 selectors untouched",
    "      --no-keyframes          Leave keyframes names untouched",
    "      --no-font-faces         Leave font-face families untouched",
    "      --asterisk-name <NAME>  Class name used for the \x60*\x60 selector",
    "      --stage <NAME>          Run a built-in stage before scoping (e.g. strip-comments)",
    "  -h, --help                  Print help",
    "  -V, --version               Print version"]

/-- A text on a line of its own. -/
def line (t : Text) : Text := t ++ ['\n']

namespace Outcome

/-- What is shown when the arguments are refused.  Help and version are no mistakes. -/
def ofRefusal : Refusal → Outcome
  | .help => { output := line helpText }
  | .version => { output := line versionText }
  | refusal => { status := 2, errors := line ("error: ".toList ++ refusal.message) }

/-- What is shown after a run. -/
def ofResult : Except RunError (Option Text) → Outcome
  | .ok (some report) => { output := line report }
  | .ok none => {}
  | .error e => { status := 1, errors := line ("Error: ".toList ++ e.message) }

end Outcome

/-- The program: what it shows for its arguments. -/
def program {m : Type → Type} [Monad m] [FileAccess m] (input : ExceptT FileError m Text)
    (arguments : List Text) : m Outcome :=
  match Arguments.ofList arguments with
  | .ok arguments => do return .ofResult (← (run input arguments).run)
  | .error refusal => return .ofRefusal refusal

end ScopedCss.CommandLine
