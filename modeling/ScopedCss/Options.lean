import ScopedCss.Comment
import ScopedCss.NameTable
import ScopedCss.Suffix

/-!
# Options of a pass

The options say which categories are scoped, how names are made, and which stages a style sheet runs
through first.  What is left of them once a style sheet is given is its `Scheme`: the same choices,
with the scoping function made for the text of that sheet.
-/
namespace ScopedCss

/-- Which categories are scoped. -/
structure Switches where
  classes : Bool := true
  ids : Bool := true
  elements : Bool := true
  keyframes : Bool := true
  fontFaces : Bool := true
deriving DecidableEq, Inhabited

/-- Whether a category is scoped. -/
def Switches.on (switches : Switches) : Category → Bool
  | .elements => switches.elements
  | .classes => switches.classes
  | .ids => switches.ids
  | .keyframes => switches.keyframes
  | .fontFaces => switches.fontFaces

/-- The name under which `*` is scoped: always the same, or a new one each time. -/
inductive AsteriskName where
  | literal (name : Text)
  /-- The name for the first `*`, the second, and so on, counted from 0. -/
  | generated (name : Nat → Text)

/-- The name for a `*` before which a given number of others were named. -/
def AsteriskName.resolve : AsteriskName → Nat → Text
  | literal name, _ => name
  | generated name, n => name n

/-- A change made to the text of a style sheet before it is scoped. -/
structure Stage where
  name : Text
  run : Text → Text

namespace Stage

/-- Removes comments. -/
def stripComments : Stage where
  name := "strip-comments".toList
  run := Comment.strip

/-- The stages that a configuration can name. -/
def builtIn : List Stage := [stripComments]

/-- The stage with a given name. -/
def ofName? (name : Text) : Option Stage := builtIn.find? fun stage => stage.name = name

end Stage

/-- The choices for a pass. -/
structure Options where
  switches : Switches := {}
  asteriskName : AsteriskName := .literal "__asterisk".toList
  /-- Changes the name of an element before it is scoped. -/
  elementName : Text → Text := id
  /-- The key of a style sheet: what the scoped names depend on of its text. -/
  keyOf : Text → Text := Suffix.ofSource
  /-- The scoped form of a name in a style sheet with a given key. -/
  scopeName : Text → Text → Text := Suffix.attach
  stages : List Stage := []

/-- The choices for one style sheet. -/
structure Scheme where
  switches : Switches
  asteriskName : AsteriskName
  elementName : Text → Text
  /-- The scoped form of a name. -/
  scope : Text → Text

namespace Options

/-- The choices for a style sheet with the given text. -/
def schemeFor (options : Options) (source : Text) : Scheme where
  switches := options.switches
  asteriskName := options.asteriskName
  elementName := options.elementName
  -- The key is made here, once, and not again for every name.
  scope := options.scopeName (options.keyOf source)

/-- The text of a style sheet after all stages, in order. -/
def stage (options : Options) (source : Text) : Text :=
  options.stages.foldl (fun text stage => stage.run text) source

end Options
end ScopedCss
