import ScopedCss.Json.Value
import ScopedCss.Options

/-!
# Configurations

A configuration is a JSON object that overrides options: the five switches, the name for `*`, and
stages to add.  What it does not mention, or sets to `null`, stays as it is.  Keys it does not know
are ignored, whatever their values are.  An array of seven values may stand for the object.

The list of stages may hold any value at first, so that a wrong one is reported with what was found
in its place.
-/
namespace ScopedCss

/-- Options to override. -/
structure Configuration where
  classes : Option Bool := none
  ids : Option Bool := none
  elements : Option Bool := none
  keyframes : Option Bool := none
  fontFaces : Option Bool := none
  asteriskName : Option Text := none
  plugins : Option Json.Value := none

/-- Why options cannot be made. -/
inductive OptionsError where
  /-- What should list stages is, or holds, something else. -/
  | malformedStages (found : Json.Value)
  | unknownStage (name : Text)

/-- The message of an error. -/
def OptionsError.message : OptionsError → Text
  | malformedStages found =>
    "\x60plugins\x60 must be an array of stage names, found ".toList ++ found.compact
  | unknownStage name => "unknown stage \x60".toList ++ name ++ "\x60".toList

namespace Configuration

/-! ### Reading -/

/-- The keys of a configuration, in the order of the array that may stand for it. -/
def keys : List Text :=
  ["classes", "ids", "elements", "keyframes", "fontFaces", "asteriskName", "plugins"].map
    String.toList

/-- How deep the list of stages may nest. -/
def maxDepth : Nat := 126

/-- A switch in a configuration. -/
def readSwitch : Json.Document → Option (Option Bool)
  | .null => some none
  | .bool b => some (some b)
  | _ => none

/-- A name in a configuration. -/
def readName : Json.Document → Option (Option Text)
  | .null => some none
  | .string parts => (Json.Value.decode? parts).map some
  | _ => none

/-- Any value in a configuration. -/
def readValue : Json.Document → Option (Option Json.Value)
  | .null => some none
  | document => (Json.Value.ofDocument? maxDepth document).map some

/-- The configuration with the values of some keys. -/
def ofFields? (field : Text → Json.Document) : Option Configuration := do
  return {
    classes := ← readSwitch (field "classes".toList)
    ids := ← readSwitch (field "ids".toList)
    elements := ← readSwitch (field "elements".toList)
    keyframes := ← readSwitch (field "keyframes".toList)
    fontFaces := ← readSwitch (field "fontFaces".toList)
    asteriskName := ← readName (field "asteriskName".toList)
    plugins := ← readValue (field "plugins".toList) }

/-- Members with their keys decoded. -/
def decodeKeys (members : List (List Json.StringPart × Json.Document)) :
    Option (List (Text × Json.Document)) :=
  members.mapM fun (key, document) => (Json.Value.decode? key).map fun key => (key, document)

/-- The configuration that a document holds.  No key may stand in it twice. -/
def ofDocument? : Json.Document → Option Configuration
  | .object members => do
    let members ← decodeKeys members
    let known := members.filter fun (key, _) => key ∈ keys
    if (known.map Prod.fst).Nodup then ofFields? fun key => (known.lookup key).getD .null
    else none
  | .array items =>
    if items.length = keys.length then ofFields? fun key => ((keys.zip items).lookup key).getD .null
    else none
  | _ => none

/-- The configuration that a text holds. -/
def ofText? (t : Text) : Option Configuration := (Json.Document.ofText? t).bind ofDocument?

/-! ### Applying -/

/-- The stage that a value names. -/
def stageOf : Json.Value → Except OptionsError Stage
  | .string name =>
    match Stage.ofName? name with
    | some stage => .ok stage
    | none => .error (.unknownStage name)
  | found => .error (.malformedStages found)

/-- The stages that a value lists. -/
def stagesOf : Json.Value → Except OptionsError (List Stage)
  | .array names => names.mapM stageOf
  | found => .error (.malformedStages found)

/-- The options with those changed that a configuration sets; its stages run after those there
are. -/
def applyTo (configuration : Configuration) (options : Options) : Except OptionsError Options := do
  let stages ←
    match configuration.plugins with
    | some plugins => stagesOf plugins
    | none => pure []
  return { options with
    switches :=
      { classes := configuration.classes.getD options.switches.classes
        ids := configuration.ids.getD options.switches.ids
        elements := configuration.elements.getD options.switches.elements
        keyframes := configuration.keyframes.getD options.switches.keyframes
        fontFaces := configuration.fontFaces.getD options.switches.fontFaces }
    asteriskName :=
      match configuration.asteriskName with
      | some name => .literal name
      | none => options.asteriskName
    stages := options.stages ++ stages }

end Configuration
end ScopedCss
