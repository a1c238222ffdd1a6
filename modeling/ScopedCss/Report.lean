import ScopedCss.Json.Value
import ScopedCss.NameTable

/-!
# Reports

What is told about a style sheet that was scoped: its file, the new text, and the names.  A report
is written as JSON; the tables of names keep their order.
-/
namespace ScopedCss

/-- A table as a JSON object. -/
def NameTable.toJson (table : NameTable) : Json.Value :=
  .object (table.entries.map fun (name, scopedName) => (name, .string scopedName))

/-- A mapping as a JSON object. -/
def Mapping.toJson (mapping : Mapping) : Json.Value :=
  .object [("elements".toList, mapping.elements.toJson), ("classes".toList, mapping.classes.toJson),
    ("ids".toList, mapping.ids.toJson), ("keyframes".toList, mapping.keyframes.toJson),
    ("fontFaces".toList, mapping.fontFaces.toJson)]

/-- What is told about one style sheet. -/
structure Report where
  file : Text
  css : Text
  mapping : Mapping
deriving DecidableEq

namespace Report

/-- A report as a JSON object. -/
def toJson (report : Report) : Json.Value :=
  .object [("file".toList, .string report.file), ("css".toList, .string report.css),
    ("mapping".toList, report.mapping.toJson)]

/-- Reports as a text. -/
def render (reports : List Report) : Text := (Json.Value.array (reports.map toJson)).pretty

end Report
end ScopedCss
