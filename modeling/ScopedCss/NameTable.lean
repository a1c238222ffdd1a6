import ScopedCss.Entries
import ScopedCss.Text.Basic

/-!
# Tables of scoped names

A pass records which scoped name it gave to each name, in one table per category.  A table
keeps its names in the order in which they were first recorded: writing a name again changes its
scoped name and not its place.  No name stands in a table twice (`NameTable.nodup`).
-/
namespace ScopedCss

/-- Scoped names by name, in the order in which the names were first recorded. -/
structure NameTable where
  entries : List (Text × Text)
  nodup : (entries.map Prod.fst).Nodup
deriving DecidableEq

namespace NameTable

/-- The table without names. -/
def empty : NameTable := ⟨[], by simp⟩

instance : Inhabited NameTable := ⟨empty⟩

/-- The table with a scoped name recorded for a name. -/
def insert (table : NameTable) (name scopedName : Text) : NameTable where
  entries := Entries.record name scopedName table.entries
  nodup := Entries.nodup_record table.nodup

/-- The table of pairs recorded one after the other. -/
def ofList (pairs : List (Text × Text)) : NameTable :=
  pairs.foldl (fun table (name, scopedName) => table.insert name scopedName) empty

/-- The scoped name recorded for a name. -/
def find? (table : NameTable) (name : Text) : Option Text :=
  table.entries.lookup name

/-- Whether no name is recorded. -/
def isEmpty (table : NameTable) : Bool := table.entries.isEmpty

/-- The number of names recorded. -/
def size (table : NameTable) : Nat := table.entries.length

/-- After recording a name, looking it up finds what was recorded, and other names are found as
before. -/
theorem find?_insert (table : NameTable) (name scopedName other : Text) :
    (table.insert name scopedName).find? other =
      if other = name then some scopedName else table.find? other := by
  rw [find?, insert, Entries.lookup_record]
  simp only [beq_iff_eq]
  rfl

end NameTable

/-- The categories of names that a pass scopes. -/
inductive Category where
  | elements
  | classes
  | ids
  | keyframes
  | fontFaces
deriving DecidableEq

/-- One table of scoped names for each category. -/
structure Mapping where
  elements : NameTable := .empty
  classes : NameTable := .empty
  ids : NameTable := .empty
  keyframes : NameTable := .empty
  fontFaces : NameTable := .empty
deriving DecidableEq, Inhabited

namespace Mapping

/-- The table of a category. -/
def table (mapping : Mapping) : Category → NameTable
  | .elements => mapping.elements
  | .classes => mapping.classes
  | .ids => mapping.ids
  | .keyframes => mapping.keyframes
  | .fontFaces => mapping.fontFaces

/-- The mapping with a name recorded in the table of its category. -/
def insert (mapping : Mapping) (category : Category) (name scopedName : Text) : Mapping :=
  match category with
  | .elements => { mapping with elements := mapping.elements.insert name scopedName }
  | .classes => { mapping with classes := mapping.classes.insert name scopedName }
  | .ids => { mapping with ids := mapping.ids.insert name scopedName }
  | .keyframes => { mapping with keyframes := mapping.keyframes.insert name scopedName }
  | .fontFaces => { mapping with fontFaces := mapping.fontFaces.insert name scopedName }

/-- The number of names recorded in all categories. -/
def size (mapping : Mapping) : Nat :=
  mapping.elements.size + mapping.classes.size + mapping.ids.size + mapping.keyframes.size +
    mapping.fontFaces.size

/-- Whether no name is recorded in any category. -/
def isEmpty (mapping : Mapping) : Bool :=
  mapping.elements.isEmpty && mapping.classes.isEmpty && mapping.ids.isEmpty &&
    mapping.keyframes.isEmpty && mapping.fontFaces.isEmpty

/-- Recording a name changes the table of its category and no other. -/
theorem table_insert (mapping : Mapping) (category other : Category) (name scopedName : Text) :
    (mapping.insert category name scopedName).table other =
      if other = category then (mapping.table category).insert name scopedName
      else mapping.table other := by
  cases category <;> cases other <;> rfl

end Mapping
end ScopedCss
