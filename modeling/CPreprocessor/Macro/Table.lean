import CPreprocessor.Fault
import CPreprocessor.Macro.Definition

/-!
# Macro tables

The definitions in force, in the order in which their names were first defined. A definition that
replaces another one takes its place.
-/

namespace CPreprocessor.Macro

/-- The definitions in force. -/
structure Table where
  entries : List Definition
deriving DecidableEq

namespace Table

instance : EmptyCollection Table := ⟨⟨[]⟩⟩

instance : Inhabited Table := ⟨∅⟩

/-- The definition of a name. -/
def find? (table : Table) (name : String) : Option Definition :=
  table.entries.find? (·.name = name)

/-- Whether a name is defined. -/
def contains (table : Table) (name : String) : Bool := (table.find? name).isSome

/-- The number of definitions. -/
def size (table : Table) : Nat := table.entries.length

/-- The defined names, in order. -/
def names (table : Table) : List String := table.entries.map Definition.name

/-- Puts a definition in the place of the one of the same name, or else at the end. -/
def place (definition : Definition) : List Definition → List Definition
  | [] => [definition]
  | head :: tail =>
    if head.name = definition.name then definition :: tail else head :: place definition tail

/-- Defines a name, whatever it stood for. -/
def install (table : Table) (definition : Definition) : Table :=
  ⟨place definition table.entries⟩

/-- Forgets a name. -/
def erase (table : Table) (name : String) : Table := ⟨table.entries.filter (·.name ≠ name)⟩

/-- Defines a name that is free. A second definition is ignored if it agrees with the first, and is
a conflict otherwise. -/
def define (table : Table) (definition : Definition) : Except Issue Table :=
  match table.find? definition.name with
  | none => .ok (table.install definition)
  | some existing =>
    if existing.isEquivalent definition then .ok table
    else
      .error (.placed (.redefinition definition.name existing.position) definition.position)

/-- All definitions, one a line, in the order of their names. -/
def dump (table : Table) : List String :=
  (table.entries.mergeSort fun left right => left.name ≤ right.name).map Definition.render

theorem name_of_find? {table : Table} {name : String} {definition : Definition}
    (h : table.find? name = some definition) : definition.name = name := by
  simpa using List.find?_some h

theorem mem_of_find? {table : Table} {name : String} {definition : Definition}
    (h : table.find? name = some definition) : definition ∈ table.entries :=
  List.mem_of_find?_eq_some h

end Table

end CPreprocessor.Macro
