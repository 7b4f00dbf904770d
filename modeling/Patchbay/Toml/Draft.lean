import Patchbay.Toml.Quoted
import Patchbay.Toml.Scalar

/-!
# Drafts of TOML documents

A draft is a document that is to be written: assignments of texts and numbers, and after them
groups of tables with such assignments.  Each assignment is a line; each table begins with an
empty line and its header.  A group without tables is written as an empty table, so a document
shows every group of its draft.  `Draft.datum` is what a reader of the text should find.
-/

namespace Patchbay.Toml

/-- A value in a draft. -/
inductive DraftValue where
  | text (s : String)
  | number (x : Binary64)
  deriving DecidableEq, Repr

/-- Values assigned to keys. -/
abbrev Assignments := List (String × DraftValue)

/-- A document that is to be written. -/
structure Draft where
  assignments : Assignments
  /-- The tables of each group by their names in it. -/
  groups : List (String × List (String × Assignments))
  deriving DecidableEq, Repr

/-! ## Text -/

/-- The text of a value. -/
def DraftValue.chars : DraftValue → List Char
  | .text s => writeString s
  | .number x => writeNumber x

/-- A line for each assignment. -/
def assignmentLines (assignments : Assignments) : List Char :=
  assignments.flatMap fun a => writeKey a.1 ++ [' ', '=', ' '] ++ a.2.chars ++ ['\n']

/-- The header of a table, after an empty line. -/
def headerLines (path : List String) : List Char :=
  ['\n', '['] ++ ['.'].intercalate (path.map writeKey) ++ [']', '\n']

/-- The tables of a group. -/
def groupLines (name : String) : List (String × Assignments) → List Char
  | [] => headerLines [name]
  | tables => tables.flatMap fun t => headerLines [name, t.1] ++ assignmentLines t.2

namespace Draft

/-- The text of a draft. -/
def chars (d : Draft) : List Char :=
  assignmentLines d.assignments ++ d.groups.flatMap fun g => groupLines g.1 g.2

/-- The text of a draft. -/
def write (d : Draft) : String := String.ofList d.chars

end Draft

/-! ## Contents -/

/-- A value as a datum. -/
def DraftValue.datum : DraftValue → Datum
  | .text s => .text s
  | .number x => .number x

/-- Assignments as a table. -/
def assignedTable (assignments : Assignments) : List (String × Datum) :=
  assignments.map fun a => (a.1, a.2.datum)

/-- The document that a draft stands for. -/
def Draft.datum (d : Draft) : Datum :=
  .table (assignedTable d.assignments ++ d.groups.map fun g =>
    (g.1, .table (g.2.map fun t => (t.1, .table (assignedTable t.2)))))

end Patchbay.Toml
