import Patchbay.Toml.Statement

/-!
# Reading TOML

`Toml.read?` accepts the documents of TOML 1.0 and gives the table that a document writes.
-/

namespace Patchbay.Toml

/-- A document that is being put together: its tables, and the path of the one that was opened
last. -/
structure Assembly where
  root : Members
  current : List String

namespace Assembly

/-- The document before its first statement. -/
def empty : Assembly := ⟨[], []⟩

/-- Carries out a statement. -/
def step (a : Assembly) : Statement → Option Assembly
  | .assign path value =>
    (Members.changeAt (Members.assign value path) a.current a.root).map fun root =>
      { a with root := root }
  | .openTable path =>
    (Members.changeAt (Members.openTable (path.getLastD "")) path.dropLast a.root).map fun root =>
      ⟨root, path⟩
  | .openNext path =>
    (Members.changeAt (Members.openNext (path.getLastD "")) path.dropLast a.root).map fun root =>
      ⟨root, path⟩

end Assembly

/-- The table that statements write. -/
def assemble? (statements : List Statement) : Option Datum :=
  (statements.foldlM Assembly.step Assembly.empty).map fun a => .table (Members.data a.root)

/-- A text without the mark of its byte order. -/
def withoutMark : List Char → List Char
  | '\uFEFF' :: rest => rest
  | s => s

/-- The table that a document writes. -/
def read? (text : String) : Option Datum := do
  let s := withoutMark text.toList
  assemble? (← statements? (s.length + 1) s)

end Patchbay.Toml
