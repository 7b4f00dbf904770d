import Patchbay.Datum

/-!
# Tables of TOML

The tables of a document are put together from its statements one by one.  How a table came to be
decides what may be added to it: one that was opened by its own name takes nothing by dotted keys
from outside and is not opened again; one that is only implied by the name of a table inside it
may still be opened; one that dotted keys made takes more of these.
-/

namespace Patchbay.Toml

/-- How a table came to be. -/
inductive Origin where
  /-- It was opened by its name. -/
  | opened
  /-- A table inside it was opened. -/
  | implied
  /-- A key inside it was assigned by a dotted key. -/
  | dotted
  deriving DecidableEq, Repr

/-- A part of a document that is being put together. -/
inductive Branch where
  | leaf (value : Datum)
  | table (origin : Origin) (members : List (String × Branch))
  /-- A series of tables, of which the last one is open. -/
  | series (earlier : List (List (String × Branch))) (last : List (String × Branch))

/-- The members of a table that is being put together. -/
abbrev Members := List (String × Branch)

namespace Members

/-- Puts a member in the place of one with its key, or at the end. -/
def put (key : String) (branch : Branch) : Members → Members
  | [] => [(key, branch)]
  | (k, b) :: rest => if k = key then (k, branch) :: rest else (k, b) :: put key branch rest

/-- Changes the table at a path.  Tables on the way that are missing are implied; of a series the
last table is meant. -/
def changeAt (change : Members → Option Members) :
    (path : List String) → Members → Option Members
  | [], members => change members
  | key :: path, members =>
    match members.lookup key with
    | none => (changeAt change path []).map fun inner => put key (.table .implied inner) members
    | some (.table origin inner) =>
      (changeAt change path inner).map fun inner => put key (.table origin inner) members
    | some (.series earlier last) =>
      (changeAt change path last).map fun last => put key (.series earlier last) members
    | some (.leaf _) => none

/-- Opens a table: a new one, or one that was implied. -/
def openTable (key : String) (members : Members) : Option Members :=
  match members.lookup key with
  | none => some (put key (.table .opened []) members)
  | some (.table .implied inner) => some (put key (.table .opened inner) members)
  | some _ => none

/-- Opens the next table of a series. -/
def openNext (key : String) (members : Members) : Option Members :=
  match members.lookup key with
  | none => some (put key (.series [] []) members)
  | some (.series earlier last) => some (put key (.series (earlier ++ [last]) []) members)
  | some _ => none

/-- Assigns a value to a key that is still free.  A dotted key goes through tables that were not
opened by their names, and ends in one that dotted keys made. -/
def assign (value : Datum) : (path : List String) → Members → Option Members
  | [], _ => none
  | [key], members =>
    match members.lookup key with
    | none => some (put key (.leaf value) members)
    | some _ => none
  | key :: next :: path, members =>
    match members.lookup key with
    | none =>
      (assign value (next :: path) []).map fun inner => put key (.table .dotted inner) members
    | some (.table .dotted inner) =>
      (assign value (next :: path) inner).map fun inner => put key (.table .dotted inner) members
    | some (.table .implied inner) =>
      if path.isEmpty then none
      else (assign value (next :: path) inner).map fun inner =>
        put key (.table .implied inner) members
    | some (.series earlier last) =>
      if path.isEmpty then none
      else (assign value (next :: path) last).map fun last => put key (.series earlier last) members
    | some (.table .opened _) => none
    | some (.leaf _) => none

end Members

mutual

/-- A finished part of a document. -/
def Branch.datum : Branch → Datum
  | .leaf value => value
  | .table _ members => .table (Members.data members)
  | .series earlier last => .list (Members.tables earlier ++ [.table (Members.data last)])

/-- The finished members of a table. -/
def Members.data : List (String × Branch) → List (String × Datum)
  | [] => []
  | (key, branch) :: rest => (key, branch.datum) :: Members.data rest

/-- The finished tables of a series. -/
def Members.tables : List (List (String × Branch)) → List Datum
  | [] => []
  | members :: rest => .table (Members.data members) :: Members.tables rest

end

/-- The table of an inline table's pairs. -/
def Members.ofPairs? (pairs : List (List String × Datum)) : Option Datum :=
  (pairs.foldlM (fun members pair => Members.assign pair.2 pair.1 members) []).map fun members =>
    .table (Members.data members)

end Patchbay.Toml
