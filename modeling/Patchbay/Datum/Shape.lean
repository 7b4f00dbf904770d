import Patchbay.Datum

/-!
# Shapes of data

Records, choices, lists and dictionaries are read from a `Datum` by decoders.  A decoder says
nothing about why it fails; the document is then of the wrong shape.

* A record is a table, or a list of its fields in the order of their declaration (`Record`).
  Fields that are not declared are passed over; a declared field, under whichever of its names,
  occurs once.
* A choice without data is its name, or a table whose only member has that name and no content.
* A tagged record is a table with a member `kind`, or a list that begins with the kind.

Formats differ in small ways, which a `Dialect` names.
-/

namespace Patchbay

/-- What formats disagree about. -/
structure Dialect where
  /-- The content that stands for none. -/
  isBlank : Datum → Bool
  /-- A list that stands for a record has no more items than the record has fields. -/
  exactLists : Bool

namespace Dialect

/-- JSON text and JSON values: `null` is no content. -/
def json : Dialect := ⟨fun d => match d with | .null => true | _ => false, true⟩

/-- The contents of a tagged record in JSON, where an empty table is no content either. -/
def tagged : Dialect := ⟨fun d => match d with | .null | .table [] => true | _ => false, true⟩

/-- TOML, which has no `null`: an empty table or list is no content, and surplus items of a list
that stands for a record are passed over. -/
def toml : Dialect := ⟨fun d => match d with | .table [] | .list [] => true | _ => false, false⟩

end Dialect

/-- A reader of values of one type. -/
abbrev Decoder (α : Type) := Dialect → Datum → Option α

namespace Datum

variable {α : Type}

/-! ## Plain data -/

/-- A text. -/
def text? : Decoder String
  | _, .text s => some s
  | _, _ => none

/-- A truth value. -/
def bool? : Decoder Bool
  | _, .bool b => some b
  | _, _ => none

/-- A number; an integer counts as the number nearest to it. -/
def number? : Decoder Binary64
  | _, .number x => some x
  | _, .integer n => some (.ofInt n)
  | _, _ => none

/-- A count, which is an integer that is not negative. -/
def count? : Decoder Nat
  | _, .integer n => if 0 ≤ n then some n.toNat else none
  | _, _ => none

/-- A list of values of one type. -/
def list? (item : Decoder α) : Decoder (List α)
  | dialect, .list items => items.mapM (item dialect)
  | _, _ => none

/-- A table of values of one type.  Every member is read; of those with one key the last remains. -/
def dictionary? (value : Decoder α) : Decoder (Dictionary α)
  | dialect, .table members =>
    (members.mapM fun m => (value dialect m.2).map (m.1, ·)).map Dictionary.ofList
  | _, _ => none

/-- The name of a choice without data. -/
def choice? : Decoder String
  | _, .text s => some s
  | dialect, .table [(name, content)] => if dialect.isBlank content then some name else none
  | _, _ => none

end Datum

/-! ## Records -/

/-- The fields found of a record, by the first of each field's names. -/
structure Record where
  dialect : Dialect
  /-- The record was written as a list. -/
  listed : Bool
  found : List (String × Datum)

namespace Record

variable {α : Type}

/-- The members of a table that belong to declared fields; none if a field occurs twice. -/
def collect (fields : List (List String)) :
    List (String × Datum) → List (String × Datum) → Option (List (String × Datum))
  | found, [] => some found
  | found, (key, value) :: rest =>
    match fields.find? (·.contains key) with
    | none => collect fields found rest
    | some names =>
      let name := names.headD key
      if (found.lookup name).isSome then none else collect fields (found ++ [(name, value)]) rest

/-- Reads a record whose fields may have several names each. -/
def ofNames? (fields : List (List String)) (dialect : Dialect) : Datum → Option Record
  | .table members => (collect fields [] members).map fun found => ⟨dialect, false, found⟩
  | .list items =>
    if dialect.exactLists && fields.length < items.length then none
    else some ⟨dialect, true, (fields.map (·.headD "")).zip items⟩
  | _ => none

/-- Reads a record whose fields have one name each. -/
def of? (fields : List String) (dialect : Dialect) (d : Datum) : Option Record :=
  ofNames? (fields.map ([·])) dialect d

/-- A field that is always present. -/
def required (r : Record) (name : String) (value : Decoder α) : Option α :=
  (r.found.lookup name).bind (value r.dialect)

/-- A field that may be absent and then has a standard value. -/
def withDefault (r : Record) (name : String) (value : Decoder α) (standard : α) : Option α :=
  match r.found.lookup name with
  | none => some standard
  | some d => value r.dialect d

/-- A field that may be absent, or `null`. -/
def optional (r : Record) (name : String) (value : Decoder α) : Option (Option α) :=
  match r.found.lookup name with
  | none => some none
  | some .null => some none
  | some d => (value r.dialect d).map some

/-- A field that may be `null`, and absent as well unless the record is a list. -/
def nullable (r : Record) (name : String) (value : Decoder α) : Option (Option α) :=
  match r.found.lookup name with
  | none => if r.listed then none else some none
  | some .null => some none
  | some d => (value r.dialect d).map some

end Record

namespace Datum

/-- The kind of a tagged record, and the record without it.  Its contents are read as a whole, so
all of them have to be readable. -/
def kinded? : Datum → Option (String × Datum)
  | .table members =>
    if membersAreReadable members then
      match members.filter (·.1 == "kind") with
      | [(_, .text kind)] => some (kind, .table (members.filter (·.1 != "kind")))
      | _ => none
    else none
  | .list (.text kind :: rest) => if areReadable rest then some (kind, .list rest) else none
  | _ => none

end Datum

end Patchbay
