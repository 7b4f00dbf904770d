import Patchbay.Toml.Quoted
import Patchbay.Toml.Scalar
import Patchbay.Toml.Table

/-!
# Statements of TOML

A document is a sequence of lines, each of which assigns a value to a key, opens a table, opens
the next table of a series, or is empty; any of them may end with a comment.  Arrays may run over
several lines.
-/

namespace Patchbay.Toml

/-- A line of a document that says something. -/
inductive Statement where
  /-- An assignment, `path = value`. -/
  | assign (path : List String) (value : Datum)
  /-- The header of a table, `[path]`. -/
  | openTable (path : List String)
  /-- The header of the next table of a series, `[[path]]`. -/
  | openNext (path : List String)
  deriving BEq, Repr

/-- The depth at which arrays and inline tables, and keys with dots, are refused. -/
def nestingLimit : Nat := 80

/-! ## Blanks and comments -/

/-- What follows the spaces of a line. -/
def skipSpaces (s : List Char) : List Char := s.dropWhile isSpace

/-- What follows an optional comment and the end of the line. -/
def lineEnd? (s : List Char) : Option (List Char) :=
  let rest := match skipSpaces s with
    | '#' :: rest => rest.dropWhile (!isControl ·)
    | rest => rest
  match rest with
  | [] => some []
  | '\n' :: rest => some rest
  | '\r' :: '\n' :: rest => some rest
  | _ => none

/-- What follows blanks, line breaks and comments inside an array. -/
def skipFiller? : (comment : Bool) → List Char → Option (List Char)
  | _, [] => some []
  | comment, '\r' :: rest =>
    match rest with
    | '\n' :: rest => skipFiller? false rest
    | _ => if comment then none else some ('\r' :: rest)
  | comment, c :: rest =>
    if c = '\n' then skipFiller? false rest
    else if comment then if isControl c then none else skipFiller? true rest
    else if isSpace c then skipFiller? false rest
    else if c = '#' then skipFiller? true rest
    else some (c :: rest)

/-! ## Keys -/

/-- Keys with dots between them, and what follows.  Each key costs at least one character, which
is the fuel. -/
def path? : (fuel : Nat) → List Char → Option (List String × List Char)
  | 0, _ => none
  | fuel + 1, s => do
    let (key, rest) ← key? (skipSpaces s)
    match skipSpaces rest with
    | '.' :: rest => do
      let (path, rest) ← path? fuel rest
      some (String.ofList key :: path, rest)
    | rest => some ([String.ofList key], rest)

/-- The path of a statement, and what follows it. -/
def keyPath? (s : List Char) : Option (List String × List Char) := do
  let (path, rest) ← path? (s.length + 1) s
  if path.length < nestingLimit then some (path, rest) else none

/-! ## Values -/

mutual

/-- A value inside `depth` arrays and inline tables, and what follows it.  Every step takes fuel. -/
def value? : (fuel : Nat) → (depth : Nat) → List Char → Option (Datum × List Char)
  | 0, _, _ => none
  | fuel + 1, depth, s =>
    match s with
    | 't' :: 'r' :: 'u' :: 'e' :: rest => some (.bool true, rest)
    | 'f' :: 'a' :: 'l' :: 's' :: 'e' :: rest => some (.bool false, rest)
    | '[' :: rest =>
      if depth + 1 < nestingLimit then
        (items? fuel (depth + 1) rest).map fun (items, rest) => (.list items, rest)
      else none
    | '\x7b' :: rest =>
      if depth + 1 < nestingLimit then
        match skipSpaces rest with
        | '\x7d' :: rest => some (.table [], rest)
        | rest => do
          let (pairs, rest) ← pairs? fuel (depth + 1) rest
          some (← Members.ofPairs? pairs, rest)
      else none
    | '\x22' :: _ => (string? s).map fun (text, rest) => (.text (String.ofList text), rest)
    | '\x27' :: _ => (string? s).map fun (text, rest) => (.text (String.ofList text), rest)
    | s => scalar? s

/-- The items of an array up to its end. -/
def items? : (fuel : Nat) → (depth : Nat) → List Char → Option (List Datum × List Char)
  | 0, _, _ => none
  | fuel + 1, depth, s => do
    match ← skipFiller? false s with
    | ']' :: rest => some ([], rest)
    | s => do
      let (item, rest) ← value? fuel depth s
      match ← skipFiller? false rest with
      | ',' :: rest => do
        let (items, rest) ← items? fuel depth rest
        some (item :: items, rest)
      | ']' :: rest => some ([item], rest)
      | _ => none

/-- The pairs of an inline table up to its end. -/
def pairs? : (fuel : Nat) → (depth : Nat) → List Char →
    Option (List (List String × Datum) × List Char)
  | 0, _, _ => none
  | fuel + 1, depth, s => do
    let (path, rest) ← keyPath? s
    match rest with
    | '=' :: rest => do
      let (value, rest) ← value? fuel depth (skipSpaces rest)
      match skipSpaces rest with
      | ',' :: rest => do
        let (pairs, rest) ← pairs? fuel depth rest
        some ((path, value) :: pairs, rest)
      | '\x7d' :: rest => some ([(path, value)], rest)
      | _ => none
    | _ => none

end

/-! ## Statements -/

/-- An assignment, and what follows its line. -/
def assignment? (s : List Char) : Option (Statement × List Char) := do
  let (path, rest) ← keyPath? s
  let (value, rest) ← value? (2 * rest.length + 2) 0 (skipSpaces (← skip? '=' rest))
  some (.assign path value, ← lineEnd? rest)

/-- The statement of a line, if it has one, and what follows the line. -/
def line? (s : List Char) : Option (Option Statement × List Char) :=
  match skipSpaces s with
  | [] => some (none, [])
  | '\n' :: rest => some (none, rest)
  | '\r' :: rest => (skip? '\n' rest).map (none, ·)
  | '#' :: rest => (lineEnd? ('#' :: rest)).map (none, ·)
  | '[' :: '[' :: rest => do
    let (path, rest) ← keyPath? rest
    let rest ← skip? ']' (← skip? ']' rest)
    some (some (.openNext path), ← lineEnd? rest)
  | '[' :: rest => do
    let (path, rest) ← keyPath? rest
    let rest ← skip? ']' rest
    some (some (.openTable path), ← lineEnd? rest)
  | s => (assignment? s).map fun (statement, rest) => (some statement, rest)

/-- The statements of a text.  Each line costs at least one character, which is the fuel. -/
def statements? : (fuel : Nat) → List Char → Option (List Statement)
  | 0, s => if s.isEmpty then some [] else none
  | _, [] => some []
  | fuel + 1, s => do
    let (statement, rest) ← line? s
    let statements ← statements? fuel rest
    some (statement.toList ++ statements)

end Patchbay.Toml
