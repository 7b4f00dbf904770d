import Patchbay.Config
import Patchbay.Json.Reader
import Patchbay.Patch.Graph
import Patchbay.Schema
import Patchbay.Toml

/-!
# Documents

Schemas and configurations are documents in TOML or JSON.  The name of a file says which; without
an extension, and where a document comes without a name, TOML is tried first and JSON after it.  A
file is read before its name is looked at, so that a missing file is reported as missing whatever
it is called.
-/

namespace Patchbay

/-- Why the contents of a file cannot be had as text. -/
inductive ReadFault where
  | notFound
  | isDirectory
  /-- The bytes of the file are no UTF-8. -/
  | notText
  /-- Another reason, in words. -/
  | other (message : String)
  deriving DecidableEq, Repr

namespace ReadFault

/-- The wording of a fault. -/
def message : ReadFault → String
  | notFound => "No such file or directory (os error 2)"
  | isDirectory => "Is a directory (os error 21)"
  | notText => "stream did not contain valid UTF-8"
  | other message => message

end ReadFault

/-- Why a text is not the document that is wanted. -/
inductive Misfit where
  | notToml
  | notJson
  | neither
  /-- Another reason, in words. -/
  | other (message : String)
  deriving DecidableEq, Repr

namespace Misfit

/-- The wording of a misfit. -/
def message : Misfit → String
  | notToml => "unexpected contents of a TOML document"
  | notJson => "unexpected contents of a JSON document"
  | neither => "not TOML (unexpected contents) nor JSON (unexpected contents)"
  | other message => message

end Misfit

/-- Why a document cannot be loaded. -/
inductive LoadFailure where
  /-- The file cannot be read. -/
  | unreadable (fault : ReadFault)
  /-- The text is not the document that is wanted; it came from the file of this name, if from
  one. -/
  | misfit (path : Option String) (cause : Misfit)
  /-- The extension of the file is that of no known format. -/
  | unsupported (path : String)
  deriving DecidableEq, Repr

namespace LoadFailure

/-- The wording of a failure to load. -/
def message : LoadFailure → String
  | unreadable fault => "IO error: " ++ fault.message
  | misfit (some path) cause => "Failed to parse " ++ path ++ ": " ++ cause.message
  | misfit none cause => "Failed to parse configuration: " ++ cause.message
  | unsupported path =>
    "Unsupported configuration format: " ++ path ++ " (expected .toml or .json)"

/-- The failure was caused by another one, of reading. -/
def hasCause : LoadFailure → Bool
  | unreadable _ => true
  | _ => false

end LoadFailure

namespace Document

variable {α : Type}

/-! ## Texts -/

/-- Reads a TOML text. -/
def ofToml? (decode : Decoder α) (text : String) : Option α :=
  (Toml.read? text).bind (decode .toml)

/-- Reads a JSON text. -/
def ofJson? (decode : Decoder α) (text : String) : Option α :=
  (Json.read? text).bind (decode .json)

/-- Reads a text in either format; the file it came from is only named in a failure. -/
def sniff (decode : Decoder α) (path : Option String) (text : String) : Except LoadFailure α :=
  match ofToml? decode text with
  | some a => .ok a
  | none =>
    match ofJson? decode text with
    | some a => .ok a
    | none => .error (.misfit path .neither)

/-! ## Files -/

/-- The parts of a path between its slashes. -/
def pathParts (path : List Char) : List (List Char) :=
  path.foldr (fun c parts =>
    if c = '/' then [] :: parts else (c :: parts.headD []) :: parts.tail) [[]]

/-- The last part of a path that leads somewhere, if it is a name. -/
def fileName? (path : List Char) : Option (List Char) :=
  ((pathParts path).filter fun part => part != [] && part != ['.']).getLast?.filter
    (· != ['.', '.'])

/-- The extension of a path: what follows the last dot of its file name, unless that name has no
dot or begins with its only one. -/
def extension? (path : String) : Option String := do
  let name ← fileName? path.toList
  let after := name.reverse.takeWhile (· != '.')
  if after.length + 1 < name.length then some (String.ofList after.reverse) else none

/-- Loads a document from the contents of a file, by the extension of its path. -/
def load (decode : Decoder α) (path : String) (content : Except ReadFault String) :
    Except LoadFailure α :=
  match content with
  | .error fault => .error (.unreadable fault)
  | .ok text =>
    match extension? path with
    | none => sniff decode (some path) text
    | some "toml" => (ofToml? decode text).elim (.error (.misfit (some path) .notToml)) .ok
    | some "json" => (ofJson? decode text).elim (.error (.misfit (some path) .notJson)) .ok
    | some _ => .error (.unsupported path)

end Document

namespace Config

/-- Reads a configuration from a text in either format. -/
def parse (text : String) : Except LoadFailure Config := Document.sniff decode none text

/-- Loads a configuration from the contents of a file. -/
def load (path : String) (content : Except ReadFault String) : Except LoadFailure Config :=
  Document.load decode path content

end Config

namespace Schema

/-- Reads a schema from a text in either format; the ids of its types stay as they are written. -/
def parse (text : String) : Except LoadFailure Schema := Document.sniff decode none text

/-- Loads a schema from the contents of a file. -/
def load (path : String) (content : Except ReadFault String) : Except LoadFailure Schema :=
  (Document.load decode path content).map nameTypes

/-- Reads a schema from JSON text. -/
def ofJsonText? (text : String) : Option Schema := (Document.ofJson? decode text).map nameTypes

end Schema

namespace Graph

/-- Reads a patch from JSON text. -/
def ofJsonText? (text : String) : Option Graph := Document.ofJson? decode text

/-- Loads a patch from the contents of a file, which is JSON whatever its name. -/
def load (path : String) (content : Except ReadFault String) : Except LoadFailure Graph :=
  match content with
  | .error fault => .error (.unreadable fault)
  | .ok text => (ofJsonText? text).elim (.error (.misfit (some path) .notJson)) .ok

end Graph

end Patchbay
