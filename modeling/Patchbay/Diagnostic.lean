import Patchbay.Datum.Shape

/-!
# Diagnostics

Conditions from which the compilation recovers.  They tell which parts of a patch are not in the
code as they were drawn, and never decide whether a patch compiles.
-/

namespace Patchbay

/-- A condition that was recovered from. -/
inductive Diagnostic where
  /-- The type of a node is not in the schema. -/
  | unknownType (node type : String)
  /-- An end of a connection names no node. -/
  | dangling (source target : String)
  /-- A node feeds several targets, of which at most one was followed. -/
  | fanOut (node : String) (followed : Option String) (skipped : List String)
  /-- A connected node is in no chain. -/
  | stranded (node : String)
  /-- A chain begins with a node that is no source. -/
  | headNotSource (node : String)
  /-- A structural node has inputs from outside its chain. -/
  | unmerged (node : String) (inputs : Nat)
  /-- Properties of the head of a chain that are not its argument. -/
  | headProperties (node : String) (properties : List String)
  deriving DecidableEq, Repr

namespace Diagnostic

/-- The wording of a diagnostic. -/
def message : Diagnostic → String
  | unknownType node type =>
    "Node '" ++ node ++ "' has unknown type '" ++ type ++ "'; using default stage"
  | dangling source target =>
    "Ignoring connection " ++ source ++ " -> " ++ target ++ ": endpoint not in graph"
  | fanOut node (some followed) skipped =>
    "Node '" ++ node ++ "' fans out; followed '" ++ followed ++ "', skipped "
      ++ ", ".intercalate skipped
  | fanOut node none skipped =>
    "Node '" ++ node ++ "' fans out; all targets already linearized ("
      ++ ", ".intercalate skipped ++ ")"
  | stranded node => "Node '" ++ node ++ "' is not reachable along any chain"
  | headNotSource node => "Chain starts at '" ++ node ++ "', which is not a source node"
  | unmerged node inputs =>
    "Structural node '" ++ node ++ "' has " ++ toString inputs
      ++ " inputs; only its own chain is rendered"
  | headProperties node properties =>
    "Chain head '" ++ node ++ "' renders only its argument; dropped " ++ ", ".intercalate properties

/-- A diagnostic in JSON, tagged with its kind. -/
def toJson : Diagnostic → Json
  | unknownType node type =>
    .object [("kind", .text "schemaLookupMissing"), ("node", .text node), ("node_type", .text type)]
  | dangling source target =>
    .object [("kind", .text "danglingConnection"), ("source", .text source),
      ("target", .text target)]
  | fanOut node followed skipped =>
    .object [("kind", .text "fanOut"), ("node", .text node), ("followed", .ofText? followed),
      ("skipped", .ofTexts skipped)]
  | stranded node => .object [("kind", .text "strandedNode"), ("node", .text node)]
  | headNotSource node => .object [("kind", .text "headNotSource"), ("node", .text node)]
  | unmerged node inputs =>
    .object [("kind", .text "unmergedInputs"), ("node", .text node), ("inputs", .ofNat inputs)]
  | headProperties node properties =>
    .object [("kind", .text "headPropertiesDropped"), ("node", .text node),
      ("properties", .ofTexts properties)]

/-- Reads the fields of a diagnostic of the given kind. -/
def decodeKind : String → Decoder Diagnostic
  | "schemaLookupMissing", dialect, d => do
    let r ← Record.of? ["node", "node_type"] dialect d
    some (.unknownType (← r.required "node" Datum.text?) (← r.required "node_type" Datum.text?))
  | "danglingConnection", dialect, d => do
    let r ← Record.of? ["source", "target"] dialect d
    some (.dangling (← r.required "source" Datum.text?) (← r.required "target" Datum.text?))
  | "fanOut", dialect, d => do
    let r ← Record.of? ["node", "followed", "skipped"] dialect d
    some (.fanOut (← r.required "node" Datum.text?) (← r.nullable "followed" Datum.text?)
      (← r.required "skipped" (Datum.list? Datum.text?)))
  | "strandedNode", dialect, d => do
    let r ← Record.of? ["node"] dialect d
    some (.stranded (← r.required "node" Datum.text?))
  | "headNotSource", dialect, d => do
    let r ← Record.of? ["node"] dialect d
    some (.headNotSource (← r.required "node" Datum.text?))
  | "unmergedInputs", dialect, d => do
    let r ← Record.of? ["node", "inputs"] dialect d
    some (.unmerged (← r.required "node" Datum.text?) (← r.required "inputs" Datum.count?))
  | "headPropertiesDropped", dialect, d => do
    let r ← Record.of? ["node", "properties"] dialect d
    some (.headProperties (← r.required "node" Datum.text?)
      (← r.required "properties" (Datum.list? Datum.text?)))
  | _, _, _ => none

/-- Reads a diagnostic. -/
def decode : Decoder Diagnostic := fun _ d =>
  d.kinded?.bind fun (kind, fields) => decodeKind kind .tagged fields

end Diagnostic

end Patchbay
