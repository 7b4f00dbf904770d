import Patchbay.Failure

/-!
# Patch graphs

A patch is a list of nodes, each with the name of its type and with properties of any kind, and a
list of connections between node ids. The order of both lists is the order of their placement.
Of a node's properties only one matters here, an object of pattern properties under a key that the
configuration names.
-/

namespace Patchbay

/-- A node of a patch. -/
structure Node where
  id : String
  type : String
  properties : Dictionary Json := .empty
  deriving Repr

/-- A connection from the output of one node to the input of another. -/
structure Connection where
  source : String
  target : String
  deriving DecidableEq, Repr

/-- A patch. -/
structure Graph where
  nodes : List Node := []
  connections : List Connection := []
  deriving Repr

namespace Node

/-- The key under which editors store pattern properties. -/
def standardKey : String := "pattern"

/-- The pattern properties among the members of an object, in the order of their names; of members
with one name the last counts. -/
def propertiesOf (node : Node) (members : List (String × Json)) : Except Failure (List Property) :=
  (Dictionary.ofList members).entries.mapM fun (name, raw) =>
    match Value.ofJson? raw with
    | some value => .ok ⟨name, value⟩
    | none => .error (.malformed node.id name (.notPrimitive raw.kindName))

/-- The pattern properties stored under a key.  A node without that key has none. -/
def patternProperties (node : Node) (key : String) : Except Failure (List Property) :=
  match node.properties.get? key with
  | none => .ok []
  | some (.object members) => node.propertiesOf members
  | some other => .error (.malformed node.id key (.notTable other.kindName))

/-- Sets a pattern property under the standard key.  If something other than an object is stored
there, nothing happens. -/
def setProperty (node : Node) (name : String) (value : Json) : Node :=
  match node.properties.get? standardKey with
  | none => { node with properties := node.properties.insert standardKey (.object [(name, value)]) }
  | some (.object members) =>
    let members := ((Dictionary.ofList members).insert name value).entries
    { node with properties := node.properties.insert standardKey (.object members) }
  | some _ => node

/-- Reads a node. -/
def decode : Decoder Node := fun dialect d => do
  let r ← Record.of? ["id", "type", "properties"] dialect d
  let json : Decoder Json := fun _ d => d.toJson?
  some {
    id := ← r.required "id" Datum.text?
    type := ← r.required "type" Datum.text?
    properties := ← r.withDefault "properties" (Datum.dictionary? json) .empty }

/-- A node in JSON. -/
def toJson (node : Node) : Json :=
  .object [("id", .text node.id), ("type", .text node.type),
    ("properties", .object node.properties.entries)]

end Node

namespace Connection

/-- Reads a connection; each end has two names in use. -/
def decode : Decoder Connection := fun dialect d => do
  let r ← Record.ofNames? [["source", "sourceNodeId"], ["target", "targetNodeId"]] dialect d
  some ⟨← r.required "source" Datum.text?, ← r.required "target" Datum.text?⟩

/-- A connection in JSON. -/
def toJson (c : Connection) : Json :=
  .object [("source", .text c.source), ("target", .text c.target)]

end Connection

namespace Graph

/-- The ids of the nodes, in order. -/
def ids (g : Graph) : List String := g.nodes.map (·.id)

/-- The patch with one more node. -/
def addNode (g : Graph) (node : Node) : Graph := { g with nodes := g.nodes ++ [node] }

/-- The patch with one more connection. -/
def connect (g : Graph) (source target : String) : Graph :=
  { g with connections := g.connections ++ [⟨source, target⟩] }

/-- The patch with each id connected to the next one. -/
def connectAll (g : Graph) (ids : List String) : Graph :=
  { g with connections := g.connections ++ ids.zipWith Connection.mk ids.tail }

/-- Reads a patch. -/
def decode : Decoder Graph := fun dialect d => do
  let r ← Record.of? ["nodes", "connections"] dialect d
  some {
    nodes := ← r.withDefault "nodes" (Datum.list? Node.decode) []
    connections := ← r.withDefault "connections" (Datum.list? Connection.decode) [] }

/-- A patch in JSON. -/
def toJson (g : Graph) : Json :=
  .object [("nodes", .array (g.nodes.map Node.toJson)),
    ("connections", .array (g.connections.map Connection.toJson))]

end Graph

end Patchbay
