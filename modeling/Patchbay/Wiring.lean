import Patchbay.Diagnostic
import Patchbay.Patch.Graph

/-!
# The wiring of a patch

The nodes that are connected to anything, and the connections between them.  A connection with an
end that names no node does not count, and a node without a connection that counts is left out.

The kept nodes are numbered by their *position* among themselves, in the order of the patch; the
connections out of a node keep the order of the patch as well, repetitions included.
-/

namespace Patchbay

namespace Graph

/-- The first id that occurs before in a list, if one does. -/
def firstRepeated (seen : List String) : List String → Option String
  | [] => none
  | id :: rest => if seen.contains id then some id else firstRepeated (id :: seen) rest

/-- The index of the node with an id. -/
def index? (g : Graph) (id : String) : Option Nat := g.ids.idxOf? id

/-- The ends of a connection by index, if both name a node. -/
def link? (g : Graph) (c : Connection) : Option (Nat × Nat) := do
  some (← g.index? c.source, ← g.index? c.target)

/-- The connections that count, by the indices of their ends. -/
def links (g : Graph) : List (Nat × Nat) := g.connections.filterMap g.link?

/-- The connections that do not count. -/
def dangling (g : Graph) : List Connection := g.connections.filter fun c => (g.link? c).isNone

/-- The indices of the nodes at an end of a connection that counts. -/
def connected (g : Graph) : List Nat :=
  let links := g.links
  (List.range g.nodes.length).filter fun i => links.any fun l => l.1 == i || l.2 == i

end Graph

/-- The connected part of a patch. -/
structure Wiring where
  graph : Graph
  /-- The indices of the kept nodes. -/
  nodes : List Nat
  /-- The positions that each kept node feeds, in the order of the connections. -/
  outgoing : List (List Nat)
  /-- The number of connections into each kept node. -/
  incoming : List Nat

namespace Wiring

/-- The number of kept nodes. -/
def size (w : Wiring) : Nat := w.nodes.length

/-- The node at a position. -/
def node? (w : Wiring) (position : Nat) : Option Node :=
  w.nodes[position]?.bind fun index => w.graph.nodes[index]?

/-- The id of the node at a position. -/
def id (w : Wiring) (position : Nat) : String := ((w.node? position).map (·.id)).getD ""

/-- The positions that the node at a position feeds, as often as it does. -/
def feeds (w : Wiring) (position : Nat) : List Nat := w.outgoing[position]?.getD []

/-- The number of connections into the node at a position. -/
def inputs (w : Wiring) (position : Nat) : Nat := w.incoming[position]?.getD 0

/-- The positions without a connection into them. -/
def roots (w : Wiring) : List Nat := (List.range w.size).filter fun p => w.inputs p == 0

/-- The number of connections into the node with an id; none if it is not kept. -/
def inputsOf (w : Wiring) (id : String) : Nat :=
  (((List.range w.size).find? fun p => w.id p == id).map w.inputs).getD 0

end Wiring

namespace Graph

/-- The connected part of a patch, whether or not its ids are distinct and its connections free of
cycles. -/
def wiring (g : Graph) : Wiring :=
  let kept := g.connected
  let links := g.links.map fun l => (kept.idxOf l.1, kept.idxOf l.2)
  { graph := g
    nodes := kept
    outgoing := (List.range kept.length).map fun p => (links.filter (·.1 == p)).map (·.2)
    incoming := (List.range kept.length).map fun p => links.countP (·.2 == p) }

end Graph

end Patchbay
