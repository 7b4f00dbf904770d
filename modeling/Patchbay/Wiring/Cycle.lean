import Patchbay.Recorded
import Patchbay.Wiring

/-!
# Cycles of a wiring

The search is depth first.  It starts at every position in order and takes the connections out of
a node from the last to the first.  A position is *open* while the search is below it and
*finished* when all below it has been searched; a connection to an open position closes a cycle,
and the first one met names it.
-/

namespace Patchbay.Wiring

/-- Searches below the positions `next` in order, with the positions of the trail open: the
finished positions, or the open position that a connection leads back to.  Each level opens one
more position, so the number of positions, plus one, is fuel enough. -/
def search (w : Wiring) :
    (fuel : Nat) → (trail finished next : List Nat) → Except Nat (List Nat)
  | 0, _, finished, _ => .ok finished
  | fuel + 1, trail, finished, next =>
    next.foldlM (fun finished p =>
      if finished.contains p then .ok finished
      else if trail.contains p then .error p
      else do
        let finished ← w.search fuel (p :: trail) finished (w.feeds p).reverse
        .ok (p :: finished)) finished

/-- The position at which the first cycle met by the search closes. -/
def cycle? (w : Wiring) : Option Nat :=
  match w.search (w.size + 1) [] [] (List.range w.size) with
  | .ok _ => none
  | .error p => some p

end Patchbay.Wiring

namespace Patchbay.Graph

/-- The wiring of a patch whose ids are distinct and whose connections form no cycle.  Connections
with an end that names no node are reported. -/
def wire (g : Graph) : Recorded Diagnostic Wiring :=
  match firstRepeated [] g.ids with
  | some id => .fail (.duplicate id)
  | none => do
    Recorded.note (g.dangling.map fun c => .dangling c.source c.target)
    match g.wiring.cycle? with
    | some p => .fail (.cycle (g.wiring.id p))
    | none => pure g.wiring

end Patchbay.Graph
