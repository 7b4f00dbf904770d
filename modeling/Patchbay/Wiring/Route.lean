import Patchbay.Chain
import Patchbay.Config
import Patchbay.Wiring

/-!
# Routes through a wiring

Every position without inputs begins a route.  From there the walk is greedy: it goes on to the
first target, in the order of the connections, that no route contains yet, and ends where there is
none.  So every position is in at most one route.

A node with several targets is a *fork*.  At a fork of a route at most one target is followed; the
configuration decides whether that is reported or refused.  The routes themselves do not depend on
it.
-/

namespace Patchbay

namespace Wiring

/-- The positions that a position feeds, each once, in the order of the first connections. -/
def targets (w : Wiring) (position : Nat) : List Nat := (w.feeds position).eraseDups

/-- The greedy walk from a position, past the placed ones.  Each step places one more position, so
the number of positions is fuel enough. -/
def follow (w : Wiring) : (fuel : Nat) → (placed : List Nat) → (position : Nat) → List Nat
  | 0, _, p => [p]
  | fuel + 1, placed, p =>
    match (w.targets p).find? (!placed.contains ·) with
    | none => [p]
    | some next => p :: w.follow fuel (next :: placed) next

/-- The routes from roots in order, past the placed positions. -/
def routesFrom (w : Wiring) : (placed : List Nat) → (roots : List Nat) → List (List Nat)
  | _, [] => []
  | placed, root :: rest =>
    let route := w.follow w.size (root :: placed) root
    route :: w.routesFrom (route ++ placed) rest

/-- The routes of a wiring. -/
def routes (w : Wiring) : List (List Nat) := w.routesFrom [] w.roots

/-- The positions in no route. -/
def stranded (w : Wiring) : List Nat :=
  let placed := w.routes.flatten
  (List.range w.size).filter fun p => !placed.contains p

/-- The elements of a route, each with the one that follows it. -/
def stepsOf {α : Type} (route : List α) : List (α × Option α) :=
  route.zip (route.tail.map some ++ [none])

/-- The forks along the routes, each with the target that was followed. -/
def forks (w : Wiring) : List (Nat × Option Nat) :=
  (w.routes.flatMap stepsOf).filter fun s => 1 < (w.targets s.1).length

/-- The report of a fork. -/
def forkDiagnostic (w : Wiring) (fork : Nat × Option Nat) : Diagnostic :=
  .fanOut (w.id fork.1) (fork.2.map w.id)
    (((w.targets fork.1).filter (some · != fork.2)).map w.id)

/-- Reports every fork, or refuses the first one. -/
def checkForks (w : Wiring) (policy : FanOutPolicy) : Recorded Diagnostic Unit :=
  match policy, w.forks with
  | .warn, forks => .note (forks.map w.forkDiagnostic)
  | .reject, [] => pure ()
  | .reject, fork :: _ => .fail (.fanOut (w.id fork.1) ((w.targets fork.1).map w.id))

end Wiring

namespace Chain

/-- The properties of a head that are not its argument; they do not reach the code. -/
def droppedProperties (head : Step) : List String :=
  (head.properties.map (·.name)).filter (head.argument != some ·)

/-- What is to be said about the head of a chain. -/
def headDiagnostics (c : Chain) : List Diagnostic :=
  match c.head? with
  | none => []
  | some head =>
    (if head.isSource then [] else [.headNotSource head.id])
    ++ (if (droppedProperties head).isEmpty then []
      else [.headProperties head.id (droppedProperties head)])

/-- A report for each structural step with several inputs: those from outside its chain are not
merged into it. -/
def unmerged (w : Wiring) (c : Chain) : List Diagnostic :=
  (c.steps.filter fun s => s.isStructural && decide (1 < w.inputsOf s.id)).map fun s =>
    .unmerged s.id (w.inputsOf s.id)

end Chain

namespace Wiring

/-- The chain of a route. -/
def chainOf (w : Wiring) (schema : Schema) (config : Config) (route : List Nat) :
    Recorded Diagnostic Chain := do
  let steps ← (route.filterMap w.node?).mapM (Step.resolve schema config.patternKey)
  Recorded.note (Chain.headDiagnostics ⟨steps⟩)
  pure ⟨steps⟩

/-- The chains of a wiring, one for each route. -/
def chains (w : Wiring) (schema : Schema) (config : Config) : Recorded Diagnostic (List Chain) := do
  w.checkForks config.fanOut
  Recorded.note (w.stranded.map fun p => .stranded (w.id p))
  w.routes.mapM (w.chainOf schema config)

end Wiring

end Patchbay
