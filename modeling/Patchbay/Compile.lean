import Patchbay.Chain.Arrange
import Patchbay.Chain.FoldRun
import Patchbay.Pattern
import Patchbay.Wiring.Cycle
import Patchbay.Wiring.Route

/-!
# Compiling a patch

From a patch to its code: the wiring, its chains, the order of their effects, their folds, and the
expressions of what remains.
-/

namespace Patchbay

/-- A compiled patch. -/
structure Compiled where
  code : String
  chains : List Arrangement
  /-- The number of chains found in the patch. -/
  inputChains : Nat
  /-- The names that matched a rule of the table, in the order in which they were met. -/
  rulesApplied : List String
  diagnostics : List Diagnostic
  deriving DecidableEq, Repr

namespace Graph

/-- The chains of a patch, as they are drawn. -/
def drawn (schema : Schema) (config : Config) (g : Graph) : Recorded Diagnostic (List Chain) := do
  let wiring ← g.wire
  let chains ← wiring.chains schema config
  Recorded.note (chains.flatMap (Chain.unmerged wiring))
  pure chains

/-- The chains of a patch, arranged and folded. -/
def folded (config : Config) (chains : List Chain) : Recorded String (List Arrangement) :=
  chains.mapM fun c => c.arrange.fold config

/-- Compiles a patch. -/
def compile (schema : Schema) (config : Config) (g : Graph) : Except Failure Compiled := do
  let drawn := g.drawn schema config
  let chains ← drawn.outcome
  let folded := folded config chains
  let arrangements ← folded.outcome
  .ok {
    code := Pattern.code arrangements
    chains := arrangements
    inputChains := chains.length
    rulesApplied := firstMeetings folded.record
    diagnostics := drawn.record }

end Graph

end Patchbay
