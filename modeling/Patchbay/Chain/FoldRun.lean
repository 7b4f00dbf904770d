import Patchbay.Chain.Fold

/-!
# Runs of folds

Folds that are carried out one after another share the list of the rules that have been applied.
Each name in the table of rules that is met is put at the end of the list, unless the list has it.
A fold that fails leaves the names that it met in the list, and does not disturb the folds after
it.
-/

namespace Patchbay

/-- What is folded: an arrangement, or a single chain from which a property may be held back. -/
inductive FoldTask where
  | arrangement (a : Arrangement)
  | chain (c : Chain) (heldBack : Option HeldBack)
  deriving DecidableEq, Repr

/-- A list of names after one more was met. -/
def addName (names : List String) (name : String) : List String :=
  if names.contains name then names else names ++ [name]

/-- The list of names after some were met, when none was met before. -/
def firstMeetings (met : List String) : List String := met.foldl addName []

/-- Carries out a step with the list of the names that were met before: the outcome of the step, and
the list after it. -/
def Recorded.carry {α : Type} (x : Recorded String α) (applied : List String) :
    Except Failure α × List String :=
  (x.outcome, x.record.foldl addName applied)

namespace FoldTask

/-- The fold of a task; that of a single chain is plain. -/
def fold (config : Config) : FoldTask → Recorded String Arrangement
  | arrangement a => a.fold config
  | chain c heldBack => do pure (.plain (← c.fold config heldBack))

/-- Carries out tasks one after another, with the list of the rules that were applied before.  Each
task has its outcome, and the list as it is then, which goes on to the next task. -/
def run (config : Config) :
    (applied : List String) → List FoldTask → List (Except Failure Arrangement × List String)
  | _, [] => []
  | applied, task :: rest =>
    let answer := (task.fold config).carry applied
    answer :: run config answer.2 rest

end FoldTask

end Patchbay
