import Patchbay.Patch.Value

/-!
# Failures

What makes a patch impossible to compile.  A failure names its cause; its wording is
`Failure.message`.
-/

namespace Patchbay

/-- What is wrong with a property. -/
inductive Flaw where
  /-- The pattern properties of the node are no object but something else, named here. -/
  | notTable (found : String)
  /-- The property is neither a number nor a string nor a bool but something else, named here. -/
  | notPrimitive (found : String)
  /-- A value that is to be multiplied is no number. -/
  | notNumber (found : Value)
  /-- A product leaves the range of numbers. -/
  | boundless (current factor : Binary64)
  /-- A reason in words. -/
  | other (reason : String)
  deriving DecidableEq, Repr

namespace Flaw

/-- A number as in the emitted code. -/
def numberText (x : Binary64) : String := (Value.number x).literal

/-- The wording of a flaw. -/
def reason : Flaw → String
  | notTable found => "expected an object of pattern properties, found " ++ found
  | notPrimitive found => "expected a number, string or bool, found " ++ found
  | notNumber found => "multiply rule needs a number, found " ++ found.literal
  | boundless current factor =>
    "product " ++ numberText current ++ " * " ++ numberText factor ++ " is not a finite number"
  | other reason => reason

end Flaw

/-- Why a patch cannot be compiled. -/
inductive Failure where
  /-- The connections form a cycle on which this node lies. -/
  | cycle (node : String)
  /-- A property of this node cannot be used. -/
  | malformed (node property : String) (flaw : Flaw)
  /-- Two nodes have this id. -/
  | duplicate (node : String)
  /-- The node feeds several targets and the configuration refuses that. -/
  | fanOut (node : String) (targets : List String)
  deriving DecidableEq, Repr

namespace Failure

/-- The wording of a failure. -/
def message : Failure → String
  | cycle node => "Cycle detected: graph contains a cycle through node '" ++ node ++ "'"
  | malformed node property flaw =>
    "Malformed property '" ++ property ++ "' on node '" ++ node ++ "': " ++ flaw.reason
  | duplicate node => "Duplicate node id '" ++ node ++ "'"
  | fanOut node targets =>
    "Node '" ++ node ++ "' fans out to " ++ toString targets.length ++ " targets ("
      ++ ", ".intercalate targets ++ "); fan-out is rejected by configuration"

end Failure

end Patchbay
