import Patchbay.Patch.Graph
import Patchbay.Recorded
import Patchbay.Diagnostic
import Patchbay.Schema

/-!
# Chains

A chain leads from a head through its effects.  Its steps are nodes with what the schema says of
their types filled in, so nothing after this looks at the schema again.  A chain whose wrapper has
been lifted out is an `Arrangement` in two halves: the inner chain up to the wrapper, and the
outer chain from it.
-/

namespace Patchbay

/-- A node of a patch with what the schema says of its type. -/
structure Step where
  id : String
  nodeType : String
  /-- None if the type is not in the schema. -/
  category : Option Category
  stage : Option Stage
  wraps : Bool
  /-- The name in the emitted code if the step heads an expression. -/
  call : String
  /-- The property that is then the argument of the call. -/
  argument : Option String := none
  kind : Option Combinator := none
  properties : List Property
  /-- The step stands for all effects of a folded chain. -/
  synthetic : Bool := false
  deriving DecidableEq, Repr

/-- A head and its effects. -/
structure Chain where
  steps : List Step
  deriving DecidableEq, Repr, Inhabited

/-- A chain as it is, or split at its wrapper. -/
inductive Arrangement where
  | plain (chain : Chain)
  /-- The inner chain ends with the wrapper; the outer chain begins with it. -/
  | wrapped (wrapper : Step) (inner outer : Chain)
  deriving DecidableEq, Repr

namespace Step

/-- A node as the schema describes its type.  An unknown type is reported; its nodes do not wrap,
have no argument and are called by their type. -/
def resolve (schema : Schema) (patternKey : String) (node : Node) : Recorded Diagnostic Step := do
  let properties ← Recorded.ofExcept (node.patternProperties patternKey)
  match schema.get? node.type with
  | some type =>
    pure {
      id := node.id
      nodeType := node.type
      category := some type.category
      stage := some type.execution.stage
      wraps := type.execution.wraps
      call := type.callName
      argument := type.argument
      kind := type.kind
      properties := properties }
  | none =>
    Recorded.note [.unknownType node.id node.type]
    pure {
      id := node.id
      nodeType := node.type
      category := none
      stage := none
      wraps := false
      call := node.type
      properties := properties }

/-- The rank of the stage at which a step takes effect. -/
def priority (s : Step) : Nat := (s.stage.map Stage.priority).getD Stage.defaultPriority

/-- A node of a source type. -/
def isSource (s : Step) : Bool := s.category == some .source

/-- A node of a structural type. -/
def isStructural (s : Step) : Bool := s.category == some .structural

/-- How a structural step combines its inputs. -/
def combinator (s : Step) : Combinator := s.kind.getD .other

/-- The value of a property; of several with one name the first counts. -/
def property? (s : Step) (name : String) : Option Value :=
  (s.properties.find? (·.name == name)).map (·.value)

/-- The value of the property that is the argument of the call. -/
def argumentValue? (s : Step) : Option Value := s.argument.bind s.property?

end Step

namespace Chain

/-- The first step. -/
def head? (c : Chain) : Option Step := c.steps.head?

/-- The steps after the head. -/
def effects (c : Chain) : List Step := c.steps.tail

/-- The ids of the steps. -/
def ids (c : Chain) : List String := c.steps.map (·.id)

end Chain

end Patchbay
