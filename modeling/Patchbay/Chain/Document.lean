import Patchbay.Chain

/-!
# Chains in documents

Steps, chains and arrangements in JSON, and their readers.  An arrangement is tagged with its kind.
-/

namespace Patchbay

namespace Step

/-- A step in JSON; without an argument or a combinator, that member is left out. -/
def toJson (s : Step) : Json :=
  .object (
    [("id", .text s.id), ("nodeType", .text s.nodeType),
      ("category", .ofText? (s.category.map Category.name)),
      ("stage", .ofText? (s.stage.map Stage.name)),
      ("wraps", .bool s.wraps), ("call", .text s.call)]
    ++ (s.argument.map fun a => ("argument", Json.text a)).toList
    ++ (s.kind.map fun k => ("kind", Json.text k.name)).toList
    ++ [("properties", .array (s.properties.map Property.toJson)),
      ("synthetic", .bool s.synthetic)])

/-- Reads a step. -/
def decode : Decoder Step := fun dialect d => do
  let r ← Record.of? ["id", "nodeType", "category", "stage", "wraps", "call", "argument", "kind",
    "properties", "synthetic"] dialect d
  some {
    id := ← r.required "id" Datum.text?
    nodeType := ← r.required "nodeType" Datum.text?
    category := ← r.nullable "category" Category.decode
    stage := ← r.nullable "stage" Stage.decode
    wraps := ← r.required "wraps" Datum.bool?
    call := ← r.required "call" Datum.text?
    argument := ← r.optional "argument" Datum.text?
    kind := ← r.optional "kind" Combinator.decode
    properties := ← r.required "properties" (Datum.list? Property.decode)
    synthetic := ← r.withDefault "synthetic" Datum.bool? false }

end Step

namespace Chain

/-- The only member of a chain in JSON. -/
def members (c : Chain) : List (String × Json) := [("nodes", .array (c.steps.map Step.toJson))]

/-- A chain in JSON. -/
def toJson (c : Chain) : Json := .object c.members

/-- Reads a chain. -/
def decode : Decoder Chain := fun dialect d => do
  let r ← Record.of? ["nodes"] dialect d
  some ⟨← r.required "nodes" (Datum.list? Step.decode)⟩

end Chain

namespace Arrangement

/-- An arrangement in JSON, tagged with its kind. -/
def toJson : Arrangement → Json
  | plain chain => .object (("kind", .text "plain") :: chain.members)
  | wrapped wrapper inner outer =>
    .object [("kind", .text "wrapped"), ("wrapper", wrapper.toJson), ("innerChain", inner.toJson),
      ("outerChain", outer.toJson)]

/-- Reads the fields of an arrangement of the given kind. -/
def decodeKind : String → Decoder Arrangement
  | "plain", dialect, d => (Chain.decode dialect d).map plain
  | "wrapped", dialect, d => do
    let r ← Record.of? ["wrapper", "innerChain", "outerChain"] dialect d
    some (wrapped (← r.required "wrapper" Step.decode) (← r.required "innerChain" Chain.decode)
      (← r.required "outerChain" Chain.decode))
  | _, _, _ => none

/-- Reads an arrangement. -/
def decode : Decoder Arrangement := fun _ d =>
  d.kinded?.bind fun (kind, fields) => decodeKind kind .tagged fields

end Arrangement

end Patchbay
