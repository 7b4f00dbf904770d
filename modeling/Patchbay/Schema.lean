import Patchbay.Datum.Shape

/-!
# Node schemas

A schema describes the types of nodes that an editor can place: the category of a type, the stage
at which its nodes take effect within a chain, and how it is called in the emitted code.  Stages
are ranked by a fixed table; a stage that is not in the table ranks in the middle.
-/

namespace Patchbay

/-- The category of a node type. -/
inductive Category where
  | source
  | structural
  | rhythmic
  | pitch
  | modulation
  | spectral
  | space
  | wrapper
  deriving DecidableEq, Repr

namespace Category

/-- Every category, in the order of the ranks of their stages. -/
def all : List Category :=
  [source, structural, rhythmic, pitch, modulation, spectral, space, wrapper]

/-- The name of a category. -/
def name : Category → String
  | source => "source"
  | structural => "structural"
  | rhythmic => "rhythmic"
  | pitch => "pitch"
  | modulation => "modulation"
  | spectral => "spectral"
  | space => "space"
  | wrapper => "wrapper"

/-- The category with a name. -/
def ofName? (s : String) : Option Category := all.find? (·.name == s)

/-- A category is found by its name. -/
theorem ofName?_name (c : Category) : ofName? c.name = some c := by
  cases c <;> decide

/-- The rank of the stage that has the name of the category. -/
def priority : Category → Nat
  | source => 10
  | structural => 20
  | rhythmic => 30
  | pitch => 40
  | modulation => 50
  | spectral => 60
  | space => 70
  | wrapper => 80

/-- Reads a category. -/
def decode : Decoder Category := fun dialect d => (Datum.choice? dialect d).bind ofName?

end Category

/-- A stage within a chain: each category has one, and editors may name others. -/
inductive Stage where
  | standard (category : Category)
  | custom (name : String)
  deriving DecidableEq, Repr

namespace Stage

/-- The rank of stages outside the table, and of nodes without a known type. -/
def defaultPriority : Nat := 50

/-- The ranks, in order. -/
def priorities : List Nat := Category.all.map Category.priority

/-- The rank of a stage: effects of lower rank come first. -/
def priority : Stage → Nat
  | standard category => category.priority
  | custom _ => defaultPriority

/-- The name of a stage. -/
def name : Stage → String
  | standard category => category.name
  | custom name => name

/-- The stage with a name. -/
def ofName (s : String) : Stage :=
  match Category.ofName? s with
  | some category => standard category
  | none => custom s

/-- Reads a stage. -/
def decode : Decoder Stage := fun dialect d => (Datum.text? dialect d).map ofName

end Stage

/-- How a structural node combines its inputs. -/
inductive Combinator where
  /-- Layers the inputs on top of each other. -/
  | stack
  /-- Plays the inputs one after another. -/
  | sequence
  /-- Any other way. -/
  | other
  deriving DecidableEq, Repr

namespace Combinator

/-- The name of a combinator. -/
def name : Combinator → String
  | stack => "stack"
  | sequence => "sequence"
  | other => "other"

/-- The combinator with a name. -/
def ofName? (s : String) : Option Combinator := [stack, sequence, other].find? (·.name == s)

/-- A combinator is found by its name. -/
theorem ofName?_name (c : Combinator) : ofName? c.name = some c := by
  cases c <;> decide

/-- Reads a combinator. -/
def decode : Decoder Combinator := fun dialect d => (Datum.choice? dialect d).bind ofName?

end Combinator

/-- When a node takes effect, and whether it encloses what comes before it. -/
structure Execution where
  stage : Stage
  wraps : Bool := false
  deriving DecidableEq, Repr

/-- A type of nodes. -/
structure NodeType where
  id : String
  category : Category
  execution : Execution
  /-- The name in the emitted code, if it is not the id. -/
  call : Option String := none
  /-- The property that becomes the argument of the call when a node of this type heads an
  expression. -/
  argument : Option String := none
  /-- The combinator of a structural type. -/
  kind : Option Combinator := none
  deriving DecidableEq, Repr

/-- The node types by name. -/
structure Schema where
  types : Dictionary NodeType := .empty
  deriving DecidableEq, Repr

namespace Execution

/-- Reads the execution of a node type. -/
def decode : Decoder Execution := fun dialect d => do
  let r ← Record.of? ["stage", "wraps"] dialect d
  some ⟨← r.required "stage" Stage.decode, ← r.withDefault "wraps" Datum.bool? false⟩

end Execution

namespace NodeType

/-- A node type whose stage is that of its category; wrappers wrap. -/
def ofCategory (id : String) (category : Category) : NodeType where
  id := id
  category := category
  execution := ⟨.standard category, category == .wrapper⟩

/-- The name under which a node of the type is called in the emitted code. -/
def callName (t : NodeType) : String := t.call.getD t.id

/-- Reads a node type. -/
def decode : Decoder NodeType := fun dialect d => do
  let r ← Record.of? ["id", "category", "execution", "call", "argument", "kind"] dialect d
  some {
    id := ← r.withDefault "id" Datum.text? ""
    category := ← r.required "category" Category.decode
    execution := ← r.required "execution" Execution.decode
    call := ← r.optional "call" Datum.text?
    argument := ← r.optional "argument" Datum.text?
    kind := ← r.optional "kind" Combinator.decode }

end NodeType

namespace Schema

/-- The type with a name. -/
def get? (s : Schema) (name : String) : Option NodeType := s.types.get? name

/-- The schema with one more type, under its own id. -/
def add (s : Schema) (t : NodeType) : Schema := ⟨s.types.insert t.id t⟩

/-- The schema in which every type without an id has its name for an id. -/
def nameTypes (s : Schema) : Schema :=
  ⟨s.types.mapEntries fun name t => if t.id.isEmpty then { t with id := name } else t⟩

/-- Reads a schema; the ids of its types stay as they are written. -/
def decode : Decoder Schema := fun dialect d => do
  let r ← Record.of? ["nodes"] dialect d
  some ⟨← r.withDefault "nodes" (Datum.dictionary? NodeType.decode) .empty⟩

end Schema

end Patchbay
