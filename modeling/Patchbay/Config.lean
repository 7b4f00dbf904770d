import Patchbay.Datum.Shape
import Patchbay.Number.Decimal

/-!
# Configurations

A configuration says where pattern properties are found, how properties of one name combine along
a chain, which values have no audible effect, and whether a node may feed several targets.  Every
part may be left out of a document and then has its standard value; a table of rules replaces the
standard table as a whole.
-/

namespace Patchbay

/-- How the values of one property along a chain combine. -/
inductive Rule where
  /-- The product of the numbers, from 1. -/
  | multiply
  /-- The last value. -/
  | last
  deriving DecidableEq, Repr

namespace Rule

/-- The name of a rule. -/
def name : Rule → String
  | multiply => "multiply"
  | last => "last"

/-- The rule with a name. -/
def ofName? (s : String) : Option Rule := [multiply, last].find? (·.name == s)

/-- A rule is found by its name. -/
theorem ofName?_name (r : Rule) : ofName? r.name = some r := by
  cases r <;> decide

/-- Reads a rule. -/
def decode : Decoder Rule := fun dialect d => (Datum.choice? dialect d).bind ofName?

end Rule

/-- The rule of one property. -/
structure PropertyRule where
  rule : Rule
  /-- The value without audible effect: a property that combines to it is dropped. -/
  neutral : Option Binary64 := none
  deriving DecidableEq, Repr

namespace PropertyRule

/-- Reads the rule of a property. -/
def decode : Decoder PropertyRule := fun dialect d => do
  let r ← Record.of? ["rule", "neutral"] dialect d
  some ⟨← r.required "rule" Rule.decode, ← r.optional "neutral" Datum.number?⟩

end PropertyRule

/-- What becomes of a node that feeds several targets. -/
inductive FanOutPolicy where
  /-- One target is followed and the others are reported. -/
  | warn
  /-- The patch is refused. -/
  | reject
  deriving DecidableEq, Repr

namespace FanOutPolicy

/-- The name of a policy. -/
def name : FanOutPolicy → String
  | warn => "warn"
  | reject => "reject"

/-- The policy with a name. -/
def ofName? (s : String) : Option FanOutPolicy := [warn, reject].find? (·.name == s)

/-- A policy is found by its name. -/
theorem ofName?_name (p : FanOutPolicy) : ofName? p.name = some p := by
  cases p <;> decide

/-- Reads a policy. -/
def decode : Decoder FanOutPolicy := fun dialect d => (Datum.choice? dialect d).bind ofName?

end FanOutPolicy

/-- A configuration. -/
structure Config where
  /-- The key of the pattern properties among a node's properties. -/
  patternKey : String
  fanOut : FanOutPolicy
  /-- The rule of properties that are not in the table. -/
  defaultRule : Rule
  /-- The greatest distance from a neutral value that still counts as neutral. -/
  tolerance : Binary64
  rules : Dictionary PropertyRule
  deriving DecidableEq, Repr

namespace Config

/-- The standard rules: gain and speed multiply; pan, delay and the filters keep the last value. -/
def standardRules : Dictionary PropertyRule :=
  .ofList [
    ("gain", ⟨.multiply, some (.ofNat 1)⟩),
    ("speed", ⟨.multiply, some (.ofNat 1)⟩),
    ("pan", ⟨.last, some (.ofNat 0)⟩),
    ("delay", ⟨.last, some (.ofNat 0)⟩),
    ("lpf", ⟨.last, some (.ofNat 8000)⟩),
    ("hpf", ⟨.last, some (.ofNat 20)⟩),
    ("bpf", ⟨.last, some (.ofNat 1000)⟩)]

/-- The standard configuration. -/
def standard : Config where
  patternKey := "pattern"
  fanOut := .warn
  defaultRule := .last
  tolerance := Decimal.toBinary64 false ⟨1, -9⟩
  rules := standardRules

/-- The rule by which a property combines. -/
def ruleOf (c : Config) (property : String) : Rule :=
  match c.rules.get? property with
  | some r => r.rule
  | none => c.defaultRule

/-- The neutral value of a property, if the table has one. -/
def neutralOf? (c : Config) (property : String) : Option Binary64 :=
  (c.rules.get? property).bind (·.neutral)

/-- Reads a configuration. -/
def decode : Decoder Config := fun dialect d => do
  let r ← Record.of?
    ["pattern_key", "fan_out", "default_rule", "neutral_epsilon", "rules"] dialect d
  some {
    patternKey := ← r.withDefault "pattern_key" Datum.text? standard.patternKey
    fanOut := ← r.withDefault "fan_out" FanOutPolicy.decode standard.fanOut
    defaultRule := ← r.withDefault "default_rule" Rule.decode standard.defaultRule
    tolerance := ← r.withDefault "neutral_epsilon" Datum.number? standard.tolerance
    rules := ← r.withDefault "rules" (Datum.dictionary? PropertyRule.decode) standard.rules }

end Config

end Patchbay
