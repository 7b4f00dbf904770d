import Patchbay.Config
import Patchbay.Toml.Draft

/-!
# Configurations as documents

A configuration is written as a TOML document: its fields, and then a table for each rule in the
order of the property names.  A configuration without rules has an empty table of them, because a
document without that table stands for the standard rules.
-/

namespace Patchbay

namespace PropertyRule

/-- The assignments of a rule. -/
def assignments (r : PropertyRule) : Toml.Assignments :=
  ("rule", .text r.rule.name) :: (r.neutral.map fun x => ("neutral", .number x)).toList

end PropertyRule

namespace Config

/-- The document of a configuration, to be written. -/
def draft (c : Config) : Toml.Draft where
  assignments := [
    ("pattern_key", .text c.patternKey),
    ("fan_out", .text c.fanOut.name),
    ("default_rule", .text c.defaultRule.name),
    ("neutral_epsilon", .number c.tolerance)]
  groups := [("rules", c.rules.entries.map fun e => (e.1, e.2.assignments))]

/-- The TOML text of a configuration. -/
def toToml (c : Config) : String := c.draft.write

end Config

end Patchbay
