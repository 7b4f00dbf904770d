import Patchbay.Config.Document
import Patchbay.Document
import Patchbay.Proofs.Datum.Shown
import Patchbay.Proofs.Dictionary
import Patchbay.Proofs.Toml.Draft

/-!
# Configurations read back

A configuration is read again from its TOML text, whatever its strings and numbers are and whatever
rules it has (`Config.parse_toToml`).

The text writes every field, so no standard value is filled in: the fields of a record are found
under their names (`Record.of?_table`), a rule has a neutral value exactly if one is written
(`PropertyRule.decode_assignments`), and the entries of the table of rules are in the order in which
a dictionary keeps them (`Dictionary.ofList_entries`), none or many.
-/

namespace Patchbay

namespace PropertyRule

/-- The rule of a property is read again, with its neutral value or without one. -/
theorem decode_assignments (r : PropertyRule) :
    decode .toml (.table (Toml.assignedTable r.assignments)) = some r := by
  obtain ⟨rule, neutral⟩ := r
  have hrule : Rule.decode .toml (.text rule.name) = some rule := Rule.ofName?_name rule
  -- a neutral value that is missing is not written, so the table has one entry or two
  cases neutral with
  | none =>
    have hrecord : Record.of? ["rule", "neutral"] .toml (.table [("rule", .text rule.name)])
        = some ⟨.toml, false, [("rule", .text rule.name)]⟩ :=
      Record.of?_table .toml (by simp) (by simp)
    have htable : Datum.table (Toml.assignedTable (assignments ⟨rule, none⟩))
        = .table [("rule", .text rule.name)] := rfl
    rw [htable, decode, hrecord]
    simp [Record.required, Record.optional, List.lookup_cons, hrule]
  | some x =>
    have hrecord : Record.of? ["rule", "neutral"] .toml
        (.table [("rule", .text rule.name), ("neutral", .number x)])
          = some ⟨.toml, false, [("rule", .text rule.name), ("neutral", .number x)]⟩ :=
      Record.of?_table .toml (by simp) (by simp)
    have htable : Datum.table (Toml.assignedTable (assignments ⟨rule, some x⟩))
        = .table [("rule", .text rule.name), ("neutral", .number x)] := rfl
    rw [htable, decode, hrecord]
    simp [Record.required, Record.optional, List.lookup_cons, hrule, Datum.number?]

end PropertyRule

namespace Config

/-- The keys of a configuration that is written are distinct in every table. -/
theorem isDistinct_draft (c : Config) : c.draft.IsDistinct where
  root := by
    have hkeys : c.draft.assignments.map (·.1) ++ c.draft.groups.map (·.1)
        = ["pattern_key", "fan_out", "default_rule", "neutral_epsilon", "rules"] := rfl
    rw [hkeys]
    decide
  names := by
    intro g hg
    obtain rfl := List.mem_singleton.mp hg
    rw [List.map_map]
    exact c.rules.nodup_keys
  keys := by
    intro g hg t ht
    obtain rfl := List.mem_singleton.mp hg
    obtain ⟨e, -, rfl⟩ := List.mem_map.mp ht
    cases h : e.2.neutral <;> simp [PropertyRule.assignments, h]

/-- The table of rules, as it is written. -/
def ruleTable (rules : Dictionary PropertyRule) : Datum :=
  .table (rules.entries.map fun e => (e.1, .table (Toml.assignedTable e.2.assignments)))

/-- The table of rules is read again. -/
theorem decode_ruleTable (rules : Dictionary PropertyRule) :
    Datum.dictionary? PropertyRule.decode .toml (ruleTable rules) = some rules := by
  -- first entry by entry, for any list: the keys matter only when the dictionary is made of them
  have hentries (entries : List (String × PropertyRule)) :
      ((entries.map fun e => (e.1, Datum.table (Toml.assignedTable e.2.assignments))).mapM fun m =>
        (PropertyRule.decode .toml m.2).map (m.1, ·)) = some entries := by
    induction entries with
    | nil => rfl
    | cons e entries ih =>
      simp only [List.map_cons, List.mapM_cons, PropertyRule.decode_assignments, Option.map_some,
        ih]
      rfl
  rw [ruleTable, Datum.dictionary?, hentries, Option.map_some, Dictionary.ofList_entries]

/-- The fields of a configuration, as they are written. -/
def fields (c : Config) : List (String × Datum) := [
  ("pattern_key", .text c.patternKey),
  ("fan_out", .text c.fanOut.name),
  ("default_rule", .text c.defaultRule.name),
  ("neutral_epsilon", .number c.tolerance),
  ("rules", ruleTable c.rules)]

/-- What is written of a configuration is the table of its fields. -/
theorem datum_draft (c : Config) : c.draft.datum = .table c.fields := by
  simp [Toml.Draft.datum, draft, fields, ruleTable, Toml.assignedTable, Toml.DraftValue.datum,
    Function.comp_def]

/-- The fields of a configuration are read again. -/
theorem decode_draft (c : Config) : decode .toml c.draft.datum = some c := by
  have hpolicy : FanOutPolicy.decode .toml (.text c.fanOut.name) = some c.fanOut :=
    FanOutPolicy.ofName?_name c.fanOut
  have hrule : Rule.decode .toml (.text c.defaultRule.name) = some c.defaultRule :=
    Rule.ofName?_name c.defaultRule
  have hrecord : Record.of? ["pattern_key", "fan_out", "default_rule", "neutral_epsilon", "rules"]
      .toml (.table c.fields) = some ⟨.toml, false, c.fields⟩ :=
    Record.of?_table .toml (by simp [fields]) (by simp [fields])
  -- the five lookups, each of which decides its own field
  have hpattern : c.fields.lookup "pattern_key" = some (.text c.patternKey) := rfl
  have hfan : c.fields.lookup "fan_out" = some (.text c.fanOut.name) := rfl
  have hdefault : c.fields.lookup "default_rule" = some (.text c.defaultRule.name) := rfl
  have htolerance : c.fields.lookup "neutral_epsilon" = some (.number c.tolerance) := rfl
  have hrules : c.fields.lookup "rules" = some (ruleTable c.rules) := rfl
  rw [datum_draft, decode, hrecord]
  simp only [Option.bind_eq_bind, Option.bind_some, Record.withDefault, hpattern, hfan, hdefault,
    htolerance, hrules, Datum.text?, Datum.number?, hpolicy, hrule, decode_ruleTable]

/-- **Configurations read back.**  The TOML text of a configuration is read as the configuration. -/
theorem parse_toToml (c : Config) : parse c.toToml = .ok c := by
  have htoml : Document.ofToml? decode c.toToml = some c := by
    -- TOML is tried first, so what the other reader would say does not matter
    rw [Document.ofToml?, toToml, Toml.read?_write c.isDistinct_draft, Option.bind_some,
      decode_draft]
  rw [parse, Document.sniff, htoml]

end Config

end Patchbay
