import Patchbay.Chain.Document
import Patchbay.Compile
import Patchbay.Digest

/-!
# Reports

The report on a patch is what the outside sees of its compilation: the code with facts about it,
or the wording of the failure and nothing else.
-/

namespace Patchbay

/-- Facts about compiled code. -/
structure Metadata where
  inputChains : Nat
  outputPattern : String
  rulesApplied : List String
  timestamp : String
  /-- The SHA-256 digest of the code. -/
  fingerprint : String
  deriving DecidableEq, Repr

/-- The report on a patch. -/
structure Report where
  success : Bool
  code : String
  metadata : Option Metadata
  chains : List Arrangement
  error : Option String := none
  diagnostics : List Diagnostic := []
  deriving DecidableEq, Repr

namespace Metadata

/-- The metadata in JSON. -/
def toJson (m : Metadata) : Json :=
  .object [("inputChains", .ofNat m.inputChains), ("outputPattern", .text m.outputPattern),
    ("rulesApplied", .ofTexts m.rulesApplied), ("timestamp", .text m.timestamp),
    ("fingerprint", .text m.fingerprint)]

/-- Reads metadata. -/
def decode : Decoder Metadata := fun dialect d => do
  let r ← Record.of? ["inputChains", "outputPattern", "rulesApplied", "timestamp", "fingerprint"]
    dialect d
  some {
    inputChains := ← r.required "inputChains" Datum.count?
    outputPattern := ← r.required "outputPattern" Datum.text?
    rulesApplied := ← r.required "rulesApplied" (Datum.list? Datum.text?)
    timestamp := ← r.required "timestamp" Datum.text?
    fingerprint := ← r.required "fingerprint" Datum.text? }

end Metadata

namespace Report

/-- The report on a compiled patch, with the time of its making. -/
def ofCompiled (timestamp : String) (c : Compiled) : Report where
  success := true
  code := c.code
  metadata := some {
    inputChains := c.inputChains
    outputPattern := c.code
    rulesApplied := c.rulesApplied
    timestamp := timestamp
    fingerprint := Digest.sha256 c.code }
  chains := c.chains
  diagnostics := c.diagnostics

/-- The report on a patch that does not compile. -/
def ofFailure (e : Failure) : Report where
  success := false
  code := ""
  metadata := none
  chains := []
  error := some e.message

/-- The report in JSON; without an error or diagnostics, that member is left out. -/
def toJson (r : Report) : Json :=
  .object (
    [("success", .bool r.success), ("code", .text r.code),
      ("metadata", (r.metadata.map Metadata.toJson).getD .null),
      ("chains", .array (r.chains.map Arrangement.toJson))]
    ++ (r.error.map fun e => ("error", Json.text e)).toList
    ++ (if r.diagnostics.isEmpty then []
      else [("diagnostics", .array (r.diagnostics.map Diagnostic.toJson))]))

/-- Reads a report. -/
def decode : Decoder Report := fun dialect d => do
  let r ← Record.of? ["success", "code", "metadata", "chains", "error", "diagnostics"] dialect d
  some {
    success := ← r.required "success" Datum.bool?
    code := ← r.required "code" Datum.text?
    metadata := ← r.nullable "metadata" Metadata.decode
    chains := ← r.required "chains" (Datum.list? Arrangement.decode)
    error := ← r.optional "error" Datum.text?
    diagnostics := ← r.withDefault "diagnostics" (Datum.list? Diagnostic.decode) [] }

end Report

namespace Graph

/-- Compiles a patch and reports on it, with the time of the report. -/
def report (schema : Schema) (config : Config) (timestamp : String) (g : Graph) : Report :=
  match g.compile schema config with
  | .ok compiled => .ofCompiled timestamp compiled
  | .error e => .ofFailure e

end Graph

end Patchbay
