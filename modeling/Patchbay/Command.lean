import Patchbay.Config.Document
import Patchbay.Document
import Patchbay.Report

/-!
# Commands

The command line has two commands.  `normalize` compiles the patch in a file and prints the report
on it; `defaults` prints the standard configuration.  A command is read from the words of the
command line by `Command.ofWords?`, and `Command.run` gives its output from the contents of the
files that it names.

Words follow the usual conventions: the value of a long option is the next word or follows a `=`;
the value of a short option is the next word, or the rest of its own with or without a `=`; after
`--` no word is an option; no option and no argument is given twice; no path is empty.
-/

namespace Patchbay

/-- What `normalize` is asked for. -/
structure Request where
  graph : String
  schema : String
  config : Option String
  /-- The report is printed on one line. -/
  compact : Bool
  deriving DecidableEq, Repr

/-- A command. -/
inductive Command where
  | normalize (request : Request)
  | defaults
  | help
  deriving DecidableEq, Repr

/-- What a command leaves behind. -/
structure Output where
  /-- Zero for success, 1 for a failure, 2 for words that are no command. -/
  exitCode : Nat
  stdout : String
  /-- The reason why there is no other output. -/
  stderr : String := ""
  deriving DecidableEq, Repr

namespace Command

/-- How the commands are written. -/
def usage : String :=
  "usage: patchbay normalize <graph> --schema <file> [--config <file>] [--compact]\n"
    ++ "       patchbay defaults\n"

/-! ## Words -/

/-- The parts of a request that are paths. -/
inductive PathField where
  | graph
  | schema
  | config
  deriving DecidableEq, Repr

/-- The parts of a request that have been met. -/
structure Given where
  graph : Option String := none
  schema : Option String := none
  config : Option String := none
  compact : Bool := false
  deriving DecidableEq, Repr

/-- Why words are no request. -/
inductive Refusal where
  /-- Help is asked for. -/
  | help
  | misuse
  deriving DecidableEq, Repr

namespace Given

/-- The path met for a field. -/
def path? (g : Given) : PathField → Option String
  | .graph => g.graph
  | .schema => g.schema
  | .config => g.config

/-- Puts the path of a field, which is not empty and not given before. -/
def putPath (g : Given) (field : PathField) (path : String) : Except Refusal Given :=
  if path.isEmpty || (g.path? field).isSome then .error .misuse
  else
    match field with
    | .graph => .ok { g with graph := some path }
    | .schema => .ok { g with schema := some path }
    | .config => .ok { g with config := some path }

/-- Asks for a report on one line, which is not done twice. -/
def putCompact (g : Given) : Except Refusal Given :=
  if g.compact then .error .misuse else .ok { g with compact := true }

/-- The request, once the patch and the schema are given. -/
def request? (g : Given) : Option Request := do
  some ⟨← g.graph, ← g.schema, g.config, g.compact⟩

end Given

/-- What a word means where an option may stand. -/
inductive Word where
  | argument
  | endOfOptions
  | compact
  | help
  /-- An option that takes a path, which may be attached to it. -/
  | path (field : PathField) (attached : Option String)
  | unknown
  deriving DecidableEq, Repr

namespace Word

/-- What is attached to a name by a `=`. -/
def afterEquals : List Char → Option String
  | '=' :: value => some (String.ofList value)
  | _ => none

/-- The option with a long name. -/
def ofLong (name : String) (attached : Option String) : Word :=
  match name, attached with
  | "schema", attached => path .schema attached
  | "config", attached => path .config attached
  | "compact", none => compact
  | "help", none => help
  | _, _ => unknown

/-- What is attached to a short name, if anything is. -/
def attachedToShort : List Char → Option String
  | [] => none
  | '=' :: value => some (String.ofList value)
  | value => some (String.ofList value)

/-- The meaning of a word. -/
def ofChars : List Char → Word
  | ['-', '-'] => endOfOptions
  | '-' :: '-' :: name =>
    ofLong (String.ofList (name.takeWhile (· != '='))) (afterEquals (name.dropWhile (· != '=')))
  | '-' :: 's' :: rest => path .schema (attachedToShort rest)
  | '-' :: 'c' :: rest => path .config (attachedToShort rest)
  | '-' :: 'h' :: _ => help
  | '-' :: _ :: _ => unknown
  | _ => argument

end Word

/-- Reads the words after `normalize`. -/
def readWords (g : Given) : List String → Except Refusal Given
  | [] => .ok g
  | word :: rest =>
    match Word.ofChars word.toList with
    | .argument => do readWords (← g.putPath .graph word) rest
    | .endOfOptions => rest.foldlM (fun g word => g.putPath .graph word) g
    | .compact => do readWords (← g.putCompact) rest
    | .help => .error .help
    | .path field (some value) => do readWords (← g.putPath field value) rest
    | .path field none =>
      match rest with
      | [] => .error .misuse
      | value :: rest =>
        if Word.ofChars value.toList = .argument then do readWords (← g.putPath field value) rest
        else .error .misuse
    | .unknown => .error .misuse

/-- Reads the words after `defaults`, of which there are none. -/
def readNoWords : List String → Except Refusal Unit
  | [] | ["--"] => .ok ()
  | word :: _ => .error (if Word.ofChars word.toList = .help then .help else .misuse)

/-- Reads the words after `help`: the name of a command at most. -/
def isHelpTopic : List String → Bool
  | [] | ["normalize"] | ["defaults"] | ["help"] => true
  | _ => false

/-- A command that was read, help if that was asked for, or none. -/
def ofRefusal? : Except Refusal Command → Option Command
  | .ok command => some command
  | .error .help => some help
  | .error .misuse => none

/-- The command that words stand for; none if they are misused. -/
def ofWords? : List String → Option Command
  | "normalize" :: words =>
    ofRefusal? do
      match (← readWords {} words).request? with
      | some request => .ok (normalize request)
      | none => .error .misuse
  | "defaults" :: words => ofRefusal? ((readNoWords words).map fun _ => defaults)
  | "help" :: words => if isHelpTopic words then some help else none
  | word :: _ => if Word.ofChars word.toList = .help then some help else none
  | [] => none

/-! ## Running -/

/-- The paths of the files that a command reads, in the order in which they are read. -/
def files : Command → List String
  | normalize r => r.schema :: r.config.toList ++ [r.graph]
  | _ => []

end Command

namespace Report

/-- The report as it is printed, with a line break after it. -/
def print (compact : Bool) (r : Report) : String :=
  (if compact then Json.compact r.toJson else Json.pretty r.toJson) ++ "\n"

end Report

namespace Request

/-- The report that is asked for, from the contents of the files; the first file that cannot be used
decides otherwise. -/
def report (r : Request) (contents : String → Except ReadFault String) (timestamp : String) :
    Except LoadFailure Report := do
  let schema ← Schema.load r.schema (contents r.schema)
  let config ←
    match r.config with
    | some path => Config.load path (contents path)
    | none => .ok .standard
  let graph ← Graph.load r.graph (contents r.graph)
  .ok (graph.report schema config timestamp)

end Request

namespace Command

/-- The output of a command, from the contents of files and the time. -/
def run (contents : String → Except ReadFault String) (timestamp : String) : Command → Output
  | normalize r =>
    match r.report contents timestamp with
    | .ok report => ⟨if report.success then 0 else 1, report.print r.compact, ""⟩
    | .error failure => ⟨1, "", "patchbay: " ++ failure.message ++ "\n"⟩
  | defaults => ⟨0, Config.standard.toToml, ""⟩
  | help => ⟨0, usage, ""⟩

/-- The output where the words are no command. -/
def misuse : Output := ⟨2, "", usage⟩

end Command

end Patchbay
