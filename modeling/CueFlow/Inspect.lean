import CueFlow.Document.ConfigFile
import CueFlow.Document.GraphState
import CueFlow.Document.LocalLoop
import CueFlow.Document.SchemaFile
import CueFlow.Engine
/-!
# Inspecting a stored graph

Loads a snapshot against a schema file without running anything, and reports the order of execution,
what the load left out, the local loops, and the patch of every output. How a path leads to a file
is up to the caller, so nothing here touches a disk.
-/

namespace CueFlow

/-- What to inspect: the paths of a snapshot, a schema file and perhaps a configuration file. -/
structure InspectRequest where
  graph : String
  schema : String
  config : Option String := none
deriving DecidableEq, Repr

/-- The paths that a request names. -/
def InspectRequest.paths (r : InspectRequest) : List String :=
  [r.graph, r.schema] ++ r.config.toList

/-- What a command line asks for. -/
inductive Invocation where
  | inspect (request : InspectRequest)
  /-- To be told how a command line is to be written. -/
  | help
deriving DecidableEq, Repr

namespace Invocation

/-- The arguments seen so far. -/
structure Seen where
  graph : Option String := none
  schema : Option String := none
  config : Option String := none

namespace Seen

variable (s : Seen)

/-- Take in the path of the snapshot; there is only one, and it is not empty. -/
def takeGraph (path : String) : Option Seen :=
  if path.isEmpty || s.graph.isSome then none else some { s with graph := some path }

/-- Take in an option; each may be given once, and its value is not empty. -/
def takeOption (name value : String) : Option Seen :=
  if value.isEmpty then none
  else
    match name with
    | "schema" => if s.schema.isSome then none else some { s with schema := some value }
    | "config" => if s.config.isSome then none else some { s with config := some value }
    | _ => none

/-- Take in the arguments after a bare double dash, which are no options whatever they look like. -/
def takePaths (s : Seen) (paths : List String) : Option Seen := paths.foldlM takeGraph s

/-- The request for an inspection, if nothing is missing. -/
def invocation? : Option Invocation := do
  return .inspect { graph := ← s.graph, schema := ← s.schema, config := s.config }

end Seen

/-- Whether an argument is an option; a single dash is none. -/
def looksLikeOption (argument : String) : Bool := argument.startsWith "-" && argument != "-"

/-- The name of an option, and its value if one is attached by an equals sign. -/
def splitOption (argument : String) : Option (String × Option String) :=
  match argument.toList with
  | '-' :: '-' :: option =>
    let name := option.takeWhile (· != '=')
    match option.dropWhile (· != '=') with
    | [] => some (String.ofList name, none)
    | _ :: value => some (String.ofList name, some (String.ofList value))
  | _ => none

/-- Whether an argument asks for help: by its full name, or by the first of its one-letter names. -/
def asksForHelp (argument : String) : Bool := argument == "--help" || argument.startsWith "-h"

/-- Take in the arguments one by one. Who asks for help gets it, if all is well up to there. -/
def takeAll (s : Seen) : List String → Option Invocation
  | [] => s.invocation?
  | "--" :: paths => (s.takePaths paths).bind Seen.invocation?
  | argument :: rest =>
    if asksForHelp argument then some .help
    else if looksLikeOption argument then
      match splitOption argument, rest with
      | some (name, some value), rest => do takeAll (← s.takeOption name value) rest
      | some (name, none), value :: rest =>
        if looksLikeOption value then none else do takeAll (← s.takeOption name value) rest
      | _, _ => none
    else do takeAll (← s.takeGraph argument) rest

/-- What a command line asks for. -/
def ofArguments? : List String → Option Invocation
  | "inspect" :: arguments => takeAll {} arguments
  | ["help"] | ["help", "inspect"] | ["help", "help"] => some .help
  | argument :: _ => if asksForHelp argument then some .help else none
  | [] => none

/-- How a command line is to be written. -/
def usage : String := "Usage: cueflow inspect <GRAPH> --schema <SCHEMA> [--config <CONFIG>]"

end Invocation

/-- Why an inspection fails. -/
inductive InspectError where
  | config (path : String) (error : ConfigFileError)
  | schema (failure : FileFailure)
  /-- The snapshot cannot be read. -/
  | noGraph (path : String) (fault : ReadFault)
  | engine (error : EngineError)
deriving DecidableEq

namespace InspectError

/-- The text of a failure. -/
def message : InspectError → String
  | config path _ => "Error: loading config " ++ path
  | schema failure => "Error: " ++ failure.message
  | noGraph path _ => "Error: reading " ++ path
  | engine error => "Error: " ++ error.message

/-- What lies behind a failure, where its text does not say. -/
def cause? : InspectError → Option String
  | config _ error => some error.message
  | noGraph _ fault => some fault.message
  | _ => none

end InspectError

/-- Carry out a request, with files read by path. -/
def InspectRequest.run (r : InspectRequest) (file : String → Except ReadFault String) :
    Except InspectError Json := do
  let config ← match r.config with
    | none => pure {}
    | some path => (EngineConfig.ofFile (file path).toOption).mapError (InspectError.config path)
  let catalog ← (Catalog.ofSchemaFile r.schema (file r.schema)).mapError InspectError.schema
  let text ← (file r.graph).mapError (InspectError.noGraph r.graph)
  let state ← (GraphState.ofText text).mapError InspectError.engine
  let (engine, report) ← (Engine.ofState catalog state config).mapError InspectError.engine
  let (engine, plan) ← engine.compileNow.mapError InspectError.engine
  return reportGraph catalog engine.graph.snapshot report plan

end CueFlow
