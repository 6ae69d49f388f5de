import ScriptLoader.CommandLine.Invocation
import ScriptLoader.CommandLine.Wording
import ScriptLoader.Config.Document
import ScriptLoader.Directive
import ScriptLoader.FileSystem.Resolver
import ScriptLoader.Loader.Step

/-!
# Projects

A project is a loader for the files of a disk, set up as the command line, the environment and a
configuration file say. Files name their dependencies in directives.

## Bodies

There is nothing here that could run a script. The body of a unit does nothing when it is called;
that it is called shows in the journal of the loader.
-/

namespace ScriptLoader.CommandLine

/-- What a program finds when it is started. -/
structure Surroundings where
  /-- The current directory. -/
  current : Path
  /-- The environment: names and what they stand for. -/
  environment : Table String String := {}
  disk : Disk

/-- The variable that names directories for search-path references. -/
def includePathVariable : String := "QUIRE_INCLUDE_PATH"

/-- The variable that names the format of diagnostics. -/
def formatVariable : String := "QUIRE_DIAGNOSTICS"

/-- The configuration file, if there is one. -/
def readConfig (s : Surroundings) (file : Option String) : Except Complaint Config :=
  match file with
  | none => .ok {}
  | some path => (Config.ofFile s.disk path.toList).mapError (.reading path)

/-- What the options say is put over the rest of the configuration. Their include paths are searched
first. -/
def Options.applyTo (options : Options) (config : Config) : Config :=
  { config with
    includePaths := options.includes ++ config.includePaths
    format := if options.xml then .xml else config.format
    sourceMaps := config.sourceMaps && !options.noSourceMaps }

/-- The configuration of a file, of the environment and of the options. -/
def loadConfig (s : Surroundings) (options : Options) : Except Complaint Config :=
  match readConfig s options.config with
  | .error e => .error e
  | .ok config =>
    match config.override (s.environment.get? includePathVariable)
        (s.environment.get? formatVariable) with
    | (_, some e) => .error (.loader e)
    | (config, none) => .ok (options.applyTo config)

/-- The world of a project. -/
structure Workspace where
  resolver : FileResolver
  disk : Disk
  /-- The diagnostics that have been written. -/
  diagnostics : String := ""

/-- An engine whose functions do nothing. -/
def idleEngine (ω : Type) : Engine ω where
  headerLines _ := defaultHeaderLines
  synthesize world _ := (world, .ok fun _ ↦ .finish (.ok .undefined))

def platform : Platform Workspace Directive.File where
  resolver :=
    FileResolver.resolver (·.resolver) (·.disk) fun workspace resolver ↦
      { workspace with resolver }
  engine := idleEngine Workspace
  compiler := some (Directive.compiler Workspace true)
  write workspace text :=
    ({ workspace with diagnostics := workspace.diagnostics ++ text }, .ok ⟨⟩)

abbrev Project := Loader Workspace Directive.File

namespace Project

/-- A project with a configuration. Its include paths are relative to the current directory. -/
def create (s : Surroundings) (config : Config) : Except LoaderError Project :=
  match FileResolver.create s.current config.includePaths with
  | .error e => .error e
  | .ok resolver =>
    .ok { world := { resolver, disk := s.disk }, base := .ofDirectoryPath s.current, config }

/-- The outcome of something that had to wait for lookups. A disk does not keep anyone waiting. -/
def settle (url : Url) : Awaited Value → Outcome
  | .settled outcome => outcome
  | .stalled => .error (.incompleteLoad url.text)

/-- Runs a program on a unit. -/
def perform (project : Project) (url : Url) (program : Program Workspace (Awaited Value)) :
    Project × Outcome :=
  let code := program fun awaited ↦ .finish (settle url awaited)
  let machine : Machine Workspace Directive.File := { loader := project, control := .running code }
  let machine := machine.run platform Machine.maxSteps
  match machine.control with
  | .returning outcome => (machine.loader, outcome)
  | .running _ => (machine.loader, .error (.incompleteLoad url.text))

/-- Opens a file and runs a program on its unit. -/
def enter (project : Project) (url : Url)
    (program : UnitId → Program Workspace (Awaited Value)) :
    Project × Except LoaderError (UnitId × Value) :=
  match project.openUnit platform url with
  | (project, .stalled) => (project, .error (.incompleteLoad url.text))
  | (project, .settled (.error e)) => (project, .error e)
  | (project, .settled (.ok unit)) =>
    let (project, outcome) := perform project url (program unit)
    (project, outcome.map fun value ↦ (unit, value))

/-- The unit of a number. -/
def info? (project : Project) (unit : UnitId) : Option UnitInfo :=
  (project.unit? unit).map (·.info)

/-- A unit and all that it depends on, dependencies first. -/
def closure (project : Project) (unit : UnitId) : List UnitInfo :=
  (project.view.closure unit).filterMap project.info?

def functionCount (project : Project) : Nat :=
  project.journal.countP fun
    | .synthesized _ => true
    | _ => false

end Project

end ScriptLoader.CommandLine
