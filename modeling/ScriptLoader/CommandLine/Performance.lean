import ScriptLoader.CommandLine.Project

/-!
# Commands

What each command does, what it prints, and the code it ends with. A command is done in two parts:
first everything that only reads files, and then the bundles are written, if there are any.
-/

namespace ScriptLoader.CommandLine

/-- What is left to do when everything has been read. -/
inductive Conclusion where
  /-- Nothing but to print. -/
  | printing (lines : List Line)
  /-- Bundles are to be written below a directory. -/
  | bundling (units : List UnitInfo) (roots : List Path) (output : String) (functions : Nat)

/-- A command up to the point where everything has been read. -/
structure Performance where
  /-- What has been printed. -/
  lines : List Line := []
  /-- The diagnostics that have been written. -/
  diagnostics : String := ""
  /-- The files that have been asked for. -/
  reads : List Path := []
  conclusion : Except Complaint Conclusion

structure Ending where
  code : Nat
  lines : List Line
  errors : String := ""
  deriving DecidableEq, Repr

/-- The text of the output, for a time. -/
def Ending.output (ending : Ending) (time : String) : String :=
  String.join (ending.lines.map (·.write time))

/-- What something that the loader has done prints. Only a command that executes files for their
effects reports their calls. -/
def lineOf (reportsCalls : Bool) (project : Project) : Event → Option Line
  | .called unit => if reportsCalls then (project.info? unit).map calledLine else none
  | .aborted error => some (.logged error.message)
  | _ => none

/-- What a project has printed. -/
def Project.lines (project : Project) (reportsCalls : Bool) : List Line :=
  project.journal.reverse.filterMap (lineOf reportsCalls project)

def Command.reportsCalls : Command → Bool
  | run _ => true
  | _ => false

def Command.file : Command → String
  | run file => file
  | deps file => file
  | bundle file _ => file

/-- What a command does with the unit of its file. -/
def Command.program (command : Command) (unit : UnitId) : Program Workspace (Awaited Value) :=
  match command with
  | deps _ => do
    match ← Program.load unit with
    | .settled result => return .settled (result.map fun _ ↦ .undefined)
    | .stalled => return .stalled
  | _ => Program.run unit

/-- The directories whose files keep their places below them when they are bundled: that of the
file, and the include paths. -/
def bundleRoots (current : Path) (config : Config) (file : String) : List Path :=
  ((Path.absolute? current file.toList).bind Path.parent?).toList ++
    config.includePaths.filterMap fun path ↦ Path.absolute? current path.toList

/-- What is left to do for a command once its unit has been loaded, or executed with a value. -/
def Command.conclusion (command : Command) (s : Surroundings) (project : Project) (unit : UnitId)
    (value : Value) : Conclusion :=
  match command with
  | run _ => .printing (if value.isUndefined then [] else [.plain value.display])
  | deps _ => .printing ((project.closure unit).map listedLine)
  | bundle file output =>
    .bundling (project.closure unit) (bundleRoots s.current project.config file) output
      project.functionCount

/-- Does a command in a project, as far as it reads. -/
def Command.performIn (command : Command) (s : Surroundings) (project : Project) (url : Url) :
    Performance :=
  let (project, result) := project.enter url command.program
  { lines := project.lines command.reportsCalls
    diagnostics := project.world.diagnostics
    reads := project.world.resolver.reads
    conclusion :=
      match result with
      | .error e => .error (.loader e)
      | .ok (unit, value) => .ok (command.conclusion s project unit value) }

/-- Does a command, as far as it reads. -/
def Command.perform (command : Command) (s : Surroundings) (options : Options) : Performance :=
  let configReads := options.config.toList.map String.toList
  let stopped (complaint : Complaint) : Performance :=
    { reads := configReads, conclusion := .error complaint }
  match loadConfig s options with
  | .error complaint => stopped complaint
  | .ok config =>
    match Project.create s config, Url.ofFile s.current command.file.toList with
    | .error e, _ => stopped (.loader e)
    | _, .error e => stopped (.loader e)
    | .ok project, .ok url =>
      let performance := command.performIn s project url
      { performance with reads := performance.reads ++ configReads }

/-- Does what arguments ask for, as far as it reads; or it is done already. -/
def Invocation.start (invocation : Invocation) (s : Surroundings) : Ending ⊕ Performance :=
  match invocation with
  | help => .inl { code := 0, lines := helpLines }
  | version => .inl { code := 0, lines := [versionLine] }
  | usageError => .inl { code := 2, lines := [], errors := usageMessage }
  | perform options command => .inr (command.perform s options)

namespace Performance

/-- The end of a command that has done its work. -/
def finish (p : Performance) (lines : List Line) : Ending :=
  { code := 0, lines := p.lines ++ lines, errors := p.diagnostics }

/-- The end of a command that has failed. -/
def fail (p : Performance) (complaint : Complaint) : Ending :=
  { code := 1, lines := p.lines, errors := p.diagnostics ++ complaint.write }

/-- Writes the bundles, if there are any. -/
def conclude {m : Type → Type} [Monad m] (storage : Storage m) (p : Performance) : m Ending :=
  match p.conclusion with
  | .error complaint => return p.fail complaint
  | .ok (.printing lines) => return p.finish lines
  | .ok (.bundling units roots output functions) => do
    match ← Bundle.storeAll storage roots output.toList units with
    | .error e => return p.fail (.bundling e)
    | .ok paths => return p.finish [bundledLine paths.length functions output]

end Performance

/-- Does what arguments ask for, on a model of a file system. -/
def performOn (fs : FileSystem) (environment : Table String String) (arguments : List String) :
    Ending × FileSystem :=
  let s : Surroundings :=
    { current := '/' :: Path.joinFields fs.current, environment, disk := fs.read }
  match (Invocation.ofArguments arguments).start s with
  | .inl ending => (ending, fs)
  | .inr performance => (performance.conclude FileSystem.storage).run fs

end ScriptLoader.CommandLine
