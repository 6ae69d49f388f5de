import ScriptLoader.FileSystem.Resolver
import ScriptLoader.Rehearsal.Shelf

/-!
# The stage of a rehearsal

A rehearsal runs a loader where everything around it can be arranged and is written down: which
files there are, when lookups complete, which writes of diagnostics are refused. The stage is the
world of such a run. It also holds what a session has given names to.

## Where files are

Files are on a shelf or on a disk. Only a shelf logs what is asked of it, and it can also do without
caching.
-/

namespace ScriptLoader.Rehearsal

/-- What can go wrong with a step of a session. -/
inductive StepError where
  /-- A field is missing or of the wrong form, or a name is unknown. -/
  | badInput (name : String)
  | noUnit
  | noOperation
  | noLoader
  | failed (error : LoaderError)
  deriving DecidableEq, Repr

/-- The text of an error, if it is part of an answer. What the operating system says is not. -/
def shownMessage (error : LoaderError) : Option String :=
  match error with
  | .io .sinkClosed => some error.message
  | .io _ => none
  | _ => some error.message

def StepError.kind : StepError → String
  | badInput _ => "BadInput"
  | noUnit => "NoUnit"
  | noOperation => "NoOp"
  | noLoader => "NoLoader"
  | failed error => error.kind

def StepError.message? : StepError → Option String
  | badInput name => some name
  | failed error => shownMessage error
  | _ => none

/-- An error in the log. -/
def StepError.describe (error : StepError) : String :=
  "ERR " ++ error.kind ++
    match error.message? with
    | some message => ": " ++ message
    | none => ""

/-- An outcome in the log. -/
def describeOutcome : Outcome → String
  | .ok value => "OK " ++ value.display
  | .error error => (StepError.failed error).describe

inductive Answer where
  | ok
  | stalled
  | error (error : StepError)
  | unit (url : Url)
  | noUnit
  | value (value : Value)
  | maybeValue (value : Option Value)
  | flag (b : Bool)
  | text (text : String)
  | operation (operation : Operation)
  | inspection (unit : UnitView)
  | closure (units : List (Url × LoadStatus))
  | source (source : Option FunctionSource)
  | info (base : Url) (includePaths : List Url) (headerLines : Nat) (sourceMaps : Bool)

/-- Where files are. -/
inductive Shelving where
  | shelf
  /-- A shelf that knows nothing of caching. -/
  | plainShelf
  | disk
  deriving DecidableEq, Repr

/-- The world of a rehearsal. -/
structure Stage where
  shelving : Shelving := .shelf
  shelf : Shelf := {}
  fileResolver : FileResolver := { includePaths := [] }
  fileSystem : FileSystem := {}
  /-- Starts of caching less their ends, on a shelf. -/
  cachingDepth : Int := 0
  /-- What has happened since the last step, the latest first. -/
  log : List String := []
  /-- The label of the sink for diagnostics, and whether it refuses writes. -/
  sink : String × Bool := ("main", false)
  /-- What has been written since the last step, by sink. -/
  written : Table String String := {}
  headerLines : Nat := defaultHeaderLines
  /-- The functions that were asked for, the latest first. -/
  sources : List FunctionSource := []
  /-- How many calls of bodies are nested. -/
  callDepth : Nat := 0
  handles : Table String UnitId := {}
  operations : Table String Operation := {}
  /-- The names of the caching guards that are held. -/
  guards : List String := []
  /-- Whether the session still has its loader. -/
  hasLoader : Bool := true
  /-- The answer of the step that has been run. -/
  answer : Answer := .ok

namespace Stage

/-- Writes something into the log. -/
def note (stage : Stage) (event : String) : Stage := { stage with log := event :: stage.log }

def write (stage : Stage) (text : String) : Stage × Except LoaderError Unit :=
  let (label, refuses) := stage.sink
  if refuses then (stage, .error (.io .sinkClosed))
  else
    let before := (stage.written.get? label).getD ""
    ({ stage with written := stage.written.insert label (before ++ text) }, .ok ())

/-- The shelf as a resolver, with or without caching. -/
def shelfResolver (caches : Bool) : Resolver Stage where
  includePaths stage := stage.shelf.includePaths
  resolve stage url substitutions :=
    let url := url.substitute substitutions
    let (shelf, ticket) := stage.shelf.start url.text [url]
    ({ stage with shelf }.note ("resolve " ++ url.text), ticket)
  search stage locator :=
    let (shelf, ticket) := stage.shelf.start locator (stage.shelf.candidates locator)
    ({ stage with shelf }.note ("search " ++ locator), ticket)
  next? stage tickets :=
    let (shelf, ticket) := stage.shelf.next? tickets
    ({ stage with shelf }, ticket)
  answer stage ticket :=
    let (shelf, answer) := stage.shelf.answer ticket
    ({ stage with shelf }, answer)
  cancel stage tickets := { stage with shelf := stage.shelf.cancel tickets }
  enableCaching stage :=
    if caches then { stage with cachingDepth := stage.cachingDepth + 1 }.note "cache+" else stage
  disableCaching stage :=
    if caches then { stage with cachingDepth := stage.cachingDepth - 1 }.note "cache-" else stage

def resolver (shelving : Shelving) : Resolver Stage :=
  match shelving with
  | .shelf => shelfResolver true
  | .plainShelf => shelfResolver false
  | .disk =>
    FileResolver.resolver (·.fileResolver) (·.fileSystem.read)
      fun stage fileResolver ↦ { stage with fileResolver }

end Stage

/-- A program on a stage. -/
abbrev Scene (α : Type) := Program Stage α

namespace Scene

/-- Writes something into the log. -/
def note (event : String) : Scene Unit := Program.touch (·.note event)

/-- The text of a unit's URL, or a dash. -/
def urlOrDash (view : View Stage) (unit : Option UnitId) : String :=
  match unit.bind view.unit? with
  | some unit => unit.info.url.text
  | none => "-"

/-- What is going on in the loader, in one line. -/
def probeText (view : View Stage) : String :=
  "probe executing=" ++ urlOrDash view view.executing ++
    " compiling=" ++ urlOrDash view view.compiling ++
    " wave=" ++ (if view.outstanding.isSome then "true" else "false") ++
    " outstanding=" ++ toString (view.outstanding.getD 0) ++
    " queue=" ++ toString view.pendingLookups

end Scene

end ScriptLoader.Rehearsal
