import ScriptLoader.Loader.Step
import ScriptLoader.Rehearsal.LineScript
import ScriptLoader.Rehearsal.Planned
import ScriptLoader.Text.Quoted

/-!
# Sessions

A session is a list of steps with one loader. A step does one thing with the loader or with the
stage, and has an answer; a step that fails does not end the session. After each step a record is
made of what can be seen.

## Callbacks

A step that loads or imports can have a callback with steps of its own, so a session can enter the
loader again from within. Their answers go into the log.

## Names

Units and operations are kept under names. Giving the loader up leaves them, and what can be asked
of them without it still works.
-/

namespace ScriptLoader.Rehearsal

/-- What a step does, its callback apart. -/
inductive Action where
  | put (url : Url) (file : ShelfFile)
  | delete (url : Url)
  | gate (key : String)
  | releaseGate (key : String)
  | openUrl (url : Url) (handle : Option String)
  | openPath (path : Path) (handle : Option String)
  | createFromSource (url : Option Url) (code : String) (dependencies : List Reference)
      (handle : Option String)
  | createFromFunction (url : Option Url) (code : String) (dependencies : List Reference)
      (name : String) (handle : Option String)
  | createFromResource (resource : Resource) (handle : Option String)
  | cachedUnit (url : Url) (handle : Option String)
  | loadDependencies (unit : String)
  | load (unit : String)
  | run (unit : String)
  | execute (unit : String)
  | drive
  | importFile (reference : Reference)
  | operation (kind : OperationKind) (context : Url) (name : String)
  | call (operation locator : String) (isLocal : Option Bool)
  | sameOperation (operation other : String)
  | sameUnit (unit other : String)
  | inspect (unit : String)
  | bundle (unit : String)
  | describe (unit : String)
  | closure (unit : String)
  | functionSource (name : String)
  | global (name : String)
  | setGlobal (name : String) (value : Value)
  | setHost (names : List String) (values : List Value)
  | setSubstitutions (substitutions : Substitutions)
  | setSink (label : String) (refuses : Bool)
  | grab (name : String)
  | ungrab (name : String)
  | info
  | probe
  | reset
  | dropLoader
  /-- A step that could not be read. -/
  | reject (error : StepError)

mutual

/-- A step, under the name it has in the log. -/
inductive Step where
  | mk (name : String) (action : Action) (callback : Option StepCallback)

/-- A callback: what it logs, what it does, and the error that it ends with, if it is a load's. -/
inductive StepCallback where
  | mk (label : String) (steps : List Step) (failure : Option String)

end

/-- A unit in one line: its URL, status and dependencies. -/
def describeUnit (unit : UnitInfo) : String :=
  let reference (r : Reference) : String :=
    "DependencyReference \x7b locator: " ++ Quoted.quote r.locator ++ ", is_local: " ++
      (if r.isLocal then "true" else "false") ++ " \x7d"
  "Unit \x7b url: " ++ Quoted.quote unit.url.text ++ ", status: " ++ unit.status.name ++
    ", dependencies: [" ++ String.intercalate ", " (unit.dependencies.map reference) ++ "], .. \x7d"

namespace Session

/-- Goes on with a named unit. -/
def withUnit (name : String) (act : UnitId → UnitView → Scene Answer) : Scene Answer := do
  let view ← Program.observe
  match view.world.handles.get? name with
  | none => pure (.error .noUnit)
  | some id =>
    match view.unit? id with
    | none => pure (.error .noUnit)
    | some unit => act id unit

/-- Goes on when there still is a loader. -/
def withLoader (act : Scene Answer) : Scene Answer := do
  if ← Program.look (·.world.hasLoader) then act else pure (.error .noLoader)

/-- Goes on with a unit that was made or found, and keeps it under a name. -/
def keepUnit (handle : Option String) (id : UnitId) : Scene Answer := do
  if let some handle := handle then
    Program.touch fun stage ↦ { stage with handles := stage.handles.insert handle id }
  match ← Program.look (·.unit? id) with
  | some unit => pure (.unit unit.info.url)
  | none => pure .noUnit

/-- The answer for a unit that was made. -/
def keepCreated (handle : Option String) : Except LoaderError UnitId → Scene Answer
  | .ok id => keepUnit handle id
  | .error e => pure (.error (.failed e))

/-- The answer for something that has no result of its own. -/
def answerDone : Except LoaderError Unit → Answer
  | .ok _ => .ok
  | .error e => .error (.failed e)

def answerOutcome : Outcome → Answer
  | .ok value => .value value
  | .error e => .error (.failed e)

/-- The answer for something that had to wait. -/
def answerAwaited {α : Type} (answer : Except LoaderError α → Answer) : Awaited α → Answer
  | .settled result => answer result
  | .stalled => .stalled

def openUrl (url : Url) (handle : Option String) : Scene Answer := do
  match ← Program.openUnit url with
  | .settled result => keepCreated handle result
  | .stalled => return .stalled

/-- Opens a path, which is relative to the current directory. -/
def openPath (path : Path) (handle : Option String) : Scene Answer := do
  let current ← Program.look (·.world.fileSystem.current)
  match Url.ofFile ('/' :: Path.joinFields current) path with
  | .ok url => openUrl url handle
  | .error e => return .error (.failed e)

/-- Whether two named operations are the same. They must be of one kind. -/
def sameOperation (first second : String) : Scene Answer := do
  let stage ← Program.look (·.world)
  match stage.operations.get? first, stage.operations.get? second with
  | some a, some b =>
    return if a.kind = b.kind then .flag (a.serial = b.serial) else .error .noOperation
  | _, _ => return .error .noOperation

def callOperation (name locator : String) (isLocal : Option Bool)
    (callback : Option (Outcome → Code Stage)) : Scene Answer := do
  let stage ← Program.look (·.world)
  match stage.operations.get? name with
  | none => return .error .noOperation
  | some operation =>
    match operation.kind, isLocal with
    | .searcher, _ => return .error .noOperation
    | _, none => return .error (.badInput "local")
    | .importer, some isLocal =>
      return answerDone (← Program.importFile operation ⟨locator, isLocal⟩ callback)
    | .executer, some isLocal =>
      return answerOutcome (← Program.call operation ⟨locator, isLocal⟩)

/-- Makes an operation and keeps it under a name. -/
def keepOperation (kind : OperationKind) (context : Url) (name : String) : Scene Answer := do
  let operation ← Program.operation kind context
  Program.touch fun stage ↦ { stage with operations := stage.operations.insert name operation }
  return .operation operation

def changeShelf (change : Shelf → Shelf) : Scene Answer := do
  Program.touch fun stage ↦ { stage with shelf := change stage.shelf }
  return .ok

/-- Holds a caching guard under a name. One that was held under the name is dropped afterwards. -/
def grab (name : String) : Scene Answer := do
  let stage ← Program.look (·.world)
  let resolver := Stage.resolver stage.shelving
  Program.touch resolver.enableCaching
  if stage.guards.contains name then Program.touch resolver.disableCaching
  else Program.touch fun stage ↦ { stage with guards := name :: stage.guards }
  return .ok

/-- Drops the caching guard of a name; whether one was held. -/
def ungrab (name : String) : Scene Answer := do
  let stage ← Program.look (·.world)
  if stage.guards.contains name then
    Program.touch fun stage ↦ { stage with guards := stage.guards.filter (· ≠ name) }
    Program.touch (Stage.resolver stage.shelving).disableCaching
    return .flag true
  else return .flag false

def setHost (names : List String) (values : List Value) : Scene Answer := do
  match HostBindings.pair names values with
  | .ok host =>
    Program.setHost host
    return .ok
  | .error e => return .error (.failed e)

/-- The units that a unit depends on, and their statuses. -/
def closureOf (id : UnitId) : Scene Answer := do
  let view ← Program.observe
  let units := (view.closure id).filterMap view.unit?
  return .closure (units.map fun unit ↦ (unit.info.url, unit.info.status))

def settings : Scene Answer := do
  let view ← Program.observe
  let includePaths := (Stage.resolver view.world.shelving).includePaths view.world
  return .info view.base includePaths view.world.headerLines view.config.sourceMaps

/-- Performs an action. What is done when a load or an import is over is given as code. -/
def perform (action : Action) (afterLoad : Option (Code Stage))
    (afterImport : Option (Outcome → Code Stage)) : Scene Answer :=
  match action with
  | .put url file => changeShelf (·.put url file)
  | .delete url => changeShelf (·.delete url)
  | .gate key => changeShelf (·.gate key)
  | .releaseGate key => changeShelf (·.release key)
  | .openUrl url handle => withLoader (openUrl url handle)
  | .openPath path handle => withLoader (openPath path handle)
  | .createFromSource url code dependencies handle => withLoader do
    keepCreated handle (← Program.createFromSource url code dependencies)
  | .createFromFunction url code dependencies name handle => withLoader do
    keepCreated handle
      (← Program.createFromFunction url (LineScript.callable name code) dependencies)
  | .createFromResource resource handle => withLoader do
    keepCreated handle (← Program.createFromResource resource)
  | .cachedUnit url handle => withLoader do
    match ← Program.look (·.cachedUnit? url) with
    | some id => keepUnit handle id
    | none => return .noUnit
  | .loadDependencies unit => withLoader (withUnit unit fun id _ ↦ do
    return answerDone (← Program.loadDependencies id afterLoad))
  | .load unit => withLoader (withUnit unit fun id _ ↦ do
    return answerAwaited answerDone (← Program.load id))
  | .run unit => withLoader (withUnit unit fun id _ ↦ do
    return answerAwaited answerOutcome (← Program.run id))
  | .execute unit => withLoader (withUnit unit fun id _ ↦ do
    return answerOutcome (← Program.execute id))
  | .drive => withLoader do
    return answerAwaited answerDone (← Program.drive)
  | .importFile reference => withLoader do
    return answerDone (← Program.importTopLevel reference afterImport)
  | .operation kind context name => withLoader (keepOperation kind context name)
  | .call operation locator isLocal => callOperation operation locator isLocal afterImport
  | .sameOperation operation other => sameOperation operation other
  | .sameUnit unit other => withUnit unit fun a _ ↦ withUnit other fun b _ ↦
    return .flag (a = b)
  | .inspect unit => withUnit unit fun _ unit ↦ return .inspection unit
  | .bundle unit => withUnit unit fun _ unit ↦
    return match unit.info.markedString with
      | .ok text => .text text
      | .error e => .error (.failed e)
  | .describe unit => withUnit unit fun _ unit ↦ return .text (describeUnit unit.info)
  | .closure unit => withLoader (withUnit unit fun id _ ↦ closureOf id)
  | .functionSource name => do
    let sources ← Program.look (·.world.sources)
    return .source (sources.find? (·.displayName = name))
  | .global name => do
    return .maybeValue (← Program.look (·.scope.get? name))
  | .setGlobal name value => do
    Program.bindGlobal name value
    return .ok
  | .setHost names values => withLoader (setHost names values)
  | .setSubstitutions substitutions => withLoader do
    Program.setSubstitutions substitutions
    return .ok
  | .setSink label refuses => withLoader do
    Program.touch fun stage ↦ { stage with sink := (label, refuses) }
    return .ok
  | .grab name => grab name
  | .ungrab name => ungrab name
  | .info => withLoader settings
  | .probe => withLoader do
    return .text (Scene.probeText (← Program.observe))
  | .reset => withLoader do
    Program.reset
    return .ok
  | .dropLoader => do
    let hasLoader ← Program.look (·.world.hasLoader)
    Program.touch fun stage ↦ { stage with hasLoader := false }
    return .flag hasLoader
  | .reject error => return .error error

/-- The answer of a nested step in the log. -/
def describeAnswer : Answer → String
  | .stalled => "stalled"
  | .error error => error.describe
  | _ => "ok"

mutual

/-- A step as a program. -/
def scene : Step → Scene Answer
  | .mk _ action none => perform action none none
  | .mk _ action (some callback) =>
    perform action (some (loadCode callback)) (some (importCode callback))

/-- What a callback does when a load is over. -/
def loadCode : StepCallback → Code Stage
  | .mk label steps failure =>
    Scene.note ("cb " ++ label) fun _ ↦
      nested steps fun _ ↦
        .finish (match failure with
          | some message => .error (.engine message)
          | none => .ok .undefined)

/-- What a callback does with the outcome of an import. -/
def importCode : StepCallback → Outcome → Code Stage
  | .mk label steps _, outcome =>
    Scene.note ("cb " ++ label ++ " " ++ describeOutcome outcome) fun _ ↦
      nested steps fun _ ↦ .finish (.ok .undefined)

/-- The steps of a callback, whose answers go into the log. -/
def nested : List Step → Scene Unit
  | [] => fun next ↦ next ()
  | .mk name action callback :: rest => fun next ↦
    scene (.mk name action callback) fun answer ↦
      Scene.note ("nested " ++ name ++ " => " ++ describeAnswer answer) fun _ ↦ nested rest next

end

/-! ## Records -/

/-- What can be seen after a step. -/
structure Record where
  answer : Answer
  isWaveActive : Bool
  outstanding : Nat
  pending : Nat
  /-- The nesting depth of caching on a shelf; whether caching is on, on a disk. -/
  caching : Int ⊕ Bool
  /-- How many files are kept, on a disk. -/
  cachedFiles : Option Nat
  units : List (String × UnitView)
  events : List String
  /-- What was written, by the label of the sink. -/
  written : List (String × String)

/-- The record of the step that has been run. -/
def record {χ : Type} (l : Loader Stage χ) : Record :=
  let stage := l.world
  { answer := stage.answer
    isWaveActive := l.wave.isSome
    outstanding := (l.wave.map (·.outstanding)).getD 0
    pending := l.lookups.length
    caching :=
      if stage.shelving = .disk then .inr stage.fileResolver.isCaching else .inl stage.cachingDepth
    cachedFiles :=
      if stage.shelving = .disk then some stage.fileResolver.cachedFiles else none
    units := stage.handles.bindings.filterMap fun (name, id) ↦
      (l.unit? id).map fun unit ↦ (name, unit.view)
    events := stage.log.reverse
    written := stage.written.bindings.filter (!·.2.isEmpty) }

/-- Runs a step. A loader that the step has given up goes at its end. -/
def runStep {χ : Type} (p : Platform Stage χ) (l : Loader Stage χ) (step : Step) :
    Loader Stage χ :=
  let code : Code Stage :=
    scene step fun answer ↦
      .touch (fun stage ↦ { stage with answer })
        (.observe fun view ↦
          if view.world.hasLoader then .finish (.ok .undefined)
          else .release (.finish (.ok .undefined)))
  let m : Machine Stage χ := { loader := l, control := .running code }
  (m.run p Machine.maxSteps).loader

/-- Runs the steps of a session, and makes a record after each. -/
def runSteps {χ : Type} (p : Platform Stage χ) (l : Loader Stage χ) : List Step → List Record
  | [] => []
  | step :: rest =>
    let l := runStep p l step
    record l :: runSteps p (l.touch fun stage ↦ { stage with log := [], written := {} }) rest

def platform {χ : Type} (shelving : Shelving) (compiler : Option (Compiler Stage χ)) :
    Platform Stage χ where
  resolver := Stage.resolver shelving
  engine := LineScript.engine
  compiler := compiler.map logged
  write := Stage.write

end Session

end ScriptLoader.Rehearsal
