import ScriptLoader.Loader.Platform

/-!
# The state of a loader

A loader has its units, its tables, the lookups that are under way, and at most one wave. A *wave*
loads everything that one unit depends on, directly or not. Units join it as they are found, and it
counts the references that are not settled yet; when none is left, all its units are loaded at once
and their callbacks are called.

## Running

Code runs on a stack. A frame says what waits for the outcome of what is above it: code that asked
for something, or the loader in the middle of some work. Both are data, so a loader can be entered
again at any depth, and each step is an ordinary function of the state.

## The journal

The journal lists what the loader has done, the latest first. Nothing in the loader depends on it.
-/

namespace ScriptLoader

variable {ω χ : Type}

/-- What waits for the dependencies of a unit. -/
inductive Callback (ω : Type) where
  /-- Code that was to be run then. -/
  | code (code : Code ω)
  /-- An import of the unit: it is executed, and the outcome is handed on. The import has kept
  resolver caching on so far. -/
  | importing (deliver : Option (Outcome → Code ω))

/-- The code of a unit. -/
inductive Body (ω χ : Type) where
  | ready (callable : Callable ω)
  /-- The first pass of a compiler is done. -/
  | pending (compiler : Compiler ω χ) (file : χ)
  /-- The second pass is under way. -/
  | compiling
  /-- The second pass has failed. -/
  | failed

structure LoadedUnit (ω χ : Type) where
  info : UnitInfo
  body : Body ω χ
  /-- The callbacks that wait, the oldest first. -/
  callbacks : List (Callback ω) := []

/-- Whether the second pass has not begun. -/
def Body.isPending : Body ω χ → Bool
  | pending .. => true
  | _ => false

def LoadedUnit.view (unit : LoadedUnit ω χ) : UnitView :=
  ⟨unit.info, unit.callbacks.length, unit.body.isPending⟩

/-- What a lookup is for. -/
inductive Purpose (ω : Type) where
  /-- For the active wave. -/
  | wave
  /-- For an import, with the callback for its outcome. The import keeps resolver caching on. -/
  | importing (deliver : Option (Outcome → Code ω))

/-- Whether something is done for an import, which keeps resolver caching on. -/
def Purpose.isImport : Purpose ω → Bool
  | wave => false
  | importing _ => true

/-- Whether a callback belongs to an import, which keeps resolver caching on. -/
def Callback.isImport : Callback ω → Bool
  | code _ => false
  | importing _ => true

structure Lookup (ω : Type) where
  ticket : Ticket
  /-- The key of the reference that is looked up. -/
  key : String
  locator : String
  /-- The file that asked, if one is known. -/
  origin : Option Url
  purpose : Purpose ω

/-- The units that are being loaded together. -/
structure Wave where
  /-- In the order in which they joined. -/
  participants : List UnitId := []
  /-- How many of their references are not settled. -/
  outstanding : Nat := 0
  deriving DecidableEq, Repr

/-- Something that a loader has done. -/
inductive Event where
  /-- A unit joined the wave. -/
  | joined (unit : UnitId)
  /-- A unit was to join, but no wave was active. -/
  | turnedAway (unit : UnitId)
  /-- A reference of the wave was looked up or found among the results. -/
  | searched (key : String)
  /-- A reference of the wave was settled; how many were not before, if a wave was active. -/
  | settled (before : Option Nat)
  /-- A lookup of a reference was started. -/
  | lookedUp (key : String) (request : Request) (forImport : Bool)
  /-- A lookup of a reference found the file of a URL. -/
  | found (key : String) (url : Url)
  /-- The wave of these units was closed. -/
  | closed (participants : List UnitId)
  /-- A callback of a unit was called. -/
  | delivered (unit : UnitId)
  /-- A wave or lookups were dropped because of an error. -/
  | aborted (error : LoaderError)
  /-- What is remembered between loads was forgotten. -/
  | reset
  /-- The loader was given up. -/
  | released
  /-- The first pass of the file of a URL succeeded, or the file was decoded as a bundle. -/
  | read (url : Url)
  /-- A file of a URL led to a unit. -/
  | obtained (url : Url) (unit : UnitId)
  /-- A file of a URL could not be made into a unit. -/
  | refused (url : Url)
  /-- A function was asked for. -/
  | synthesized (source : FunctionSource)
  /-- The second pass of a unit was run. -/
  | compiled (unit : UnitId)
  /-- The body of a unit was called. -/
  | called (unit : UnitId)
  deriving DecidableEq, Repr

/-- A loader, apart from the code that is running. -/
structure Loader (ω χ : Type) where
  world : ω
  base : Url
  config : Config := {}
  units : List (LoadedUnit ω χ) := []
  cache : ResolutionCache UnitId := {}
  wave : Option Wave := none
  /-- The lookups under way, in the order in which they were started. -/
  lookups : List (Lookup ω) := []
  /-- The unit whose body is running. -/
  executing : Option UnitId := none
  /-- The unit whose second pass is under way. -/
  compiling : Option UnitId := none
  host : HostBindings := {}
  substitutions : Substitutions := config.substitutions
  scope : Scope := {}
  /-- How many units have been named by the loader. -/
  anonymousCount : Nat := 0
  /-- How many operations have been made. -/
  operationCount : Nat := 0
  /-- Whether the loader has been given up. -/
  released : Bool := false
  journal : List Event := []

/-- A second pass that is under way. -/
structure SecondPass (ω χ : Type) where
  unit : UnitId
  url : Url
  directory : Url
  compiler : Compiler ω χ
  file : χ
  /-- The dependencies that are still to be executed. -/
  rest : List Reference
  /-- Which unit was compiling before. -/
  previous : Option UnitId

/-- What waits on the stack for the outcome of what is above it. -/
inductive Frame (ω χ : Type) where
  /-- Code that goes on with an outcome. -/
  | resume (next : Outcome → Code ω)
  /-- Code that goes on with a success or an error. -/
  | resumeAfter (next : Except LoaderError Unit → Code ω)
  /-- Code that completes lookups. -/
  | driving (next : Awaited Unit → Code ω)
  /-- A call of a body; which unit was executing before. -/
  | calling (previous : Option UnitId)
  /-- A second pass that is executing dependencies. -/
  | compiling (pass : SecondPass ω χ) (executer : Operation)
  /-- A unit that has joined the wave, with the references that are still to be looked up. -/
  | dispatching (unit : UnitId) (searcher : Operation) (rest : List Reference)
  /-- The closing of a wave, with the callbacks of a unit that are still to be called, and the units
  whose callbacks come after. -/
  | draining (unit : UnitId) (callbacks : List (Callback ω)) (rest : List UnitId)
  /-- An import whose file is being executed. -/
  | delivering (deliver : Option (Outcome → Code ω))
  /-- A callback of an import, whose outcome does not matter. -/
  | ignoring
  /-- A request that drops the wave and all lookups when it fails. -/
  | aborting

/-- What is going on at the top of the stack. -/
inductive Control (ω : Type) where
  | running (code : Code ω)
  | returning (outcome : Outcome)

/-- A loader with running code. -/
structure Machine (ω χ : Type) where
  loader : Loader ω χ
  control : Control ω
  stack : List (Frame ω χ) := []

namespace Loader

def unit? (l : Loader ω χ) (id : UnitId) : Option (LoadedUnit ω χ) := l.units[id]?

def modifyUnit (l : Loader ω χ) (id : UnitId) (change : LoadedUnit ω χ → LoadedUnit ω χ) :
    Loader ω χ :=
  { l with units := l.units.modify id change }

def setStatus (l : Loader ω χ) (id : UnitId) (status : LoadStatus) : Loader ω χ :=
  l.modifyUnit id fun unit ↦ { unit with info := { unit.info with status } }

def setBody (l : Loader ω χ) (id : UnitId) (body : Body ω χ) : Loader ω χ :=
  l.modifyUnit id fun unit ↦ { unit with body }

def addUnit (l : Loader ω χ) (unit : LoadedUnit ω χ) : Loader ω χ × UnitId :=
  ({ l with units := l.units ++ [unit] }, l.units.length)

def touch (l : Loader ω χ) (change : ω → ω) : Loader ω χ := { l with world := change l.world }

def record (l : Loader ω χ) (event : Event) : Loader ω χ :=
  { l with journal := event :: l.journal }

def isLoaded (l : Loader ω χ) (id : UnitId) : Bool :=
  match l.unit? id with
  | some unit => unit.info.status = .loaded
  | none => false

def view (l : Loader ω χ) : View ω where
  world := l.world
  unit? id := (l.unit? id).map LoadedUnit.view
  unitCount := l.units.length
  cachedUnit? := l.cache.unit?
  cachedResult? := l.cache.result?
  executing := l.executing
  compiling := l.compiling
  outstanding := l.wave.map (·.outstanding)
  pendingLookups := l.lookups.length
  host := l.host
  base := l.base
  config := l.config
  scope := l.scope

/-- The operation of a kind bound to a directory, made if there is none yet. -/
def operation (l : Loader ω χ) (kind : OperationKind) (context : Url) :
    Loader ω χ × Operation :=
  let key := (kind, context.text)
  match l.cache.operations.get? key with
  | some operation => (l, operation)
  | none =>
    let operation :=
      { kind, context, serial := l.operationCount, substitutions := l.substitutions }
    ({ l with
        operationCount := l.operationCount + 1
        cache := { l.cache with operations := l.cache.operations.insert key operation } },
      operation)

end Loader

namespace Machine

/-- Returns an outcome to the stack. -/
def give (m : Machine ω χ) (outcome : Outcome) : Machine ω χ :=
  { m with control := .returning outcome }

def done (m : Machine ω χ) : Machine ω χ := m.give (.ok .undefined)

def throw (m : Machine ω χ) (error : LoaderError) : Machine ω χ := m.give (.error error)

def start (m : Machine ω χ) (code : Code ω) : Machine ω χ := { m with control := .running code }

def push (m : Machine ω χ) (frame : Frame ω χ) : Machine ω χ :=
  { m with stack := frame :: m.stack }

def update (m : Machine ω χ) (change : Loader ω χ → Loader ω χ) : Machine ω χ :=
  { m with loader := change m.loader }

/-- Whether all code has ended. -/
def isHalted (m : Machine ω χ) : Bool :=
  match m.control, m.stack with
  | .returning _, [] => true
  | _, _ => false

end Machine

end ScriptLoader
