import ScriptLoader.Loader.Cache
import ScriptLoader.Loader.Function
import ScriptLoader.Table
import ScriptLoader.Value

/-!
# Code that runs with a loader

Bodies of units, callbacks and whole sessions are code of one kind: a tree of the things they ask of
the loader, each with what comes next for every answer. A loader runs such code one request at a
time, so it can be entered again from within a callback, and nothing about the code is assumed
beyond what it asks.

## Views

Code looks at a loader through a `View`, which shows the units, the tables and what is going on, and
lets nothing be changed. The world is what lies outside the loader: files, the state of an engine,
the log of a session.

## Programs

`Program` is code that computes something on the way. It makes `do` notation available for writing
trees.
-/

namespace ScriptLoader

/-- The bindings that all executing code of a loader shares. -/
abbrev Scope := Table String Value

/-- How a piece of code ended. -/
abbrev Outcome := Except LoaderError Value

/-- How something ended that had to wait for lookups. -/
inductive Awaited (α : Type) where
  | settled (result : Except LoaderError α)
  /-- No lookup could be completed, so the wait was given up. -/
  | stalled

structure UnitView where
  info : UnitInfo
  /-- How many callbacks wait for its dependencies. -/
  pendingCallbacks : Nat
  /-- Whether the second pass has not begun. -/
  needsCompilation : Bool

structure View (ω : Type) where
  world : ω
  unit? : UnitId → Option UnitView
  /-- How many units have ever been made. -/
  unitCount : Nat
  cachedUnit? : Url → Option UnitId
  cachedResult? : String → Option UnitId
  executing : Option UnitId
  compiling : Option UnitId
  /-- How many references of the active wave are unsettled, if a wave is active. -/
  outstanding : Option Nat
  /-- How many lookups wait to be completed. -/
  pendingLookups : Nat
  host : HostBindings
  base : Url
  config : Config
  scope : Scope

/-- What running code is given. -/
structure Arguments where
  /-- Executes loaded files from the directory of the unit. -/
  executer : Operation
  /-- Imports files from there. -/
  importer : Operation
  /-- The arguments for the further parameters. -/
  extras : List Value

/-- Code over a world. -/
inductive Code (ω : Type) where
  | finish (outcome : Outcome)
  | observe (next : View ω → Code ω)
  | touch (change : ω → ω) (next : Code ω)
  | bindGlobal (name : String) (value : Value) (next : Code ω)
  /-- Asks for the dependencies of a unit to be loaded, with a callback for when they are. -/
  | loadDependencies (unit : UnitId) (callback : Option (Code ω))
      (next : Except LoaderError Unit → Code ω)
  /-- Completes lookups until none are left. -/
  | drive (next : Awaited Unit → Code ω)
  | execute (unit : UnitId) (next : Outcome → Code ω)
  /-- Executes a loaded file by reference. -/
  | call (executer : Operation) (reference : Reference) (next : Outcome → Code ω)
  /-- Imports a file by reference, with a callback for its outcome. -/
  | importFile (importer : Operation) (reference : Reference)
      (callback : Option (Outcome → Code ω)) (next : Except LoaderError Unit → Code ω)
  /-- Finds the unit of a URL, waiting for the lookup. -/
  | openUnit (url : Url) (next : Awaited UnitId → Code ω)
  /-- Makes a unit of code. Without a URL it gets a numbered name that is resolved against the base;
  another unit may have it if a file is named so. -/
  | createFromSource (url : Option Url) (code : String) (dependencies : List Reference)
      (next : Except LoaderError UnitId → Code ω)
  | createFromFunction (url : Option Url) (body : Arguments → Code ω)
      (dependencies : List Reference) (next : Except LoaderError UnitId → Code ω)
  /-- Makes the unit of a file that was found. -/
  | createFromResource (resource : Resource) (next : Except LoaderError UnitId → Code ω)
  /-- Gets an operation bound to a directory. -/
  | operation (kind : OperationKind) (context : Url) (next : Operation → Code ω)
  /-- Forgets everything that is remembered between loads. -/
  | reset (next : Code ω)
  /-- Sets the further parameters of functions. -/
  | setHost (host : HostBindings) (next : Code ω)
  /-- Sets the substitutions of operations that are made from now on. -/
  | setSubstitutions (substitutions : Substitutions) (next : Code ω)
  /-- Gives the loader up. Operations that outlive it fail. -/
  | release (next : Code ω)

/-- What can be called: code for each list of arguments. -/
abbrev Callable (ω : Type) := Arguments → Code ω

/-- Code that computes an `α` on the way to its end. -/
def Program (ω α : Type) := (α → Code ω) → Code ω

namespace Program

variable {ω α : Type}

instance : Monad (Program ω) where
  pure a := fun next ↦ next a
  bind p f := fun next ↦ p fun a ↦ f a next

/-- The code of a program that computes how it ends. -/
def code (p : Program ω Outcome) : Code ω := p .finish

/-! ### Single requests -/

def observe : Program ω (View ω) := fun next ↦ .observe next

/-- Looks at one thing. -/
def look (f : View ω → α) : Program ω α := fun next ↦ .observe fun view ↦ next (f view)

def touch (change : ω → ω) : Program ω Unit := fun next ↦ .touch change (next ⟨⟩)

def bindGlobal (name : String) (value : Value) : Program ω Unit := fun next ↦
  .bindGlobal name value (next ⟨⟩)

def loadDependencies (unit : UnitId) (callback : Option (Code ω)) :
    Program ω (Except LoaderError Unit) := fun next ↦ .loadDependencies unit callback next

def drive : Program ω (Awaited Unit) := fun next ↦ .drive next

def execute (unit : UnitId) : Program ω Outcome := fun next ↦ .execute unit next

def call (executer : Operation) (reference : Reference) : Program ω Outcome := fun next ↦
  .call executer reference next

def importFile (importer : Operation) (reference : Reference)
    (callback : Option (Outcome → Code ω)) : Program ω (Except LoaderError Unit) := fun next ↦
  .importFile importer reference callback next

def openUnit (url : Url) : Program ω (Awaited UnitId) := fun next ↦ .openUnit url next

def createFromSource (url : Option Url) (code : String) (dependencies : List Reference) :
    Program ω (Except LoaderError UnitId) := fun next ↦
  .createFromSource url code dependencies next

def createFromFunction (url : Option Url) (body : Callable ω) (dependencies : List Reference) :
    Program ω (Except LoaderError UnitId) := fun next ↦
  .createFromFunction url body dependencies next

def createFromResource (resource : Resource) : Program ω (Except LoaderError UnitId) :=
  fun next ↦ .createFromResource resource next

def operation (kind : OperationKind) (context : Url) : Program ω Operation := fun next ↦
  .operation kind context next

def reset : Program ω Unit := fun next ↦ .reset (next ⟨⟩)

def setHost (host : HostBindings) : Program ω Unit := fun next ↦ .setHost host (next ⟨⟩)

def setSubstitutions (substitutions : Substitutions) : Program ω Unit := fun next ↦
  .setSubstitutions substitutions (next ⟨⟩)

def release : Program ω Unit := fun next ↦ .release (next ⟨⟩)

/-! ### Several requests -/

/-- The error for a unit that is still not loaded when no wave is active. -/
def loadFailure? (unit : UnitId) (view : View ω) : Option LoaderError :=
  match view.unit? unit with
  | some seen =>
    if seen.info.status ≠ .loaded && view.outstanding.isNone then
      some (.incompleteLoad seen.info.url.text)
    else none
  | none => none

/-- Loads the dependencies of a unit and waits for them. The unit may still not be loaded after all
lookups have been completed, namely when an earlier failure left it waiting. -/
def load (unit : UnitId) : Program ω (Awaited Unit) := do
  match ← loadDependencies unit none with
  | .error e => pure (.settled (.error e))
  | .ok _ =>
    match ← drive with
    | .settled (.ok _) =>
      match ← look (loadFailure? unit) with
      | some e => pure (.settled (.error e))
      | none => pure (.settled (.ok ()))
    | other => pure other

/-- Loads a unit and executes it. -/
def run (unit : UnitId) : Program ω (Awaited Value) := do
  match ← load unit with
  | .settled (.ok _) => return .settled (← execute unit)
  | .settled (.error e) => return .settled (.error e)
  | .stalled => return .stalled

def importTopLevel (reference : Reference) (callback : Option (Outcome → Code ω)) :
    Program ω (Except LoaderError Unit) := do
  let base ← look (·.base)
  let importer ← operation .importer base
  importFile importer reference callback

end Program

namespace View

variable {ω : Type}

/-- Where a walk through dependencies has been, and the units it has listed. -/
structure Walk where
  seen : List Url := []
  listed : List UnitId := []

/-- Walks to a unit: first to what its references led to, then the unit is listed itself. A URL that
has been seen is not walked to again, so `depth` need not exceed the number of units. -/
def walk (view : View ω) : (depth : Nat) → UnitId → Walk → Walk
  | 0, _, w => w
  | depth + 1, unit, w =>
    match view.unit? unit with
    | none => w
    | some ⟨info, _, _⟩ =>
      if w.seen.contains info.url then w
      else
        let targets := info.dependencies.filterMap fun d ↦ view.cachedResult? (info.key d)
        let w := targets.foldl (fun w target ↦ walk view depth target w)
          { w with seen := info.url :: w.seen }
        { w with listed := w.listed ++ [unit] }

/-- A unit and all units that its references lead to, dependencies first. References that have led
nowhere yet are skipped. -/
def closure (view : View ω) (unit : UnitId) : List UnitId :=
  (view.walk view.unitCount unit {}).listed

end View

end ScriptLoader
