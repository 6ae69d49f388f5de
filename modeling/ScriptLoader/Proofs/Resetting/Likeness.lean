import Mathlib.Data.List.Forall2
import Mathlib.Data.Option.Basic
import ScriptLoader.Loader.Step
import ScriptLoader.Proofs.Url.Naming

/-!
# What is alike in two runs

A loader that has forgotten what it remembered goes on like a new one, but the two are not equal.
The first has units and operations from before, so it counts further units and operations from a
higher number on, and the names that it makes up have higher numbers too. Two runs are *alike* if
they differ in nothing else.

Code is part of a run, and code can use whatever it is given. So code is alike if it asks for things
that are alike, and for answers that are alike goes on with code that is alike. In particular, code
is like itself if it has no unit and no operation but those it is given, and does not look into
numbers. The parts of the platform have to be like themselves in the same sense.

## What is left open

A `Likeness` leaves open when worlds, files between the passes of the compiler and values are alike:
a world may hold a log of names, a value may show one. It also leaves open which URLs are given to
loaders from outside. In all other respects there is nothing to choose.
-/

namespace ScriptLoader

variable {ω χ : Type}

/-- How runs that go on from a machine compare with those of a new loader. -/
structure Likeness (ω χ : Type) where
  /-- The machine in which everything is to be forgotten. -/
  before : Machine ω χ
  /-- The URLs that units and files may have, apart from names that a loader makes up. -/
  given : Url → Prop
  world : ω → ω → Prop
  file : χ → χ → Prop
  value : Value → Value → Prop
  value_refl : ∀ v, value v v

namespace Likeness

variable (R : Likeness ω χ)

/-! ## Names and numbers -/

/-- The number that a unit of the new loader has in the old one. -/
def shift (id : UnitId) : UnitId := id + R.before.loader.units.length

/-- The operation that the old loader has for one of the new loader. -/
def later (operation : Operation) : Operation :=
  { operation with serial := operation.serial + R.before.loader.operationCount }

def laterWave (wave : Wave) : Wave := { wave with participants := wave.participants.map R.shift }

/-- Units are alike if they have been made at the same time after the reset. -/
def Ids (id id' : UnitId) : Prop := id = R.shift id'

/-- The URL of a unit without one, by number. -/
def anonymous (number : Nat) : Url :=
  R.before.loader.base.named (Url.anonymousName number).toList

/-- URLs are alike if they are the same or differ in the number of a name that was made up. -/
inductive Urls : Url → Url → Prop
  | given {url : Url} (given : R.given url) : Urls url url
  | numbered (number : Nat) :
      Urls (R.anonymous (number + R.before.loader.anonymousCount)) (R.anonymous number)

/-- Errors are alike if they are about URLs that are. -/
inductive Errors : LoaderError → LoaderError → Prop
  | same (error : LoaderError) : Errors error error
  | resolutionFailure (locator : String) (includePaths : List String) {url url' : Url}
      (urls : R.Urls url url') :
      Errors (.resolutionFailure locator (some url.text) includePaths)
        (.resolutionFailure locator (some url'.text) includePaths)
  | reentrancyViolation {url url' : Url} (urls : R.Urls url url') :
      Errors (.reentrancyViolation url.text) (.reentrancyViolation url'.text)
  | incompleteLoad {url url' : Url} (urls : R.Urls url url') :
      Errors (.incompleteLoad url.text) (.incompleteLoad url'.text)
  | compilation {url url' : Url} (urls : R.Urls url url') :
      Errors (.compilation url.text) (.compilation url'.text)
  | notCompiled {url url' : Url} (urls : R.Urls url url') :
      Errors (.notCompiled url.text) (.notCompiled url'.text)

section

variable {α β : Type} (rel : α → β → Prop)

inductive Results : Except LoaderError α → Except LoaderError β → Prop
  | ok {a : α} {b : β} (related : rel a b) : Results (.ok a) (.ok b)
  | error {error error' : LoaderError} (errors : R.Errors error error') :
      Results (.error error) (.error error')

inductive Waits : Awaited α → Awaited β → Prop
  | settled {result : Except LoaderError α} {result' : Except LoaderError β}
      (results : R.Results rel result result') : Waits (.settled result) (.settled result')
  | stalled : Waits .stalled .stalled

end

abbrev Outcomes : Outcome → Outcome → Prop := R.Results R.value

/-! ## What can be seen -/

structure Infos (info info' : UnitInfo) : Prop where
  url : R.Urls info.url info'.url
  directory : info.directory = info'.directory
  dependencies : info.dependencies = info'.dependencies
  status : info.status = info'.status
  code : info.code = info'.code
  sourceMap : info.sourceMap = info'.sourceMap

structure UnitViews (unit unit' : UnitView) : Prop where
  info : R.Infos unit.info unit'.info
  pendingCallbacks : unit.pendingCallbacks = unit'.pendingCallbacks
  needsCompilation : unit.needsCompilation = unit'.needsCompilation

def Bindings (bindings bindings' : List (String × Value)) : Prop :=
  List.Forall₂ (fun binding binding' ↦ binding.1 = binding'.1 ∧ R.value binding.2 binding'.2)
    bindings bindings'

/-- Views are alike if they show the same of units that have been made since, and of all else. -/
structure Views (view view' : View ω) : Prop where
  world : R.world view.world view'.world
  unit : ∀ id, Option.Rel R.UnitViews (view.unit? (R.shift id)) (view'.unit? id)
  made : ∀ id, (view'.unit? id).isSome ↔ id < view'.unitCount
  unitCount : view.unitCount = R.shift view'.unitCount
  cachedUnit : ∀ url, view.cachedUnit? url = (view'.cachedUnit? url).map R.shift
  cachedResult : ∀ key, view.cachedResult? key = (view'.cachedResult? key).map R.shift
  executing : view.executing = view'.executing.map R.shift
  compiling : view.compiling = view'.compiling.map R.shift
  outstanding : view.outstanding = view'.outstanding
  pendingLookups : view.pendingLookups = view'.pendingLookups
  host : R.Bindings view.host.bindings view'.host.bindings
  base : view.base = view'.base
  config : view.config = view'.config
  scope : R.Bindings view.scope.bindings view'.scope.bindings

/-- Arguments are alike if their operations are those of the same directories. -/
structure Supplies (arguments arguments' : Arguments) : Prop where
  executer : arguments.executer = R.later arguments'.executer
  importer : arguments.importer = R.later arguments'.importer
  extras : List.Forall₂ R.value arguments.extras arguments'.extras

/-! ## Code -/

/-- Code is alike if it asks for things that are alike, and goes on with code that is alike for
answers that are alike. -/
inductive Codes : Code ω → Code ω → Prop
  | finish {outcome outcome' : Outcome} (outcomes : R.Outcomes outcome outcome') :
      Codes (.finish outcome) (.finish outcome')
  | observe {next next' : View ω → Code ω}
      (continues : ∀ {view view'}, R.Views view view' → Codes (next view) (next' view')) :
      Codes (.observe next) (.observe next')
  | touch {change change' : ω → ω} {next next' : Code ω}
      (changes : ∀ {world world'}, R.world world world' → R.world (change world) (change' world'))
      (continues : Codes next next') : Codes (.touch change next) (.touch change' next')
  | bindGlobal (name : String) {value value' : Value} {next next' : Code ω}
      (values : R.value value value') (continues : Codes next next') :
      Codes (.bindGlobal name value next) (.bindGlobal name value' next')
  | loadDependencies (id : UnitId) {callback callback' : Option (Code ω)}
      {next next' : Except LoaderError Unit → Code ω}
      (given : callback.isSome = callback'.isSome)
      (callbacks : ∀ {code code'}, callback = some code → callback' = some code' →
        Codes code code')
      (continues : ∀ {result result'}, R.Results Eq result result' →
        Codes (next result) (next' result')) :
      Codes (.loadDependencies (R.shift id) callback next) (.loadDependencies id callback' next')
  | drive {next next' : Awaited Unit → Code ω}
      (continues : ∀ {result result'}, R.Waits Eq result result' →
        Codes (next result) (next' result')) :
      Codes (.drive next) (.drive next')
  | execute (id : UnitId) {next next' : Outcome → Code ω}
      (continues : ∀ {outcome outcome'}, R.Outcomes outcome outcome' →
        Codes (next outcome) (next' outcome')) :
      Codes (.execute (R.shift id) next) (.execute id next')
  | call (executer : Operation) (reference : Reference) {next next' : Outcome → Code ω}
      (continues : ∀ {outcome outcome'}, R.Outcomes outcome outcome' →
        Codes (next outcome) (next' outcome')) :
      Codes (.call (R.later executer) reference next) (.call executer reference next')
  | importFile (importer : Operation) (reference : Reference)
      {callback callback' : Option (Outcome → Code ω)}
      {next next' : Except LoaderError Unit → Code ω}
      (given : callback.isSome = callback'.isSome)
      (callbacks : ∀ {deliver deliver'}, callback = some deliver → callback' = some deliver' →
        ∀ {outcome outcome'}, R.Outcomes outcome outcome' →
          Codes (deliver outcome) (deliver' outcome'))
      (continues : ∀ {result result'}, R.Results Eq result result' →
        Codes (next result) (next' result')) :
      Codes (.importFile (R.later importer) reference callback next)
        (.importFile importer reference callback' next')
  | openUnit (url : Url) {next next' : Awaited UnitId → Code ω}
      (continues : ∀ {result result'}, R.Waits R.Ids result result' →
        Codes (next result) (next' result')) :
      Codes (.openUnit url next) (.openUnit url next')
  | createFromSource (url : Option Url) (code : String) (dependencies : List Reference)
      {next next' : Except LoaderError UnitId → Code ω} (given : ∀ u ∈ url, R.given u)
      (continues : ∀ {result result'}, R.Results R.Ids result result' →
        Codes (next result) (next' result')) :
      Codes (.createFromSource url code dependencies next)
        (.createFromSource url code dependencies next')
  | createFromFunction (url : Option Url) {body body' : Arguments → Code ω}
      (dependencies : List Reference) {next next' : Except LoaderError UnitId → Code ω}
      (given : ∀ u ∈ url, R.given u)
      (bodies : ∀ {arguments arguments'}, R.Supplies arguments arguments' →
        Codes (body arguments) (body' arguments'))
      (continues : ∀ {result result'}, R.Results R.Ids result result' →
        Codes (next result) (next' result')) :
      Codes (.createFromFunction url body dependencies next)
        (.createFromFunction url body' dependencies next')
  | createFromResource (resource : Resource) {next next' : Except LoaderError UnitId → Code ω}
      (given : R.given resource.url)
      (continues : ∀ {result result'}, R.Results R.Ids result result' →
        Codes (next result) (next' result')) :
      Codes (.createFromResource resource next) (.createFromResource resource next')
  | operation (kind : OperationKind) (context : Url) {next next' : Operation → Code ω}
      (continues : ∀ operation, Codes (next (R.later operation)) (next' operation)) :
      Codes (.operation kind context next) (.operation kind context next')
  | reset {next next' : Code ω} (continues : Codes next next') : Codes (.reset next) (.reset next')
  | setHost {host host' : HostBindings} {next next' : Code ω}
      (hosts : R.Bindings host.bindings host'.bindings) (continues : Codes next next') :
      Codes (.setHost host next) (.setHost host' next')
  | setSubstitutions (substitutions : Substitutions) {next next' : Code ω}
      (continues : Codes next next') :
      Codes (.setSubstitutions substitutions next) (.setSubstitutions substitutions next')
  | release {next next' : Code ω} (continues : Codes next next') :
      Codes (.release next) (.release next')

/-- What can be called is alike if it is alike for arguments that are. -/
def Callables (callable callable' : Callable ω) : Prop :=
  ∀ {arguments arguments'}, R.Supplies arguments arguments' →
    R.Codes (callable arguments) (callable' arguments')

/-- What an import hands its outcome to. -/
def Deliveries : Option (Outcome → Code ω) → Option (Outcome → Code ω) → Prop :=
  Option.Rel fun deliver deliver' ↦ ∀ {outcome outcome'}, R.Outcomes outcome outcome' →
    R.Codes (deliver outcome) (deliver' outcome')

/-! ## The platform -/

/-- Functions are alike if they are the same, or of the same code with URLs that are alike. -/
inductive Sources : FunctionSource → FunctionSource → Prop
  | same (source : FunctionSource) : Sources source source
  | assemble {host host' : HostBindings} (hosts : R.Bindings host.bindings host'.bindings)
      (headerLines : Nat) {url url' : Url} (urls : R.Urls url url') (code : String)
      (map : Option String) :
      Sources (.assemble host headerLines url code map) (.assemble host' headerLines url' code map)

/-- A compiler does alike with what is alike. -/
structure RespectsCompiler (compiler : Compiler ω χ) : Prop where
  firstPass : ∀ {view view' url}, R.Views view view' → R.given url → ∀ source,
    R.world (compiler.firstPass view source url).1 (compiler.firstPass view' source url).1 ∧
      R.Results (fun read read' ↦ read.1 = read'.1 ∧ R.file read.2 read'.2)
        (compiler.firstPass view source url).2 (compiler.firstPass view' source url).2
  enterImport : ∀ {world world' file file'}, R.world world world' → R.file file file' → ∀ name,
    R.world (compiler.enterImport world file name).1 (compiler.enterImport world' file' name).1 ∧
      R.file (compiler.enterImport world file name).2 (compiler.enterImport world' file' name).2
  leaveImport : ∀ {world world' file file'}, R.world world world' → R.file file file' →
    R.world (compiler.leaveImport world file).1 (compiler.leaveImport world' file').1 ∧
      R.file (compiler.leaveImport world file).2 (compiler.leaveImport world' file').2
  secondPass : ∀ {world world' file file'}, R.world world world' → R.file file file' →
    R.world (compiler.secondPass world file).1 (compiler.secondPass world' file').1 ∧
      R.file (compiler.secondPass world file).2.1 (compiler.secondPass world' file').2.1 ∧
      (compiler.secondPass world file).2.2 = (compiler.secondPass world' file').2.2
  diagnostics : ∀ {file file'}, R.file file file' →
    compiler.diagnostics file = compiler.diagnostics file'
  wording : ∀ {file file'}, R.file file file' → compiler.wording file = compiler.wording file'

/-- A platform does alike with what is alike. What is asked of it is the same but for worlds, the
engine apart: it is given functions with names in them. -/
structure Respects (p : Platform ω χ) : Prop where
  includePaths : ∀ {world world'}, R.world world world' →
    p.resolver.includePaths world = p.resolver.includePaths world'
  start : ∀ {world world'}, R.world world world' → ∀ request,
    R.world (p.resolver.start world request).1 (p.resolver.start world' request).1 ∧
      (p.resolver.start world request).2 = (p.resolver.start world' request).2
  next : ∀ {world world'}, R.world world world' → ∀ tickets,
    R.world (p.resolver.next? world tickets).1 (p.resolver.next? world' tickets).1 ∧
      (p.resolver.next? world tickets).2 = (p.resolver.next? world' tickets).2
  answer : ∀ {world world'}, R.world world world' → ∀ ticket,
    R.world (p.resolver.answer world ticket).1 (p.resolver.answer world' ticket).1 ∧
      (p.resolver.answer world ticket).2 = (p.resolver.answer world' ticket).2
  found : ∀ {world world' ticket resource}, R.world world world' →
    (p.resolver.answer world' ticket).2 = .ok (some resource) → R.given resource.url
  cancel : ∀ {world world'}, R.world world world' → ∀ tickets,
    R.world (p.resolver.cancel world tickets) (p.resolver.cancel world' tickets)
  enableCaching : ∀ {world world'}, R.world world world' →
    R.world (p.resolver.enableCaching world) (p.resolver.enableCaching world')
  disableCaching : ∀ {world world'}, R.world world world' →
    R.world (p.resolver.disableCaching world) (p.resolver.disableCaching world')
  headerLines : ∀ {world world'}, R.world world world' →
    p.engine.headerLines world = p.engine.headerLines world'
  synthesize : ∀ {world world' source source'}, R.world world world' → R.Sources source source' →
    R.world (p.engine.synthesize world source).1 (p.engine.synthesize world' source').1 ∧
      R.Results R.Callables (p.engine.synthesize world source).2
        (p.engine.synthesize world' source').2
  compiler : ∀ {compiler}, p.compiler = some compiler → R.RespectsCompiler compiler
  write : ∀ {world world'}, R.world world world' → ∀ piece,
    R.world (p.write world piece).1 (p.write world' piece).1 ∧
      R.Results Eq (p.write world piece).2 (p.write world' piece).2

/-! ## Loaders -/

inductive Bodies : Body ω χ → Body ω χ → Prop
  | ready {callable callable' : Callable ω} (callables : R.Callables callable callable') :
      Bodies (.ready callable) (.ready callable')
  | pending {compiler : Compiler ω χ} {file file' : χ} (respected : R.RespectsCompiler compiler)
      (files : R.file file file') : Bodies (.pending compiler file) (.pending compiler file')
  | compiling : Bodies .compiling .compiling
  | failed : Bodies .failed .failed

inductive Callbacks : Callback ω → Callback ω → Prop
  | code {code code' : Code ω} (codes : R.Codes code code') : Callbacks (.code code) (.code code')
  | importing {deliver deliver' : Option (Outcome → Code ω)}
      (deliveries : R.Deliveries deliver deliver') :
      Callbacks (.importing deliver) (.importing deliver')

/-- Units are alike. One that awaits its second pass is of a file. -/
structure Units (unit unit' : LoadedUnit ω χ) : Prop where
  info : R.Infos unit.info unit'.info
  body : R.Bodies unit.body unit'.body
  callbacks : List.Forall₂ R.Callbacks unit.callbacks unit'.callbacks
  pending : unit'.body.isPending = true →
    unit.info.url = unit'.info.url ∧ R.given unit'.info.url

inductive Purposes : Purpose ω → Purpose ω → Prop
  | wave : Purposes .wave .wave
  | importing {deliver deliver' : Option (Outcome → Code ω)}
      (deliveries : R.Deliveries deliver deliver') :
      Purposes (.importing deliver) (.importing deliver')

structure Lookups (lookup lookup' : Lookup ω) : Prop where
  ticket : lookup.ticket = lookup'.ticket
  key : lookup.key = lookup'.key
  locator : lookup.locator = lookup'.locator
  origin : Option.Rel R.Urls lookup.origin lookup'.origin
  purpose : R.Purposes lookup.purpose lookup'.purpose

end Likeness

def Event.renumber (number : UnitId → UnitId) : Event → Event
  | joined id => joined (number id)
  | turnedAway id => turnedAway (number id)
  | closed participants => closed (participants.map number)
  | delivered id => delivered (number id)
  | obtained url id => obtained url (number id)
  | compiled id => compiled (number id)
  | called id => called (number id)
  | e => e

namespace Likeness

variable (R : Likeness ω χ)

/-- Events are alike if they tell the same, of units and URLs that are alike. -/
inductive Events : Event → Event → Prop
  | renumber (event : Event) : Events (event.renumber R.shift) event
  | aborted {error error' : LoaderError} (errors : R.Errors error error') :
      Events (.aborted error) (.aborted error')
  | synthesized {source source' : FunctionSource} (sources : R.Sources source source') :
      Events (.synthesized source) (.synthesized source')

/-- Loaders are alike. The old one keeps the units from before as they are, and has told more. -/
structure Loaders (l l' : Loader ω χ) : Prop where
  world : R.world l.world l'.world
  base : l.base = R.before.loader.base
  base_eq : l.base = l'.base
  config : l.config = l'.config
  units : ∃ units, l.units = R.before.loader.units ++ units ∧ List.Forall₂ R.Units units l'.units
  operations : ∀ key,
    l.cache.operations.get? key = (l'.cache.operations.get? key).map R.later
  results : ∀ key, l.cache.result? key = (l'.cache.result? key).map R.shift
  markers : l.cache.markers = l'.cache.markers
  cached : ∀ url, l.cache.unit? url = (l'.cache.unit? url).map R.shift
  wave : l.wave = l'.wave.map R.laterWave
  lookups : List.Forall₂ R.Lookups l.lookups l'.lookups
  executing : l.executing = l'.executing.map R.shift
  compiling : l.compiling = l'.compiling.map R.shift
  host : R.Bindings l.host.bindings l'.host.bindings
  substitutions : l.substitutions = l'.substitutions
  scope : R.Bindings l.scope.bindings l'.scope.bindings
  anonymousCount : l.anonymousCount = l'.anonymousCount + R.before.loader.anonymousCount
  operationCount : l.operationCount = l'.operationCount + R.before.loader.operationCount
  released : l.released = l'.released
  journal : ∃ events, l.journal = events ++ .reset :: R.before.loader.journal ∧
    List.Forall₂ R.Events events l'.journal

/-! ## Machines -/

structure Passes (pass pass' : SecondPass ω χ) : Prop where
  unit : R.Ids pass.unit pass'.unit
  url : pass.url = pass'.url
  given : R.given pass'.url
  directory : pass.directory = pass'.directory
  compiler : pass.compiler = pass'.compiler
  respected : R.RespectsCompiler pass'.compiler
  file : R.file pass.file pass'.file
  rest : pass.rest = pass'.rest
  previous : pass.previous = pass'.previous.map R.shift

inductive Frames : Frame ω χ → Frame ω χ → Prop
  | resume {next next' : Outcome → Code ω}
      (continues : ∀ {outcome outcome'}, R.Outcomes outcome outcome' →
        R.Codes (next outcome) (next' outcome')) : Frames (.resume next) (.resume next')
  | resumeAfter {next next' : Except LoaderError Unit → Code ω}
      (continues : ∀ {result result'}, R.Results Eq result result' →
        R.Codes (next result) (next' result')) : Frames (.resumeAfter next) (.resumeAfter next')
  | driving {next next' : Awaited Unit → Code ω}
      (continues : ∀ {result result'}, R.Waits Eq result result' →
        R.Codes (next result) (next' result')) : Frames (.driving next) (.driving next')
  | calling (previous : Option UnitId) :
      Frames (.calling (previous.map R.shift)) (.calling previous)
  | compiling {pass pass' : SecondPass ω χ} (passes : R.Passes pass pass') (executer : Operation) :
      Frames (.compiling pass (R.later executer)) (.compiling pass' executer)
  | dispatching (id : UnitId) (searcher : Operation) (rest : List Reference) :
      Frames (.dispatching (R.shift id) (R.later searcher) rest) (.dispatching id searcher rest)
  | draining (id : UnitId) {callbacks callbacks' : List (Callback ω)}
      (waiting : List.Forall₂ R.Callbacks callbacks callbacks') (rest : List UnitId) :
      Frames (.draining (R.shift id) callbacks (rest.map R.shift)) (.draining id callbacks' rest)
  | delivering {deliver deliver' : Option (Outcome → Code ω)}
      (deliveries : R.Deliveries deliver deliver') :
      Frames (.delivering deliver) (.delivering deliver')
  | ignoring : Frames .ignoring .ignoring
  | aborting : Frames .aborting .aborting

inductive Controls : Control ω → Control ω → Prop
  | running {code code' : Code ω} (codes : R.Codes code code') :
      Controls (.running code) (.running code')
  | returning {outcome outcome' : Outcome} (outcomes : R.Outcomes outcome outcome') :
      Controls (.returning outcome) (.returning outcome')

/-- Machines are alike. The old one still has on its stack what was there before. -/
structure Machines (m m' : Machine ω χ) : Prop where
  loader : R.Loaders m.loader m'.loader
  control : R.Controls m.control m'.control
  stack : ∃ frames, m.stack = frames ++ R.before.stack ∧ List.Forall₂ R.Frames frames m'.stack

/-! ## Programs -/

variable {R}

/-- Either both views show that the unit is not loaded, or neither does. -/
theorem Views.loadFailure? {view view' : View ω} (h : R.Views view view') (id : UnitId) :
    Option.Rel R.Errors (Program.loadFailure? (R.shift id) view)
      (Program.loadFailure? id view') := by
  have hunit := h.unit id
  rw [Program.loadFailure?.eq_def, Program.loadFailure?.eq_def, h.outstanding]
  generalize view.unit? (R.shift id) = unit at hunit ⊢
  generalize view'.unit? id = unit' at hunit ⊢
  cases hunit with
  | none => exact .none
  | some hunits =>
    dsimp only
    rw [hunits.info.status]
    split
    · exact .some (.incompleteLoad hunits.info.url)
    · exact .none

/-- Loading a unit is a program of several requests. It is alike for a unit that has been made since
the reset and for its counterpart. -/
theorem Codes.load (id : UnitId) {next next' : Awaited Unit → Code ω}
    (continues : ∀ {result result'}, R.Waits Eq result result' →
      R.Codes (next result) (next' result')) :
    R.Codes (Program.load (R.shift id) next) (Program.load id next') := by
  refine .loadDependencies id rfl nofun fun {result result'} hresults ↦ ?_
  cases hresults with
  | error herrors => exact continues (.settled (.error herrors))
  | ok =>
    refine .drive fun {result result'} hresults ↦ ?_
    -- the unit may still wait because of an earlier failure, as its counterpart does then
    cases hresults with
    | stalled => exact continues .stalled
    | settled hresults =>
      cases hresults with
      | error herrors => exact continues (.settled (.error herrors))
      | ok =>
        refine .observe fun {view view'} hviews ↦ ?_
        have hfailures := hviews.loadFailure? id
        dsimp only
        generalize Program.loadFailure? (R.shift id) view = failure at hfailures ⊢
        generalize Program.loadFailure? id view' = failure' at hfailures ⊢
        cases hfailures with
        | none => exact continues (.settled (.ok rfl))
        | some herrors => exact continues (.settled (.error herrors))

end Likeness

end ScriptLoader
