import ScriptLoader.Bundle.Basic
import ScriptLoader.Loader.State

/-!
# Making units

A unit is made of code, of something that can be called, or of a file that was found. A file is made
into a unit once for each URL. A bundle is code with its dependencies; any other file goes through
the first pass of the compiler, or is taken as code when there is none.
-/

namespace ScriptLoader.Loader

variable {ω χ : Type} (p : Platform ω χ)

/-- Builds the function of code at a URL. The map is what of it is embedded. -/
def synthesize (l : Loader ω χ) (url : Url) (code : String) (map : Option MapSource) :
    Loader ω χ × Except LoaderError (Callable ω × Option String) :=
  let embedded := if l.config.sourceMaps then map.bind MapSource.embedded? else none
  let source := FunctionSource.assemble l.host (p.engine.headerLines l.world) url code embedded
  let (world, result) := p.engine.synthesize l.world source
  ({ l with world }.record (.synthesized source),
    result.map fun callable ↦ (callable, embedded))

def createOfCode (l : Loader ω χ) (url : Url) (code : String) (dependencies : List Reference)
    (map : Option MapSource) : Loader ω χ × Except LoaderError UnitId :=
  match l.synthesize p url code map with
  | (l, .error e) => (l, .error e)
  | (l, .ok (callable, embedded)) =>
    match UnitInfo.create url dependencies (some code) embedded with
    | .error e => (l, .error e)
    | .ok info =>
      let (l, id) := l.addUnit { info, body := .ready callable }
      (l, .ok id)

/-- The given URL, or one that names a unit without a URL. -/
def nameUnit (l : Loader ω χ) (url : Option Url) : Loader ω χ × Except LoaderError Url :=
  match url with
  | some url => (l, .ok url)
  | none =>
    let name := "(Anonymous" ++ toString l.anonymousCount ++ ")"
    ({ l with anonymousCount := l.anonymousCount + 1 }, (l.base.join name).mapError .url)

/-- Makes a unit of code, under a URL or without one. -/
def createFromSource (l : Loader ω χ) (url : Option Url) (code : String)
    (dependencies : List Reference) : Loader ω χ × Except LoaderError UnitId :=
  match l.nameUnit url with
  | (l, .error e) => (l, .error e)
  | (l, .ok url) => l.createOfCode p url code dependencies none

def createFromFunction (l : Loader ω χ) (url : Option Url) (callable : Callable ω)
    (dependencies : List Reference) : Loader ω χ × Except LoaderError UnitId :=
  match l.nameUnit url with
  | (l, .error e) => (l, .error e)
  | (l, .ok url) =>
    match UnitInfo.create url dependencies none none with
    | .error e => (l, .error e)
    | .ok info =>
      let (l, id) := l.addUnit { info, body := .ready callable }
      (l, .ok id)

def createOfBundle (l : Loader ω χ) (resource : Resource) :
    Loader ω χ × Except LoaderError UnitId :=
  match Bundle.read resource.contents.toList with
  | .error fault => (l, .error (.malformedBundle fault.message))
  | .ok bundle =>
    (l.record (.read resource.url)).createOfCode p resource.url bundle.text bundle.dependencies
      (bundle.sourceMap.map MapSource.encoded)

def createPending (compiler : Compiler ω χ) (l : Loader ω χ) (resource : Resource) :
    Loader ω χ × Except LoaderError UnitId :=
  let (world, result) := compiler.firstPass l.view resource.contents resource.url
  let l := { l with world }
  match result with
  | .error e => (l, .error e)
  | .ok (dependencies, file) =>
    let l := l.record (.read resource.url)
    match UnitInfo.create resource.url dependencies none none with
    | .error e => (l, .error e)
    | .ok info =>
      let (l, id) := l.addUnit { info, body := .pending compiler file }
      (l, .ok id)

/-- Makes a unit of a file, whichever kind it is. -/
def createOfResource (l : Loader ω χ) (resource : Resource) :
    Loader ω χ × Except LoaderError UnitId :=
  if Bundle.isMarked resource.contents.toList then l.createOfBundle p resource
  else
    match p.compiler with
    | some compiler => l.createPending compiler resource
    | none => l.createOfCode p resource.url resource.contents [] none

/-- The unit of a file, made if its URL has none yet. -/
def unitOfResource (l : Loader ω χ) (resource : Resource) :
    Loader ω χ × Except LoaderError UnitId :=
  match l.cache.unit? resource.url with
  | some id => (l.record (.obtained resource.url id), .ok id)
  | none =>
    match l.createOfResource p resource with
    | (l, .error e) => (l.record (.refused resource.url), .error e)
    | (l, .ok id) =>
      ({ l with cache := l.cache.insertUnit resource.url id }.record (.obtained resource.url id),
        .ok id)

/-- The error for a locator that leads to no file. -/
def notFound (l : Loader ω χ) (locator : String) (origin : Option Url) : LoaderError :=
  .resolutionFailure locator (origin.map Url.text) ((p.resolver.includePaths l.world).map Url.text)

/-- The unit of the file that a lookup found. -/
def unitOfAnswer (l : Loader ω χ) (locator : String) (origin : Option Url)
    (answer : Except LoaderError (Option Resource)) : Loader ω χ × Except LoaderError UnitId :=
  match answer with
  | .error e => (l, .error e)
  | .ok none => (l, .error (l.notFound p locator origin))
  | .ok (some resource) => l.unitOfResource p resource

/-- The unit of a URL. Only its own lookup is waited for. -/
def openUnit (l : Loader ω χ) (url : Url) : Loader ω χ × Awaited UnitId :=
  match l.cache.unit? url with
  | some id => (l, .settled (.ok id))
  | none =>
    let (world, ticket) := p.resolver.resolve l.world url l.substitutions
    match p.resolver.next? world [ticket] with
    | (world, none) => ({ l with world := p.resolver.cancel world [ticket] }, .stalled)
    | (world, some _) =>
      let (world, answer) := p.resolver.answer world ticket
      let (l, result) := { l with world }.unitOfAnswer p url.text none answer
      (l, .settled result)

end ScriptLoader.Loader
