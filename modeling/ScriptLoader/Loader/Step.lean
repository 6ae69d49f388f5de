import ScriptLoader.Loader.Wave

/-!
# Steps

A step either runs one request of the code on top, or hands an outcome to the frame below. A machine
has halted when there is an outcome and nothing waits for it.
-/

namespace ScriptLoader

variable {ω χ : Type} (p : Platform ω χ)

namespace Loader

/-- Gives the loader up: its wave and its lookups are dropped. -/
def release (l : Loader ω χ) : Loader ω χ :=
  { l.record .released with wave := none, released := true }.dropLookups p

end Loader

namespace Machine

/-- Runs one request of code. -/
def runCode (m : Machine ω χ) (code : Code ω) : Machine ω χ :=
  let l := m.loader
  match code with
  | .finish outcome => m.give outcome
  | .observe next => m.start (next l.view)
  | .touch change next => (m.update (·.touch change)).start next
  | .bindGlobal name value next =>
    { m with loader := { l with scope := l.scope.insert name value } }.start next
  | .loadDependencies unit callback next =>
    (m.push (.resumeAfter next)).loadDependencies p unit (callback.map Callback.code)
  | .drive next => m.drive p next
  | .execute unit next => (m.push (.resume next)).execute unit
  | .call executer reference next =>
    if l.released then m.start (next (.error .detached))
    else (m.push (.resume next)).callReference executer reference
  | .importFile importer reference callback next =>
    if l.released then m.start (next (.error .detached))
    else (m.push (.resumeAfter next)).importFile p importer reference callback
  | .openUnit url next =>
    let (l, result) := l.openUnit p url
    { m with loader := l }.start (next result)
  | .createFromSource url code dependencies next =>
    let (l, result) := l.createFromSource p url code dependencies
    { m with loader := l }.start (next result)
  | .createFromFunction url body dependencies next =>
    let (l, result) := l.createFromFunction url body dependencies
    { m with loader := l }.start (next result)
  | .createFromResource resource next =>
    let (l, result) := l.unitOfResource p resource
    { m with loader := l }.start (next result)
  | .operation kind context next =>
    let (l, operation) := l.operation kind context
    { m with loader := l }.start (next operation)
  | .reset next => { m with loader := { l.record .reset with cache := {} } }.start next
  | .setHost host next => { m with loader := { l with host } }.start next
  | .setSubstitutions substitutions next =>
    { m with loader := { l with substitutions } }.start next
  | .release next => { m with loader := l.release p }.start next

/-- Hands an outcome to the frame that waits for it, which is no longer on the stack. -/
def resume (m : Machine ω χ) (frame : Frame ω χ) (outcome : Outcome) : Machine ω χ :=
  match frame, outcome with
  | .resume next, outcome => m.start (next outcome)
  | .resumeAfter next, outcome => m.start (next (outcome.map fun _ ↦ ⟨⟩))
  | .driving next, .ok _ => m.drive p next
  | .driving next, .error e => (m.update (·.abort p e)).start (next (.settled (.error e)))
  | .calling previous, outcome =>
    { m with loader := { m.loader with executing := previous } }.give outcome
  | .compiling pass executer, .ok _ => m.continueCompilation p pass executer
  | .compiling pass _, .error e => m.failCompilation pass e
  | .dispatching unit searcher rest, .ok _ => m.continueDispatching p unit searcher rest
  | .dispatching .., .error e => m.throw e
  | .draining unit callbacks rest, .ok _ => m.continueDraining unit callbacks rest
  | .draining _ callbacks _, .error e =>
    (m.update (·.endImports p (callbacks.countP Callback.isImport))).throw e
  | .delivering deliver, outcome =>
    let m := m.update (·.endImports p 1)
    match deliver with
    | some deliver => (m.push .ignoring).start (deliver outcome)
    | none => m.give (outcome.map fun _ ↦ .undefined)
  | .ignoring, _ => m.done
  | .aborting, .ok _ => m.done
  | .aborting, .error e => (m.update (·.abort p e)).throw e

/-- One step; none once the machine has halted. -/
def step (m : Machine ω χ) : Machine ω χ :=
  match m.control, m.stack with
  | .running code, _ => m.runCode p code
  | .returning _, [] => m
  | .returning outcome, frame :: stack => { m with stack }.resume p frame outcome

/-- More steps than are ever taken in practice. -/
def maxSteps : Nat := 1000000000

/-- Steps until the machine halts, `fuel` of them at most. -/
def run : (fuel : Nat) → Machine ω χ → Machine ω χ
  | 0, m => m
  | fuel + 1, m => if m.isHalted then m else run fuel (m.step p)

end Machine

end ScriptLoader
