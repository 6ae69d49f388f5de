import ScriptLoader.Loader.Creation

/-!
# Execution

Executing a unit calls its body. A unit that awaits its second pass is compiled first: its
dependencies are executed in the order it declares them, the second pass is run, the diagnostics are
reported, and the function is built. Whatever goes wrong on the way, the unit stays failed.

A unit whose second pass is under way further down the stack is not executed again. That is how
dependencies may form a cycle.
-/

namespace ScriptLoader

variable {ω χ : Type} (p : Platform ω χ)

namespace Loader

/-- What the body of a unit is called with. -/
def argumentsFor (l : Loader ω χ) (directory : Url) : Loader ω χ × Arguments :=
  let (l, executer) := l.operation .executer directory
  let (l, importer) := l.operation .importer directory
  (l, { executer, importer, extras := l.host.values })

/-- Writes pieces to the sink until one is refused. -/
def writeAll (l : Loader ω χ) : List String → Loader ω χ × Except LoaderError Unit
  | [] => (l, .ok ⟨⟩)
  | piece :: rest =>
    match p.write l.world piece with
    | (world, .ok _) => writeAll { l with world } rest
    | (world, .error e) => ({ l with world }, .error e)

/-- Reports the diagnostics of a unit; an error among them is the outcome. -/
def report (compiler : Compiler ω χ) (l : Loader ω χ) (url : Url) (file : χ) :
    Loader ω χ × Except LoaderError Unit :=
  let diagnostics := compiler.diagnostics file
  match l.writeAll p (reportPieces l.config.format (compiler.wording file) diagnostics) with
  | (l, .error e) => (l, .error e)
  | (l, .ok _) =>
    (l, if hasErrors diagnostics then .error (.compilation url.text) else .ok ⟨⟩)

/-- Runs the second pass of a unit whose dependencies have been executed. -/
def compileUnit (l : Loader ω χ) (pass : SecondPass ω χ) :
    Loader ω χ × Except LoaderError (Callable ω) :=
  let (world, file) := pass.compiler.leaveImport l.world pass.file
  let (world, file, output) := pass.compiler.secondPass world file
  let l := { l with world }.record (.compiled pass.unit)
  match l.report p pass.compiler pass.url file with
  | (l, .error e) => (l, .error e)
  | (l, .ok _) =>
    match l.synthesize p pass.url output.code (output.sourceMap.map MapSource.text) with
    | (l, .error e) => (l, .error e)
    | (l, .ok (callable, embedded)) =>
      (l.modifyUnit pass.unit fun unit ↦
        { unit with info := { unit.info with code := some output.code, sourceMap := embedded } },
        .ok callable)

end Loader

namespace Machine

def callBody (m : Machine ω χ) (id : UnitId) (directory : Url) (callable : Callable ω) :
    Machine ω χ :=
  let (l, arguments) := m.loader.argumentsFor directory
  let previous := l.executing
  (({ m with loader := { l with executing := some id }.record (.called id) }).push
    (.calling previous)).start (callable arguments)

/-- Begins the second pass of a unit by executing its dependencies. -/
def beginCompilation (m : Machine ω χ) (id : UnitId) (info : UnitInfo)
    (compiler : Compiler ω χ) (file : χ) : Machine ω χ :=
  let l := { m.loader.setBody id .compiling with compiling := some id }
  let (world, file) := compiler.enterImport l.world file info.url.displayName
  let (l, executer) := { l with world }.operation .executer info.directory
  let pass :=
    { unit := id, url := info.url, directory := info.directory, compiler, file
      rest := info.dependencies, previous := m.loader.compiling }
  ({ m with loader := l }.push (.compiling pass executer)).done

def execute (m : Machine ω χ) (id : UnitId) : Machine ω χ :=
  match m.loader.unit? id with
  | none => m.done
  | some unit =>
    match unit.body with
    | .ready callable => m.callBody id unit.info.directory callable
    | .pending compiler file => m.beginCompilation id unit.info compiler file
    | .compiling => m.done
    | .failed => m.throw (.compilation unit.info.url.text)

/-- Executes the unit that a reference led to, provided that it is loaded. -/
def callReference (m : Machine ω χ) (executer : Operation) (reference : Reference) :
    Machine ω χ :=
  match m.loader.cache.result? (reference.key executer.context.text) with
  | some id =>
    if m.loader.isLoaded id then m.execute id
    else m.throw (.prematureExecution reference.locator)
  | none => m.throw (.prematureExecution reference.locator)

/-- The end of a second pass: what has become of the unit, and the unit that was compiling before is
so again. -/
def leaveCompilation (m : Machine ω χ) (pass : SecondPass ω χ) (body : Body ω χ) :
    Machine ω χ :=
  m.update fun l ↦ { l.setBody pass.unit body with compiling := pass.previous }

/-- The end of a second pass that failed. -/
def failCompilation (m : Machine ω χ) (pass : SecondPass ω χ) (error : LoaderError) :
    Machine ω χ :=
  (m.leaveCompilation pass .failed).throw error

/-- Goes on with a second pass: the next dependency is executed. After the last one the second pass
proper is run, and the body is called. -/
def continueCompilation (m : Machine ω χ) (pass : SecondPass ω χ) (executer : Operation) :
    Machine ω χ :=
  match pass.rest with
  | reference :: rest =>
    (m.push (.compiling { pass with rest } executer)).callReference executer reference
  | [] =>
    match m.loader.compileUnit p pass with
    | (l, .error e) => { m with loader := l }.failCompilation pass e
    | (l, .ok callable) =>
      ({ m with loader := l }.leaveCompilation pass (.ready callable)).callBody pass.unit
        pass.directory callable

end Machine

end ScriptLoader
