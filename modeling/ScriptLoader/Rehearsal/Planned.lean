import ScriptLoader.Rehearsal.Stage

/-!
# Compilers of a rehearsal

A planned file says itself what compiling it yields: its dependencies, its diagnostics, its code and
its source map, or the error of the first pass. How a plan is written down is left open; it is read
by a function that is given.

Whatever the compiler, a rehearsal logs every first pass, together with how far the units with names
have been loaded.
-/

namespace ScriptLoader.Rehearsal

/-- What compiling a file yields. -/
structure Plan where
  /-- The error of the first pass, if it fails. -/
  firstPassError : Option String := none
  dependencies : List Reference := []
  /-- The diagnostics after the first pass. -/
  firstDiagnostics : List Diagnostic := []
  /-- The diagnostics that the second pass adds. -/
  secondDiagnostics : List Diagnostic := []
  code : String := ""
  sourceMap : Option SourceMapText := none

/-- A planned file between the passes. -/
structure PlannedFile where
  url : Url
  plan : Plan
  diagnostics : List Diagnostic

def Plan.compiler (readPlan : String → Option Plan) : Compiler Stage PlannedFile where
  firstPass view source url :=
    (view.world,
      match readPlan source with
      | none => .error (.engine "plan")
      | some plan =>
        match plan.firstPassError with
        | some message => .error (.engine message)
        | none => .ok (plan.dependencies, ⟨url, plan, plan.firstDiagnostics⟩))
  enterImport stage file name := (stage.note ("push " ++ name), file)
  leaveImport stage file := (stage.note "pop", file)
  secondPass stage file :=
    (stage.note ("pass2 " ++ file.url.text),
      { file with diagnostics := file.diagnostics ++ file.plan.secondDiagnostics },
      { code := file.plan.code, sourceMap := file.plan.sourceMap })
  diagnostics file := file.diagnostics
  wording _ d := d.pretty

/-- The names and statuses of the units with names, in the order of the names. -/
def statusList (view : View Stage) : String :=
  let names := view.world.handles.bindings.mergeSort fun a b ↦ decide (a.1 ≤ b.1)
  let shown := names.filterMap fun (name, unit) ↦
    (view.unit? unit).map fun unit ↦ name ++ "=" ++ unit.info.status.name
  "[" ++ String.intercalate "," shown ++ "]"

/-- A compiler whose first passes are logged. -/
def logged {χ : Type} (compiler : Compiler Stage χ) : Compiler Stage χ :=
  { compiler with
    firstPass := fun view source url ↦
      let event := "pass1 " ++ url.text ++ " " ++ statusList view
      compiler.firstPass { view with world := view.world.note event } source url }

end ScriptLoader.Rehearsal
