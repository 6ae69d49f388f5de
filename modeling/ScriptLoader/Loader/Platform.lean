import ScriptLoader.Diagnostic.Report
import ScriptLoader.Loader.Code

/-!
# What a loader works with

A loader does not read files, interpret code or compile anything itself. It works with a resolver,
an engine, perhaps a compiler, and a sink for diagnostics. All of them act on the world.

## Lookups

A resolver starts a lookup and hands out a ticket for it. Lookups complete one at a time, in the
order the resolver decides: `next?` picks one of those it is offered, or none when nothing more will
happen by itself.
-/

namespace ScriptLoader

/-- Names a lookup that has been started. -/
abbrev Ticket := Nat

/-- What a lookup asks for. -/
inductive Request where
  /-- What is at a URL, with its file name substituted. -/
  | resolve (url : Url) (substitutions : Substitutions)
  /-- What a locator leads to on the include paths. -/
  | search (locator : String)
  deriving DecidableEq, Repr

/-- What a searcher asks for to find a reference. A locator that is local, or a URL itself, is
resolved against the directory; any other is searched on the include paths. -/
def Operation.request (searcher : Operation) (reference : Reference) : Except UrlError Request :=
  if reference.isLocal || (Url.parse reference.locator).isOk then
    (searcher.context.join reference.locator).map fun url ↦ .resolve url searcher.substitutions
  else .ok (.search reference.locator)

/-- Finds and reads files. -/
structure Resolver (ω : Type) where
  includePaths : ω → List Url
  /-- Starts a lookup at a URL, with its file name substituted. -/
  resolve : ω → Url → Substitutions → ω × Ticket
  /-- Starts a lookup of a locator on the include paths. -/
  search : ω → String → ω × Ticket
  /-- Picks the lookup that completes next, among some that are under way. -/
  next? : ω → List Ticket → ω × Option Ticket
  /-- The result of a lookup that completes: a file, no file, or an error. -/
  answer : ω → Ticket → ω × Except LoaderError (Option Resource)
  /-- Drops lookups. -/
  cancel : ω → List Ticket → ω
  /-- Starts keeping what is read. Starts nest. -/
  enableCaching : ω → ω
  /-- Undoes one start. -/
  disableCaching : ω → ω

def Resolver.start {ω : Type} (r : Resolver ω) (world : ω) : Request → ω × Ticket
  | .resolve url substitutions => r.resolve world url substitutions
  | .search locator => r.search world locator

/-- Turns functions into something that can be called. -/
structure Engine (ω : Type) where
  /-- How many lines the engine puts above a body. -/
  headerLines : ω → Nat
  synthesize : ω → FunctionSource → ω × Except LoaderError (Callable ω)

/-- What the second pass of a compiler yields. -/
structure Compilation where
  code : String
  sourceMap : Option SourceMapText

/-- Compiles files in two passes; `χ` is a file between the passes. -/
structure Compiler (ω χ : Type) where
  /-- The dependencies of a file, and the file for the second pass. -/
  firstPass : View ω → (source : String) → Url → ω × Except LoaderError (List Reference × χ)
  /-- Enters an import context, while dependencies are executed. -/
  enterImport : ω → χ → String → ω × χ
  /-- Leaves the innermost import context. -/
  leaveImport : ω → χ → ω × χ
  secondPass : ω → χ → ω × χ × Compilation
  /-- The diagnostics of both passes. -/
  diagnostics : χ → List Diagnostic
  wording : χ → Diagnostic → String

structure Platform (ω χ : Type) where
  resolver : Resolver ω
  engine : Engine ω
  /-- Without a compiler, files are code already. -/
  compiler : Option (Compiler ω χ)
  /-- Writes a piece of text to the sink for diagnostics. -/
  write : ω → String → ω × Except LoaderError Unit

end ScriptLoader
