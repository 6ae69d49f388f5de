import ScriptLoader.Error
import ScriptLoader.SourceMap
import ScriptLoader.Value

/-!
# Functions

Code becomes a function: parameters, a body, and names to show in a stack trace. The body is the
code followed by comments that say where it came from.

```text
code/**/
//# sourceURL=/app/main.j
//# sourceMappingURL=data:application/json;charset=utf-8;base64,...
```

## Alignment

An engine puts some lines of its own above a body. Compiled code starts with empty lines that take
their place: when a source map is embedded, as many of them are removed as the engine adds.
-/

namespace ScriptLoader

/-- What an engine needs to build a function. -/
structure FunctionSource where
  parameters : List String
  body : String
  displayName : String
  filename : String
  deriving DecidableEq, Repr

/-- The parameters that every function has. -/
def fixedParameters : List String := ["global", "objj_executeFile", "objj_importFile"]

/-- How many lines an engine is taken to put above a body. -/
def defaultHeaderLines : Nat := 2

/-- Further parameters and their arguments. -/
structure HostBindings where
  bindings : List (String × Value) := []

namespace HostBindings

/-- Pairs names with values; there must be as many of one as of the other. -/
def pair (names : List String) (values : List Value) : Except LoaderError HostBindings :=
  if names.length = values.length then .ok ⟨names.zip values⟩
  else
    .error (.config (toString names.length ++ " host parameter names for " ++
      toString values.length ++ " values"))

def names (host : HostBindings) : List String := host.bindings.map (·.1)

def values (host : HostBindings) : List Value := host.bindings.map (·.2)

def parameters (host : HostBindings) : List String := fixedParameters ++ host.names

end HostBindings

/-- A source map that comes with code. -/
inductive MapSource where
  /-- It is in base64 already. -/
  | encoded (map : String)
  /-- It comes from a compiler. -/
  | text (map : SourceMapText)
  deriving DecidableEq, Repr

/-- The map to embed, in base64. One that cannot be encoded is left out. -/
def MapSource.embedded? : MapSource → Option String
  | encoded map => some map
  | text map => map.encode.toOption

namespace FunctionBody

/-- The code and where it came from. -/
def located (code filename : List Char) : List Char :=
  code ++ "/**/\n//# sourceURL=".toList ++ filename

/-- A text without its first line feeds, `count` of them at most. -/
def dropLineFeeds : (count : Nat) → List Char → List Char
  | count + 1, '\n' :: rest => dropLineFeeds count rest
  | _, cs => cs

/-- What stands before an embedded map. -/
def mapComment : List Char :=
  "\n//# sourceMappingURL=data:application/json;charset=utf-8;base64,".toList

/-- The body of a function, with its map if there is one. -/
def assemble (headerLines : Nat) (code filename : List Char) (map : Option String) : List Char :=
  let body := located code filename
  match map with
  | none => body
  | some map => dropLineFeeds headerLines body ++ mapComment ++ map.toList

end FunctionBody

/-- The function of code at a URL. -/
def FunctionSource.assemble (host : HostBindings) (headerLines : Nat) (url : Url) (code : String)
    (map : Option String) : FunctionSource where
  parameters := host.parameters
  body := String.ofList
    (FunctionBody.assemble headerLines code.toList url.sourcePath.toList map)
  displayName := url.displayName
  filename := url.sourcePath

end ScriptLoader
