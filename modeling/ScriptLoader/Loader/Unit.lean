import ScriptLoader.Bundle.Basic
import ScriptLoader.Error
import ScriptLoader.Url.Parser

/-!
# Units

A unit is one loadable and executable file. It names the files it depends on, and it may be executed
once all of them, and all that they depend on, are loaded.
-/

namespace ScriptLoader

/-- Which unit of a loader is meant: its number in the order of creation. -/
abbrev UnitId := Nat

/-- How far the dependencies of a unit have been loaded. The status only ever moves forward. -/
inductive LoadStatus where
  /-- They have not been asked for. -/
  | unloaded
  /-- They have been asked for in a wave. -/
  | loading
  /-- They are loaded, and so are theirs. -/
  | loaded
  deriving DecidableEq, Repr

def LoadStatus.name : LoadStatus → String
  | unloaded => "Unloaded"
  | loading => "Loading"
  | loaded => "Loaded"

structure UnitInfo where
  url : Url
  /-- The directory against which local references resolve. -/
  directory : Url
  dependencies : List Reference
  status : LoadStatus
  /-- The code, once there is any. -/
  code : Option String
  /-- The source map embedded with the code, in base64. -/
  sourceMap : Option String
  deriving DecidableEq, Repr

namespace UnitInfo

/-- The key of a reference that the unit declares. -/
def key (info : UnitInfo) (reference : Reference) : String := reference.key info.directory.text

/-- A new unit. Without dependencies there is nothing to load. A unit needs a directory, so its URL
must be one that references can resolve against. -/
def create (url : Url) (dependencies : List Reference) (code sourceMap : Option String) :
    Except LoaderError UnitInfo :=
  match url.directory with
  | .error cause => .error (.url cause)
  | .ok directory =>
    .ok
      { url, directory, dependencies, code, sourceMap
        status := if dependencies.isEmpty then .loaded else .unloaded }

/-- The text of the unit as a bundle, once it has code: the header, then the references one by one,
the source map if there is one, and the code. -/
def markedString (info : UnitInfo) : Except LoaderError String :=
  match info.code with
  | none => .error (.notCompiled info.url.text)
  | some code =>
    let referring := info.dependencies.foldl (fun out reference ↦ out ++ reference.segment)
      (String.ofList Bundle.header)
    let mapped := match info.sourceMap with
      | none => referring
      | some map => referring ++ Bundle.segmentText .sourceMap map
    .ok (mapped ++ Bundle.segmentText .text code)

end UnitInfo

/-- A file that was found, and what it contains. -/
structure Resource where
  url : Url
  contents : String
  deriving DecidableEq, Repr

end ScriptLoader
