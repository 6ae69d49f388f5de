import ScriptLoader.FileSystem.Basic
import ScriptLoader.Loader.Unit
import ScriptLoader.Path
import ScriptLoader.Url.FilePath

/-!
# Writing bundles

Units are written as bundles below an output directory, one after the other. The first failure ends
the writing, and the bundles that have been written before stay.

A bundle goes to the path of its source below the first root that holds the source, so that a file
from an include path lands where a search-path import finds it. A source outside every root keeps
only its name.

## Storages

A storage is what the bundles are written to: a model of a file system, or a disk. Writing is the
same for both.
-/

namespace ScriptLoader

/-- Something that keeps files. -/
structure Storage (m : Type → Type) where
  /-- Makes a directory and all that are missing above it. -/
  ensureDirectory : Path → m (Except IoError Unit)
  /-- Writes a file, in place of one that is there. -/
  write : Path → List UInt8 → m (Except IoError Unit)

/-- A file system that is there afterwards only if the change succeeded. -/
def FileSystem.attempt (change : FileSystem → Except IoError FileSystem) :
    StateM FileSystem (Except IoError Unit) := fun fs ↦
  match change fs with
  | .ok changed => (.ok ⟨⟩, changed)
  | .error e => (.error e, fs)

def FileSystem.storage : Storage (StateM FileSystem) where
  ensureDirectory path := attempt (·.ensureDirectory path)
  write path bytes := attempt (·.write path bytes)

/-- Why a bundle was not written. -/
inductive BundlingError where
  /-- The source of a unit is no local file. -/
  | notLocal (url : String)
  /-- A unit has no bundled form. -/
  | unit (error : LoaderError)
  | creating (directory : Path) (cause : IoError)
  | writing (file : Path) (cause : IoError)
  deriving DecidableEq, Repr

namespace Bundle

/-- The path of a source below the first root that holds it, or else its name. -/
def relativePath (source : Path) (roots : List Path) : Path :=
  (roots.findSome? fun root ↦ source.below? root).getD (source.fileName?.getD [])

def target (source : Path) (roots : List Path) (output : Path) : Path :=
  output.append (relativePath source roots)

structure File where
  target : Path
  text : List Char
  deriving DecidableEq, Repr

/-- The bundle of a unit, and where it goes. -/
def fileOf (roots : List Path) (output : Path) (unit : UnitInfo) : Except BundlingError File :=
  match unit.url.filePath? with
  | none => .error (.notLocal unit.url.text)
  | some source =>
    match unit.markedString with
    | .error e => .error (.unit e)
    | .ok text => .ok ⟨target source roots output, text.toList⟩

variable {m : Type → Type} [Monad m] (storage : Storage m)

/-- Makes the directory that a file goes to. -/
def ensureParent (path : Path) : m (Except BundlingError Unit) :=
  match Path.parent? path with
  | none => return .ok ⟨⟩
  | some parent => return (← storage.ensureDirectory parent).mapError (.creating parent)

def File.store (file : File) : m (Except BundlingError Unit) := do
  match ← ensureParent storage file.target with
  | .error e => return .error e
  | .ok _ =>
    return (← storage.write file.target (Utf8.encode file.text)).mapError (.writing file.target)

/-- Writes the bundles of units; where they have gone. -/
def storeAll (roots : List Path) (output : Path) :
    List UnitInfo → m (Except BundlingError (List Path))
  | [] => return .ok []
  | unit :: rest =>
    match fileOf roots output unit with
    | .error e => return .error e
    | .ok file => do
      match ← file.store storage with
      | .error e => return .error e
      | .ok _ => return (← storeAll roots output rest).map (file.target :: ·)

end Bundle

end ScriptLoader
