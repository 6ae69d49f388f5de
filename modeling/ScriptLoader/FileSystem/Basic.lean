import ScriptLoader.Error
import ScriptLoader.Path
import ScriptLoader.Table
import ScriptLoader.Text.Utf8

/-!
# File systems

A tree of directories and files, and what reading, writing and deleting do to it. A place in the
tree is the list of names that lead to it from the root; directories and files are listed by place,
and the root is always a directory.

## Walking

A path is walked name by name from the root or from the current directory. A dot stays, two dots go
up, and the root is above itself. Whatever is walked through must be a directory, so that a path
with a slash at its end, or with a step up after a file, does not lead to that file.
-/

namespace ScriptLoader

/-- What reading files yields. -/
abbrev Disk := Path → Except IoError (List UInt8)

def Disk.readText (disk : Disk) (path : Path) : Except IoError String :=
  match disk path with
  | .error e => .error e
  | .ok bytes =>
    match Utf8.toString? bytes with
    | some text => .ok text
    | none => .error .notText

/-- A place in a file system: the names from the root on. -/
abbrev Place := List (List Char)

/-- What is at a place. -/
inductive Node where
  | file (bytes : List UInt8)
  | directory
  deriving DecidableEq, Repr

structure FileSystem where
  nodes : Table Place Node := {}
  /-- Where relative paths start. -/
  current : Place := []

namespace FileSystem

/-- The longest name that a file can have, in bytes. -/
def maxNameBytes : Nat := 255

/-- What is at a place. -/
def node? (fs : FileSystem) (place : Place) : Option Node :=
  if place.isEmpty then some .directory else fs.nodes.get? place

/-- Where a walk has got to. -/
inductive Position where
  | directory (place : Place)
  | file (place : Place) (bytes : List UInt8)
  /-- Nothing is at this place, but the directory above it is there. -/
  | vacant (place : Place)
  deriving DecidableEq, Repr

/-- Walks from a directory through the fields of a path. -/
def walk (fs : FileSystem) : Place → List (List Char) → Except IoError Position
  | at_, [] => .ok (.directory at_)
  | at_, field :: rest =>
    if Path.isSkipped field then walk fs at_ rest
    else if field = ['.', '.'] then walk fs at_.dropLast rest
    else if field.contains '\x00' then
      .error (.invalidInput "file name contained an unexpected NUL byte")
    else if maxNameBytes < (String.ofList field).utf8ByteSize then
      .error (.other "File name too long (os error 36)")
    else
      let place := at_ ++ [field]
      match fs.node? place with
      | some .directory => walk fs place rest
      | some (.file bytes) =>
        if rest.isEmpty then .ok (.file place bytes) else .error .notDirectory
      | none =>
        if rest.all Path.isSkipped then .ok (.vacant place) else .error .notFound

/-- Walks a whole path. A file name that holds a null character is refused before anything else. -/
def locate (fs : FileSystem) (path : Path) : Except IoError Position :=
  if path.contains '\x00' then
    .error (.invalidInput "file name contained an unexpected NUL byte")
  else
    match path with
    | [] => .error .notFound
    | '/' :: rest => fs.walk [] (fieldsAt '/' rest)
    | _ => fs.walk fs.current (fieldsAt '/' path)

def read (fs : FileSystem) (path : Path) : Except IoError (List UInt8) :=
  match fs.locate path with
  | .ok (.file _ bytes) => .ok bytes
  | .ok (.directory _) => .error .isDirectory
  | .ok (.vacant _) => .error .notFound
  | .error e => .error e

def isDirectory (fs : FileSystem) (path : Path) : Bool :=
  match fs.locate path with
  | .ok (.directory _) => true
  | _ => false

def put (fs : FileSystem) (place : Place) (node : Node) : FileSystem :=
  { fs with nodes := fs.nodes.insert place node }

/-- Whether the last field of a path is a slash or a dot, so that only a directory can be meant. -/
def meansDirectory (path : Path) : Bool :=
  match (fieldsAt '/' path).getLast? with
  | some field => Path.isSkipped field
  | none => false

/-- Writes a file, in place of one that is there. -/
def write (fs : FileSystem) (path : Path) (bytes : List UInt8) : Except IoError FileSystem :=
  match fs.locate path with
  | .ok (.file place _) => .ok (fs.put place (.file bytes))
  | .ok (.directory _) => .error .isDirectory
  | .ok (.vacant place) =>
    if meansDirectory path then .error .isDirectory else .ok (fs.put place (.file bytes))
  | .error e => .error e

def makeDirectory (fs : FileSystem) (path : Path) : Except IoError FileSystem :=
  match fs.locate path with
  | .ok (.vacant place) => .ok (fs.put place .directory)
  | .ok _ => .error .alreadyExists
  | .error e => .error e

/-- Makes a directory, and first those above it that are missing. Each of them has a shorter path,
so a depth of the length of the path suffices. -/
def makeDirectories (fs : FileSystem) : (depth : Nat) → Path → Except IoError FileSystem
  | _, [] => .ok fs
  | 0, _ => .error (.other "failed to create whole tree")
  | depth + 1, path =>
    match fs.makeDirectory path with
    | .ok fs => .ok fs
    | .error .notFound =>
      match Path.parent? path with
      | none => .error (.other "failed to create whole tree")
      | some parent =>
        match makeDirectories fs depth parent with
        | .error e => .error e
        | .ok fs =>
          match fs.makeDirectory path with
          | .ok fs => .ok fs
          | .error e => if fs.isDirectory path then .ok fs else .error e
    | .error e => if fs.isDirectory path then .ok fs else .error e

/-- Makes a directory and all that are missing above it. -/
def ensureDirectory (fs : FileSystem) (path : Path) : Except IoError FileSystem :=
  fs.makeDirectories path.length path

/-- Deletes a file; whether there was one. -/
def delete (fs : FileSystem) (path : Path) : FileSystem × Bool :=
  match fs.locate path with
  | .ok (.file place _) =>
    ({ fs with nodes := ⟨fs.nodes.bindings.filter (·.1 ≠ place)⟩ }, true)
  | _ => (fs, false)

/-- The names of a path from the root, without dots. -/
def placeOf (path : Path) : Place := (Path.components path).filter fun c ↦ c ≠ ['/'] && c ≠ ['.']

/-- Adds a directory and all above it, whatever is there. -/
def withDirectories (fs : FileSystem) (place : Place) : FileSystem :=
  (List.range place.length).foldl (fun fs n ↦ fs.put (place.take (n + 1)) .directory) fs

/-- A file system with the given files and directories, and the directories above them. -/
def ofEntries (current : Path) (entries : List (Path × Node)) : FileSystem :=
  let start : FileSystem := { current := placeOf current }
  entries.foldl
    (fun fs (path, node) ↦ (fs.withDirectories (placeOf path).dropLast).put (placeOf path) node)
    (start.withDirectories (placeOf current))

/-- The files, by path. -/
def files (fs : FileSystem) : List (Path × List UInt8) :=
  fs.nodes.bindings.filterMap fun (place, node) ↦
    match node with
    | .file bytes => some ('/' :: Path.joinFields place, bytes)
    | .directory => none

/-- Stores a file or a directory at a path, and makes the directories above it that are missing. -/
def store (fs : FileSystem) (path : Path) (node : Node) : Except IoError FileSystem :=
  match node with
  | .directory => fs.ensureDirectory path
  | .file bytes =>
    match Path.parent? path with
    | none => fs.write path bytes
    | some parent =>
      match fs.ensureDirectory parent with
      | .error e => .error e
      | .ok fs => fs.write path bytes

end FileSystem

end ScriptLoader
