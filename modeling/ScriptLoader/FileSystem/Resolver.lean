import ScriptLoader.FileSystem.Basic
import ScriptLoader.Loader.Platform
import ScriptLoader.Url.FilePath

/-!
# Finding files on a disk

A resolver that reads local files. A lookup has a list of candidates, and its answer is the first
that is there. What is at a candidate but cannot be read as text is an error, and so is a URL that
names no local file.

## Caching

While caching is on, contents that have been read are kept and not read again. Whether a lookup
takes part is settled when it is started. When the last start of caching is undone, what has been
kept is forgotten.
-/

namespace ScriptLoader

structure FileLookup where
  ticket : Ticket
  candidates : List Url
  /-- Whether contents may come from what has been kept, and are kept. -/
  caches : Bool
  deriving Repr

structure FileResolver where
  /-- The directories for search-path references. -/
  includePaths : List Url
  /-- How many starts of caching have not been undone. -/
  cachingDepth : Nat := 0
  /-- What has been kept, by the components of the path. -/
  contents : Table (List (List Char)) String := {}
  /-- The lookups under way, the oldest first. -/
  lookups : List FileLookup := []
  /-- How many lookups have been started. -/
  started : Nat := 0
  /-- The paths that have been read, the latest first. -/
  reads : List Path := []

namespace FileResolver

/-- A resolver for directories, which are relative to `current`. A directory with an empty name is
none. -/
def create (current : Path) (directories : List String) : Except LoaderError FileResolver :=
  (directories.mapM fun directory ↦ Url.ofDirectory current directory.toList).map
    fun includePaths ↦ { includePaths }

def isCaching (r : FileResolver) : Bool := 0 < r.cachingDepth

/-- How many files are kept. -/
def cachedFiles (r : FileResolver) : Nat := r.contents.size

def start (r : FileResolver) (candidates : List Url) : FileResolver × Ticket :=
  ({ r with
      started := r.started + 1
      lookups := r.lookups ++ [⟨r.started, candidates, r.isCaching⟩] },
    r.started)

def resolve (r : FileResolver) (url : Url) (substitutions : Substitutions) :
    FileResolver × Ticket :=
  r.start [url.substitute substitutions]

/-- Starts a lookup on the include paths. One that a locator cannot be joined to is passed over. -/
def search (r : FileResolver) (locator : String) : FileResolver × Ticket :=
  r.start (r.includePaths.filterMap fun base ↦ (base.join locator).toOption)

/-- Reads the file at a path, or finds it among what has been kept. -/
def fetch (disk : Disk) (caches : Bool) (r : FileResolver) (path : Path) :
    FileResolver × Except IoError String :=
  let key := Path.components path
  match if caches then r.contents.get? key else none with
  | some text => (r, .ok text)
  | none =>
    let r := { r with reads := path :: r.reads }
    match disk.readText path with
    | .error e => (r, .error e)
    | .ok text =>
      (if caches then { r with contents := r.contents.insert key text } else r, .ok text)

/-- The answer for one candidate. A path that is not text leads to no file. -/
def fetchUrl (disk : Disk) (caches : Bool) (r : FileResolver) (url : Url) :
    FileResolver × Except LoaderError (Option Resource) :=
  match url.filePathBytes? with
  | none => (r, .error (.unsupportedScheme url.text))
  | some bytes =>
    match Utf8.decode? bytes with
    | none => (r, .ok none)
    | some path =>
      match r.fetch disk caches path with
      | (r, .ok contents) => (r, .ok (some ⟨url, contents⟩))
      | (r, .error .notFound) => (r, .ok none)
      | (r, .error e) => (r, .error (.io e))

/-- The answer for a list of candidates: the first that is there. -/
def fetchFirst (disk : Disk) (caches : Bool) (r : FileResolver) :
    List Url → FileResolver × Except LoaderError (Option Resource)
  | [] => (r, .ok none)
  | url :: rest =>
    match r.fetchUrl disk caches url with
    | (r, .ok none) => fetchFirst disk caches r rest
    | answered => answered

/-- The lookup that completes next: the oldest. -/
def next? (r : FileResolver) (tickets : List Ticket) : Option Ticket :=
  (r.lookups.find? fun lookup ↦ tickets.contains lookup.ticket).map (·.ticket)

def cancel (r : FileResolver) (tickets : List Ticket) : FileResolver :=
  { r with lookups := r.lookups.filter fun lookup ↦ !tickets.contains lookup.ticket }

/-- Completes a lookup. -/
def answer (disk : Disk) (r : FileResolver) (ticket : Ticket) :
    FileResolver × Except LoaderError (Option Resource) :=
  match r.lookups.find? (·.ticket = ticket) with
  | none => (r, .ok none)
  | some lookup => (r.cancel [ticket]).fetchFirst disk lookup.caches lookup.candidates

def enableCaching (r : FileResolver) : FileResolver :=
  { r with cachingDepth := r.cachingDepth + 1 }

/-- Undoes one start of caching. -/
def disableCaching (r : FileResolver) : FileResolver :=
  let depth := r.cachingDepth - 1
  { r with cachingDepth := depth, contents := if depth = 0 then {} else r.contents }

/-- The resolver as part of a world. -/
def resolver {ω : Type} (part : ω → FileResolver) (disk : ω → Disk)
    (replace : ω → FileResolver → ω) : Resolver ω where
  includePaths world := (part world).includePaths
  resolve world url substitutions :=
    let (r, ticket) := (part world).resolve url substitutions
    (replace world r, ticket)
  search world locator :=
    let (r, ticket) := (part world).search locator
    (replace world r, ticket)
  next? world tickets := (world, (part world).next? tickets)
  answer world ticket :=
    let (r, result) := (part world).answer (disk world) ticket
    (replace world r, result)
  cancel world tickets := replace world ((part world).cancel tickets)
  enableCaching world := replace world (part world).enableCaching
  disableCaching world := replace world (part world).disableCaching

end FileResolver

end ScriptLoader
