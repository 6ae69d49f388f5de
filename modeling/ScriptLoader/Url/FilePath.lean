import ScriptLoader.Config.Basic
import ScriptLoader.Path
import ScriptLoader.Text.Utf8
import ScriptLoader.Url.Parser

/-!
# Files and their URLs

An absolute path becomes a URL by encoding each of its names; the URL of a directory ends in a
slash, so that references resolve inside it. A URL that names a local file becomes a path by
decoding each segment.

## What survives

A name may contain any byte but a slash, so a percent sign is encoded as well, and a backslash,
which would otherwise separate segments. Decoding yields bytes, which need not be text.
-/

namespace ScriptLoader.Url

/-- A character that is encoded in a segment made from a file name. -/
def encodedInFileName (c : Char) : Bool :=
  encodedInPath c || c = '/' || c = '%' || c = '\\'

/-- The path of the URL of a file. Steps up stay as they are. -/
def encodePath (path : Path) : List Char :=
  match (Path.components path).drop 1 with
  | [] => ['/']
  | names => names.flatMap fun name ↦ '/' :: Percent.encode encodedInFileName name

/-- The URL of a file at an absolute path. -/
def ofFilePath (path : Path) : Url := file (encodePath path)

/-- The URL of a directory at an absolute path. -/
def ofDirectoryPath (path : Path) : Url := file (withFinalSlash (encodePath path))

/-- An absolute path for one relative to the directory `current`. The empty path names nothing. -/
def absolutePath (current path : Path) : Except LoaderError Path :=
  match Path.absolute? current path with
  | some path => .ok path
  | none => .error (.io (.invalidInput "cannot make an empty path absolute"))

/-- The URL of a file at a path, relative to the directory `current`. -/
def ofFile (current path : Path) : Except LoaderError Url :=
  (absolutePath current path).map ofFilePath

/-- The URL of a directory at a path, relative to the directory `current`. -/
def ofDirectory (current path : Path) : Except LoaderError Url :=
  (absolutePath current path).map ofDirectoryPath

/-- Whether bytes end like a drive letter: in a letter and a colon or a bar, with more before. -/
def endsLikeDrive (bytes : List UInt8) : Bool :=
  match bytes.reverse with
  | mark :: letter :: _ :: _ => isDriveLetter [Char.ofNat letter.toNat, Char.ofNat mark.toNat]
  | _ => false

/-- The bytes of the path of the local file that a URL names. The host must be empty or the local
one. A path that ends like a drive letter gets a slash at its end. -/
def filePathBytes? (url : Url) : Option (List UInt8) := do
  let segments ← url.segments?
  let host := (url.authority.map (·.host)).getD []
  guard (host = [] ∨ host = "localhost".toList)
  let bytes := segments.flatMap fun segment ↦ 0x2F :: Percent.decode segment
  some (if endsLikeDrive bytes then bytes ++ [0x2F] else bytes)

/-- The path of the local file that a URL names, when it is text. -/
def filePath? (url : Url) : Option Path := url.filePathBytes?.bind Utf8.decode?

/-- The URL that is looked up for a URL: one with another file name, when there is a substitution
for its own. -/
def substitute (url : Url) (substitutions : Substitutions) : Url :=
  match substitutions.get? url.displayName with
  | none => url
  | some replacement =>
    match url.join replacement with
    | .ok substituted => substituted
    | .error _ => url

end ScriptLoader.Url
