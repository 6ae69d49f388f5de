import ScriptLoader.Text.Lines

/-!
# Paths of a file system

A path is text with slashes between its fields. Its *components* are the root, if it starts with a
slash, and the fields that are neither empty nor a single dot; a dot counts only at the very start.
Two paths with the same components name the same file, but the text of what follows a component is
kept as written.
-/

namespace ScriptLoader

/-- The text of a path. -/
abbrev Path := List Char

namespace Path

def isAbsolute (path : Path) : Bool := path.head? = some '/'

/-- A field that is no component. -/
def isSkipped (field : List Char) : Bool := field = [] || field = ['.']

/-- A field that names a file or directory, and not the directory itself or the one above. -/
def isNormal (field : List Char) : Bool :=
  !isSkipped field && field ≠ ['.', '.'] && !field.contains '/'

def joinFields : List (List Char) → Path
  | [] => []
  | [field] => field
  | field :: rest => field ++ '/' :: joinFields rest

/-- The root or the leading dot of a path, and the fields after it. -/
def openFields (path : Path) : List (List Char) × List (List Char) :=
  match fieldsAt '/' path with
  | [] :: field :: rest => ([['/']], field :: rest)
  | ['.'] :: rest => ([['.']], rest)
  | fields => ([], fields)

/-- The components of a path; the root is written as a slash. -/
def components (path : Path) : List (List Char) :=
  let (lead, fields) := openFields path
  lead ++ fields.filter (!isSkipped ·)

/-- The fields after those that match the given components. -/
def dropComponents : List (List Char) → List (List Char) → Option (List (List Char))
  | fields, [] => some fields
  | [], _ :: _ => none
  | field :: fields, component :: rest =>
    if isSkipped field then dropComponents fields (component :: rest)
    else if field = component then dropComponents fields rest
    else none

def trimEndFields (fields : List (List Char)) : List (List Char) :=
  (fields.reverse.dropWhile isSkipped).reverse

def trimFields (fields : List (List Char)) : List (List Char) :=
  trimEndFields (fields.dropWhile isSkipped)

/-- The whole path, less skipped fields at its end. -/
def trimmed (path : Path) : Path :=
  match openFields path with
  | (['/'] :: _, fields) =>
    match trimEndFields fields with
    | [] => ['/']
    | fields => '/' :: joinFields fields
  | (['.'] :: _, fields) => joinFields (['.'] :: trimEndFields fields)
  | (_, fields) => joinFields (trimEndFields fields)

/-- What remains of a path below a directory, when it lies there. -/
def below? (path root : Path) : Option Path :=
  let wanted := components root
  if wanted.isEmpty then some (trimmed path)
  else
    let (lead, fields) := openFields path
    if lead.isPrefixOf wanted then
      (dropComponents fields (wanted.drop lead.length)).map fun rest ↦ joinFields (trimFields rest)
    else none

/-- The last component, when it names a file or directory. -/
def fileName? (path : Path) : Option (List Char) :=
  (components path).getLast?.filter isNormal

/-- The path of the directory that holds the last component. -/
def parent? (path : Path) : Option Path :=
  match openFields path with
  | (['/'] :: _, fields) =>
    match trimEndFields fields with
    | [] => none
    | fields => some (trimmed ('/' :: joinFields fields.dropLast))
  | (['.'] :: _, fields) =>
    match trimEndFields fields with
    | [] => some []
    | fields => some (trimmed (joinFields (['.'] :: fields.dropLast)))
  | (_, fields) =>
    match trimEndFields fields with
    | [] => none
    | fields => some (trimmed (joinFields fields.dropLast))

/-- A path relative to a directory; an absolute one stands for itself. -/
def append (base path : Path) : Path :=
  if isAbsolute path then path
  else if base.isEmpty || base.getLast? = some '/' then base ++ path
  else base ++ '/' :: path

/-- An absolute path for a path relative to the directory `current`; none for the empty path. Dots
and repeated slashes go, a step up and a final slash stay. -/
def absolute? (current path : Path) : Option Path :=
  if path.isEmpty then none
  else
    let names := (components path).filter fun c ↦ c ≠ ['/'] && c ≠ ['.']
    let start :=
      if !isAbsolute path then current
      else if path.take 2 = ['/', '/'] && path.take 3 ≠ ['/', '/', '/'] then ['/', '/']
      else ['/']
    let whole := names.foldl append start
    some (if path.getLast? = some '/' then append whole [] else whole)

end Path

end ScriptLoader
