import ScriptLoader.Url.Basic

/-!
# Building a path

Segments are added to a serialized path one after the other. A segment `..` removes the last one,
a segment `.` is skipped, and in the path of a file a first segment such as `C|` is a drive letter,
which is written `C:` and is never removed.

## Dots in disguise

A dot may be written `%2e`. The text of a segment is compared after encoding, which leaves dots and
percent signs alone, so the comparison is with the spellings below.
-/

namespace ScriptLoader.Url

/-- What a path is built under. -/
structure PathRules where
  /-- The path is that of a file, so drive letters count. -/
  isFile : Bool
  /-- A backslash separates segments as a slash does. -/
  backslashes : Bool

def encodedInPath (c : Char) : Bool :=
  c.toNat ≤ 0x20 || c.toNat = 0x7F || "\"#<>?\x60\x7b\x7d".toList.contains c

/-- A letter followed by a colon or a bar. -/
def isDriveLetter : List Char → Bool
  | [letter, mark] => letter.isAlpha && (mark = ':' || mark = '|')
  | _ => false

/-- A letter followed by a colon. -/
def isNormalDriveLetter (segment : List Char) : Bool :=
  isDriveLetter segment && segment.getLast? = some ':'

/-- Whether a text starts with a drive letter that is a segment of its own. -/
def startsWithDriveLetter : List Char → Bool
  | letter :: mark :: rest =>
    isDriveLetter [letter, mark] &&
      (match rest with
        | [] => true
        | c :: _ => c = '/' || c = '\\' || c = '?' || c = '#')
  | _ => false

/-- A segment that means the same directory. -/
def isSingleDot (segment : List Char) : Bool :=
  ["." , "%2e", "%2E"].contains (String.ofList segment)

/-- A segment that means the directory above. -/
def isDoubleDot (segment : List Char) : Bool :=
  ["..", "%2e%2e", "%2e%2E", "%2E%2e", "%2E%2E", "%2e.", "%2E.", ".%2e", ".%2E"].contains
    (String.ofList segment)

def throughLastSlash (path : List Char) : List Char := (path.reverse.dropWhile (· ≠ '/')).reverse

def afterLastSlash (path : List Char) : List Char := (path.reverse.takeWhile (· ≠ '/')).reverse

/-- The path without its last segment, which stays when it is the drive letter of a file. -/
def popSegment (rules : PathRules) (path : List Char) : List Char :=
  if rules.isFile && isNormalDriveLetter (afterLastSlash path) then path else throughLastSlash path

/-- Whether the final slash of a path may go: it is not the root's, nor a drive letter's. -/
def mayDropFinalSlash (path : List Char) : Bool :=
  let before := path.dropLast
  before.contains '/' && !startsWithDriveLetter (afterLastSlash before ++ ['/'])

def withFinalSlash (path : List Char) : List Char :=
  if path.getLast? = some '/' then path else path ++ ['/']

def parentPath (rules : PathRules) (path : List Char) (slash : Bool) : List Char :=
  let path :=
    if path.getLast? = some '/' && mayDropFinalSlash path then path.dropLast else path
  let path := popSegment rules path
  if slash then withFinalSlash path else path

/-- A path under construction, and whether the host of the URL may stay. -/
structure PathProgress where
  path : List Char
  keepsHost : Bool

/-- Adds a segment, which is followed by a slash or ends the path. -/
def addSegment (rules : PathRules) (progress : PathProgress) (segment : List Char) (slash : Bool) :
    PathProgress :=
  let encoded := Percent.encode encodedInPath segment
  let closing := if slash then ['/'] else []
  let before :=
    if rules.isFile && !segment.isEmpty && isNormalDriveLetter (progress.path.drop 1) then
      progress.path ++ ['/']
    else progress.path
  if isDoubleDot encoded then { progress with path := parentPath rules before slash }
  else if isSingleDot encoded then { progress with path := withFinalSlash before }
  else if rules.isFile && before.length = 1 && isDriveLetter encoded then
    ⟨before ++ encoded.take 1 ++ ':' :: closing, false⟩
  else { progress with path := before ++ encoded ++ closing }

/-- Adds segments; all but the last are followed by a slash. -/
def addSegments (rules : PathRules) : PathProgress → List (List Char) → PathProgress
  | progress, [] => progress
  | progress, [segment] => addSegment rules progress segment false
  | progress, segment :: rest =>
    addSegments rules (addSegment rules progress segment true) rest

/-- The segments of a text, cut at slashes and, where they count, at backslashes. -/
def segmentsOf (rules : PathRules) (cs : List Char) : List (List Char) :=
  fieldsAt '/' (if rules.backslashes then cs.map fun c ↦ if c = '\\' then '/' else c else cs)

/-- The part of a text that is a path, and the query and fragment after it. -/
def splitTail (cs : List Char) : List Char × List Char :=
  cs.span fun c ↦ c ≠ '?' && c ≠ '#'

/-- Extends a path by a text. The path of a file starts with exactly one slash. -/
def extendPath (rules : PathRules) (progress : PathProgress) (cs : List Char) : PathProgress :=
  let result := addSegments rules progress (segmentsOf rules cs)
  if rules.isFile then { result with path := '/' :: result.path.dropWhile (· = '/') } else result

end ScriptLoader.Url
