import ScriptLoader.Text.Utf16
import ScriptLoader.Text.Lines

/-!
# Bundles

A unit names the files it depends on by references. A local one, written in quotes, is relative to
the directory of the unit; the other kind, written in angle brackets, is looked up on the include
paths.

A bundle is a compiled unit as one text: a header and then segments, one after the other with
nothing between. A segment is `marker;length;payload`, where the length counts the UTF-16 code units
of the payload, so a payload may hold any text.

```text
@STATIC;1.0;i;6;util.jS;4;e30=t;16;source text here
```

## Reading

`Bundle.read` takes any number of segments in any order and keeps the references in order, the last
source map and the last text. Without a text segment there is no unit, so one is required.
-/

namespace ScriptLoader

/-- A dependency as a unit declares it. -/
structure Reference where
  locator : String
  isLocal : Bool
  deriving DecidableEq, Repr, Inhabited

namespace Reference

/-- What the reference is known by in a reference context. Only a local one carries the context:
the same relative path names different files from different directories. -/
def key (r : Reference) (context : String) : String :=
  if r.isLocal then context ++ " " ++ r.locator else r.locator

/-- The reference as it stands in a directive. -/
def display (r : Reference) : String :=
  if r.isLocal then "\"" ++ r.locator ++ "\"" else "<" ++ r.locator ++ ">"

end Reference

/-- A unit in bundled form. -/
structure Bundle where
  dependencies : List Reference
  /-- The source map in base64, if there is one. -/
  sourceMap : Option String
  text : String
  deriving DecidableEq, Repr

namespace Bundle

/-- What every bundle starts with: a tag and the version of the format. -/
def header : List Char := "@STATIC;1.0;".toList

inductive Marker where
  | localImport
  | searchImport
  | sourceMap
  | text
  deriving DecidableEq, Repr

/-- The letter of a marker. -/
def Marker.tag : Marker → List Char
  | localImport => ['i']
  | searchImport => ['I']
  | sourceMap => ['S']
  | text => ['t']

def Marker.ofTag? : List Char → Option Marker
  | ['i'] => some localImport
  | ['I'] => some searchImport
  | ['S'] => some sourceMap
  | ['t'] => some text
  | _ => none

/-- A segment with any marker text. -/
def writeSegment (marker payload : List Char) : List Char :=
  marker ++ ';' :: Nat.toDigits 10 (Utf16.length payload) ++ ';' :: payload

/-- A marked piece of a bundle. -/
structure Segment where
  marker : Marker
  payload : List Char
  deriving DecidableEq, Repr

def Segment.write (s : Segment) : List Char := writeSegment s.marker.tag s.payload

def Segment.ofReference (r : Reference) : Segment :=
  ⟨if r.isLocal then .localImport else .searchImport, r.locator.toList⟩

/-- The segments of a bundle: references, then the source map, then the text. -/
def segments (b : Bundle) : List Segment :=
  b.dependencies.map Segment.ofReference ++
    (b.sourceMap.toList.map fun map ↦ ⟨.sourceMap, map.toList⟩) ++ [⟨.text, b.text.toList⟩]

def write (b : Bundle) : List Char := header ++ b.segments.flatMap Segment.write

/-- Whether a text is to be read as a bundle. -/
def isMarked (contents : List Char) : Bool := header.isPrefixOf contents

/-! ## Reading -/

/-- Why a text is not a bundle. -/
inductive Fault where
  | missingHeader
  | unterminatedMarker
  | unterminatedLength
  | invalidLength (field : List Char)
  | splitCharacter
  | truncated (expected found : Nat)
  | unknownMarker (field : List Char)
  | missingText
  deriving DecidableEq, Repr

def Fault.message : Fault → String
  | missingHeader => "missing @STATIC header"
  | unterminatedMarker => "unterminated marker"
  | unterminatedLength => "unterminated length"
  | invalidLength field => "invalid length '" ++ String.ofList field ++ "'"
  | splitCharacter => "segment length splits a character"
  | truncated expected found =>
    "segment truncated: expected " ++ toString expected ++ " units, found " ++ toString found
  | unknownMarker field => "unknown marker '" ++ String.ofList field ++ "'"
  | missingText => "missing text segment"

def digitsValue (cs : List Char) : Nat :=
  cs.foldl (fun value c ↦ value * 10 + (c.toNat - '0'.toNat)) 0

/-- Lengths lie below this bound, `2 ^ 64`. -/
def lengthBound : Nat := 0x10000000000000000

/-- A length: an optional plus sign and digits. -/
def readLength? (field : List Char) : Option Nat :=
  let digits := match field with
    | '+' :: rest => rest
    | _ => field
  if digits.isEmpty || !digits.all Char.isDigit then none
  else
    let value := digitsValue digits
    if value < lengthBound then some value else none

/-- Cuts a text after exactly `count` code units. -/
def takeUnits (count : Nat) (cs : List Char) : Except Fault (List Char × List Char) :=
  go 0 cs
where
  /-- Cuts after `count` units, `taken` of which have been passed. -/
  go (taken : Nat) : List Char → Except Fault (List Char × List Char)
    | [] => if taken = count then .ok ([], []) else .error (.truncated count taken)
    | c :: rest =>
      if taken = count then .ok ([], c :: rest)
      else if count < taken + Utf16.width c then .error .splitCharacter
      else (go (taken + Utf16.width c) rest).map fun (payload, after) ↦ (c :: payload, after)

def readSegment (cs : List Char) : Except Fault (Segment × List Char) := do
  let some (marker, rest) := splitOnce ';' cs | throw .unterminatedMarker
  let some (field, rest) := splitOnce ';' rest | throw .unterminatedLength
  let some count := readLength? field | throw (.invalidLength field)
  let (payload, rest) ← takeUnits count rest
  match Marker.ofTag? marker with
  | some marker => return (⟨marker, payload⟩, rest)
  | none => throw (.unknownMarker marker)

/-- Reads segments up to the end of a text. Each takes at least two characters, so a budget of the
text's length is never used up. -/
def readSegments : (budget : Nat) → List Char → Except Fault (List Segment)
  | _, [] => .ok []
  | 0, _ :: _ => .ok []
  | budget + 1, c :: cs => do
    let (segment, rest) ← readSegment (c :: cs)
    let segments ← readSegments budget rest
    return segment :: segments

def Segment.reference? (s : Segment) : Option Reference :=
  match s.marker with
  | .localImport => some ⟨String.ofList s.payload, true⟩
  | .searchImport => some ⟨String.ofList s.payload, false⟩
  | _ => none

/-- The payload of the last segment with a marker. -/
def lastPayload? (marker : Marker) (segments : List Segment) : Option String :=
  (segments.filter (·.marker = marker)).getLast?.map fun s ↦ String.ofList s.payload

/-- The bundle that segments make up. -/
def ofSegments (segments : List Segment) : Except Fault Bundle :=
  match lastPayload? .text segments with
  | some text =>
    .ok ⟨segments.filterMap Segment.reference?, lastPayload? .sourceMap segments, text⟩
  | none => .error .missingText

def read (contents : List Char) : Except Fault Bundle :=
  match dropStart? header contents with
  | none => .error .missingHeader
  | some body => do ofSegments (← readSegments body.length body)

end Bundle

/-- The segment that holds a text. -/
def Bundle.segmentText (marker : Bundle.Marker) (payload : String) : String :=
  String.ofList (Bundle.writeSegment marker.tag payload.toList)

def Reference.segment (r : Reference) : String :=
  Bundle.segmentText (if r.isLocal then .localImport else .searchImport) r.locator

end ScriptLoader
