import ScriptLoader.Error
import ScriptLoader.Text.Base64
import ScriptLoader.Text.Utf16

/-!
# Source maps

A source map in format version 3 tells which source line a generated line comes from. Its `mappings`
are groups, one for each generated line, separated by semicolons. A segment of a group is a run of
numbers in base64 VLQ, each relative to the same field of the segment before.

## Embedding

A map is embedded in base64 of its UTF-8 bytes. A compiler may hand it over as text or as UTF-16
code units; units that are not text cannot be embedded.
-/

namespace ScriptLoader

/-- A source map as a compiler hands it over. -/
inductive SourceMapText where
  | utf8 (text : String)
  | utf16 (units : List UInt16)
  deriving DecidableEq, Repr

namespace SourceMap

/-! ## Numbers -/

/-- A natural number in base64 digits of five bits, the lowest first, with the sixth bit set on all
but the last. -/
def vlqDigits : (budget value : Nat) → List Char
  | 0, value => [Base64.digit (value % 32)]
  | budget + 1, value =>
    if value < 32 then [Base64.digit value]
    else Base64.digit (32 + value % 32) :: vlqDigits budget (value / 32)

/-- An integer: its sign in the lowest bit, its magnitude above. -/
def vlq (value : Int) : List Char :=
  let code := 2 * value.natAbs + if value < 0 then 1 else 0
  vlqDigits code code

/-! ## Mappings -/

/-- Where the start of a generated line comes from: column 0 of a line of the only source. -/
def segment (linesSinceLast : Int) : List Char := vlq 0 ++ vlq 0 ++ vlq linesSinceLast ++ vlq 0

/-- The groups for `count` generated lines that come from the source lines in order. -/
def lineGroups : (count : Nat) → List Char
  | 0 => []
  | 1 => segment 0
  | count + 2 => lineGroups (count + 1) ++ ';' :: segment 1

/-- The mappings of a text whose first `skipped` lines come from nowhere and whose other `count`
lines come from the lines of the source in order. -/
def mappings (skipped count : Nat) : List Char := List.replicate skipped ';' ++ lineGroups count

/-! ## The map as JSON -/

/-- A character inside a JSON string. -/
def jsonChar (c : Char) : List Char :=
  match c with
  | '"' => ['\\', '"']
  | '\\' => ['\\', '\\']
  | '\n' => ['\\', 'n']
  | '\r' => ['\\', 'r']
  | '\t' => ['\\', 't']
  | _ =>
    if c.toNat = 8 then ['\\', 'b']
    else if c.toNat = 12 then ['\\', 'f']
    else if c.toNat < 0x20 then
      '\\' :: 'u' :: '0' :: '0' :: Nat.digitChar (c.toNat / 16) :: [Nat.digitChar (c.toNat % 16)]
    else [c]

def jsonString (cs : List Char) : List Char := '"' :: cs.flatMap jsonChar ++ ['"']

/-- A map of one source as JSON, with its keys in order and no spaces. -/
def toJson (file source mappings : List Char) : List Char :=
  "\x7b\"file\":".toList ++ jsonString file ++ ",\"mappings\":".toList ++ jsonString mappings ++
    ",\"names\":[],\"sources\":[".toList ++ jsonString source ++ "],\"version\":3\x7d".toList

end SourceMap

namespace SourceMapText

/-- The UTF-8 bytes of a map, if it is text. -/
def bytes? : SourceMapText → Option (List UInt8)
  | utf8 text => some (text.toList.flatMap String.utf8EncodeChar)
  | utf16 units => Utf16.toUtf8 units

/-- The map in base64. -/
def encode (map : SourceMapText) : Except LoaderError String :=
  match map.bytes? with
  | some bytes => .ok (String.ofList (Base64.encode bytes))
  | none => .error .transcoding

end SourceMapText

end ScriptLoader
