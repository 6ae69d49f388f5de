import ScriptLoader.Url.Basic
import ScriptLoader.Text.Lines
import ScriptLoader.Text.Utf8

/-!
# Hosts

The host of a URL is a domain name, an IPv4 or an IPv6 address, and is stored in its serialized
form. `parseHost` reads the host of a scheme that has domains, `parseRawHost` that of any other
scheme, where all but a few characters stand for themselves.
-/

namespace ScriptLoader.Url

/-! ## IPv4 -/

/-- The value of a digit below `radix`. -/
def digitBelow? (radix : Nat) (c : Char) : Option Nat :=
  match Percent.hexValue? c with
  | some v => if v < radix then some v else none
  | none => none

def readDigits? (radix : Nat) (cs : List Char) : Option Nat :=
  cs.foldlM (fun value c ↦ (digitBelow? radix c).map (value * radix + ·)) 0

/-- A number of an IPv4 address: hexadecimal after `0x`, octal after `0`, decimal otherwise. -/
def ipv4Number? : List Char → Option Nat
  | [] => none
  | '0' :: 'x' :: rest => readDigits? 16 rest
  | '0' :: 'X' :: rest => readDigits? 16 rest
  | '0' :: d :: rest => readDigits? 8 (d :: rest)
  | cs => readDigits? 10 cs

/-- The fields of a dotted name, less an empty last one. -/
def dottedFields (cs : List Char) : List (List Char) :=
  let fields := fieldsAt '.' cs
  if 1 < fields.length ∧ fields.getLast? = some [] then fields.dropLast else fields

/-- Whether a domain has to be read as an IPv4 address: its last field is a number. -/
def endsInNumber (cs : List Char) : Bool :=
  match (dottedFields cs).getLast? with
  | none => false
  | some last => (!last.isEmpty && last.all Char.isDigit) || (ipv4Number? last).isSome

/-- The address that the numbers of a dotted name stand for; the last one fills what is left. -/
def ipv4Address? (cs : List Char) : Option Nat := do
  let fields := dottedFields cs
  if 4 < fields.length then none
  let numbers ← fields.mapM ipv4Number?
  let last ← numbers.getLast?
  let leading := numbers.dropLast
  let room := Nat.pow 256 (4 - leading.length)
  if room ≤ last then none
  if leading.any (255 < ·) then none
  some (leading.foldl (fun address n ↦ address * 256 + n) 0 * room + last)

/-- Four decimal numbers with dots between. -/
def showIpv4 (address : Nat) : List Char :=
  let field := fun i ↦ Nat.toDigits 10 (address / Nat.pow 256 i % 256)
  field 3 ++ '.' :: field 2 ++ '.' :: field 1 ++ '.' :: field 0

/-! ## IPv6 -/

/-- One piece of at most four hexadecimal digits. -/
def ipv6Piece? (cs : List Char) : Option Nat :=
  if cs.isEmpty || 4 < cs.length then none else readDigits? 16 cs

/-- An IPv4 address in the last two pieces: four decimal numbers without leading zeros. -/
def ipv6Tail? (cs : List Char) : Option (List Nat) := do
  let numbers ← (fieldsAt '.' cs).mapM fun field ↦
    if field.isEmpty || (1 < field.length && field.head? = some '0') then none
    else (readDigits? 10 field).filter (· < 256)
  match numbers with
  | [a, b, c, d] => some [a * 256 + b, c * 256 + d]
  | _ => none

/-- The pieces of one side of an address; only the last field may be an IPv4 address. -/
def ipv6Pieces? (mayEndInIpv4 : Bool) : List (List Char) → Option (List Nat)
  | [] => some []
  | [field] =>
    if mayEndInIpv4 && field.contains '.' then ipv6Tail? field
    else (ipv6Piece? field).map ([·])
  | field :: rest => do
    let piece ← ipv6Piece? field
    let pieces ← ipv6Pieces? mayEndInIpv4 rest
    some (piece :: pieces)

/-- The texts before and after the first `::`. -/
def splitCompressed : List Char → Option (List Char × List Char)
  | ':' :: ':' :: rest => some ([], rest)
  | c :: rest => (splitCompressed rest).map fun (before, after) ↦ (c :: before, after)
  | [] => none

/-- The fields between colons; none in an empty text. -/
def colonFields (cs : List Char) : List (List Char) := if cs.isEmpty then [] else fieldsAt ':' cs

/-- The eight pieces of an IPv6 address; one `::` stands for the zeros that are missing. -/
def ipv6Address? (cs : List Char) : Option (List Nat) :=
  match splitCompressed cs with
  | none => do
    let pieces ← ipv6Pieces? true (colonFields cs)
    if pieces.length = 8 then some pieces else none
  | some (before, after) => do
    let left ← ipv6Pieces? false (colonFields before)
    let right ← ipv6Pieces? true (colonFields after)
    let given := left.length + right.length
    if given < 8 then some (left ++ List.replicate (8 - given) 0 ++ right) else none

/-- The lengths of the runs of zeros that start at each position. -/
def zeroRuns : List Nat → List Nat
  | [] => []
  | piece :: rest =>
    let runs := zeroRuns rest
    (if piece = 0 then runs.headD 0 + 1 else 0) :: runs

/-- Pieces in hexadecimal, with colons between. -/
def showPieces : List Nat → List Char
  | [] => []
  | [piece] => Nat.toDigits 16 piece
  | piece :: rest => Nat.toDigits 16 piece ++ ':' :: showPieces rest

/-- An IPv6 address with its first longest run of at least two zeros compressed. -/
def showIpv6 (pieces : List Nat) : List Char :=
  let runs := zeroRuns pieces
  let longest := runs.foldl max 0
  if longest < 2 then showPieces pieces
  else
    let start := runs.findIdx (· = longest)
    showPieces (pieces.take start) ++ ':' :: ':' :: showPieces (pieces.drop (start + longest))

/-- The address between square brackets. -/
def parseBracketed (cs : List Char) : Except UrlError (List Char) :=
  if cs.getLast? ≠ some ']' then .error .invalidIpv6
  else
    match ipv6Address? cs.dropLast with
    | some pieces => .ok ('[' :: showIpv6 pieces ++ [']'])
    | none => .error .invalidIpv6

/-! ## Labels beyond ASCII -/

namespace Punycode

/-- The digit for a value below thirty-six: letters, then numerals. -/
def digit (value : Nat) : Char :=
  if value < 26 then Char.ofNat (97 + value) else Char.ofNat (22 + value)

/-- The least value that ends a number at a digit position. -/
def threshold (position bias : Nat) : Nat :=
  if position ≤ bias then 1 else min 26 (position - bias)

/-- Divides a delta until it is small, counting the positions passed. -/
def dampen : (fuel delta position : Nat) → Nat × Nat
  | 0, delta, position => (delta, position)
  | fuel + 1, delta, position =>
    if 455 < delta then dampen fuel (delta / 35) (position + 36) else (delta, position)

/-- The bias after a delta has been written. -/
def adapt (delta written : Nat) (first : Bool) : Nat :=
  let delta := if first then delta / 700 else delta / 2
  let delta := delta + delta / written
  let (delta, position) := dampen delta delta 0
  position + 36 * delta / (delta + 38)

/-- A delta as a number of variable length. -/
def encodeDelta (bias : Nat) : (fuel delta position : Nat) → List Char
  | 0, delta, _ => [digit (delta % 36)]
  | fuel + 1, delta, position =>
    let t := threshold position bias
    if delta < t then [digit delta]
    else
      digit (t + (delta - t) % (36 - t)) ::
        encodeDelta bias fuel ((delta - t) / (36 - t)) (position + 36)

/-- What encoding has written and has yet to write. -/
structure Progress where
  output : List Char
  delta : Nat
  bias : Nat
  handled : Nat

/-- Passes over one character of the label while `codePoint` is being inserted. -/
def scan (basic codePoint : Nat) (p : Progress) (c : Char) : Progress :=
  if c.toNat < codePoint then { p with delta := p.delta + 1 }
  else if c.toNat = codePoint then
    ⟨p.output ++ encodeDelta p.bias p.delta p.delta 36, 0,
      adapt p.delta (p.handled + 1) (p.handled = basic), p.handled + 1⟩
  else p

/-- Inserts the code points in ascending order. -/
def insertAll (label : List Char) (basic : Nat) : List Nat → Nat → Progress → Progress
  | [], _, p => p
  | codePoint :: rest, least, p =>
    let p := { p with delta := p.delta + (codePoint - least) * (p.handled + 1) }
    let p := label.foldl (scan basic codePoint) p
    insertAll label basic rest (codePoint + 1) { p with delta := p.delta + 1 }

/-- A label as ASCII: its ASCII characters, then the positions of the others. -/
def encode (label : List Char) : List Char :=
  let basic := label.filter (·.toNat < 0x80)
  let others := ((label.filter (0x80 ≤ ·.toNat)).map Char.toNat).mergeSort.eraseDups
  let start := if basic.isEmpty then [] else basic ++ ['-']
  (insertAll label basic.length others 0x80 ⟨start, 0, 72, basic.length⟩).output

end Punycode

/-- Capital letters beyond ASCII: the first and the last of a run, how far apart its letters are,
and how far the small letter is behind the capital. -/
def capitalRuns : List (Nat × Nat × Nat × Nat) :=
  [(0xC0, 0xD6, 1, 32), (0xD8, 0xDE, 1, 32), (0x100, 0x12E, 2, 1), (0x132, 0x136, 2, 1),
    (0x139, 0x147, 2, 1), (0x14A, 0x176, 2, 1), (0x179, 0x17D, 2, 1), (0x1CD, 0x1DB, 2, 1),
    (0x1DE, 0x1EE, 2, 1), (0x1F8, 0x21E, 2, 1), (0x222, 0x232, 2, 1), (0x386, 0x386, 1, 38),
    (0x388, 0x38A, 1, 37), (0x38C, 0x38C, 1, 64), (0x38E, 0x38F, 1, 63), (0x391, 0x3A1, 1, 32),
    (0x3A3, 0x3AB, 1, 32), (0x400, 0x40F, 1, 80), (0x410, 0x42F, 1, 32), (0x460, 0x480, 2, 1),
    (0x48A, 0x4BE, 2, 1), (0x4C1, 0x4CD, 2, 1), (0x4D0, 0x52E, 2, 1), (0x531, 0x556, 1, 48),
    (0x1E00, 0x1E94, 2, 1), (0x1EA0, 0x1EFE, 2, 1), (0xFF21, 0xFF3A, 1, 32)]

def smallLetter (c : Char) : Char :=
  let n := c.toNat
  match capitalRuns.find? fun (first, last, apart, _) ↦
      first ≤ n && n ≤ last && (n - first) % apart = 0 with
  | some (_, _, _, behind) => Char.ofNat (n + behind)
  | none => c.toLower

/-- What stands for a character in a domain name: a wide form stands for the plain one, an
ideographic stop for a dot, a character that only guides the setting of a text for nothing, and a
capital letter for the small one. -/
def domainChars (c : Char) : List Char :=
  let n := c.toNat
  if [0xAD, 0x200B, 0x2060, 0xFEFF].contains n || (0xFE00 ≤ n && n ≤ 0xFE0F) then []
  else if n = 0x3002 || n = 0xFF61 then ['.']
  else if 0xFF01 ≤ n && n ≤ 0xFF5E then [(Char.ofNat (n - 0xFEE0)).toLower]
  else [smallLetter c]

/-- A label of a domain name in its ASCII form. -/
def asciiLabel (label : List Char) : List Char :=
  if label.all (·.toNat < 0x80) then label else "xn--".toList ++ Punycode.encode label

def isForbiddenInDomain (c : Char) : Bool :=
  isBlank c || c.toNat < 0x20 || (0x7F ≤ c.toNat && c.toNat ≤ 0x9F) || c.toNat = 0xFFFD ||
    "#/:<>?@[\\]^|%".toList.contains c

def isForbiddenInRawHost (c : Char) : Bool :=
  c.toNat = 0 || "\t\n\r #/:<>?@[\\]^|".toList.contains c

/-- Labels with dots between. -/
def joinLabels : List (List Char) → List Char
  | [] => []
  | [label] => label
  | label :: rest => label ++ '.' :: joinLabels rest

def asciiDomain? (cs : List Char) : Option (List Char) :=
  let plain := cs.flatMap domainChars
  if plain.any isForbiddenInDomain then none
  else some (joinLabels ((fieldsAt '.' plain).map asciiLabel))

/-! ## The two kinds of host -/

/-- A host of a scheme that has domains. -/
def parseHost (cs : List Char) : Except UrlError (List Char) :=
  match cs with
  | '[' :: rest => parseBracketed rest
  | _ =>
    match (Utf8.decode? (Percent.decode cs)).bind asciiDomain? with
    | none => .error .invalidDomainName
    | some [] => .error .emptyHost
    | some domain =>
      if endsInNumber domain then
        match ipv4Address? domain with
        | some address => .ok (showIpv4 address)
        | none => .error .invalidIpv4
      else .ok domain

/-- A host of any other scheme. -/
def parseRawHost (cs : List Char) : Except UrlError (List Char) :=
  match cs with
  | '[' :: rest => parseBracketed rest
  | _ =>
    if cs.any isForbiddenInRawHost then .error .invalidDomainCharacter
    else .ok (Percent.encode (fun c ↦ c.toNat < 0x20 || c.toNat = 0x7F) cs)

end ScriptLoader.Url
