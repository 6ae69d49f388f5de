/-!
# UTF-16 code units

Bundle lengths count UTF-16 code units, and a compiler may hand over a source map as a sequence of
them. `ofChars` writes text as units, `toUtf8` turns units into UTF-8 bytes.

## Surrogates

A unit below `0xD800` or from `0xE000` on stands for itself. A high surrogate followed by a low one
stands for a code point from `0x10000` on. Any other surrogate is malformed, and `toUtf8` refuses
the whole sequence: half a character has no bytes.
-/

namespace ScriptLoader.Utf16

/-- The first half of a surrogate pair. -/
def isHigh (unit : UInt16) : Bool := 0xD800 ≤ unit && unit ≤ 0xDBFF

/-- The second half of a surrogate pair. -/
def isLow (unit : UInt16) : Bool := 0xDC00 ≤ unit && unit ≤ 0xDFFF

def maxCodePoint : Nat := 0x10FFFF

/-- What a code point beyond the largest one is replaced with. -/
def replacement : Char := Char.ofNat 0xFFFD

/-- The code point that a surrogate pair stands for. -/
def pairCodePoint (high low : UInt16) : Nat :=
  (high.toNat - 0xD800) * 0x400 + (low.toNat - 0xDC00) + 0x10000

/-- The character at a code point; none at a surrogate. -/
def scalar? (codePoint : Nat) : Option Char :=
  if maxCodePoint < codePoint then some replacement
  else if h : codePoint.isValidChar then some (Char.ofNatAux codePoint h)
  else none

/-- The units of one character: two beyond the basic plane, one otherwise. -/
def ofChar (c : Char) : List UInt16 :=
  if c.toNat < 0x10000 then [UInt16.ofNat c.toNat]
  else
    [UInt16.ofNat (0xD800 + (c.toNat - 0x10000) / 0x400),
      UInt16.ofNat (0xDC00 + (c.toNat - 0x10000) % 0x400)]

/-- The units of a text. -/
def ofChars (cs : List Char) : List UInt16 := cs.flatMap ofChar

/-- How many units a character takes. -/
def width (c : Char) : Nat := if c.toNat < 0x10000 then 1 else 2

/-- How many units a text takes. -/
def length : List Char → Nat
  | [] => 0
  | c :: rest => width c + length rest

/-- The UTF-8 bytes of the text that `units` encodes, or none when a surrogate stands alone. -/
def toUtf8 : List UInt16 → Option (List UInt8)
  | [] => some []
  | unit :: rest =>
    if unit < 0x80 then (toUtf8 rest).map (unit.toUInt8 :: ·)
    else if isHigh unit then
      match rest with
      | [] => none
      | low :: rest =>
        if isLow low then do
          let c ← scalar? (pairCodePoint unit low)
          let bytes ← toUtf8 rest
          some (String.utf8EncodeChar c ++ bytes)
        else none
    else if isLow unit then none
    else do
      let c ← scalar? unit.toNat
      let bytes ← toUtf8 rest
      some (String.utf8EncodeChar c ++ bytes)

end ScriptLoader.Utf16
