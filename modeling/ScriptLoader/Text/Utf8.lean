/-!
# UTF-8 bytes

Files and percent-decoded names are bytes. `decode?` reads them as text and refuses a sequence that
is not UTF-8: a byte out of place, a form longer than needed, a surrogate, or a code point beyond
the last.
-/

namespace ScriptLoader.Utf8

def encode (cs : List Char) : List UInt8 := cs.flatMap String.utf8EncodeChar

/-- The six payload bits of a continuation byte. -/
def continuation? (byte : UInt8) : Option Nat :=
  if 0x80 ≤ byte ∧ byte < 0xC0 then some (byte.toNat - 0x80) else none

/-- The character at a code point of at least `least`. -/
def charFrom? (least codePoint : Nat) : Option Char :=
  if h : codePoint.isValidChar then
    if least ≤ codePoint then some (Char.ofNatAux codePoint h) else none
  else none

def decode? : List UInt8 → Option (List Char)
  | [] => some []
  | a :: rest =>
    if a < 0x80 then (decode? rest).map (Char.ofNat a.toNat :: ·)
    else if a < 0xC0 then none
    else if a < 0xE0 then
      match rest with
      | b :: rest => do
        let x ← continuation? b
        let c ← charFrom? 0x80 ((a.toNat - 0xC0) * 0x40 + x)
        let cs ← decode? rest
        some (c :: cs)
      | _ => none
    else if a < 0xF0 then
      match rest with
      | b :: c :: rest => do
        let x ← continuation? b
        let y ← continuation? c
        let c ← charFrom? 0x800 (((a.toNat - 0xE0) * 0x40 + x) * 0x40 + y)
        let cs ← decode? rest
        some (c :: cs)
      | _ => none
    else if a < 0xF8 then
      match rest with
      | b :: c :: d :: rest => do
        let x ← continuation? b
        let y ← continuation? c
        let z ← continuation? d
        let c ← charFrom? 0x10000 ((((a.toNat - 0xF0) * 0x40 + x) * 0x40 + y) * 0x40 + z)
        let cs ← decode? rest
        some (c :: cs)
      | _ => none
    else none

def toString? (bytes : List UInt8) : Option String := (decode? bytes).map String.ofList

end ScriptLoader.Utf8
