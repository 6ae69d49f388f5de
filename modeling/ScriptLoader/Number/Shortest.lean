/-!
# Shortest decimal of a double

A positive finite double is `m * 2 ^ q`. Among the decimals that read back as the same double,
`shortest` takes one with the fewest digits, of those the nearest, and on an exact tie the larger.

## The interval

In units of `2 ^ (q - 2)` the double is `4 * m` and the decimals that round to it fill the interval
from `4 * m - 2` to `4 * m + 2`; below a power of two the lower neighbour is only half as far. The
ends belong to the interval exactly when `m` is even. All comparisons are between natural numbers.
-/

namespace ScriptLoader.Shortest

/-- A positive double as `mantissa * 2 ^ exponent`, and whether its lower neighbour is half as far
away as its upper one. -/
structure Binary where
  mantissa : Nat
  exponent : Int
  narrowBelow : Bool

/-- A decimal as `coefficient * 10 ^ exponent`. -/
structure Decimal where
  coefficient : Nat
  exponent : Int

/-- How many fractions there are for each exponent: `2 ^ 52`. -/
def fractionCount : Nat := 0x10000000000000

def signBit : Nat := 0x8000000000000000

/-- The bits of infinity; above them there are no numbers. -/
def infinity : Nat := 0x7FF0000000000000

/-- The parts of a positive finite double, from its bits without the sign. -/
def Binary.ofBits (bits : Nat) : Binary :=
  let field : Nat := bits / fractionCount
  let fraction : Nat := bits % fractionCount
  if field = 0 then ⟨fraction, -1074, false⟩
  else ⟨fractionCount + fraction, (field : Int) - 1075, fraction == 0 && 1 < field⟩

/-- A positive rational number `numerator / denominator`. -/
structure Ratio where
  numerator : Nat
  denominator : Nat

/-- `count * base ^ exponent` as a ratio. -/
def Ratio.ofPower (count base : Nat) (exponent : Int) : Ratio :=
  match exponent with
  | .ofNat e => ⟨count * Nat.pow base e, 1⟩
  | .negSucc e => ⟨count, Nat.pow base (e + 1)⟩

def Ratio.lt (a b : Ratio) : Bool := a.numerator * b.denominator < b.numerator * a.denominator

/-- Whether a decimal rounds to the double. -/
def Binary.accepts (x : Binary) (d : Decimal) : Bool :=
  let value := Ratio.ofPower d.coefficient 10 d.exponent
  let low := Ratio.ofPower (4 * x.mantissa - if x.narrowBelow then 1 else 2) 2 (x.exponent - 2)
  let high := Ratio.ofPower (4 * x.mantissa + 2) 2 (x.exponent - 2)
  if x.mantissa % 2 = 0 then !value.lt low && !high.lt value
  else low.lt value && value.lt high

/-- The largest `e` from `start` down to `start - fuel` with `10 ^ e` at most the ratio. -/
def Ratio.magnitudeFrom (r : Ratio) : (fuel : Nat) → (start : Int) → Int
  | 0, start => start
  | fuel + 1, start =>
    if r.lt (Ratio.ofPower 1 10 start) then r.magnitudeFrom fuel (start - 1) else start

/-- The decimal exponent of the leading digit. -/
def Binary.magnitude (x : Binary) : Int :=
  (Ratio.ofPower x.mantissa 2 x.exponent).magnitudeFrom 640 309

/-- The larger of the two neighbours on the grid of `10 ^ k` is `lower + 1`. -/
def Binary.lowerNeighbour (x : Binary) (k : Int) : Nat :=
  let value := Ratio.ofPower x.mantissa 2 x.exponent
  let unit := Ratio.ofPower 1 10 k
  (value.numerator * unit.denominator) / (value.denominator * unit.numerator)

/-- Whether the double is at least as near to the upper neighbour as to the lower. -/
def Binary.nearerAbove (x : Binary) (k : Int) (lower : Nat) : Bool :=
  let middle := Ratio.ofPower (2 * lower + 1) 10 k
  let twice := Ratio.ofPower (2 * x.mantissa) 2 x.exponent
  !twice.lt middle

/-- The best decimal on the grid of `10 ^ k`, if one of the two neighbours is accepted. -/
def Binary.onGrid? (x : Binary) (k : Int) : Option Decimal :=
  let lower := x.lowerNeighbour k
  let below : Decimal := ⟨lower, k⟩
  let above : Decimal := ⟨lower + 1, k⟩
  match x.accepts below, x.accepts above with
  | true, true => if x.nearerAbove k lower then some above else some below
  | true, false => some below
  | false, true => some above
  | false, false => none

/-- Tries grids from `k` downwards, each ten times as fine as the one before. -/
def Binary.search (x : Binary) : (fuel : Nat) → (k : Int) → Decimal
  | 0, k => ⟨x.lowerNeighbour k, k⟩
  | fuel + 1, k => (x.onGrid? k).getD (x.search fuel (k - 1))

/-- A decimal without a final zero. Only the coarsest grid can have a hit with one, namely ten,
since any other is a hit of a coarser grid. -/
def Decimal.withoutFinalZero (d : Decimal) : Decimal :=
  if d.coefficient % 10 = 0 then ⟨d.coefficient / 10, d.exponent + 1⟩ else d

/-- The shortest decimal that reads back as the double; seventeen digits always do. -/
def Binary.shortest (x : Binary) : Decimal := (x.search 17 x.magnitude).withoutFinalZero

/-- The digits of a decimal in positional notation: no exponent, and no fraction when it is
whole. -/
def Decimal.positional (d : Decimal) : List Char :=
  let digits := Nat.toDigits 10 d.coefficient
  match d.exponent with
  | .ofNat e => digits ++ List.replicate e '0'
  | .negSucc e =>
    let places := e + 1
    if places < digits.length then
      digits.take (digits.length - places) ++ '.' :: digits.drop (digits.length - places)
    else
      '0' :: '.' :: List.replicate (places - digits.length) '0' ++ digits

/-- The text of a double from its bits: the shortest digits that read back, always positional. -/
def render (bits : UInt64) : String :=
  let magnitude := bits.toNat % signBit
  if infinity < magnitude then "NaN"
  else
    let sign := if signBit ≤ bits.toNat then ['-'] else []
    String.ofList <| sign ++
      if magnitude = infinity then ['i', 'n', 'f']
      else if magnitude = 0 then ['0']
      else (Binary.ofBits magnitude).shortest.positional

end ScriptLoader.Shortest
