import StackScript.Number.Binary64

-- Decimal texts of double-precision numbers: the fewest digits that read back as the same number, the nearest of
-- those, laid out as a format asks.
namespace StackScript

structure Decimal where
  significand : Nat
  exponent : Int -- significand · 10 ^ exponent
deriving DecidableEq

-- Which neighbour wins when two shortest decimals are equally near.
inductive Tie where
  | up
  | even
deriving DecidableEq

namespace Decimal

-- The open or closed range of numbers that round to one double, over a common denominator.
structure Rounding where
  value : Nat
  low : Nat
  high : Nat
  denominator : Nat
  closed : Bool

-- Halfway to both neighbours. The lower neighbour of a power of two is nearer by half, unless both are
-- subnormal. An even significand owns the two ends.
def Rounding.of (significand : Nat) (exponent : Int) : Rounding :=
  let below := if significand = Nat.pow 2 52 ∧ exponent > -1074 then 1 else 2
  let scale := Nat.pow 2 (exponent - 2).toNat
  ⟨4 * significand * scale, (4 * significand - below) * scale, (4 * significand + 2) * scale,
    Nat.pow 2 (2 - exponent).toNat, significand % 2 = 0⟩

def Rounding.inUnits (r : Rounding) (exponent : Int) : Rounding :=
  let up := Nat.pow 10 (-exponent).toNat
  ⟨r.value * up, r.low * up, r.high * up, r.denominator * Nat.pow 10 exponent.toNat, r.closed⟩

def Rounding.holds (r : Rounding) (n : Nat) : Bool :=
  let scaled := n * r.denominator
  if r.closed then r.low ≤ scaled && scaled ≤ r.high else r.low < scaled && scaled < r.high

-- The whole number of units in the range that is nearest to the value, if there is one. If any lies in the
-- range, so does one of the two neighbours of the value.
def Rounding.nearest? (r : Rounding) (tie : Tie) : Option Nat :=
  let floor := r.value / r.denominator
  let twice := 2 * (r.value % r.denominator)
  match r.holds floor, r.holds (floor + 1) with
  | true, true =>
    if twice < r.denominator then some floor
    else if twice > r.denominator then some (floor + 1)
    else match tie with
      | .up => some (floor + 1)
      | .even => some (if floor % 2 = 0 then floor else floor + 1)
  | true, false => some floor
  | false, true => some (floor + 1)
  | false, false => none

def leading (numerator denominator : Nat) : Int :=
  if denominator ≤ numerator then ((Nat.toDigits 10 (numerator / denominator)).length : Int) - 1
  else -((Nat.toDigits 10 ((denominator + numerator - 1) / numerator - 1)).length : Int)

-- Trailing zeros move into the exponent.
def trim : Nat → Nat → Int → Decimal
  | 0, significand, exponent => ⟨significand, exponent⟩
  | fuel + 1, significand, exponent =>
    if significand ≠ 0 ∧ significand % 10 = 0 then trim fuel (significand / 10) (exponent + 1)
    else ⟨significand, exponent⟩

-- Tries ever finer powers of ten; seventeen digits always suffice.
def search (r : Rounding) (tie : Tie) : Nat → Int → Decimal
  | 0, exponent =>
    let r := r.inUnits exponent
    ⟨r.value / r.denominator, exponent⟩
  | steps + 1, exponent =>
    match (r.inUnits exponent).nearest? tie with
    | some n => trim 20 n exponent
    | none => search r tie steps (exponent - 1)

def shortest (tie : Tie) (significand : Nat) (exponent : Int) : Decimal :=
  if significand = 0 then ⟨0, 0⟩
  else
    let r := Rounding.of significand exponent
    search r tie 20 (leading r.value r.denominator)

-- How a number is laid out. Positional notation is used from `10 ^ low` up to, but not including, `10 ^ high`;
-- without these bounds, always.
structure Layout where
  tie : Tie
  positional : Option (Int × Int)
  pointZero : Bool -- a whole number ends in ".0"
  plus : Bool -- a positive exponent has a sign

def positional (d : Decimal) (pointZero : Bool) : List Char :=
  let digits := Nat.toDigits 10 d.significand
  if 0 ≤ d.exponent then
    digits ++ List.replicate (if d.significand = 0 then 0 else d.exponent.toNat) '0' ++
      (if pointZero then ['.', '0'] else [])
  else
    let places := (-d.exponent).toNat
    if places < digits.length then
      digits.take (digits.length - places) ++ '.' :: digits.drop (digits.length - places)
    else '0' :: '.' :: (List.replicate (places - digits.length) '0' ++ digits)

def scientific (d : Decimal) (plus : Bool) : List Char :=
  let digits := Nat.toDigits 10 d.significand
  let exponent := d.exponent + digits.length - 1
  let fraction := match digits.drop 1 with
    | [] => []
    | rest => '.' :: rest
  let sign := if exponent < 0 then ['-'] else if plus then ['+'] else []
  digits.take 1 ++ fraction ++ 'e' :: sign ++ Nat.toDigits 10 exponent.natAbs

-- Whether a decimal lies where its layout is positional. Zero always does.
def isPositional (layout : Layout) (d : Decimal) : Bool :=
  match layout.positional with
  | none => true
  | some (low, high) =>
    let lead := d.exponent + (Nat.toDigits 10 d.significand).length - 1
    d.significand = 0 || (low ≤ lead && lead < high)

end Decimal

-- The text of a number in a layout; `NaN`, `inf` and `-inf` where there are no digits.
def Binary64.text (layout : Decimal.Layout) (x : Binary64) : String :=
  let sign := if x.negative then ['-'] else []
  match x.magnitude with
  | .nan => "NaN"
  | .infinite => String.ofList (sign ++ ['i', 'n', 'f'])
  | .finite significand exponent =>
    let d := Decimal.shortest layout.tie significand exponent
    String.ofList (sign ++
      if Decimal.isPositional layout d then Decimal.positional d layout.pointZero
      else Decimal.scientific d layout.plus)

end StackScript
