-- Double-precision numbers, kept by their 64 bits so that each pattern of a not-a-number is a value of its own.
namespace StackScript

structure Binary64 where
  bits : UInt64
deriving DecidableEq, Inhabited

namespace Binary64

def toFloat (x : Binary64) : Float := Float.ofBits x.bits
def ofFloat (x : Float) : Binary64 := ⟨x.toBits⟩
def ofInt32 (n : Int32) : Binary64 := ofFloat n.toFloat

def add (x y : Binary64) : Binary64 := ofFloat (x.toFloat + y.toFloat)
def sub (x y : Binary64) : Binary64 := ofFloat (x.toFloat - y.toFloat)
def mul (x y : Binary64) : Binary64 := ofFloat (x.toFloat * y.toFloat)
def div (x y : Binary64) : Binary64 := ofFloat (x.toFloat / y.toFloat)

-- Negation flips the sign bit, whatever the rest is.
def neg (x : Binary64) : Binary64 := ⟨x.bits ^^^ 0x8000000000000000⟩

-- Numeric equality: both zeros are equal, and a not-a-number equals nothing.
def same (x y : Binary64) : Bool := x.toFloat == y.toFloat

def greater (x y : Binary64) : Bool := y.toFloat < x.toFloat
def atLeast (x y : Binary64) : Bool := y.toFloat ≤ x.toFloat

-- The magnitude that the bits stand for, the sign aside.
inductive Magnitude where
  | nan
  | infinite
  | finite (significand : Nat) (exponent : Int) -- significand · 2 ^ exponent
deriving DecidableEq

def negative (x : Binary64) : Bool := x.bits ≥ 0x8000000000000000

def magnitude (x : Binary64) : Magnitude :=
  let fraction : Nat := x.bits.toNat % Nat.pow 2 52
  let scale : Nat := x.bits.toNat / Nat.pow 2 52 % Nat.pow 2 11
  if scale = 2047 then if fraction = 0 then .infinite else .nan
  else if scale = 0 then .finite fraction (-1074)
  else .finite (Nat.pow 2 52 + fraction) ((scale : Int) - 1075)

-- The positive number nearest to `numerator / denominator`, a half going to the even neighbour. Beyond the
-- greatest finite number it is infinity.
def ofRatio (numerator denominator : Nat) : Binary64 :=
  if numerator = 0 then ⟨0⟩
  else
    -- The quotient lies in [2 ^ (size - 1), 2 ^ (size + 1)).
    let size : Int := (numerator.log2 : Int) - denominator.log2
    let scaled (exponent : Int) : Nat × Nat :=
      (numerator * Nat.pow 2 (-exponent).toNat, denominator * Nat.pow 2 exponent.toNat)
    let guess := max (size - 53) (-1074)
    let (n, d) := scaled guess
    let exponent := if n / d < Nat.pow 2 53 then guess else guess + 1
    let (n, d) := scaled exponent
    let whole := n / d
    let twice := 2 * (n % d)
    let significand := if twice > d ∨ (twice = d ∧ whole % 2 = 1) then whole + 1 else whole
    -- A significand that rounds up to a power of two carries into the exponent field by itself.
    let code := if significand < Nat.pow 2 52 then significand
      else (exponent + 1075).toNat * Nat.pow 2 52 + (significand - Nat.pow 2 52)
    ⟨(min code (2047 * Nat.pow 2 52)).toUInt64⟩

end Binary64
end StackScript
