/-!
# Binary32 values as exact numbers

A finite binary32 value is `± m * 2 ^ q` for a natural number `m` below `2 ^ 24` and an integer
`q` of at least `-149`. `Binary32.ofFloat` reads these parts off the bit pattern and
`Binary32.toFloat` writes them back, so that operations which have to be exact (remainders, decimal
text, thresholds) are carried out on natural numbers.
-/

set_option autoImplicit false

namespace TensorKernels

/-- The exact number `± significand * 2 ^ exponent`. -/
structure Binary32 where
  /-- Whether the sign bit is set. -/
  negative : Bool
  /-- The magnitude in units of `2 ^ exponent`. -/
  significand : Nat
  /-- The unit, as a power of two. -/
  exponent : Int
  deriving DecidableEq, Repr

namespace Binary32

/-- The exponent of the smallest positive value. -/
def minExponent : Int := -149

/-- The parts of a finite value. The eight exponent bits are biased so that the field `1` and the
field `0` (the subnormal values) share one unit. -/
def ofFloat (x : Float32) : Binary32 :=
  let bits := x.toBits.toNat
  let field := bits >>> 23 % 256
  let fraction := bits % 1 <<< 23
  { negative := 1 <<< 31 ≤ bits
    significand := if field = 0 then fraction else 1 <<< 23 + fraction
    exponent := if field = 0 then minExponent else minExponent + (field - 1 : Nat) }

/-- The value with the given parts, for a significand below `2 ^ 24` that is zero or has an exponent
in range. The significand is moved up until its leading bit is in place or the unit is smallest. -/
def toFloat (b : Binary32) : Float32 :=
  let sign := if b.negative then 1 <<< 31 else 0
  let room := (b.exponent - minExponent).toNat
  let shift := min (23 - b.significand.log2) room
  let m := b.significand <<< shift
  let magnitude :=
    if b.significand = 0 then 0
    else if m < 1 <<< 23 then m
    else (room - shift) <<< 23 + m
  Float32.ofBits (UInt32.ofNat (sign + magnitude))

/-- The numerator and denominator of the magnitude. -/
def ratio (b : Binary32) : Nat × Nat :=
  if 0 ≤ b.exponent then (b.significand <<< b.exponent.toNat, 1)
  else (b.significand, 1 <<< (-b.exponent).toNat)

/-- The greatest natural number that is not above `2 ^ n` times the magnitude. -/
def floorScaled (b : Binary32) (n : Nat) : Nat :=
  b.ratio.1 <<< n / b.ratio.2

end Binary32

namespace Number

/-- The remainder of a division whose quotient is truncated toward zero. It is exact: both
magnitudes are brought to the smaller unit and the remainder of the natural numbers is taken. -/
def remainder (x y : Float32) : Float32 :=
  if x.isFinite && !y.isNaN && y != 0.0 then
    if y.isInf then x
    else
      let a := Binary32.ofFloat x
      let b := Binary32.ofFloat y
      let unit := min a.exponent b.exponent
      let m := a.significand <<< (a.exponent - unit).toNat
      let n := b.significand <<< (b.exponent - unit).toNat
      Binary32.toFloat ⟨a.negative, m % n, unit⟩
  else 0.0 / 0.0

/-- The larger of two values; a NaN gives way to the other operand. -/
def larger (x y : Float32) : Float32 :=
  if x.isNaN then y else if y.isNaN then x else if x < y then y else x

/-- The smaller of two values; a NaN gives way to the other operand. -/
def smaller (x y : Float32) : Float32 :=
  if x.isNaN then y else if y.isNaN then x else if y < x then y else x

end Number

end TensorKernels
