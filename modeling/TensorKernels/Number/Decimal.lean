import TensorKernels.Number.Binary32

/-!
# Decimal digits of binary32 values

Three ways to choose decimal digits for a positive number given as a quotient of natural numbers:
the fewest digits that read back as the same binary32 value (`shortest`), a fixed number of
significant digits (`significant`) and a fixed number of decimal places (`places`). All of them are
exact natural number arithmetic. Rounding goes to the nearest, a tie to the even neighbour; of two
shortest candidates that are equally near, `shortest` takes the upper one.
-/

set_option autoImplicit false

namespace TensorKernels

/-- The number `digits * 10 ^ exponent`. -/
structure Decimal where
  /-- The digits, read as a natural number. -/
  digits : Nat
  /-- The place of the last digit. -/
  exponent : Int
  deriving DecidableEq, Repr

namespace Decimal

/-- `num / den` rounded to the nearest natural number, a tie going to the even neighbour. -/
def roundDiv (num den : Nat) : Nat :=
  let q := num / den
  let r := num % den
  if 2 * r < den then q
  else if den < 2 * r then q + 1
  else if q % 2 = 0 then q
  else q + 1

/-- The quotient `num / den` in units of `10 ^ place`, again as a quotient. -/
def inUnits (num den : Nat) (place : Int) : Nat × Nat :=
  if 0 ≤ place then (num, den * Nat.pow 10 place.toNat) else (num * Nat.pow 10 (-place).toNat, den)

/-- The number of decimal digits; zero has one. -/
def width (n : Nat) : Nat :=
  if n < 10 then 1 else width (n / 10) + 1
termination_by n
decreasing_by omega

/-- Every positive binary32 value is above `10 ^ (-50)`. -/
def leastPlace : Nat := 50

/-- The `k` with `10 ^ (k - 1) ≤ num / den < 10 ^ k`, for quotients above `10 ^ (-50)`. -/
def magnitude (num den : Nat) : Int :=
  (width (num * Nat.pow 10 leastPlace / den) : Int) - leastPlace

/-- Trailing zeros moved into the exponent, at most `fuel` of them. -/
def trim : Nat → Decimal → Decimal
  | 0, d => d
  | fuel + 1, d =>
    if d.digits ≠ 0 ∧ d.digits % 10 = 0 then trim fuel ⟨d.digits / 10, d.exponent + 1⟩ else d

/-- The interval of numbers that round to a binary32 value, as numerators over one denominator. The
value lies in its middle, except that the lower half is shorter where the unit changes below. -/
structure Interval where
  low : Nat
  mid : Nat
  high : Nat
  den : Nat
  /-- Whether the ends round to the value as well. -/
  closed : Bool

/-- The interval of a positive finite value; a tie is rounded to the even significand. -/
def Interval.around (b : Binary32) : Interval :=
  let below := if b.significand = 1 <<< 23 ∧ Binary32.minExponent < b.exponent then 1 else 2
  let (unit, den) := Binary32.ratio ⟨false, 1, b.exponent - 2⟩
  { low := (4 * b.significand - below) * unit
    mid := 4 * b.significand * unit
    high := (4 * b.significand + 2) * unit
    den := den
    closed := b.significand % 2 = 0 }

/-- Whether `digits * 10 ^ place` lies in the interval. -/
def Interval.contains (i : Interval) (digits : Nat) (place : Int) : Bool :=
  let (high, den) := inUnits i.high i.den place
  let low := (inUnits i.low i.den place).1
  if i.closed then low ≤ digits * den && digits * den ≤ high
  else low < digits * den && digits * den < high

/-- The better of the two neighbours of the value on the grid `10 ^ place` that lie in the interval,
if any does. -/
def Interval.neighbour (i : Interval) (place : Int) : Option Nat :=
  let (mid, den) := inUnits i.mid i.den place
  let d := mid / den
  match i.contains d place, i.contains (d + 1) place with
  | true, true => if 2 * (mid % den) < den then some d else some (d + 1)
  | true, false => some d
  | false, true => some (d + 1)
  | false, false => none

/-- The first grid, from coarse to fine, that has a point in the interval. -/
def Interval.search (i : Interval) (top : Int) : Nat → Nat → Decimal
  | 0, n => ⟨i.mid / i.den, top - n⟩
  | fuel + 1, n =>
    match i.neighbour (top - n) with
    | some d => trim (n + 1) ⟨d, top - n⟩
    | none => i.search top fuel (n + 1)

/-- The fewest digits that read back as the value; nine always do. -/
def shortest (b : Binary32) : Decimal :=
  let i := Interval.around b
  i.search (magnitude i.mid i.den) 9 1

/-- The value rounded to `n` significant digits. A carry into a new digit drops the last zero. -/
def significant (b : Binary32) (n : Nat) : Decimal :=
  let (num, den) := b.ratio
  let place := magnitude num den - n
  let (p, q) := inUnits num den place
  let d := roundDiv p q
  if d = Nat.pow 10 n then ⟨Nat.pow 10 (n - 1), place + 1⟩ else ⟨d, place⟩

/-- The value rounded to `n` decimal places. -/
def places (b : Binary32) (n : Nat) : Decimal :=
  let (num, den) := b.ratio
  ⟨roundDiv (num * Nat.pow 10 n) den, -n⟩

end Decimal

end TensorKernels
