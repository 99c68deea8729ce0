import TensorKernels.Number.Decimal

/-!
# Texts of binary32 values

* `literal`: the shortest digits, positional from `1e-4` up to `1e16` and with an exponent
  elsewhere; there is always a decimal point or an exponent.
* `plain`: the shortest digits, always positional, without a decimal point on integers.
* `scientific n`: `n` significant digits with an exponent.
* `fixed n`: `n` decimal places.

A NaN is `NaN` whatever its sign, infinities are `inf` and `-inf`, and zeros keep their sign.
-/

set_option autoImplicit false

namespace TensorKernels.Number

/-- `n` zeros. -/
def zeros (n : Nat) : String := String.ofList (List.replicate n '0')

/-- Positional text: the digits with a decimal point where it belongs and zeros up to it. An integer
ends in `tail`. -/
def positional (d : Decimal) (tail : String) : String :=
  let s := toString d.digits
  let point := s.length + d.exponent
  if point ≤ 0 then "0." ++ zeros (-point).toNat ++ s
  else if s.length ≤ point then s ++ zeros (point - s.length).toNat ++ tail
  else String.ofList (s.toList.take point.toNat) ++ "." ++ String.ofList (s.toList.drop point.toNat)

/-- Text with an exponent: one digit, the others behind a decimal point, and the exponent. -/
def exponential (d : Decimal) : String :=
  let s := toString d.digits
  let rest := String.ofList (s.toList.drop 1)
  let point := if rest.isEmpty then "" else "."
  String.ofList (s.toList.take 1) ++ point ++ rest ++ "e" ++ toString (s.length + d.exponent - 1)

/-- A text built from the sign and the parts of a finite value, and the texts of the others. -/
def signed (x : Float32) (body : Binary32 → String) : String :=
  if x.isNaN then "NaN"
  else
    let b := Binary32.ofFloat x
    let sign := if b.negative then "-" else ""
    if x.isInf then sign ++ "inf" else sign ++ body b

/-- The text of a literal: it reads back as the same value. -/
def literal (x : Float32) : String :=
  signed x fun b =>
    if b.significand = 0 then "0.0"
    else
      let d := Decimal.shortest b
      let point := (toString d.digits).length + d.exponent
      if -3 ≤ point && point ≤ 16 then positional d ".0" else exponential d

/-- The shortest digits without an exponent. -/
def plain (x : Float32) : String :=
  signed x fun b => if b.significand = 0 then "0" else positional (Decimal.shortest b) ""

/-- `n` significant digits with an exponent. -/
def scientific (n : Nat) (x : Float32) : String :=
  signed x fun b =>
    if b.significand = 0 then
      (if n ≤ 1 then "0" else "0." ++ zeros (n - 1)) ++ "e0"
    else exponential (Decimal.significant b n)

/-- `n` decimal places. -/
def fixed (n : Nat) (x : Float32) : String :=
  signed x fun b =>
    let s := toString (Decimal.places b n).digits
    let padded := zeros (n + 1 - s.length) ++ s
    let cut := padded.length - n
    let point := if n = 0 then "" else "."
    String.ofList (padded.toList.take cut) ++ point ++ String.ofList (padded.toList.drop cut)

end TensorKernels.Number
