import TensorKernels.Error
import TensorKernels.Number.Arithmetic
import TensorKernels.Random.Generator

/-!
# Initial values of tensors

An initializer gives the values of a tensor of a given shape, drawing from a generator where it is
random.
-/

set_option autoImplicit false

namespace TensorKernels

/-- How the values of a tensor are chosen. -/
inductive Initializer (α : Type)
  /-- These values, one per element. -/
  | values (data : Array α)
  | fill (value : α)
  /-- Uniform between two bounds; where they do not ascend, the lower one throughout. -/
  | uniform (low high : Float32)
  /-- Standard normal. -/
  | normal
  /-- Uniform between plus and minus the square root of `6 / (fan in + fan out)`. -/
  | xavier
  /-- Normal with variance `2 / fan in`. -/
  | he

namespace Initializer

/-- The fan in and fan out of a weight. A vector uses its length for both. -/
def fans : Shape → Nat × Nat
  | [] => (1, 1)
  | [n] => (n, n)
  | fanIn :: fanOut :: _ => (fanIn, fanOut)

variable {α : Type} (ops : Arithmetic α)

/-- Draws `n` scalars. -/
def drawn (n : Nat) (draw : Draw Float32) : EStateM Error Generator (Array α) := fun g =>
  let (xs, g) := Draw.times n draw g
  .ok (xs.map ops.lit) g

/-- Draws `n` values between two bounds; without elements the bounds do not matter. -/
def uniformValues (n : Nat) (low high : Float32) : EStateM Error Generator (Array α) :=
  if n = 0 ∨ Draw.isRange low high then drawn ops n (Draw.between low high)
  else throw .outOfRange

/-- Draws `n` normal values; without a finite deviation they are zero. -/
def normalValues (normal : NormalSampler) (n : Nat) (deviation : Float32) :
    EStateM Error Generator (Array α) :=
  if deviation.isFinite then drawn ops n (normal deviation)
  else return Array.replicate n ops.zero

/-- The values for a tensor of the given name and shape. -/
def sample (normal : NormalSampler) (name : String) (shape : Shape) :
    Initializer α → EStateM Error Generator (Array α)
  | .values data =>
    if data.size = shape.size then return data
    else throw (.sizeMismatch name shape.size data.size)
  | .fill value => return Array.replicate shape.size value
  | .uniform low high =>
    if low ≥ high then return Array.replicate shape.size (ops.lit low)
    else uniformValues ops shape.size low high
  | .normal => normalValues ops normal shape.size 1.0
  | .xavier =>
    let (fanIn, fanOut) := fans shape
    let limit := ((6.0 : Float32) / (UInt64.ofNat (fanIn + fanOut)).toFloat32).sqrt
    if fanIn + fanOut < UInt64.size then uniformValues ops shape.size (-limit) limit else throw .overflow
  | .he =>
    normalValues ops normal shape.size ((2.0 : Float32) / (UInt64.ofNat (fans shape).1).toFloat32).sqrt

end Initializer

end TensorKernels
