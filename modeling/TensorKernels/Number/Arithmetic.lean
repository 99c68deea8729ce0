import TensorKernels.Number.Text

/-!
# The arithmetic a kernel is run with

Kernels hold binary32 literals and otherwise only name operations. What the operations do is a value
of type `Arithmetic α`, so the same kernel can be run on binary32 numbers (`Arithmetic.binary32`),
over a ring, over dual numbers, or with nothing assumed about the operations at all.
-/

set_option autoImplicit false

namespace TensorKernels

/-- The operations on scalars of type `α` that kernels and the host use. -/
structure Arithmetic (α : Type) where
  /-- The scalar a literal stands for. -/
  lit : Float32 → α
  add : α → α → α
  sub : α → α → α
  mul : α → α → α
  div : α → α → α
  /-- The remainder of a division truncated toward zero. -/
  rem : α → α → α
  max : α → α → α
  min : α → α → α
  neg : α → α
  exp : α → α
  /-- The natural logarithm. -/
  log : α → α
  sqrt : α → α
  tanh : α → α
  /-- Whether the first scalar is below the second. -/
  lt : α → α → Bool
  /-- Whether the first scalar is not above the second. -/
  le : α → α → Bool
  /-- The text of a scalar in an error message. -/
  text : α → String

namespace Arithmetic

/-- IEEE binary32: every operation is rounded once, `max` and `min` ignore a NaN. -/
def binary32 : Arithmetic Float32 where
  lit x := x
  add := Float32.add
  sub := Float32.sub
  mul := Float32.mul
  div := Float32.div
  rem := Number.remainder
  max := Number.larger
  min := Number.smaller
  neg := Float32.neg
  exp := Float32.exp
  log := Float32.log
  sqrt := Float32.sqrt
  tanh := Float32.tanh
  lt := Float32.lt
  le := Float32.le
  text := Number.literal

variable {α : Type} (ops : Arithmetic α)

/-- The scalar of the literal `0.0`. -/
def zero : α := ops.lit 0.0

/-- The scalar of the literal `1.0`. -/
def one : α := ops.lit 1.0

/-- The sum from left to right, starting at negative zero. -/
def sum (xs : Array α) : α := xs.foldl ops.add (ops.lit (-0.0))

end Arithmetic

end TensorKernels
