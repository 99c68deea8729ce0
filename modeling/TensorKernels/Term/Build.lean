import TensorKernels.Term

/-!
# Building terms

`Build` numbers call sites: each function below returns an application at a site that was not used
before. The normalization layers are composed from simpler operators and share the centered operand.
-/

set_option autoImplicit false

namespace TensorKernels

/-- Building with a supply of call sites. -/
abbrev Build := StateM Nat

namespace Build

/-- An operator applied at a new call site. -/
def apply (op : Op) (args : List Term) : Build Term := fun site => (.apply site op args, site + 1)

/-- A function of one element. -/
def unary (f : UnaryOp) (x : Term) : Build Term := apply (.unary f) [x]

/-- An arithmetic operator. -/
def binary (f : BinaryOp) (a b : Term) : Build Term := apply (.binary f) [a, b]

/-- A loss. -/
def loss (f : LossOp) (predicted target : Term) : Build Term := apply (.loss f) [predicted, target]

/-- A fold over an axis. -/
def fold (f : FoldOp) (axis : Axis) (x : Term) : Build Term := apply (.fold f axis) [x]

/-- A matrix product. -/
def matmul (a b : Term) : Build Term := apply .matmul [a, b]

/-- A softmax over rows. -/
def softmax (x : Term) : Build Term := apply .softmax [x]

/-- The same elements in another shape. -/
def reshape (x : Term) (shape : Shape) : Build Term := apply (.reshape shape) [x]

/-- The transpose of a matrix. -/
def transpose (x : Term) : Build Term := apply .transpose [x]

/-- Dropout at a rate. -/
def dropout (x : Term) (rate : Float32) : Build Term := apply (.dropout rate) [x]

/-- The sum of the products over the last axis. -/
def dot (a b : Term) : Build Term := do
  fold .sum .last (← binary .mul a b)

/-- Added to a variance before the square root. -/
def normMargin : Float32 := 1e-4

/-- The axis over which a normalization layer takes its statistics. -/
def normAxis : NormKind → Axis
  | .batch => .first
  | .layer => .last

/-- Centers and scales `x` by the mean and variance over an axis, then scales by `gamma` and shifts
by `beta`. -/
def normalize (norm : NormKind) (x gamma beta : Term) : Build Term := do
  let centered ← binary .sub x (← fold .mean (normAxis norm) x)
  let variance ← fold .mean (normAxis norm) (← binary .mul centered centered)
  let deviation ← unary .sqrt (← binary .add variance (.constant normMargin))
  let normalized ← binary .div centered deviation
  apply (.affine norm) [normalized, gamma, beta]

end Build

end TensorKernels
