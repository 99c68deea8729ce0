import TensorKernels.Shape

/-!
# Operators

The catalogue of tensor operators. A `regular` operator computes each output element from operand
elements of one invocation; a `reduction` folds over a whole axis of its operands.
-/

set_option autoImplicit false

namespace TensorKernels

/-- Functions of one element. -/
inductive UnaryOp
  | relu
  | sigmoid
  /-- `x` where it is positive, `slope * x` elsewhere. -/
  | leakyRelu (slope : Float32)
  | tanh
  | exp
  | log
  | sqrt
  deriving DecidableEq, Repr

/-- Arithmetic on two elements. -/
inductive BinaryOp
  | add
  | sub
  | mul
  | div
  deriving DecidableEq, Repr

/-- Losses of a prediction against a target, one per element. -/
inductive LossOp
  | meanSquaredError
  | binaryCrossEntropy
  | crossEntropy
  deriving DecidableEq, Repr

/-- Folds over one axis. -/
inductive FoldOp
  | sum
  | mean
  deriving DecidableEq, Repr

/-- The axis a fold runs over. -/
inductive Axis
  /-- The columns: one result per row. -/
  | last
  /-- The rows: one result per column. -/
  | first
  deriving DecidableEq, Repr

/-- The two normalization layers. -/
inductive NormKind
  /-- Statistics over the rows, one pair per column. -/
  | batch
  /-- Statistics over the columns, one pair per row. -/
  | layer
  deriving DecidableEq, Repr

/-- A tensor operator. -/
inductive Op
  | unary (f : UnaryOp)
  | binary (f : BinaryOp)
  | loss (f : LossOp)
  | matmul
  | fold (f : FoldOp) (axis : Axis)
  | softmax
  | reshape (shape : Shape)
  | transpose
  /-- The product with a mask that drops elements at the given rate. -/
  | dropout (rate : Float32)
  /-- `x * gamma + beta`, the last step of a normalization layer. -/
  | affine (norm : NormKind)
  deriving DecidableEq, Repr

/-- How an operator's output elements are computed. -/
inductive OpClass
  | regular
  | reduction
  deriving DecidableEq, Repr

/-- The name of a class in log records. -/
def OpClass.name : OpClass → String
  | .regular => "Regular"
  | .reduction => "Reduction"

/-- The name of a function of one element. -/
def UnaryOp.name : UnaryOp → String
  | .relu => "relu"
  | .sigmoid => "sigmoid"
  | .leakyRelu _ => "leaky_relu"
  | .tanh => "tanh"
  | .exp => "exp"
  | .log => "log"
  | .sqrt => "sqrt"

/-- The name of an arithmetic operator. -/
def BinaryOp.name : BinaryOp → String
  | .add => "add"
  | .sub => "sub"
  | .mul => "mult"
  | .div => "div"

/-- The name of a loss. -/
def LossOp.name : LossOp → String
  | .meanSquaredError => "mean_squared_error"
  | .binaryCrossEntropy => "binary_cross_entropy"
  | .crossEntropy => "cross_entropy"

/-- The name of a fold. -/
def FoldOp.name : FoldOp → String
  | .sum => "sum"
  | .mean => "mean"

/-- The name of a normalization layer. -/
def NormKind.name : NormKind → String
  | .batch => "batch_norm"
  | .layer => "layer_norm"

namespace Op

/-- The name of an operator, also in error messages. -/
def name : Op → String
  | .unary f => f.name
  | .binary f => f.name
  | .loss f => f.name
  | .matmul => "matmul"
  | .fold f _ => f.name
  | .softmax => "softmax"
  | .reshape _ => "reshape"
  | .transpose => "transpose"
  | .dropout _ => "dropout"
  | .affine norm => norm.name

/-- The class of an operator. -/
def opClass : Op → OpClass
  | .matmul => .reduction
  | .fold _ _ => .reduction
  | .softmax => .reduction
  | _ => .regular

/-- The number of operands; the mask of a dropout counts. -/
def arity : Op → Nat
  | .unary _ => 1
  | .binary _ => 2
  | .loss _ => 2
  | .matmul => 2
  | .fold _ _ => 1
  | .softmax => 1
  | .reshape _ => 1
  | .transpose => 1
  | .dropout _ => 2
  | .affine _ => 3

end Op

end TensorKernels
