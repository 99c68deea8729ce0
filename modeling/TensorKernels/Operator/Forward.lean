import TensorKernels.Access
import TensorKernels.Operator.Basic

/-!
# Forward code of operators

`Op.forward` gives the statements that compute one element of an operator's result from its
operands. Element-wise operators are one `let`; reductions loop over their axis, first to last.
-/

set_option autoImplicit false

namespace TensorKernels

/-- Where a value comes from inside a kernel. -/
inductive Source
  | const (value : Float32)
  /-- A local computed earlier in the same kernel. -/
  | var (name : String)
  /-- A bound buffer. -/
  | buffer (name : String)
  deriving DecidableEq, Repr

/-- An operand as the code of a kernel reads it. -/
structure Operand where
  source : Source
  access : Access
  shape : Shape
  deriving DecidableEq, Repr

namespace Operand

/-- The operand's element at a flat index; locals and constants have the same value everywhere. -/
def read (o : Operand) (position : Expr) : Expr :=
  match o.source with
  | .const x => .float x
  | .var name => .var name
  | .buffer name => .load name position

/-- The value that the current invocation reads. -/
def value (o : Operand) : Expr := o.read o.access.index

/-- A single zero, which stands for an operand that is not given. -/
def absent : Operand := ⟨.const 0.0, .aligned, [1]⟩

end Operand

/-- A count as a scalar literal, rounded to nearest. -/
def countLiteral (n : Nat) : Expr := .float (UInt64.ofNat n).toFloat32

/-- Probabilities are kept this far from zero and one. -/
def probabilityMargin : Float32 := 1e-7

/-- A probability kept away from zero and one. -/
def clampedProbability (p : Expr) : Expr :=
  .clamp p (.float probabilityMargin) (.float (1.0 - probabilityMargin))

/-- The value of a function of one element. -/
def UnaryOp.forward (x : Expr) : UnaryOp → Expr
  | .relu => x.max (.float 0.0)
  | .sigmoid => .float 1.0 / (.float 1.0 + (-x).exp)
  | .leakyRelu slope => .select (x.gt (.float 0.0)) x (.float slope * x)
  | .tanh => x.tanh
  | .exp => x.exp
  | .log => x.log
  | .sqrt => x.sqrt

/-- The value of an arithmetic operator. -/
def BinaryOp.forward (a b : Expr) : BinaryOp → Expr
  | .add => a + b
  | .sub => a - b
  | .mul => a * b
  | .div => a / b

/-- The loss of a prediction `p` against a target `y`. -/
def LossOp.forward (p y : Expr) : LossOp → Expr
  | .meanSquaredError => (p - y) * (p - y)
  | .binaryCrossEntropy =>
    -(y * (clampedProbability p).log +
      (.float 1.0 - y) * (.float 1.0 - clampedProbability p).log)
  | .crossEntropy => -(y * (clampedProbability p).log)

/-- One element of a matrix product. -/
def matmulForward (out : String) (a b : Operand) : List Stmt :=
  let k := a.shape.asMatrix.2
  let n := b.shape.asMatrix.2
  let row := out ++ "_row"
  let col := out ++ "_col"
  let acc := out ++ "_acc"
  let step := out ++ "_k"
  [ .letDecl row (.index / .ofNat n),
    .letDecl col (.index % .ofNat n),
    .varDecl acc (.float 0.0),
    .forLoop step k
      [ .accumulate acc
          (a.read (.var row * .ofNat k + .var step) * b.read (.var step * .ofNat n + .var col)) ],
    .letDecl out (.var acc) ]

/-- The rows and columns of a fold; a vector folded over its first axis is a column. -/
def foldDims (axis : Axis) : Shape → Nat × Nat
  | [n] =>
    match axis with
    | .first => (n, 1)
    | .last => (1, n)
  | s => s.asMatrix

/-- The length of the folded axis. -/
def foldCount (axis : Axis) (shape : Shape) : Nat :=
  match axis with
  | .last => (foldDims axis shape).2
  | .first => (foldDims axis shape).1

/-- A folded value, divided by the length of the axis for a mean. -/
def FoldOp.finish (acc : Expr) (count : Nat) : FoldOp → Expr
  | .sum => acc
  | .mean => acc / countLiteral count

/-- One element of a sum or mean over an axis. -/
def foldForward (f : FoldOp) (axis : Axis) (out : String) (x : Operand) : List Stmt :=
  let cols := (foldDims axis x.shape).2
  let count := foldCount axis x.shape
  let acc := out ++ "_acc"
  let step := out ++ "_k"
  let position :=
    match axis with
    | .last => Expr.index * .ofNat cols + .var step
    | .first => .var step * .ofNat cols + .index
  [ .varDecl acc (.float 0.0),
    .forLoop step count [.accumulate acc (x.read position)],
    .letDecl out (f.finish (.var acc) count) ]

/-- Where the running maximum of a softmax starts. -/
def softmaxFloor : Float32 := -3.4e38

/-- One element of a softmax over rows, shifted by the row's maximum. -/
def softmaxForward (out : String) (x : Operand) : List Stmt :=
  let cols := x.shape.asMatrix.2
  let row := out ++ "_row"
  let top := out ++ "_max"
  let total := out ++ "_sum"
  let step := out ++ "_k"
  let position := Expr.var row + .var step
  [ .letDecl row (.index / .ofNat cols * .ofNat cols),
    .varDecl top (.float softmaxFloor),
    .forLoop step cols [.assign top ((Expr.var top).max (x.read position))],
    .varDecl total (.float 0.0),
    .forLoop step cols [.accumulate total (x.read position - .var top).exp],
    .letDecl out ((x.read .index - .var top).exp / .var total) ]

namespace Op

/-- Statements that compute one element of the result into the local `out`. -/
def forward (op : Op) (out : String) (operands : List Operand) : List Stmt :=
  let operand (i : Nat) : Operand := operands.getD i .absent
  let x (i : Nat) : Expr := (operand i).value
  match op with
  | .unary f => [.letDecl out (f.forward (x 0))]
  | .binary f => [.letDecl out (f.forward (x 0) (x 1))]
  | .loss f => [.letDecl out (f.forward (x 0) (x 1))]
  | .matmul => matmulForward out (operand 0) (operand 1)
  | .fold f axis => foldForward f axis out (operand 0)
  | .softmax => softmaxForward out (operand 0)
  | .reshape _ => [.letDecl out (x 0)]
  | .transpose => [.letDecl out (x 0)]
  | .dropout _ => [.letDecl out (x 0 * x 1)]
  | .affine _ => [.letDecl out (x 0 * x 1 + x 2)]

/-- The forward code, where every operand is given. -/
def forward? (op : Op) (out : String) (operands : List Operand) : Option (List Stmt) :=
  if op.arity ≤ operands.length then some (op.forward out operands) else none

end Op

end TensorKernels
