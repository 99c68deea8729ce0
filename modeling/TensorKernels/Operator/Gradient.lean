import TensorKernels.Operator.Forward

/-!
# Gradient code of operators

For a regular operator, `Op.gradients` gives the contribution to each operand at the current index,
in terms of the incoming gradient and of forward values; `Op.reads` lists the forward values it uses.
For a reduction, `Op.reductionGradient` gives the code that computes one element of an operand's
gradient.
-/

set_option autoImplicit false

namespace TensorKernels

/-- A forward value that a gradient rule reads at the current index. -/
inductive ForwardValue
  | operand (i : Nat)
  /-- The result of the operator itself. -/
  | output
  deriving DecidableEq, Repr

/-- The contribution of a function of one element, from its operand `x` and its result `y`. -/
def UnaryOp.gradient (g x y : Expr) : UnaryOp → Expr
  | .relu => .select (x.gt (.float 0.0)) g (.float 0.0)
  | .sigmoid => g * y * (.float 1.0 - y)
  | .leakyRelu slope => g * .select (x.gt (.float 0.0)) (.float 1.0) (.float slope)
  | .tanh => g * (.float 1.0 - y * y)
  | .exp => g * y
  | .log => g / x
  | .sqrt => g / (.float 2.0 * y)

/-- The forward value that the rule of a function of one element reads. -/
def UnaryOp.reads : UnaryOp → List ForwardValue
  | .relu => [.operand 0]
  | .sigmoid => [.output]
  | .leakyRelu _ => [.operand 0]
  | .tanh => [.output]
  | .exp => [.output]
  | .log => [.operand 0]
  | .sqrt => [.output]

/-- The contributions of an arithmetic operator to its operands `a` and `b`. -/
def BinaryOp.gradients (g a b : Expr) : BinaryOp → List (Option Expr)
  | .add => [some g, some g]
  | .sub => [some g, some (-g)]
  | .mul => [some (g * b), some (g * a)]
  | .div => [some (g / b), some (-(g * a) / (b * b))]

/-- The forward values that the rule of an arithmetic operator reads. -/
def BinaryOp.reads : BinaryOp → List ForwardValue
  | .add => []
  | .sub => []
  | .mul => [.operand 0, .operand 1]
  | .div => [.operand 0, .operand 1]

/-- The contributions of a loss to the prediction `p` and the target `y`. -/
def LossOp.gradients (g p y : Expr) : LossOp → List (Option Expr)
  | .meanSquaredError =>
    let d := .float 2.0 * (p - y) * g
    [some d, some (-d)]
  | .binaryCrossEntropy =>
    let p := clampedProbability p
    [ some (g * (p - y) / (p * (.float 1.0 - p))),
      some (g * ((.float 1.0 - p).log - p.log)) ]
  | .crossEntropy =>
    let p := clampedProbability p
    [some (-(g * y / p)), some (-(g * p.log))]

/-- What the gradient code of a reduction can use. -/
structure ReductionFrame where
  /-- The start of all local names. -/
  stem : String
  operands : List Operand
  /-- The result of the reduction. -/
  output : Operand
  /-- The shape of the result. -/
  shape : Shape
  /-- Declares a variable as the incoming gradient at a flat index of the result; the last argument
  names its loops. -/
  seed : String → Expr → String → List Stmt

namespace ReductionFrame

/-- A local name. -/
def localName (r : ReductionFrame) (suffix : String) : String := r.stem ++ "_" ++ suffix

end ReductionFrame

/-- One element of the gradient of a matrix product: `G * Bᵀ` for the first operand and `Aᵀ * G`
for the second. -/
def matmulGradient (i : Nat) (r : ReductionFrame) : List Stmt × Expr :=
  let a := r.operands.getD 0 .absent
  let b := r.operands.getD 1 .absent
  let (m, k) := a.shape.asMatrix
  let n := b.shape.asMatrix.2
  let outer := r.localName "outer"
  let inner := r.localName "inner"
  let acc := r.localName "acc"
  let g := r.localName "g"
  let step := Expr.var (r.localName "j")
  let (cols, count) := if i = 0 then (k, n) else (n, m)
  let (position, other) :=
    if i = 0 then
      (.var outer * .ofNat n + step, b.read (.var inner * .ofNat n + step))
    else
      (step * .ofNat n + .var inner, a.read (step * .ofNat k + .var outer))
  ( [ .letDecl outer (.index / .ofNat cols),
      .letDecl inner (.index % .ofNat cols),
      .varDecl acc (.float 0.0),
      .forLoop (r.localName "j") count
        (r.seed g position (r.localName "f") ++ [.accumulate acc (.var g * other)]) ],
    .var acc )

/-- One element of the gradient of a sum or mean: the incoming gradient of its row or column. -/
def foldGradient (f : FoldOp) (axis : Axis) (r : ReductionFrame) : List Stmt × Expr :=
  let x := r.operands.getD 0 .absent
  let cols := (foldDims axis x.shape).2
  let position :=
    match axis with
    | .last => Expr.index / .ofNat cols
    | .first => .index % .ofNat cols
  let g := r.localName "g"
  (r.seed g position (r.localName "f"), f.finish (.var g) (foldCount axis x.shape))

/-- One element of the gradient of a softmax, from the incoming gradient of its row. -/
def softmaxGradient (r : ReductionFrame) : List Stmt × Expr :=
  let cols := r.shape.asMatrix.2
  let row := r.localName "row"
  let own := r.localName "gi"
  let each := r.localName "gk"
  let acc := r.localName "acc"
  let step := r.localName "k"
  let position := Expr.var row + .var step
  ( [.letDecl row (.index / .ofNat cols * .ofNat cols)] ++
      r.seed own .index (r.localName "fi") ++
      [ .varDecl acc (.float 0.0),
        .forLoop step cols
          (r.seed each position (r.localName "fk") ++
            [.accumulate acc (.var each * r.output.read position)]) ],
    r.output.read .index * (.var own - .var acc) )

namespace Op

/-- The contribution of a regular operator to each operand at the current index, from the incoming
gradient `g`, the operands `x` and the result `y`. Nothing flows into a dropout mask. -/
def gradients (g : Expr) (x : Nat → Expr) (y : Expr) : Op → List (Option Expr)
  | .unary f => [some (f.gradient g (x 0) y)]
  | .binary f => f.gradients g (x 0) (x 1)
  | .loss f => f.gradients g (x 0) (x 1)
  | .reshape _ => [some g]
  | .transpose => [some g]
  | .dropout _ => [some (g * x 1), none]
  | .affine _ => [some (g * x 1), some (g * x 0), some g]
  | .matmul => []
  | .fold _ _ => []
  | .softmax => []

/-- The forward values that `gradients` uses, in the order in which it asks for them. -/
def reads : Op → List ForwardValue
  | .unary f => f.reads
  | .binary f => f.reads
  | .loss _ => [.operand 0, .operand 1]
  | .dropout _ => [.operand 1]
  | .affine _ => [.operand 1, .operand 0]
  | _ => []

/-- The contributions with operands from a list, where every operand that is read is given. -/
def gradients? (op : Op) (g y : Expr) (operands : List Operand) : Option (List (Option Expr)) :=
  let given : ForwardValue → Bool
    | .operand i => i < operands.length
    | .output => true
  if op.reads.all given then
    some (op.gradients g (fun i => (operands.getD i .absent).value) y)
  else none

/-- Code and value of the gradient of a reduction with respect to operand `i`, at the operand
element of the current index. -/
def reductionGradient (op : Op) (i : Nat) (r : ReductionFrame) : List Stmt × Expr :=
  match op with
  | .matmul => matmulGradient i r
  | .fold f axis => foldGradient f axis r
  | .softmax => softmaxGradient r
  | _ => ([], .float 0.0)

/-- The number of operands whose shape the gradient code of a reduction looks at. -/
def reductionArity : Op → Nat
  | .matmul => 2
  | .fold _ _ => 1
  | _ => 0

/-- The gradient of a reduction, where every operand it looks at is given. -/
def reductionGradient? (op : Op) (i : Nat) (r : ReductionFrame) : Option (List Stmt × Expr) :=
  if op.reductionArity ≤ r.operands.length then some (op.reductionGradient i r) else none

end Op

end TensorKernels
