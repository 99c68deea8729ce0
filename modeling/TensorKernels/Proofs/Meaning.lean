import Mathlib.Algebra.Group.Nat.Defs
import TensorKernels.Node.Lowering

/-!
# What terms mean

The value of a term, said without kernels, contexts or buffers: a tensor is a flat array with its
shape, and a term is evaluated by recursion on its structure. A regular operator applies its scalar
formula to each operand at the element its access designates; a matrix product, a sum, a mean and a
softmax are folds, first element to last, over the row or column they name. The arithmetic is any
`Arithmetic α`, so the value says which operations are applied and in which order.

`Term.infer` is the same recursion on shapes alone, and `Term.dropoutSites` numbers the dropout sites
of a term in the order in which they are completed.
-/

set_option autoImplicit false

namespace TensorKernels

variable {α : Type} (ops : Arithmetic α)

/-- A tensor as a flat array in row-major order. -/
structure Flat (α : Type) where
  shape : Shape
  data : Array α

/-- An element of a tensor; zero where there is none. -/
def Flat.entry (x : Flat α) (i : Nat) : α := x.data.getD i ops.zero

/-- The operand element that an access designates for element `i` of the result. -/
def Access.position : Access → Nat → Nat
  | .aligned, i => i
  | .scalar _, _ => 0
  | .row _ cols, i => i % cols
  | .col cols, i => i / cols
  | .permuted rows cols, i => (i % rows) * cols + i / rows

/-- The sum `f 0 + f 1 + ... + f (n - 1)`, from left to right and starting at zero. -/
def Arithmetic.total (n : Nat) (f : Nat → α) : α :=
  (List.range n).foldl (fun acc k => ops.add acc (f k)) ops.zero

/-! ## Operators -/

/-- A function of one element. -/
def UnaryOp.value : UnaryOp → α → α
  | .relu, x => ops.max x ops.zero
  | .sigmoid, x => ops.div ops.one (ops.add ops.one (ops.exp (ops.neg x)))
  | .leakyRelu slope, x => if ops.lt ops.zero x then x else ops.mul (ops.lit slope) x
  | .tanh, x => ops.tanh x
  | .exp, x => ops.exp x
  | .log, x => ops.log x
  | .sqrt, x => ops.sqrt x

/-- Arithmetic on two elements. -/
def BinaryOp.value : BinaryOp → α → α → α
  | .add, a, b => ops.add a b
  | .sub, a, b => ops.sub a b
  | .mul, a, b => ops.mul a b
  | .div, a, b => ops.div a b

/-- A probability kept away from zero and one. -/
def Arithmetic.clampProbability (p : α) : α :=
  ops.min (ops.max p (ops.lit probabilityMargin)) (ops.lit (1.0 - probabilityMargin))

/-- The loss of a prediction `p` against a target `y`. -/
def LossOp.value : LossOp → α → α → α
  | .meanSquaredError, p, y => ops.mul (ops.sub p y) (ops.sub p y)
  | .binaryCrossEntropy, p, y =>
    ops.neg (ops.add (ops.mul y (ops.log (ops.clampProbability p)))
      (ops.mul (ops.sub ops.one y) (ops.log (ops.sub ops.one (ops.clampProbability p)))))
  | .crossEntropy, p, y => ops.neg (ops.mul y (ops.log (ops.clampProbability p)))

/-- Element `i` of a matrix product: row `i / n` of `a` times column `i % n` of `b`. -/
def matmulElement (a b : Flat α) (i : Nat) : α :=
  let k := a.shape.asMatrix.2
  let n := b.shape.asMatrix.2
  ops.total k fun j => ops.mul (a.entry ops (i / n * k + j)) (b.entry ops (j * n + i % n))

/-- A folded value, divided by the number of elements for a mean. -/
def FoldOp.close (x : α) (count : Nat) : FoldOp → α
  | .sum => x
  | .mean => ops.div x (ops.lit (UInt64.ofNat count).toFloat32)

/-- Where the `k`-th element of row `i`, for the last axis, or of column `i`, for the first, stands in
a matrix with `cols` columns. -/
def foldPosition (cols i k : Nat) : Axis → Nat
  | .last => i * cols + k
  | .first => k * cols + i

/-- Element `i` of a sum or mean: row `i` for the last axis, column `i` for the first. -/
def foldElement (f : FoldOp) (axis : Axis) (x : Flat α) (i : Nat) : α :=
  let cols := (foldDims axis x.shape).2
  let count := foldCount axis x.shape
  f.close ops (ops.total count fun k => x.entry ops (foldPosition cols i k axis)) count

/-- The largest element of the row that starts at `row`, not below the floor of a softmax. -/
def rowMaximum (x : Flat α) (row cols : Nat) : α :=
  (List.range cols).foldl (fun top k => ops.max top (x.entry ops (row + k))) (ops.lit softmaxFloor)

/-- Element `i` of a softmax over rows. -/
def softmaxElement (x : Flat α) (i : Nat) : α :=
  let cols := x.shape.asMatrix.2
  let row := i / cols * cols
  let top := rowMaximum ops x row cols
  ops.div (ops.exp (ops.sub (x.entry ops i) top))
    (ops.total cols fun k => ops.exp (ops.sub (x.entry ops (row + k)) top))

namespace Op

/-- An operand with its access; one that is not given is a single zero. -/
def given (operands : List (Access × Flat α)) (i : Nat) : Access × Flat α :=
  operands.getD i (.aligned, ⟨[1], #[ops.zero]⟩)

/-- Element `i` of the result of an operator. -/
def element (op : Op) (operands : List (Access × Flat α)) (i : Nat) : α :=
  let tensor (k : Nat) : Flat α := (given ops operands k).2
  let x (k : Nat) : α := (tensor k).entry ops ((given ops operands k).1.position i)
  match op with
  | .unary f => f.value ops (x 0)
  | .binary f => f.value ops (x 0) (x 1)
  | .loss f => f.value ops (x 0) (x 1)
  | .matmul => matmulElement ops (tensor 0) (tensor 1) i
  | .fold f axis => foldElement ops f axis (tensor 0) i
  | .softmax => softmaxElement ops (tensor 0) i
  | .reshape _ => x 0
  | .transpose => x 0
  | .dropout _ => ops.mul (x 0) (x 1)
  | .affine _ => ops.add (ops.mul (x 0) (x 1)) (x 2)

/-- The result of an operator, element by element. -/
def result (op : Op) (shape : Shape) (operands : List (Access × Flat α)) : Flat α :=
  ⟨shape, Array.ofFn fun i : Fin shape.size => op.element ops operands i⟩

/-- The number of arguments that a call of the operator takes; the mask of a dropout is not one. -/
def argCount : Op → Nat
  | .dropout _ => 1
  | op => op.arity

/-- The shapes of all operands, from those of the arguments: a dropout also reads a mask of its
argument's shape, and refuses a rate that is none. -/
def operandShapes (op : Op) (shapes : List Shape) : Except Error (List Shape) :=
  match op with
  | .dropout rate =>
    if Lowering.isDropoutRate rate then .ok (shapes ++ [shapes.headD [1]])
    else .error (.dropoutRate rate)
  | _ => .ok shapes

/-- All operands, from the arguments: a dropout also reads a mask of its argument's shape. -/
def operandValues (op : Op) (xs : List (Flat α)) (mask : Array α) : List (Flat α) :=
  match op with
  | .dropout _ => xs ++ [⟨(xs.map Flat.shape).headD [1], mask⟩]
  | _ => xs

end Op

/-! ## Terms -/

/-- Values for the leaves of a term: tensors by number, masks by dropout site. -/
structure Assignment (α : Type) where
  tensor : Nat → Array α
  mask : Nat → Array α

namespace Term

mutual

/-- The shape of a term, or the first reason why it has none. -/
def infer (signature : Signature) : Term → Except Error Shape
  | .constant _ => .ok [1]
  | .tensor id => (signature.get id).map TensorDecl.shape
  | .apply _ op args => do
    let shapes ← inferAll signature args
    let shapes ← op.operandShapes shapes
    let inferred ← op.inferCounted shapes
    .ok inferred.shape

/-- The shapes of terms, in order. -/
def inferAll (signature : Signature) : List Term → Except Error (List Shape)
  | [] => .ok []
  | t :: rest => do
    let s ← infer signature t
    let ss ← inferAll signature rest
    .ok (s :: ss)

end

mutual

/-- The value of a term. -/
def eval (signature : Signature) (env : Assignment α) : Term → Except Error (Flat α)
  | .constant value => .ok ⟨[1], #[ops.lit value]⟩
  | .tensor id => (signature.get id).map fun d => ⟨d.shape, env.tensor id⟩
  | .apply site op args => do
    let xs ← evalAll signature env args
    let shapes ← op.operandShapes (xs.map Flat.shape)
    let inferred ← op.inferCounted shapes
    .ok (op.result ops inferred.shape (inferred.access.zip (op.operandValues xs (env.mask site))))

/-- The values of terms, in order. -/
def evalAll (signature : Signature) (env : Assignment α) : List Term → Except Error (List (Flat α))
  | [] => .ok []
  | t :: rest => do
    let x ← eval signature env t
    let xs ← evalAll signature env rest
    .ok (x :: xs)

end

mutual

/-- The term and everything it is built from, arguments first. -/
def subterms : Term → List Term
  | .constant value => [.constant value]
  | .tensor id => [.tensor id]
  | .apply site op args => allSubterms args ++ [.apply site op args]

/-- The subterms of terms. -/
def allSubterms : List Term → List Term
  | [] => []
  | t :: rest => subterms t ++ allSubterms rest

end

/-- The call site of a dropout. -/
def dropoutSite? : Term → Option Nat
  | .apply site (.dropout _) _ => some site
  | _ => none

/-- The call sites of dropouts, each once, in the order in which they are first completed. -/
def dropoutSites (t : Term) : List Nat := (t.subterms.filterMap dropoutSite?).eraseDups

/-- A term that was built by applying operators: every application has as many arguments as its
operator takes, and a call site always stands for the same application. -/
structure Built (t : Term) : Prop where
  argCount : ∀ site op args, Term.apply site op args ∈ t.subterms → args.length = op.argCount
  shared : ∀ site op args op' args', Term.apply site op args ∈ t.subterms →
    Term.apply site op' args' ∈ t.subterms → op = op' ∧ args = args'

/-- Every subterm that has a shape has fewer elements than there are 32-bit words. -/
def Fits (signature : Signature) (t : Term) : Prop :=
  ∀ u ∈ t.subterms, ∀ shape, u.infer signature = .ok shape → shape.size < 2 ^ 32

instance (signature : Signature) (t : Term) : Decidable (t.Fits signature) :=
  decidable_of_iff (∀ u ∈ t.subterms, ∀ shape ∈ (u.infer signature).toOption, shape.size < 2 ^ 32) (by
    refine forall_congr' fun u => forall_congr' fun _ => forall_congr' fun shape => ?_
    cases u.infer signature <;> simp [Except.toOption])

end Term

end TensorKernels
