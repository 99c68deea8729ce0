import Mathlib.Algebra.BigOperators.Group.Finset.Basic
import TensorKernels.Proofs.Meaning

/-!
# The gradient that terms should have

Reverse accumulation, said without kernels, contexts or buffers, as `Term.eval` says what a term is. A
value of a term's graph is a declared tensor or a call site. Its gradient starts at one for the root and
at zero elsewhere, and every place where it is an argument of a call adds to it what the call hands back
there (`Op.backflow`), from the gradient of the call itself and from the values of the same evaluation.

A regular operator hands its rule's contribution at every index to the element that was read there. A
reduction hands back one formula per element of its operand. Sums are those of a commutative monoid;
of the other operations nothing is assumed.
-/

set_option autoImplicit false

namespace TensorKernels

variable {α : Type} (ops : Arithmetic α)

/-- Addition is that of a commutative monoid, and zero is its neutral element in both signs. -/
structure Arithmetic.Sums [AddCommMonoid α] : Prop where
  add : ∀ a b, ops.add a b = a + b
  zero : ops.zero = 0
  negZero : ops.lit (-0.0) = 0

open Classical in
/-- Natural numbers, where all literals but zero are one. -/
noncomputable def Arithmetic.naturals : Arithmetic Nat where
  lit x := if x = 0.0 ∨ x = -0.0 then 0 else 1
  add := (· + ·)
  sub := (· - ·)
  mul := (· * ·)
  div := (· / ·)
  rem := (· % ·)
  max := Nat.max
  min := Nat.min
  neg x := x
  exp := (2 ^ ·)
  log := Nat.log2
  sqrt := Nat.sqrt
  tanh := Nat.min 1
  lt := Nat.blt
  le := Nat.ble
  text := toString

/-- Natural numbers are added without rounding. -/
theorem Arithmetic.naturals_sums : Arithmetic.naturals.Sums := by
  refine ⟨fun _ _ => rfl, ?_, ?_⟩
  · simp [Arithmetic.zero, Arithmetic.naturals]
  · simp [Arithmetic.naturals]

/-! ## Rules of operators -/

/-- The contribution of a function of one element to its operand `x`, from the incoming gradient `g` and
the result `y`. -/
def UnaryOp.pullback (g x y : α) : UnaryOp → α
  | .relu => if ops.lt ops.zero x then g else ops.zero
  | .sigmoid => ops.mul (ops.mul g y) (ops.sub ops.one y)
  | .leakyRelu slope => ops.mul g (if ops.lt ops.zero x then ops.one else ops.lit slope)
  | .tanh => ops.mul g (ops.sub ops.one (ops.mul y y))
  | .exp => ops.mul g y
  | .log => ops.div g x
  | .sqrt => ops.div g (ops.mul (ops.lit 2.0) y)

/-- The contributions of an arithmetic operator to its operands `a` and `b`. -/
def BinaryOp.pullbacks (g a b : α) : BinaryOp → List (Option α)
  | .add => [some g, some g]
  | .sub => [some g, some (ops.neg g)]
  | .mul => [some (ops.mul g b), some (ops.mul g a)]
  | .div => [some (ops.div g b), some (ops.div (ops.neg (ops.mul g a)) (ops.mul b b))]

/-- The contributions of a loss to the prediction `p` and the target `y`. -/
def LossOp.pullbacks (g p y : α) : LossOp → List (Option α)
  | .meanSquaredError =>
    let d := ops.mul (ops.mul (ops.lit 2.0) (ops.sub p y)) g
    [some d, some (ops.neg d)]
  | .binaryCrossEntropy =>
    let p := ops.clampProbability p
    [ some (ops.div (ops.mul g (ops.sub p y)) (ops.mul p (ops.sub ops.one p))),
      some (ops.mul g (ops.sub (ops.log (ops.sub ops.one p)) (ops.log p))) ]
  | .crossEntropy =>
    let p := ops.clampProbability p
    [some (ops.neg (ops.div (ops.mul g y) p)), some (ops.neg (ops.mul g (ops.log p)))]

/-- Element `j` of what a matrix product hands to operand `s`: `G * Bᵀ` to the first and `Aᵀ * G` to the
second, where `g` holds the elements of `G`. -/
def matmulPullback (a b : Flat α) (g : Nat → α) (s j : Nat) : α :=
  let m := a.shape.asMatrix.1
  let k := a.shape.asMatrix.2
  let n := b.shape.asMatrix.2
  if s = 0 then ops.total n fun t => ops.mul (g (j / k * n + t)) (b.entry ops (j % k * n + t))
  else ops.total m fun t => ops.mul (g (t * n + j % n)) (a.entry ops (t * k + j / n))

/-- The row, for the last axis, or the column, for the first, that element `j` is folded into. -/
def foldTarget (cols j : Nat) : Axis → Nat
  | .last => j / cols
  | .first => j % cols

/-- Element `j` of what a sum or mean hands to its operand. -/
def foldPullback (f : FoldOp) (axis : Axis) (x : Flat α) (g : Nat → α) (j : Nat) : α :=
  f.close ops (g (foldTarget (foldDims axis x.shape).2 j axis)) (foldCount axis x.shape)

/-- Element `j` of what a softmax with result `y` hands to its operand. -/
def softmaxPullback (y : Flat α) (g : Nat → α) (j : Nat) : α :=
  let cols := y.shape.asMatrix.2
  let row := j / cols * cols
  ops.mul (y.entry ops j)
    (ops.sub (g j) (ops.total cols fun k => ops.mul (g (row + k)) (y.entry ops (row + k))))

namespace Op

/-- The contribution of a regular operator to each operand at one index, from the incoming gradient `g`,
the elements `x` of the operands and the result `y` there. Nothing flows into a dropout mask. -/
def pullbacks (g : α) (x : Nat → α) (y : α) : Op → List (Option α)
  | .unary f => [some (f.pullback ops g (x 0) y)]
  | .binary f => f.pullbacks ops g (x 0) (x 1)
  | .loss f => f.pullbacks ops g (x 0) (x 1)
  | .reshape _ => [some g]
  | .transpose => [some g]
  | .dropout _ => [some (ops.mul g (x 1)), none]
  | .affine _ => [some (ops.mul g (x 1)), some (ops.mul g (x 0)), some g]
  | .matmul => []
  | .fold _ _ => []
  | .softmax => []

/-- Element `j` of what a reduction hands to operand `s`. -/
def reductionPullback (op : Op) (operands : List (Access × Flat α)) (y : Flat α) (g : Nat → α)
    (s j : Nat) : α :=
  match op with
  | .matmul => matmulPullback ops (given ops operands 0).2 (given ops operands 1).2 g s j
  | .fold f axis => foldPullback ops f axis (given ops operands 0).2 g j
  | .softmax => softmaxPullback ops y g j
  | _ => ops.zero

/-- The contribution of a regular operator to operand `s` at index `i`. -/
def pulled (op : Op) (operands : List (Access × Flat α)) (y : Flat α) (g : Nat → α) (s i : Nat) : α :=
  let x (k : Nat) : α :=
    (given ops operands k).2.entry ops ((given ops operands k).1.position i)
  ((op.pullbacks ops (g i) x (y.entry ops i)).getD s none).getD ops.zero

/-- Element `j` of what an operator with result `y` and incoming gradient `g` hands back to operand `s`.
A regular operator does so at every index where that element was read. -/
def backflow [AddCommMonoid α] (op : Op) (operands : List (Access × Flat α)) (y : Flat α) (g : Nat → α)
    (s j : Nat) : α :=
  match op.opClass with
  | .regular =>
    ∑ i ∈ Finset.range y.shape.size with (given ops operands s).1.position i = j,
      op.pulled ops operands y g s i
  | .reduction => op.reductionPullback ops operands y g s j

end Op

/-! ## Graphs of terms -/

/-- An application with its call site. -/
structure Call where
  site : Nat
  op : Op
  args : List Term

namespace Call

/-- The term that a call is. -/
def term (c : Call) : Term := .apply c.site c.op c.args

variable (signature : Signature) (env : Assignment α)

/-- The operands of a call with their accesses, as its evaluation has them. -/
def operands (c : Call) : List (Access × Flat α) :=
  let operands? : Except Error (List (Access × Flat α)) := do
    let xs ← Term.evalAll ops signature env c.args
    let shapes ← c.op.operandShapes (xs.map Flat.shape)
    let inferred ← c.op.infer shapes
    .ok (inferred.access.zip (c.op.operandValues xs (env.mask c.site)))
  operands?.toOption.getD []

/-- The result of a call. -/
def result (c : Call) : Flat α := (c.term.eval ops signature env).toOption.getD ⟨[1], #[ops.zero]⟩

end Call

namespace Term

/-- An application, as a call. -/
def call? : Term → Option Call
  | .apply site op args => some ⟨site, op, args⟩
  | _ => none

/-- The calls of a term, one for each call site. -/
def calls (t : Term) : List Call :=
  (t.subterms.filterMap call?).pwFilter fun a b => a.site ≠ b.site

/-- Whether two terms are one value of a graph: the same tensor, or the same call site. Each occurrence
of a constant is a value of its own. -/
def isSame : Term → Term → Bool
  | .tensor a, .tensor b => a = b
  | .apply a _ _, .apply b _ _ => a = b
  | _, _ => false

/-- The number of subterms. -/
def size (t : Term) : Nat := t.subterms.length

/-- Element `j` of the gradient of the root with respect to a value of its graph. The recursion is from
the root: what reads a value is larger than the value, so that the condition on sizes leaves out nothing
(`Term.Built.adjoint_eq`). -/
def adjoint [AddCommMonoid α] (signature : Signature) (env : Assignment α) (root t : Term) (j : Nat) :
    α :=
  (if root.isSame t then ops.one else ops.zero) +
    (root.calls.map fun c =>
      if h : t.size < c.term.size ∧ c.term.size ≤ root.size then
        ∑ s ∈ Finset.range c.args.length,
          if (c.args[s]?).any t.isSame then
            c.op.backflow ops (c.operands ops signature env) (c.result ops signature env)
              (fun i => adjoint signature env root c.term i) s j
          else 0
      else 0).sum
termination_by root.size - t.size

end Term

end TensorKernels
