import Mathlib.Algebra.Field.Rat
import TensorKernels.Proofs.Adjoint
import TensorKernels.Proofs.ForwardCode

/-!
# Dual numbers

A dual number is a value with a slope, the coefficient of an infinitesimal. `Arithmetic.dual` runs any
code on dual numbers: values are computed as before, and slopes follow the rules of differentiation, with
the operations of the arithmetic itself. Comparisons look at values only, and so do the choices that
depend on them. Literals have slope zero.

Slopes do not flow back into values: the value of what an operator computes on dual numbers is what it
computes on the values of its operands (`Op.pointwise_value`, `Op.element_value`).

`Arithmetic.Ring` says that the operations are exact, in any commutative ring. Of a division it asks only
that it can be undone where the divisor is invertible.
-/

set_option autoImplicit false

namespace TensorKernels

/-- A value with its slope. -/
structure Dual (α : Type) where
  value : α
  slope : α
  deriving DecidableEq, Repr

variable {α : Type} (ops : Arithmetic α)

/-- Arithmetic on values with their slopes. A larger or smaller one of two equal values is the first. -/
def Arithmetic.dual : Arithmetic (Dual α) where
  lit c := ⟨ops.lit c, ops.zero⟩
  add a b := ⟨ops.add a.value b.value, ops.add a.slope b.slope⟩
  sub a b := ⟨ops.sub a.value b.value, ops.sub a.slope b.slope⟩
  mul a b := ⟨ops.mul a.value b.value, ops.add (ops.mul a.slope b.value) (ops.mul a.value b.slope)⟩
  div a b := ⟨ops.div a.value b.value,
    ops.div (ops.sub (ops.mul a.slope b.value) (ops.mul a.value b.slope)) (ops.mul b.value b.value)⟩
  -- the quotient `(a - rem a b) / b` is locally constant
  rem a b :=
    let r := ops.rem a.value b.value
    ⟨r, ops.sub a.slope (ops.mul (ops.div (ops.sub a.value r) b.value) b.slope)⟩
  max a b := ⟨ops.max a.value b.value, if ops.lt a.value b.value then b.slope else a.slope⟩
  min a b := ⟨ops.min a.value b.value, if ops.lt b.value a.value then b.slope else a.slope⟩
  neg a := ⟨ops.neg a.value, ops.neg a.slope⟩
  exp a := ⟨ops.exp a.value, ops.mul (ops.exp a.value) a.slope⟩
  log a := ⟨ops.log a.value, ops.div a.slope a.value⟩
  sqrt a := ⟨ops.sqrt a.value, ops.div a.slope (ops.mul (ops.lit 2.0) (ops.sqrt a.value))⟩
  tanh a :=
    let t := ops.tanh a.value
    ⟨t, ops.mul (ops.sub ops.one (ops.mul t t)) a.slope⟩
  lt a b := ops.lt a.value b.value
  le a b := ops.le a.value b.value
  text a := ops.text a.value

namespace Arithmetic

variable (a b : Dual α)

/-- A literal does not depend on the variable. -/
@[simp] theorem dual_lit (c : Float32) : ops.dual.lit c = ⟨ops.lit c, ops.zero⟩ := rfl

/-- Zero does not depend on the variable. -/
@[simp] theorem dual_zero : ops.dual.zero = ⟨ops.zero, ops.zero⟩ := rfl

/-- One does not depend on the variable. -/
@[simp] theorem dual_one : ops.dual.one = ⟨ops.one, ops.zero⟩ := rfl

/-- The rule for sums. -/
@[simp] theorem dual_add :
    ops.dual.add a b = ⟨ops.add a.value b.value, ops.add a.slope b.slope⟩ := rfl

/-- The rule for differences. -/
@[simp] theorem dual_sub :
    ops.dual.sub a b = ⟨ops.sub a.value b.value, ops.sub a.slope b.slope⟩ := rfl

/-- The rule for products. -/
@[simp] theorem dual_mul : ops.dual.mul a b =
    ⟨ops.mul a.value b.value, ops.add (ops.mul a.slope b.value) (ops.mul a.value b.slope)⟩ := rfl

/-- The rule for quotients. -/
@[simp] theorem dual_div : ops.dual.div a b = ⟨ops.div a.value b.value,
    ops.div (ops.sub (ops.mul a.slope b.value) (ops.mul a.value b.slope)) (ops.mul b.value b.value)⟩ := rfl

/-- A maximum has the slope of the larger operand, and of the first where they are equal. -/
@[simp] theorem dual_max : ops.dual.max a b =
    ⟨ops.max a.value b.value, if ops.lt a.value b.value then b.slope else a.slope⟩ := rfl

/-- A minimum has the slope of the smaller operand, and of the first where they are equal. -/
@[simp] theorem dual_min : ops.dual.min a b =
    ⟨ops.min a.value b.value, if ops.lt b.value a.value then b.slope else a.slope⟩ := rfl

/-- The rule for negation. -/
@[simp] theorem dual_neg : ops.dual.neg a = ⟨ops.neg a.value, ops.neg a.slope⟩ := rfl

/-- The rule for the exponential. -/
@[simp] theorem dual_exp : ops.dual.exp a = ⟨ops.exp a.value, ops.mul (ops.exp a.value) a.slope⟩ := rfl

/-- The rule for the logarithm. -/
@[simp] theorem dual_log : ops.dual.log a = ⟨ops.log a.value, ops.div a.slope a.value⟩ := rfl

/-- The rule for the square root. -/
@[simp] theorem dual_sqrt : ops.dual.sqrt a =
    ⟨ops.sqrt a.value, ops.div a.slope (ops.mul (ops.lit 2.0) (ops.sqrt a.value))⟩ := rfl

/-- The rule for the hyperbolic tangent. -/
@[simp] theorem dual_tanh : ops.dual.tanh a = ⟨ops.tanh a.value,
    ops.mul (ops.sub ops.one (ops.mul (ops.tanh a.value) (ops.tanh a.value))) a.slope⟩ := rfl

/-- Dual numbers are compared by their values. -/
@[simp] theorem dual_lt : ops.dual.lt a b = ops.lt a.value b.value := rfl

/-- Both parts of a sum are sums. -/
@[simp] theorem dual_total (n : Nat) (f : Nat → Dual α) :
    ops.dual.total n f = ⟨ops.total n fun k => (f k).value, ops.total n fun k => (f k).slope⟩ := by
  unfold total
  induction n with
  | zero => rfl
  | succ n ih =>
    simp only [List.range_succ, List.foldl_append, ih]
    rfl

end Arithmetic

/-! ## Values of operators -/

/-- The value of a function of one element is computed from the value. -/
theorem UnaryOp.value_dual (f : UnaryOp) (a : Dual α) :
    (f.value ops.dual a).value = f.value ops a.value := by
  cases f with
  | leakyRelu slope =>
    rw [UnaryOp.value, apply_ite Dual.value]
    rfl
  | _ => rfl

/-- The value of an arithmetic operator is computed from the values. -/
theorem BinaryOp.value_dual (f : BinaryOp) (a b : Dual α) :
    (f.value ops.dual a b).value = f.value ops a.value b.value := by
  cases f <;> rfl

/-- The value of a loss is computed from the values. -/
theorem LossOp.value_dual (f : LossOp) (p y : Dual α) :
    (f.value ops.dual p y).value = f.value ops p.value y.value := by
  cases f <;> rfl

/-- The value of a regular operator's element is its element from the values. -/
theorem Op.pointwise_value (op : Op) (x : Nat → Dual α) :
    (op.pointwise ops.dual x).value = op.pointwise ops fun k => (x k).value := by
  cases op with
  | unary f => exact f.value_dual ops (x 0)
  | binary f => exact f.value_dual ops (x 0) (x 1)
  | loss f => exact f.value_dual ops (x 0) (x 1)
  | _ => rfl

/-! ## Values of tensors -/

/-- The values of a tensor of dual numbers. -/
def Flat.values (x : Flat (Dual α)) : Flat α := ⟨x.shape, x.data.map Dual.value⟩

/-- Forgetting slopes keeps the shape. -/
@[simp] theorem Flat.shape_values (x : Flat (Dual α)) : x.values.shape = x.shape := rfl

/-- Forgetting slopes keeps the value of every element. -/
@[simp] theorem Flat.entry_values (x : Flat (Dual α)) (i : Nat) :
    x.values.entry ops i = (x.entry ops.dual i).value := by
  unfold entry values
  by_cases h : i < x.data.size <;> simp [h]

/-- The values of operands. -/
def Op.values (xs : List (Access × Flat (Dual α))) : List (Access × Flat α) :=
  xs.map fun ax => (ax.1, ax.2.values)

/-- The operands of an operator, with their slopes forgotten. -/
theorem Op.given_values (xs : List (Access × Flat (Dual α))) (i : Nat) :
    given ops (values xs) i = ((given ops.dual xs i).1, (given ops.dual xs i).2.values) := by
  unfold given values
  by_cases h : i < xs.length <;> simp [h, Flat.values]

/-- The maximum of a row is computed from the values. -/
theorem rowMaximum_value (x : Flat (Dual α)) (row cols : Nat) :
    (rowMaximum ops.dual x row cols).value = rowMaximum ops x.values row cols := by
  refine (List.foldl_hom Dual.value fun top k => ?_).symm
  rw [Flat.entry_values]
  rfl

/-- The value of an element of a result is the element from the values of the operands. -/
theorem Op.element_value (op : Op) (xs : List (Access × Flat (Dual α))) (i : Nat) :
    (op.element ops.dual xs i).value = op.element ops (values xs) i := by
  cases op with
  | matmul => simp [element, matmulElement, given_values]
  | fold f axis => cases f <;> simp [element, foldElement, FoldOp.close, given_values]
  | softmax => simp [element, softmaxElement, given_values, rowMaximum_value]
  | _ =>
    rw [element_of_regular rfl, pointwise_value, element_of_regular rfl]
    simp only [given_values, Flat.entry_values]

/-! ## Exact arithmetic -/

/-- The operations are those of a commutative ring, and division by an invertible element undoes
multiplication by it. -/
structure Arithmetic.Ring [CommRing α] (ops : Arithmetic α) : Prop extends ops.Sums where
  sub : ∀ a b, ops.sub a b = a - b
  mul : ∀ a b, ops.mul a b = a * b
  neg : ∀ a, ops.neg a = -a
  div : ∀ a {b}, IsUnit b → ops.div a b * b = a

/-- Where the divisor is not zero, division is that of the field. -/
theorem Arithmetic.Ring.div_eq [Field α] {ops : Arithmetic α} (h : ops.Ring) (a : α) {b : α}
    (hb : b ≠ 0) : ops.div a b = a / b :=
  (eq_div_iff hb).2 (h.div a (isUnit_iff_ne_zero.2 hb))

/-- Rational numbers, with the literals that rules use and with polynomials for the other functions. -/
def Arithmetic.rationals : Arithmetic ℚ where
  lit c :=
    if c = 1.0 then 1 else if c = 2.0 then 2 else if c = probabilityMargin then 1 / 10000000
    else if c = 1.0 - probabilityMargin then 9999999 / 10000000 else 0
  add := (· + ·)
  sub := (· - ·)
  mul := (· * ·)
  div := (· / ·)
  rem a _ := a
  max := Max.max
  min := Min.min
  neg a := -a
  exp a := 1 + a + a * a
  log a := a - 1
  sqrt a := a * a
  tanh a := a
  lt a b := a < b
  le a b := a ≤ b
  text _ := ""

/-- The rational numbers satisfy the laws of a field without rounding. -/
theorem Arithmetic.rationals_ring : Arithmetic.rationals.Ring where
  add _ _ := rfl
  zero := by decide
  negZero := by decide
  sub _ _ := rfl
  mul _ _ := rfl
  neg _ := rfl
  div a b hb := div_mul_cancel₀ a hb.ne_zero

end TensorKernels
