import Mathlib.Algebra.BigOperators.Fin
import Mathlib.Algebra.BigOperators.Ring.Finset
import Mathlib.Algebra.Order.BigOperators.Group.Finset
import Mathlib.Algebra.Order.Ring.Rat
import Mathlib.Data.Matrix.Mul
import Mathlib.Tactic.Linarith
import Mathlib.Tactic.Ring
import TensorKernels.Proofs.DualNumbers
import TensorKernels.Proofs.GradientValues
import TensorKernels.Proofs.Values

/-!
# Gradients of reductions are adjoints

For a reduction with operands of dual numbers, the slopes of its result are linear in the slopes of the
operands. The gradient code hands back the adjoint of this linear map: for every incoming gradient `g`, the
sum of `g` times the slopes of the result is the sum, over all operands, of what is handed back times the
slopes of the operand. This holds in every commutative ring in which the divisors that occur are
invertible.

There is one lemma for each kind of reduction (`matmul_adjoint`, `fold_adjoint`, `softmax_adjoint`), all of
which go through the elements of a matrix row by row (`sum_rowMajor`).
-/

set_option autoImplicit false

namespace TensorKernels

variable {α : Type} (ops : Arithmetic α)

/-- Term `k` of row `r` of a softmax, before it is divided by the sum of the row. -/
def softmaxTerm (x : Flat α) (r k : Nat) : α :=
  let cols := x.shape.asMatrix.2
  ops.exp (ops.sub (x.entry ops (r * cols + k)) (rowMaximum ops x (r * cols) cols))

/-- The sum that the elements of row `r` of a softmax are divided by. -/
def softmaxSum (x : Flat α) (r : Nat) : α := ops.total x.shape.asMatrix.2 (softmaxTerm ops x r)

/-- An element of a softmax, by row and column. -/
theorem softmaxElement_row (x : Flat α) {r c : Nat} (hc : c < x.shape.asMatrix.2) :
    softmaxElement ops x (r * x.shape.asMatrix.2 + c) =
      ops.div (softmaxTerm ops x r c) (softmaxSum ops x r) := by
  simp only [softmaxElement, row_add_div hc]
  rfl

/-- What a reduction divides by is invertible: the number of elements for a mean, and the sum of each row
that has elements for a softmax. -/
def Op.InvertibleDivisors [CommRing α] (xs : List (Access × Flat α)) : Op → Prop
  | .fold .mean axis => IsUnit (ops.lit (UInt64.ofNat (foldCount axis (given ops xs 0).2.shape)).toFloat32)
  | .softmax =>
    let x := (given ops xs 0).2
    ∀ i < x.shape.size, IsUnit (softmaxSum ops x (i / x.shape.asMatrix.2))
  | _ => True

/-- The matrix with the given elements in row-major order. -/
def matrixOf (rows cols : Nat) (f : Nat → α) : Matrix (Fin rows) (Fin cols) α :=
  Matrix.of fun r c => f (r * cols + c)

section Adjoints

variable [CommRing α]

/-- A sum over all elements of a matrix is taken row by row. -/
theorem sum_rowMajor (m n : Nat) (f : Nat → α) :
    ∑ i ∈ Finset.range (m * n), f i = ∑ r ∈ Finset.range m, ∑ c ∈ Finset.range n, f (r * n + c) := by
  induction m with
  | zero => simp
  | succ m ih => rw [Nat.succ_mul, Finset.sum_range_add, ih, Finset.sum_range_succ]

/-- The product rule of matrices, paired with `G` and sorted by the slopes of either factor. -/
theorem sum_product_rule (m k n : Nat) (G A B A' B' : Nat → Nat → α) :
    ∑ r ∈ Finset.range m, ∑ c ∈ Finset.range n,
        G r c * ∑ j ∈ Finset.range k, (A' r j * B j c + A r j * B' j c) =
      ∑ r ∈ Finset.range m, ∑ j ∈ Finset.range k, (∑ c ∈ Finset.range n, G r c * B j c) * A' r j +
        ∑ j ∈ Finset.range k, ∑ c ∈ Finset.range n, (∑ r ∈ Finset.range m, G r c * A r j) * B' j c := by
  have hleft : ∑ r ∈ Finset.range m, ∑ c ∈ Finset.range n, ∑ j ∈ Finset.range k,
      G r c * (A' r j * B j c) =
      ∑ r ∈ Finset.range m, ∑ j ∈ Finset.range k, (∑ c ∈ Finset.range n, G r c * B j c) * A' r j := by
    refine Finset.sum_congr rfl fun r _ => ?_
    rw [Finset.sum_comm]
    refine Finset.sum_congr rfl fun j _ => ?_
    rw [Finset.sum_mul]
    exact Finset.sum_congr rfl fun c _ => by ring
  have hright : ∑ r ∈ Finset.range m, ∑ c ∈ Finset.range n, ∑ j ∈ Finset.range k,
      G r c * (A r j * B' j c) =
      ∑ j ∈ Finset.range k, ∑ c ∈ Finset.range n, (∑ r ∈ Finset.range m, G r c * A r j) * B' j c := by
    rw [Finset.sum_comm, Finset.sum_comm (s := Finset.range k)]
    refine Finset.sum_congr rfl fun c _ => ?_
    rw [Finset.sum_comm]
    refine Finset.sum_congr rfl fun j _ => ?_
    rw [Finset.sum_mul]
    exact Finset.sum_congr rfl fun r _ => by ring
  rw [← hleft, ← hright, ← Finset.sum_add_distrib]
  refine Finset.sum_congr rfl fun r _ => ?_
  rw [← Finset.sum_add_distrib]
  refine Finset.sum_congr rfl fun c _ => ?_
  simp only [Finset.mul_sum, mul_add, Finset.sum_add_distrib]

/-- The slope of a normalized term. The common shift `m` drops out, as the normalized terms add up to
one. -/
theorem slope_normalized {n c : Nat} {a y s : Nat → α} {m t z : α} (ht : IsUnit t) (hc : c < n)
    (htotal : ∑ k ∈ Finset.range n, a k = t) (hy : ∀ k < n, y k * t = a k)
    (hz : z * (t * t) = a c * (s c - m) * t - a c * ∑ k ∈ Finset.range n, a k * (s k - m)) :
    z = y c * (s c - ∑ k ∈ Finset.range n, y k * s k) := by
  have hsum : ∑ k ∈ Finset.range n, a k * s k = (∑ k ∈ Finset.range n, y k * s k) * t := by
    rw [Finset.sum_mul]
    refine Finset.sum_congr rfl fun k hk => ?_
    rw [← hy k (Finset.mem_range.1 hk)]
    ring
  have hshift : ∑ k ∈ Finset.range n, a k * (s k - m) =
      (∑ k ∈ Finset.range n, y k * s k) * t - t * m := by
    simp only [mul_sub, Finset.sum_sub_distrib, ← Finset.sum_mul, htotal, hsum]
  refine (ht.mul ht).mul_right_cancel ?_
  rw [hz, hshift, ← hy c hc]
  ring

/-- What a softmax hands back within a row is the adjoint of the slopes there. -/
theorem sum_normalized_adjoint (n : Nat) (g y s : Nat → α) :
    ∑ c ∈ Finset.range n, g c * (y c * (s c - ∑ k ∈ Finset.range n, y k * s k)) =
      ∑ c ∈ Finset.range n, y c * (g c - ∑ k ∈ Finset.range n, g k * y k) * s c := by
  have hleft : ∑ c ∈ Finset.range n, g c * (y c * (s c - ∑ k ∈ Finset.range n, y k * s k)) =
      ∑ c ∈ Finset.range n, g c * y c * s c -
        (∑ c ∈ Finset.range n, g c * y c) * ∑ k ∈ Finset.range n, y k * s k := by
    rw [Finset.sum_mul, ← Finset.sum_sub_distrib]
    exact Finset.sum_congr rfl fun c _ => by ring
  have hright : ∑ c ∈ Finset.range n, y c * (g c - ∑ k ∈ Finset.range n, g k * y k) * s c =
      ∑ c ∈ Finset.range n, g c * y c * s c -
        (∑ c ∈ Finset.range n, g c * y c) * ∑ k ∈ Finset.range n, y k * s k := by
    rw [Finset.mul_sum, ← Finset.sum_sub_distrib]
    exact Finset.sum_congr rfl fun c _ => by ring
  rw [hleft, hright]

variable {ops} (hops : ops.Ring)
include hops

/-- The sum that the code forms is the sum. -/
theorem Arithmetic.Ring.total_eq (n : Nat) (f : Nat → α) : ops.total n f = ∑ k ∈ Finset.range n, f k := by
  rw [total, hops.foldl_eq, hops.zero, zero_add]

/-! ## Matrix products -/

section Matmul

variable {a b : Flat α} (g : Nat → α)

/-- The pullback to the first factor: the incoming gradient times the second factor, transposed. -/
theorem matmulPullback_left {r j : Nat} (hj : j < a.shape.asMatrix.2) :
    matmulPullback ops a b g 0 (r * a.shape.asMatrix.2 + j) = ∑ c ∈ Finset.range b.shape.asMatrix.2,
      g (r * b.shape.asMatrix.2 + c) * b.entry ops (j * b.shape.asMatrix.2 + c) := by
  simp [matmulPullback, row_add_div hj, row_add_mod hj, hops.total_eq, hops.mul]

/-- The pullback to the second factor: the first factor, transposed, times the incoming gradient. -/
theorem matmulPullback_right {j c : Nat} (hc : c < b.shape.asMatrix.2) :
    matmulPullback ops a b g 1 (j * b.shape.asMatrix.2 + c) = ∑ r ∈ Finset.range a.shape.asMatrix.1,
      g (r * b.shape.asMatrix.2 + c) * a.entry ops (r * a.shape.asMatrix.2 + j) := by
  simp [matmulPullback, row_add_div hc, row_add_mod hc, hops.total_eq, hops.mul]

/-- The first operand of a matrix product is handed `G * Bᵀ`. -/
theorem matrixOf_matmulPullback_left :
    matrixOf a.shape.asMatrix.1 a.shape.asMatrix.2 (matmulPullback ops a b g 0) =
      matrixOf a.shape.asMatrix.1 b.shape.asMatrix.2 g *
        (matrixOf a.shape.asMatrix.2 b.shape.asMatrix.2 (b.entry ops)).transpose := by
  ext r j
  simp only [matrixOf, Matrix.mul_apply, Matrix.transpose_apply, Matrix.of_apply]
  rw [matmulPullback_left hops g j.isLt, Finset.sum_range]

/-- The second operand of a matrix product is handed `Aᵀ * G`. -/
theorem matrixOf_matmulPullback_right :
    matrixOf a.shape.asMatrix.2 b.shape.asMatrix.2 (matmulPullback ops a b g 1) =
      (matrixOf a.shape.asMatrix.1 a.shape.asMatrix.2 (a.entry ops)).transpose *
        matrixOf a.shape.asMatrix.1 b.shape.asMatrix.2 g := by
  ext j c
  simp only [matrixOf, Matrix.mul_apply, Matrix.transpose_apply, Matrix.of_apply]
  rw [matmulPullback_right hops g c.isLt, Finset.sum_range]
  exact Finset.sum_congr rfl fun r _ => mul_comm _ _

end Matmul

/-- The derivative of a matrix product, by the product rule. -/
theorem slope_matmulElement {a b : Flat (Dual α)} {r c : Nat} (hc : c < b.shape.asMatrix.2) :
    (matmulElement ops.dual a b (r * b.shape.asMatrix.2 + c)).slope =
      ∑ j ∈ Finset.range a.shape.asMatrix.2,
        ((a.entry ops.dual (r * a.shape.asMatrix.2 + j)).slope *
            (b.entry ops.dual (j * b.shape.asMatrix.2 + c)).value +
          (a.entry ops.dual (r * a.shape.asMatrix.2 + j)).value *
            (b.entry ops.dual (j * b.shape.asMatrix.2 + c)).slope) := by
  simp [matmulElement, row_add_div hc, row_add_mod hc, hops.total_eq, hops.add, hops.mul]

/-- What a matrix product hands back is the adjoint of its slopes. -/
theorem matmul_adjoint (a b : Flat (Dual α)) (hinner : a.shape.asMatrix.2 = b.shape.asMatrix.1)
    (g : Nat → α) :
    ∑ i ∈ Finset.range (a.shape.asMatrix.1 * b.shape.asMatrix.2),
        g i * (matmulElement ops.dual a b i).slope =
      ∑ j ∈ Finset.range a.shape.size,
          matmulPullback ops a.values b.values g 0 j * (a.entry ops.dual j).slope +
        ∑ j ∈ Finset.range b.shape.size,
          matmulPullback ops a.values b.values g 1 j * (b.entry ops.dual j).slope := by
  rw [← a.shape.asMatrix_size, ← b.shape.asMatrix_size, ← hinner]
  simp only [sum_rowMajor]
  have hrule := sum_product_rule a.shape.asMatrix.1 a.shape.asMatrix.2 b.shape.asMatrix.2
    (fun r c => g (r * b.shape.asMatrix.2 + c))
    (fun r j => (a.entry ops.dual (r * a.shape.asMatrix.2 + j)).value)
    (fun j c => (b.entry ops.dual (j * b.shape.asMatrix.2 + c)).value)
    (fun r j => (a.entry ops.dual (r * a.shape.asMatrix.2 + j)).slope)
    (fun j c => (b.entry ops.dual (j * b.shape.asMatrix.2 + c)).slope)
  refine Eq.trans ?_ (hrule.trans (congrArg₂ (· + ·) ?_ ?_))
  · refine Finset.sum_congr rfl fun r _ => Finset.sum_congr rfl fun c hc => ?_
    rw [slope_matmulElement hops (Finset.mem_range.1 hc)]
  · refine Finset.sum_congr rfl fun r _ => Finset.sum_congr rfl fun j hj => ?_
    have hback := matmulPullback_left (a := a.values) (b := b.values) (r := r) hops g (Finset.mem_range.1 hj)
    simp only [Flat.shape_values, Flat.entry_values] at hback
    rw [hback]
  · refine Finset.sum_congr rfl fun j _ => Finset.sum_congr rfl fun c hc => ?_
    have hback := matmulPullback_right (a := a.values) (b := b.values) (j := j) hops g (Finset.mem_range.1 hc)
    simp only [Flat.shape_values, Flat.entry_values] at hback
    rw [hback]

/-! ## Sums and means -/

/-- A folded value is closed by a factor, and so is its slope. -/
theorem FoldOp.close_eq (f : FoldOp) {count : Nat}
    (hunit : f = .mean → IsUnit (ops.lit (UInt64.ofNat count).toFloat32)) :
    ∃ factor, (∀ x, f.close ops x count = x * factor) ∧
      ∀ z, (f.close ops.dual z count).slope = z.slope * factor := by
  cases f with
  | sum => exact ⟨1, by simp [close], by simp [close]⟩
  | mean =>
    have hcount := hunit rfl
    obtain ⟨u, hu⟩ := hunit rfl
    refine ⟨↑u⁻¹, fun x => ?_, fun z => ?_⟩
    · rw [Units.eq_mul_inv_iff_mul_eq, hu]
      exact hops.div x hcount
    · have hdiv := hops.div (z.slope * u) (hcount.mul hcount)
      rw [Units.eq_mul_inv_iff_mul_eq]
      refine u.isUnit.mul_right_cancel ?_
      simpa [close, hops.sub, hops.mul, hops.zero, ← hu, mul_assoc] using hdiv

/-- What a sum or mean hands back is the adjoint of its slopes. -/
theorem fold_adjoint (f : FoldOp) (axis : Axis) (x : Flat (Dual α))
    (hunit : f = .mean → IsUnit (ops.lit (UInt64.ofNat (foldCount axis x.shape)).toFloat32))
    (g : Nat → α) :
    ∑ i ∈ Finset.range (foldShape axis x.shape).size, g i * (foldElement ops.dual f axis x i).slope =
      ∑ j ∈ Finset.range x.shape.size,
        foldPullback ops f axis x.values g j * (x.entry ops.dual j).slope := by
  obtain ⟨factor, hvalue, hslope⟩ := f.close_eq hops hunit
  simp only [foldElement, foldPullback, hvalue, hslope, Flat.shape_values, Arithmetic.dual_total,
    hops.total_eq]
  rw [size_foldShape, ← foldDims_size axis, sum_rowMajor]
  cases axis with
  | last =>
    refine Finset.sum_congr rfl fun r _ => ?_
    rw [Finset.sum_mul, Finset.mul_sum]
    refine Finset.sum_congr rfl fun c hc => ?_
    simp only [foldPosition, foldTarget, row_add_div (Finset.mem_range.1 hc)]
    ring
  | first =>
    rw [Finset.sum_comm]
    refine Finset.sum_congr rfl fun c hc => ?_
    rw [Finset.sum_mul, Finset.mul_sum]
    refine Finset.sum_congr rfl fun r _ => ?_
    simp only [foldPosition, foldTarget, row_add_mod (Finset.mem_range.1 hc)]
    ring

/-! ## Softmax -/

/-- The slope of a term depends on the row by a common shift only. -/
theorem softmaxTerm_dual (x : Flat (Dual α)) (r k : Nat) :
    softmaxTerm ops.dual x r k = ⟨softmaxTerm ops x.values r k, softmaxTerm ops x.values r k *
      ((x.entry ops.dual (r * x.shape.asMatrix.2 + k)).slope -
        (rowMaximum ops.dual x (r * x.shape.asMatrix.2) x.shape.asMatrix.2).slope)⟩ := by
  simp [softmaxTerm, ← rowMaximum_value, hops.sub, hops.mul]

/-- The derivative of a softmax, where the sum of its row can be divided by. -/
theorem slope_softmaxElement (x : Flat (Dual α)) {r c : Nat} (hc : c < x.shape.asMatrix.2)
    (hunit : IsUnit (softmaxSum ops x.values r)) :
    (softmaxElement ops.dual x (r * x.shape.asMatrix.2 + c)).slope =
      softmaxElement ops x.values (r * x.shape.asMatrix.2 + c) *
        ((x.entry ops.dual (r * x.shape.asMatrix.2 + c)).slope -
          ∑ k ∈ Finset.range x.shape.asMatrix.2,
            softmaxElement ops x.values (r * x.shape.asMatrix.2 + k) *
              (x.entry ops.dual (r * x.shape.asMatrix.2 + k)).slope) := by
  refine slope_normalized (a := softmaxTerm ops x.values r) (t := softmaxSum ops x.values r)
    (y := fun k => softmaxElement ops x.values (r * x.shape.asMatrix.2 + k))
    (s := fun k => (x.entry ops.dual (r * x.shape.asMatrix.2 + k)).slope)
    (m := (rowMaximum ops.dual x (r * x.shape.asMatrix.2) x.shape.asMatrix.2).slope) hunit hc
    (hops.total_eq _ _).symm ?_ ?_
  · intro k hk
    have hvalue : softmaxElement ops x.values (r * x.shape.asMatrix.2 + k) = _ :=
      softmaxElement_row ops x.values hk
    rw [hvalue]
    exact hops.div _ hunit
  · rw [softmaxElement_row ops.dual x hc, softmaxSum, Arithmetic.dual_div, Arithmetic.dual_total]
    simp only [softmaxTerm_dual hops, hops.sub, hops.mul, hops.total_eq]
    have hsum : ∑ k ∈ Finset.range x.shape.asMatrix.2, softmaxTerm ops x.values r k =
        softmaxSum ops x.values r := (hops.total_eq _ _).symm
    rw [hsum]
    exact hops.div _ (hunit.mul hunit)

/-- What a softmax with result `y` hands back is the adjoint of its slopes. -/
theorem softmax_adjoint (x : Flat (Dual α)) {y : Flat α} (hshape : y.shape = x.shape)
    (hy : ∀ i < x.shape.size, y.entry ops i = softmaxElement ops x.values i)
    (hunit : ∀ i < x.shape.size, IsUnit (softmaxSum ops x.values (i / x.shape.asMatrix.2)))
    (g : Nat → α) :
    ∑ i ∈ Finset.range x.shape.size, g i * (softmaxElement ops.dual x i).slope =
      ∑ j ∈ Finset.range x.shape.size, softmaxPullback ops y g j * (x.entry ops.dual j).slope := by
  rw [← x.shape.asMatrix_size, sum_rowMajor, sum_rowMajor]
  refine Finset.sum_congr rfl fun r hr => ?_
  have hlt : ∀ k ∈ Finset.range x.shape.asMatrix.2, r * x.shape.asMatrix.2 + k < x.shape.size := by
    intro k hk
    rw [← x.shape.asMatrix_size]
    exact row_add_lt (Finset.mem_range.1 hr) (Finset.mem_range.1 hk)
  have hrow := sum_normalized_adjoint x.shape.asMatrix.2 (fun c => g (r * x.shape.asMatrix.2 + c))
    (fun c => softmaxElement ops x.values (r * x.shape.asMatrix.2 + c))
    (fun c => (x.entry ops.dual (r * x.shape.asMatrix.2 + c)).slope)
  refine Eq.trans ?_ (hrow.trans ?_)
  · refine Finset.sum_congr rfl fun c hc => ?_
    have hsum := hunit _ (hlt c hc)
    rw [row_add_div (Finset.mem_range.1 hc)] at hsum
    rw [slope_softmaxElement hops x (Finset.mem_range.1 hc) hsum]
  · refine Finset.sum_congr rfl fun c hc => ?_
    have hsum : ∑ k ∈ Finset.range x.shape.asMatrix.2,
        g (r * x.shape.asMatrix.2 + k) * y.entry ops (r * x.shape.asMatrix.2 + k) =
        ∑ k ∈ Finset.range x.shape.asMatrix.2,
          g (r * x.shape.asMatrix.2 + k) * softmaxElement ops x.values (r * x.shape.asMatrix.2 + k) :=
      Finset.sum_congr rfl fun k hk => by rw [hy _ (hlt k hk)]
    simp only [softmaxPullback, hshape, row_add_div (Finset.mem_range.1 hc), hops.total_eq, hops.sub,
      hops.mul, hsum, hy _ (hlt c hc)]

/-! ## All reductions -/

/-- What a reduction hands back to its operands is the adjoint of its slopes. -/
theorem Op.reduction_adjoint {op : Op} (hop : op.opClass = .reduction) {xs : List (Access × Flat (Dual α))}
    (hlen : xs.length = op.arity) {shape : Shape}
    (hinfer : op.infer (xs.map fun ax => ax.2.shape) = .ok ⟨shape, xs.map Prod.fst⟩)
    (hunit : op.InvertibleDivisors ops (values xs)) (g : Nat → α) :
    ∑ i ∈ Finset.range shape.size, g i * (op.element ops.dual xs i).slope =
      ∑ slot ∈ Finset.range op.arity, ∑ j ∈ Finset.range (given ops.dual xs slot).2.shape.size,
        op.reductionPullback ops (values xs) (op.result ops shape (values xs)) g slot j *
          ((given ops.dual xs slot).2.entry ops.dual j).slope := by
  cases op with
  | matmul =>
    obtain ⟨ax, bx, rfl⟩ := List.length_eq_two.1 hlen
    obtain ⟨rfl, hinner⟩ := Op.infer_matmul hinfer
    have hsize : Shape.size [ax.2.shape.asMatrix.1, bx.2.shape.asMatrix.2] =
        ax.2.shape.asMatrix.1 * bx.2.shape.asMatrix.2 := by simp [Shape.size]
    rw [hsize, arity, Finset.sum_range_succ, Finset.sum_range_one]
    exact matmul_adjoint hops ax.2 bx.2 hinner g
  | fold f axis =>
    obtain ⟨ax, rfl⟩ := List.length_eq_one_iff.1 hlen
    obtain rfl : foldShape axis ax.2.shape = shape := Op.infer_fold hinfer
    rw [arity, Finset.sum_range_one]
    refine fold_adjoint hops f axis ax.2 ?_ g
    rintro rfl
    exact hunit
  | softmax =>
    obtain ⟨ax, rfl⟩ := List.length_eq_one_iff.1 hlen
    obtain rfl : ax.2.shape = shape := Op.infer_softmax hinfer
    rw [arity, Finset.sum_range_one]
    refine softmax_adjoint hops ax.2 rfl (fun i hi => ?_) hunit g
    exact entry_result ops _ _ hi
  | _ => cases hop

end Adjoints

/-- In any commutative ring, for a reduction on operands of dual numbers, with fewer than `2 ^ 32` elements
and shapes that inference accepts, where what it divides by is invertible, and for every incoming gradient
`g`: the forward code gives the elements `d` of the result and the gradient code, run on the values of the
operands and of the result, the elements `e` of what is handed to each operand. Then `e` is the adjoint of
the slopes: `g` paired with the slopes of `d` is `e` paired with the slopes of the operands. For a matrix
product `e` is `G * Bᵀ` for the first operand and `Aᵀ * G` for the second. -/
theorem reductions_hand_back_adjoints [CommRing α] {ops : Arithmetic α} (hops : ops.Ring) {op : Op}
    (hop : op.opClass = .reduction) {xs : List (Access × Flat (Dual α))} (hlen : xs.length = op.arity)
    {shape : Shape} (hinfer : op.infer (xs.map fun ax => ax.2.shape) = .ok ⟨shape, xs.map Prod.fst⟩)
    (hsize : shape.size < 2 ^ 32) (hunit : op.InvertibleDivisors ops (Op.values xs)) (g : Nat → α) :
    ∃ (d : Nat → Dual α) (e : Nat → Nat → α),
      (∀ i < shape.size, ∀ {t : Invocation (Dual α)} {operands : List Operand} {out : String},
        t.index = UInt32.ofNat i → List.Forall₂ (Operand.Denotes ops.dual t i) operands xs →
        (∀ o ∈ operands, ∀ name, o.source ≠ .var name) →
        Stmt.Ends ops.dual t (op.forward out operands) fun u =>
          u.locals.find? out = some (.scalar (d i))) ∧
      (∀ slot < op.arity, ∀ j < (Op.given ops.dual xs slot).2.shape.size,
        ∀ {s : Invocation α} {r : ReductionFrame}, s.index = UInt32.ofNat j →
        r.Feeds ops s j (Op.values xs) ⟨shape, Array.ofFn fun i : Fin shape.size => (d i).value⟩ g
          (op.reductionGradient slot r) →
        Stmt.Ends ops s (op.reductionGradient slot r).1 fun u =>
          (op.reductionGradient slot r).2.eval ops u = .ok (.scalar (e slot j))) ∧
      ∑ i ∈ Finset.range shape.size, g i * (d i).slope =
        ∑ slot ∈ Finset.range op.arity, ∑ j ∈ Finset.range (Op.given ops.dual xs slot).2.shape.size,
          e slot j * ((Op.given ops.dual xs slot).2.entry ops.dual j).slope ∧
      (op = .matmul → ∀ a b : Access × Flat (Dual α), xs = [a, b] → ∀ m k n,
        a.2.shape.asMatrix = (m, k) → b.2.shape.asMatrix = (k, n) →
        matrixOf m k (e 0) = matrixOf m n g * (matrixOf k n (b.2.values.entry ops)).transpose ∧
        matrixOf k n (e 1) = (matrixOf m k (a.2.values.entry ops)).transpose * matrixOf m n g) := by
  refine ⟨fun i => op.element ops.dual xs i,
    op.reductionPullback ops (Op.values xs) (op.result ops shape (Op.values xs)) g, ?_, ?_,
    Op.reduction_adjoint hops hop hlen hinfer hunit g, ?_⟩
  · intro i hi t operands out ht hden hvar
    refine Op.forward_ends hden hlen hinfer ?_ ?_ hi hsize ht
    · rintro rate rfl
      cases hop
    · intro o ho name hname
      exact absurd hname (hvar o ho name)
  · intro slot hslot j hj s r hs hr
    simp only [Op.element_value] at hr
    refine Op.reductionGradient_ends hop (by simpa [Op.values] using hlen) ?_ hslot hr hs ?_
    · simp only [Op.values, List.map_map]
      exact hinfer
    · rwa [Op.given_values]
  · rintro rfl a b rfl m k n ha hb
    obtain rfl : a.2.shape.asMatrix.1 = m := by rw [ha]
    obtain rfl : a.2.shape.asMatrix.2 = k := by rw [ha]
    obtain rfl : b.2.shape.asMatrix.2 = n := by rw [hb]
    exact ⟨matrixOf_matmulPullback_left (a := a.2.values) (b := b.2.values) hops g,
      matrixOf_matmulPullback_right (a := a.2.values) (b := b.2.values) hops g⟩

/-- A row of two numbers, the first of them perturbed. -/
def pairPerturbed : Flat (Dual ℚ) := ⟨[2], #[⟨1, 1⟩, ⟨2, 0⟩]⟩

/-- An invocation of the forward code on the row. -/
def pairForward (i : Nat) : Invocation (Dual ℚ) :=
  ⟨UInt32.ofNat i, .empty, .ofList [("x", pairPerturbed.data)], .empty⟩

/-- An invocation of the gradient code on the row, its result and an incoming gradient. -/
def pairBackward (j : Nat) (result : Array ℚ) : Invocation ℚ :=
  ⟨UInt32.ofNat j, .empty, .ofList [("x", #[1, 2]), ("y", result), ("up", #[3, 5])], .empty⟩

/-- A frame whose incoming gradient is the buffer `up`. -/
def pairFrame : ReductionFrame where
  stem := "y_d0"
  operands := [⟨.buffer "x", .aligned, [2]⟩]
  output := ⟨.buffer "y", .aligned, [2]⟩
  shape := [2]
  seed name position _ := [.varDecl name (.load "up" position)]

/-- The frame of the sample seeds both elements with the incoming gradient. -/
theorem pairFrame_seeds (j : Nat) (result : Array ℚ) :
    pairFrame.Seeds .rationals (pairBackward j result) 2
      (fun p => (#[3, 5] : Array ℚ).getD p Arithmetic.rationals.zero) where
  ends {sets t name loopVar position p} hframe hp _ _ heval := by
    have hbuffer : t.buffer? "up" = some #[3, 5] := by
      rw [hframe.buffer?_eq]
      rfl
    exact .varDecl (Expr.eval_load _ hbuffer heval (by omega)) (.nil (by simp))
  sets h := by
    simp [pairFrame, Stmt.blockSets, Stmt.sets] at h
    exact .inl h
  stores _ _ _ := rfl

/-- The frame of the sample feeds the gradient code of a softmax. -/
theorem pairFrame_feeds (j : Nat) (result : Array ℚ) :
    pairFrame.Feeds .rationals (pairBackward j result) j (Op.values [(.aligned, pairPerturbed)])
      ⟨[2], result⟩ (fun p => (#[3, 5] : Array ℚ).getD p Arithmetic.rationals.zero)
      (Op.softmax.reductionGradient 0 pairFrame) where
  seeds := pairFrame_seeds j result
  shapes i := by cases i <;> rfl
  shape := rfl
  operand i _ := by
    cases i with
    | zero =>
      show (pairBackward j result).buffer? "x" = some (pairPerturbed.data.map Dual.value)
      simp only [pairPerturbed, List.map_toArray, List.map_cons, List.map_nil]
      rfl
    | succ i => rfl
  output _ := rfl
  noLocal i name := by cases i <;> simp [pairFrame, Operand.absent]
  noLocalOutput name := by simp [pairFrame]
  bound i := by
    cases i with
    | zero => exact (by decide : Shape.size [2] < 2 ^ 32)
    | succ i => exact (by decide : Shape.size [1] < 2 ^ 32)
  boundOutput := (by decide : Shape.size [2] < 2 ^ 32)

/-- A softmax of two numbers hands back the adjoint of its slopes. -/
theorem softmax_hands_back_adjoint :
    ∃ (d : Nat → Dual ℚ) (e : Nat → ℚ),
      (∀ i < 2, Stmt.Ends Arithmetic.rationals.dual (pairForward i)
        (Op.softmax.forward "y" [⟨.buffer "x", .aligned, [2]⟩]) fun u =>
          u.locals.find? "y" = some (.scalar (d i))) ∧
      (∀ j < 2, Stmt.Ends .rationals (pairBackward j (Array.ofFn fun i : Fin 2 => (d i).value))
        (Op.softmax.reductionGradient 0 pairFrame).1 fun u =>
          (Op.softmax.reductionGradient 0 pairFrame).2.eval .rationals u = .ok (.scalar (e j))) ∧
      3 * (d 0).slope + 5 * (d 1).slope = e 0 := by
  have hinfer : Op.softmax.infer ([(Access.aligned, pairPerturbed)].map fun ax => ax.2.shape) =
    .ok ⟨[2], [(Access.aligned, pairPerturbed)].map Prod.fst⟩ := rfl
  have hunit : Op.softmax.InvertibleDivisors .rationals (Op.values [(.aligned, pairPerturbed)]) := by
    intro i _
    have hpos : ∀ a : ℚ, 0 < Arithmetic.rationals.exp a := by
      intro a
      show 0 < 1 + a + a * a
      nlinarith [sq_nonneg (a + 1)]
    refine isUnit_iff_ne_zero.2 ?_
    rw [softmaxSum, Arithmetic.rationals_ring.total_eq]
    exact (Finset.sum_pos (fun k _ => hpos _) ⟨0, Finset.mem_range.2 Nat.zero_lt_two⟩).ne'
  obtain ⟨d, e, hforward, hbackward, hadjoint, -⟩ := reductions_hand_back_adjoints
    Arithmetic.rationals_ring rfl rfl hinfer (by decide) hunit
    (fun p => (#[3, 5] : Array ℚ).getD p Arithmetic.rationals.zero)
  refine ⟨d, e 0, ?_, ?_, ?_⟩
  · intro i hi
    exact hforward i hi rfl (.cons ⟨rfl, rfl, rfl, by decide⟩ .nil) (by simp)
  · intro j hj
    exact hbackward 0 (by decide) j hj rfl (pairFrame_feeds j _)
  · have hsums : 3 * (d 0).slope + 5 * (d 1).slope = e 0 0 * 1 + e 0 1 * 0 := by
      simpa [Finset.sum_range_succ, Op.arity, Op.given, pairPerturbed, Shape.size, Flat.entry] using hadjoint
    rw [hsums]
    ring

end TensorKernels
