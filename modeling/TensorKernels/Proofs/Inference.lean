import Mathlib.Data.List.Forall2
import TensorKernels.Operator.Inference
import TensorKernels.Proofs.Meaning

/-!
# What shape inference promises

`Access.Covers m n` relates an access to the element counts of an operand (`m`) and of the result
(`n`). Every access that inference returns for a regular operator covers its operand
(`Op.infer_covers`), so each element of the result reads an element that exists
(`Access.Covers.position_lt`). For reductions the operands' matrix views fit together.

Inference stops where elements cannot be counted. A shape whose dimensions, with an empty one taken as
a unit, have a product below `2 ^ 64` can be counted (`Shape.isCountable_of_extent_lt`).
-/

set_option autoImplicit false

namespace TensorKernels

/-! ## Counting elements -/

namespace Shape

/-- The product of the dimensions, where an empty dimension counts as a unit. It bounds every product
that is formed on the way to the element count. -/
def extent : Shape → Nat
  | [] => 1
  | d :: rest => max d 1 * extent rest

/-- The extent is positive. -/
theorem extent_pos (s : Shape) : 0 < s.extent := by
  induction s with
  | nil => exact Nat.one_pos
  | cons d s ih => exact Nat.mul_pos (Nat.lt_of_lt_of_le Nat.one_pos (Nat.le_max_right d 1)) ih

/-- The extent of a shape is not below that of its inner dimensions. -/
theorem extent_tail_le (s : Shape) : extent s.tail ≤ s.extent := by
  cases s with
  | nil => exact Nat.le_refl 1
  | cons d s =>
    exact Nat.le_mul_of_pos_left (extent s) (Nat.lt_of_lt_of_le Nat.one_pos (Nat.le_max_right d 1))

/-- Without empty dimensions the extent is the element count. -/
theorem extent_eq_size {s : Shape} (h : 0 < s.size) : s.extent = s.size := by
  induction s with
  | nil => rfl
  | cons d s ih =>
    rw [size] at h
    have hd : 1 ≤ d := Nat.pos_of_mul_pos_right h
    rw [extent, size, Nat.max_eq_left hd, ih (Nat.pos_of_mul_pos_left h)]

/-- A product that starts at `n` stays below `n` times the extent. -/
theorem countsFrom_of_extent {n : Nat} {s : Shape} (h : max n 1 * s.extent < 2 ^ 64) :
    s.countsFrom n := by
  induction s generalizing n with
  | nil => rfl
  | cons d s ih =>
    have hone : 1 ≤ max n 1 := Nat.le_max_right n 1
    have hone' : 1 ≤ max d 1 := Nat.le_max_right d 1
    have hnd : max (n * d) 1 ≤ max n 1 * max d 1 :=
      Nat.max_le.2 ⟨Nat.mul_le_mul (Nat.le_max_left n 1) (Nat.le_max_left d 1), Nat.mul_le_mul hone hone'⟩
    have hrest : max (n * d) 1 * extent s < 2 ^ 64 := by
      refine Nat.lt_of_le_of_lt (Nat.mul_le_mul_right (extent s) hnd) ?_
      rwa [Nat.mul_assoc]
    have hproduct : max (n * d) 1 < 2 ^ 64 :=
      Nat.lt_of_le_of_lt (Nat.le_mul_of_pos_right _ (extent_pos s)) hrest
    have hd : d < 2 ^ 64 := by
      have hle : d ≤ max d 1 * extent s :=
        Nat.le_trans (Nat.le_max_left d 1) (Nat.le_mul_of_pos_right _ (extent_pos s))
      exact Nat.lt_of_le_of_lt (Nat.le_trans hle (Nat.le_mul_of_pos_left _ hone)) h
    have hn : n * d < 2 ^ 64 := Nat.lt_of_le_of_lt (Nat.le_max_left _ 1) hproduct
    rw [countsFrom, ih hrest, decide_eq_true (show d < UInt64.size from hd),
      decide_eq_true (show n * d < UInt64.size from hn)]
    rfl

/-- A product that starts below `2 ^ 64` and can be formed ends below it. -/
theorem mul_size_lt_of_countsFrom {n : Nat} {s : Shape} (hn : n < 2 ^ 64) (h : s.countsFrom n) :
    n * s.size < 2 ^ 64 := by
  induction s generalizing n with
  | nil => rwa [size, Nat.mul_one]
  | cons d s ih =>
    simp only [countsFrom, Bool.and_eq_true, decide_eq_true_eq] at h
    rw [size, ← Nat.mul_assoc]
    exact ih h.1.2 h.2

/-- The dimensions of a small enough shape can be multiplied. -/
theorem isCountable_of_extent_lt {s : Shape} (h : s.extent < 2 ^ 64) : s.isCountable :=
  countsFrom_of_extent (by rwa [Nat.max_self, Nat.one_mul])

/-- So can all but the first. -/
theorem hasMatrix_of_extent_lt {s : Shape} (h : s.extent < 2 ^ 64) : s.hasMatrix :=
  isCountable_of_extent_lt (Nat.lt_of_le_of_lt s.extent_tail_le h)

/-- The element count of a countable shape is a 64-bit number. -/
theorem size_lt_of_isCountable {s : Shape} (h : s.isCountable) : s.size < 2 ^ 64 := by
  have hsize := mul_size_lt_of_countsFrom (by decide : 1 < 2 ^ 64) h
  rwa [Nat.one_mul] at hsize

/-- A matrix can be counted if its dimensions and its element count are 64-bit numbers. -/
theorem isCountable_matrix {m n : Nat} : isCountable [m, n] ↔ m < 2 ^ 64 ∧ n < 2 ^ 64 ∧ m * n < 2 ^ 64 := by
  simp [isCountable, countsFrom]

/-- So can its columns. -/
theorem hasMatrix_of_isCountable {m n : Nat} (h : isCountable [m, n]) : hasMatrix [m, n] := by
  have hn := (isCountable_matrix.1 h).2.1
  simpa [hasMatrix, isCountable, countsFrom] using hn

end Shape

/-! ## Row-major positions -/

/-- An element of a matrix has its place among all of them. -/
theorem row_add_lt {rows cols i k : Nat} (hi : i < rows) (hk : k < cols) :
    i * cols + k < rows * cols :=
  calc i * cols + k < i * cols + cols := by omega
    _ = (i + 1) * cols := by rw [Nat.succ_mul]
    _ ≤ rows * cols := Nat.mul_le_mul_right cols hi

/-- The row of an element. -/
theorem row_add_div {cols i k : Nat} (hk : k < cols) : (i * cols + k) / cols = i := by
  rw [Nat.mul_comm, Nat.mul_add_div (Nat.zero_lt_of_lt hk), Nat.div_eq_of_lt hk, Nat.add_zero]

/-- The column of an element. -/
theorem row_add_mod {cols i k : Nat} (hk : k < cols) : (i * cols + k) % cols = k := by
  rw [Nat.mul_comm, Nat.mul_add_mod, Nat.mod_eq_of_lt hk]

/-- The dimensions of a matrix that has an element and is not too large. -/
theorem dims_of_lt {rows cols i bound : Nat} (hi : i < rows * cols) (hbound : rows * cols < bound) :
    (0 < rows ∧ rows < bound) ∧ 0 < cols ∧ cols < bound := by
  have hrows : 0 < rows := Nat.pos_of_ne_zero fun h0 => by simp [h0] at hi
  have hcols : 0 < cols := Nat.pos_of_ne_zero fun h0 => by simp [h0] at hi
  exact ⟨⟨hrows, Nat.lt_of_le_of_lt (Nat.le_mul_of_pos_right rows hcols) hbound⟩, hcols,
    Nat.lt_of_le_of_lt (Nat.le_mul_of_pos_left cols hrows) hbound⟩

/-! ## Accesses -/

/-- The access reads an operand of `m` elements for a result of `n` elements. -/
def Access.Covers (m n : Nat) : Access → Prop
  | .aligned => m = n
  | .scalar count => m = 1 ∧ count = n
  | .row rows cols => m = cols ∧ n = rows * cols
  | .col cols => n = m * cols
  | .permuted rows cols => m = rows * cols ∧ n = rows * cols

namespace Access.Covers

/-- Every element of the result reads an element of the operand. -/
theorem position_lt {a : Access} {m n i : Nat} (h : a.Covers m n) (hi : i < n) :
    a.position i < m := by
  cases a with
  | aligned =>
    simp only [Access.Covers] at h
    simpa [Access.position, h] using hi
  | scalar count =>
    simp only [Access.Covers] at h
    simp [Access.position, h.1]
  | row rows cols =>
    simp only [Access.Covers] at h
    have hcols : 0 < cols := by
      rcases Nat.eq_zero_or_pos cols with h0 | h0
      · rw [h.2, h0, Nat.mul_zero] at hi
        omega
      · exact h0
    rw [h.1]
    exact Nat.mod_lt i hcols
  | col cols =>
    simp only [Access.Covers] at h
    rw [h] at hi
    exact Nat.div_lt_of_lt_mul (by rwa [Nat.mul_comm])
  | permuted rows cols =>
    simp only [Access.Covers] at h
    rw [h.2] at hi
    have hrows : 0 < rows := Nat.pos_of_ne_zero fun h0 => by simp [h0] at hi
    rw [h.1]
    exact row_add_lt (Nat.mod_lt i hrows) (Nat.div_lt_of_lt_mul hi)

end Access.Covers

/-- Leading unit dimensions add no elements. -/
theorem Shape.size_withoutLeadingOnes (s : Shape) : s.withoutLeadingOnes.size = s.size := by
  unfold Shape.withoutLeadingOnes
  induction s with
  | nil => rfl
  | cons d s ih =>
    by_cases hd : d = 1
    · simpa [hd, Shape.size] using ih
    · simp [hd]

/-- A row or column that covers a matrix has as many elements as the access says. -/
theorem rowOrCol_covers {full small : Shape} {a : Access} (h : rowOrCol full small = some a) :
    a.Covers small.size full.size := by
  unfold rowOrCol at h
  split at h
  · next rows cols c =>
    split at h
    · next hc =>
      cases h
      simp [Access.Covers, Shape.size, hc]
    · cases h
  · next rows cols c d =>
    split at h
    · next hc =>
      cases h
      simp [Access.Covers, Shape.size, hc]
    · split at h
      · next hc =>
        cases h
        simp [Access.Covers, Shape.size, hc]
      · cases h
  · cases h

/-- A broadcast counts both operands and matches them. -/
theorem broadcast_ok {op : String} {a b : Shape} {r : Inferred} (h : broadcast op a b = .ok r) :
    a.isCountable ∧ b.isCountable ∧ matchShapes op a b = .ok r := by
  rw [broadcast] at h
  split at h
  · next hcount =>
    rw [Bool.and_eq_true] at hcount
    exact ⟨hcount.1, hcount.2, h⟩
  · cases h

/-- Countable operands are only matched. -/
theorem broadcast_eq (op : String) {a b : Shape} (ha : a.isCountable) (hb : b.isCountable) :
    broadcast op a b = matchShapes op a b := by
  rw [broadcast, ha, hb]
  rfl

/-- The result of a broadcast has the shape of an operand, so its elements can be counted. -/
theorem broadcast_countable {op : String} {a b : Shape} {r : Inferred} (h : broadcast op a b = .ok r) :
    r.shape.isCountable := by
  obtain ⟨ha, hb, h⟩ := broadcast_ok h
  unfold matchShapes at h
  repeat' split at h
  all_goals cases h
  all_goals assumption

/-- Both operands of a broadcast are covered by their accesses. -/
theorem broadcast_covers {op : String} {a b : Shape} {r : Inferred}
    (h : broadcast op a b = .ok r) :
    ∃ x y, r.access = [x, y] ∧ x.Covers a.size r.shape.size ∧ y.Covers b.size r.shape.size := by
  replace h := (broadcast_ok h).2.2
  unfold matchShapes at h
  split at h
  · next hab =>
    cases h
    refine ⟨.aligned, .aligned, rfl, rfl, ?_⟩
    rcases hab with hab | hab
    · rw [hab]
      rfl
    · show b.size = a.size
      rw [← a.size_withoutLeadingOnes, hab, b.size_withoutLeadingOnes]
  · split at h
    · next hb =>
      cases h
      exact ⟨_, _, rfl, rfl, hb, rfl⟩
    · split at h
      · next ha =>
        cases h
        exact ⟨_, _, rfl, ⟨ha, rfl⟩, rfl⟩
      · split at h
        · next hrow =>
          cases h
          exact ⟨_, _, rfl, rfl, rowOrCol_covers hrow⟩
        · next hrow =>
          cases h
          exact ⟨_, _, rfl, rowOrCol_covers hrow, rfl⟩
        · cases h

/-- The operand of a transpose is covered by its access. -/
theorem inferTranspose_covers {s : Shape} {r : Inferred} (h : inferTranspose s = .ok r) :
    ∃ x, r.access = [x] ∧ x.Covers s.size r.shape.size := by
  unfold inferTranspose at h
  split at h
  · cases h
    exact ⟨_, rfl, by simp [Access.Covers, Shape.size]⟩
  · next rows cols =>
    split at h
    · cases h
      exact ⟨_, rfl, by simp [Access.Covers, Shape.size, Nat.mul_comm]⟩
    · cases h
      exact ⟨_, rfl, by simp [Access.Covers, Shape.size, Nat.mul_comm]⟩
  · cases h

/-- A reshape keeps the elements, and both shapes can be counted. -/
theorem inferReshape_ok {new old : Shape} {r : Inferred} (h : inferReshape new old = .ok r) :
    r = ⟨new, [.aligned]⟩ ∧ old.size = new.size ∧ old.isCountable ∧ new.isCountable := by
  rw [inferReshape] at h
  split at h
  · next hcount =>
    split at h
    · next hs =>
      cases h
      exact ⟨rfl, hs, by simpa using hcount⟩
    · cases h
  · cases h

/-- A reshape between countable shapes of the same element count. -/
theorem inferReshape_eq {new old : Shape} (hold : old.isCountable) (hnew : new.isCountable)
    (hsize : old.size = new.size) : inferReshape new old = .ok ⟨new, [.aligned]⟩ := by
  simp [inferReshape, hold, hnew, hsize]

/-- The operand of a reshape is read in place. -/
theorem inferReshape_covers {new old : Shape} {r : Inferred} (h : inferReshape new old = .ok r) :
    r.access = [.aligned] ∧ Access.aligned.Covers old.size r.shape.size := by
  obtain ⟨rfl, hs, -⟩ := inferReshape_ok h
  exact ⟨rfl, hs⟩

/-- The inner dimensions of two factors agree. -/
theorem inferMatmul_ok {a b : Shape} {r : Inferred} (h : inferMatmul a b = .ok r) :
    r = ⟨[a.asMatrix.1, b.asMatrix.2], [.aligned, .aligned]⟩ ∧ a.asMatrix.2 = b.asMatrix.1 ∧
      a.hasMatrix ∧ b.hasMatrix := by
  rw [inferMatmul] at h
  split at h
  · next hmatrix =>
    split at h
    · next hinner =>
      cases h
      exact ⟨rfl, hinner, by simpa using hmatrix⟩
    · cases h
  · cases h

/-- The result of a fold. -/
theorem inferFold_ok {axis : Axis} {s : Shape} {r : Inferred} (h : inferFold axis s = .ok r) :
    r = ⟨foldShape axis s, [.aligned]⟩ ∧ s.hasMatrix := by
  rw [inferFold] at h
  split at h
  · next hmatrix => exact ⟨(Except.ok.inj h).symm, hmatrix⟩
  · cases h

/-- Every operand of a scale and shift but the first has one element per column of the first. -/
theorem inferAffine_ok {norm : NormKind} {x : Shape} {rest : List Shape} {r : Inferred}
    (h : inferAffine norm (x :: rest) = .ok r) :
    r = ⟨x, .aligned :: rest.map fun _ =>
        if x.asMatrix.1 = 1 then Access.aligned else .row x.asMatrix.1 x.asMatrix.2⟩ ∧
      ∀ s ∈ rest, s.size = x.asMatrix.2 := by
  change (if x.hasMatrix then _ else _) = _ at h
  by_cases hx : x.hasMatrix
  · rw [if_pos hx] at h
    split at h
    · cases h
    · next hnone =>
      cases h
      refine ⟨rfl, fun s hs => ?_⟩
      have hfits := List.find?_eq_none.1 hnone s hs
      simp only [ne_eq, Bool.or_eq_true, Bool.not_eq_true', decide_eq_true_eq, not_or, not_not] at hfits
      exact hfits.2
  · rw [if_neg hx] at h
    cases h

/-- Scale and shift by operands with one element per column. -/
theorem inferAffine_eq (norm : NormKind) {x : Shape} (hx : x.hasMatrix) {rest : List Shape}
    (hcount : ∀ s ∈ rest, s.isCountable) (hsize : ∀ s ∈ rest, s.size = x.asMatrix.2) :
    inferAffine norm (x :: rest) = .ok ⟨x, .aligned :: rest.map fun _ =>
      if x.asMatrix.1 = 1 then Access.aligned else .row x.asMatrix.1 x.asMatrix.2⟩ := by
  change (if x.hasMatrix then _ else _) = _
  rw [if_pos hx]
  split
  · next s hs =>
    -- no operand is refused
    have hmem : s ∈ rest := List.mem_of_find?_eq_some hs
    have hfound := List.find?_some hs
    change (!s.isCountable || decide (s.size ≠ x.asMatrix.2)) = true at hfound
    simp [hcount s hmem, hsize s hmem] at hfound
  · rfl

/-- Scale and shift of a normalization layer are read once per column. -/
theorem inferAffine_covers {norm : NormKind} {x gamma beta : Shape} {r : Inferred}
    (h : inferAffine norm [x, gamma, beta] = .ok r) :
    ∃ a, r.access = [.aligned, a, a] ∧ r.shape = x ∧ a.Covers gamma.size x.size ∧
      a.Covers beta.size x.size := by
  obtain ⟨rfl, hsize⟩ := inferAffine_ok h
  have hg : gamma.size = x.asMatrix.2 := hsize gamma (by simp)
  have hb : beta.size = x.asMatrix.2 := hsize beta (by simp)
  have hx := x.asMatrix_size
  by_cases h1 : x.asMatrix.1 = 1
  · refine ⟨.aligned, by simp [h1], rfl, ?_, ?_⟩
    · rw [h1, Nat.one_mul] at hx
      exact hg.trans hx
    · rw [h1, Nat.one_mul] at hx
      exact hb.trans hx
  · exact ⟨.row x.asMatrix.1 x.asMatrix.2, by simp [h1], rfl, ⟨hg, hx.symm⟩, ⟨hb, hx.symm⟩⟩

/-- The accesses of a regular operator on as many shapes as it takes cover their operands. -/
theorem Op.infer_covers {op : Op} (hop : op.opClass = .regular) {shapes : List Shape}
    (hlen : shapes.length = op.arity)
    (hmask : ∀ rate, op = .dropout rate → ∃ s, shapes = [s, s]) {r : Inferred}
    (h : op.infer shapes = .ok r) :
    List.Forall₂ (fun (a : Access) (s : Shape) => a.Covers s.size r.shape.size) r.access shapes := by
  cases op with
  | unary f =>
    obtain ⟨s, rfl⟩ := List.length_eq_one_iff.1 hlen
    cases h
    exact .cons rfl .nil
  | binary f =>
    obtain ⟨a, b, rfl⟩ := List.length_eq_two.1 hlen
    obtain ⟨x, y, hxy, hx, hy⟩ := broadcast_covers h
    rw [hxy]
    exact .cons hx (.cons hy .nil)
  | loss f =>
    obtain ⟨a, b, rfl⟩ := List.length_eq_two.1 hlen
    obtain ⟨x, y, hxy, hx, hy⟩ := broadcast_covers h
    rw [hxy]
    exact .cons hx (.cons hy .nil)
  | matmul => cases hop
  | fold f axis => cases hop
  | softmax => cases hop
  | reshape new =>
    obtain ⟨s, rfl⟩ := List.length_eq_one_iff.1 hlen
    obtain ⟨hx, hcov⟩ := inferReshape_covers h
    rw [hx]
    exact .cons hcov .nil
  | transpose =>
    obtain ⟨s, rfl⟩ := List.length_eq_one_iff.1 hlen
    obtain ⟨x, hx, hcov⟩ := inferTranspose_covers h
    rw [hx]
    exact .cons hcov .nil
  | dropout rate =>
    obtain ⟨s, rfl⟩ := hmask rate rfl
    cases h
    exact .cons rfl (.cons rfl .nil)
  | affine norm =>
    obtain ⟨x, gamma, beta, rfl⟩ := List.length_eq_three.1 hlen
    obtain ⟨a, ha, hs, hg, hb⟩ := inferAffine_covers h
    rw [ha, hs]
    exact .cons rfl (.cons hg (.cons hb .nil))

/-- The dimensions of a matrix product. -/
theorem Op.infer_matmul {a b shape : Shape} {access : List Access}
    (h : Op.matmul.infer [a, b] = .ok ⟨shape, access⟩) :
    shape = [a.asMatrix.1, b.asMatrix.2] ∧ a.asMatrix.2 = b.asMatrix.1 := by
  obtain ⟨hr, hinner, -⟩ := inferMatmul_ok h
  exact ⟨congrArg Inferred.shape hr, hinner⟩

/-- The dimensions of a fold. -/
theorem Op.infer_fold {f : FoldOp} {axis : Axis} {s shape : Shape} {access : List Access}
    (h : (Op.fold f axis).infer [s] = .ok ⟨shape, access⟩) : foldShape axis s = shape :=
  (congrArg Inferred.shape (inferFold_ok h).1).symm

/-- A softmax keeps the shape. -/
theorem Op.infer_softmax {s shape : Shape} {access : List Access}
    (h : Op.softmax.infer [s] = .ok ⟨shape, access⟩) : s = shape :=
  congrArg Inferred.shape (Except.ok.inj h)

/-- Inference gives one access per operand. -/
theorem Op.length_access {op : Op} {shapes : List Shape} (hlen : shapes.length = op.arity)
    {r : Inferred} (h : op.infer shapes = .ok r) : r.access.length = op.arity := by
  cases op with
  | unary f => cases h; rfl
  | binary f =>
    obtain ⟨x, y, hxy, -, -⟩ := broadcast_covers h
    simp [hxy, arity]
  | loss f =>
    obtain ⟨x, y, hxy, -, -⟩ := broadcast_covers h
    simp [hxy, arity]
  | matmul => rw [(inferMatmul_ok h).1]; rfl
  | fold f axis => rw [(inferFold_ok h).1]; rfl
  | softmax => cases h; rfl
  | reshape new => simp [(inferReshape_covers h).1, arity]
  | transpose =>
    obtain ⟨x, hx, -⟩ := inferTranspose_covers h
    simp [hx, arity]
  | dropout rate => cases h; rfl
  | affine norm =>
    obtain ⟨x, gamma, beta, rfl⟩ := List.length_eq_three.1 hlen
    obtain ⟨a, ha, -, -, -⟩ := inferAffine_covers h
    simp [ha, arity]

/-! ## Countable results -/

/-- A result whose elements can be counted. -/
theorem Op.inferCounted_eq {op : Op} {shapes : List Shape} {r : Inferred} (h : op.infer shapes = .ok r)
    (hcount : r.shape.isCountable) : op.inferCounted shapes = .ok r := by
  rw [inferCounted, h]
  exact if_pos hcount

/-- It is the result of inference. -/
theorem Op.inferCounted_ok {op : Op} {shapes : List Shape} {r : Inferred}
    (h : op.inferCounted shapes = .ok r) : op.infer shapes = .ok r ∧ r.shape.isCountable := by
  rw [inferCounted] at h
  split at h
  · cases h
  · next hinfer =>
    split at h
    · next hcount =>
      cases h
      exact ⟨hinfer, hcount⟩
    · cases h

end TensorKernels
